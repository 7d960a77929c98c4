import LosslessCss.Lexer.Escape

/-
  Names: runs of name characters and escapes.

  Key definitions include:
    * `Name.isStart`
    * `Name.isPart`
    * `Name.startsName`
    * `Name.scan`
-/

------------------------------------------------------------
-- Name Characters
------------------------------------------------------------

namespace LosslessCss

namespace Name

/-
  Whether a character may start a name: an ASCII letter, the
  underscore, or anything outside ASCII.
-/
def isStart (c : Char) : Bool :=
  c.isAlpha || 0x80 ≤ c.toNat || c == '_'

/- Whether a character may occur in a name. -/
def isPart (c : Char) : Bool :=
  isStart c || c.isDigit || c == '-'

/-
  Whether a name starts here.  A minus sign may come first
  when a second one, a start character or an escape follows.
-/
def startsName : List Char → Bool
| [] => false
| '-' :: cs =>
    match cs with
    | [] => false
    | c :: _ =>
        isStart c || c == '-' || Escape.startsEscape cs
| '\\' :: cs => Escape.startsEscape ('\\' :: cs)
| c :: _ => isStart c

/- Whether a name goes on here. -/
def continues : List Char → Bool
| [] => false
| c :: cs => isPart c || Escape.startsEscape (c :: cs)

end Name

end LosslessCss

------------------------------------------------------------
-- Scanning
------------------------------------------------------------

namespace LosslessCss

namespace Name

/- Scan a name.  It is as long as possible. -/
def scan (input : List Char) : Lexeme (List Char) :=
  match input with
  | [] => .stop [] []
  | c :: cs =>
      if Escape.startsEscape (c :: cs) then
        let escape := Escape.scan cs
        let tail := scan escape.rest
        (tail.map (escape.value :: ·)).extend
          (c :: escape.raw)
      else if isPart c then
        ((scan cs).map (c :: ·)).extend [c]
      else
        .stop [] (c :: cs)
termination_by input.length
decreasing_by
  · have hle := (Escape.scan_splits cs).length_rest_le
    simp only [List.length_cons]
    omega
  · simp only [List.length_cons]
    omega

/- A name splits the input. -/
theorem scan_splits
    (input : List Char) :
    (scan input).Splits input := by
  fun_induction scan input with
  | case1 => rfl
  | case2 c cs _ escape tail ih =>
      have hsplit := Escape.scan_splits cs
      have hjoin :=
        (ih.map (escape.value :: ·)).extend
          (c :: escape.raw)
      rw [List.cons_append, hsplit] at hjoin
      exact hjoin
  | case3 c cs _ _ ih =>
      exact (ih.map (c :: ·)).extend [c]
  | case4 => rfl

/- Where a name goes on, it has characters. -/
theorem raw_scan_ne_nil
    {input : List Char}
    (h : continues input) :
    (scan input).raw ≠ [] := by
  cases input with
  | nil => simp [continues] at h
  | cons c cs =>
      rw [scan]
      split
      · simp [Lexeme.extend]
      · rename_i hescape
        have hpart : isPart c := by
          simpa [continues, hescape] using h
        simp [hpart, Lexeme.extend]

/- A name goes on where it starts. -/
theorem continues_of_startsName
    {input : List Char}
    (h : startsName input) :
    continues input := by
  unfold startsName at h
  split at h
  · simp at h
  · simp [continues, isPart]
  · simp [continues, h]
  · simp [continues, isPart, h]

end Name

end LosslessCss
