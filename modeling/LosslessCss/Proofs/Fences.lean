import LosslessCss.Lexer.Scan
import Mathlib.Data.List.TakeWhile

/-
  Fences.

  A semicolon, a right brace or a slash ends every token in
  front of it, unless the token takes all kinds of
  characters, as a quotation does.  So a name or a numeral
  that ends before a fence stays the same when the text from
  the fence on is replaced or cut off.

  A backslash needs care.  In front of a fence it starts an
  escape, and at the end of a text it does not.  But then
  the fence belongs to the escape, and the token does not
  end before it.

  Key definitions include:
    * `Text.Fence`
    * `Lexeme.Local`
    * `Lexeme.LocalAfter`

  Key theorems include:
    * `Escape.scan_local`
    * `Name.scan_local`
    * `Numeral.scan_local`
-/

------------------------------------------------------------
-- Fences
------------------------------------------------------------

namespace LosslessCss

namespace Text

/- An empty text, or one that starts with a fence. -/
inductive Fenced : List Char → Prop where
  | nil : Fenced []
  | semicolon (cs : List Char) : Fenced (';' :: cs)
  | rightCurly (cs : List Char) : Fenced ('}' :: cs)
  | slash (cs : List Char) : Fenced ('/' :: cs)

/- A text that is to be replaced, and what replaces it. -/
structure Fence (old new : List Char) : Prop where
  ne_nil : old ≠ []
  old_fenced : Fenced old
  new_fenced : Fenced new

/- No character that satisfies `p` comes first. -/
def Stops
    (p : Char → Bool)
    (cs : List Char) : Prop :=
  ∀ c ∈ cs.head?, p c = false

/- No fence satisfies `p`. -/
def Rejects (p : Char → Bool) : Prop :=
  p ';' = false ∧ p '}' = false ∧ p '/' = false

instance (p : Char → Bool) : Decidable (Rejects p) :=
  inferInstanceAs (Decidable (_ ∧ _ ∧ _))

variable {cs tail old new kept : List Char} {p : Char → Bool}

/- What holds of the ASCII characters, one by one. -/
theorem of_ascii
    {P : Char → Prop}
    (hAll : ∀ n < 128, P (Char.ofNat n))
    {c : Char}
    (hSmall : c.toNat < 128) :
    P c := by
  have hOne := hAll c.toNat hSmall
  rwa [Char.ofNat_toNat] at hOne

/- What holds of some characters, one by one. -/
theorem of_mem
    {P : Char → Prop}
    [DecidablePred P]
    (hAll : (cs.all fun c => decide (P c)) = true)
    {c : Char}
    (hMem : c ∈ cs) :
    P c :=
  of_decide_eq_true (List.all_eq_true.mp hAll c hMem)

theorem ne_of_test
    {c d : Char}
    (hTest : p c = true)
    (hOther : p d = false) :
    c ≠ d := by
  rintro rfl
  rw [hTest] at hOther
  cases hOther

theorem toNat_le_of_isDigit
    {c : Char}
    (hDigit : c.isDigit = true) :
    c.toNat ≤ '9'.toNat := by
  simp only [Char.isDigit, Bool.and_eq_true,
    decide_eq_true_eq] at hDigit
  exact hDigit.2

theorem Fenced.stops
    (hTail : Fenced tail)
    (hFences : Rejects p) :
    Stops p tail := by
  rcases hFences with ⟨hSemicolon, hCurly, hSlash⟩
  cases hTail with
  | nil => simp [Stops]
  | semicolon => simpa [Stops] using hSemicolon
  | rightCurly => simpa [Stops] using hCurly
  | slash => simpa [Stops] using hSlash

/- What comes first is kept or is a fence. -/
theorem Fence.stops
    (hFence : Fence old new)
    (hFences : Rejects p)
    (hStops : Stops p (kept ++ old)) :
    Stops p (kept ++ new) := by
  cases kept with
  | nil => exact hFence.new_fenced.stops hFences
  | cons c kept => exact hStops

/- The mark comes first, or it does not. -/
theorem stops_or_eq_cons
    (mark : Char)
    (cs : List Char) :
    Stops (· == mark) cs ∨ ∃ rest, cs = mark :: rest := by
  cases cs with
  | nil => exact .inl (by simp [Stops])
  | cons c cs =>
      by_cases hMark : c = mark
      · exact .inr ⟨cs, by rw [hMark]⟩
      · exact .inl (by simpa [Stops] using hMark)

theorem Fence.nil_ne_append
    (hFence : Fence old new)
    (kept : List Char) :
    [] ≠ kept ++ old := by
  simp [hFence.ne_nil]

theorem stops_dropWhile
    (p : Char → Bool)
    (cs : List Char) :
    Stops p (cs.dropWhile p) := by
  intro c hMem
  have hHead := List.head?_dropWhile_not p cs
  rw [hMem] at hHead
  exact hHead

/- A spelling without fences is not found at a fence. -/
theorem Fenced.take_ne
    {mark : Char}
    (hTail : Fenced tail)
    (hMark : Rejects (· == mark))
    (n : Nat)
    (marks : List Char) :
    tail.take (n + 1) ≠ mark :: marks := by
  have hStops := hTail.stops hMark
  cases tail with
  | nil => simp
  | cons c tail =>
      have hHead : c ≠ mark := by
        simpa [Stops] using hStops
      simp [hHead]

theorem Fence.take_ne
    (hFence : Fence old new)
    (marks : List Char)
    (hMarks : ∀ mark ∈ marks, Rejects (· == mark))
    (hOld : (kept ++ old).take marks.length ≠ marks) :
    (kept ++ new).take marks.length ≠ marks := by
  induction marks generalizing kept with
  | nil => exact absurd rfl hOld
  | cons mark marks ih =>
      have hMark := hMarks mark (by simp)
      cases kept with
      | nil => exact hFence.new_fenced.take_ne hMark _ _
      | cons c kept =>
          intro hNew
          rcases List.cons.inj hNew with ⟨rfl, hTail⟩
          refine ih (fun mark hMem => ?_) (fun hSame => ?_)
            hTail
          · exact hMarks mark (by simp [hMem])
          · exact hOld (by simp [hSame])

/- A run ends where it cannot go on. -/
theorem takeWhile_append_stops
    (hStops : Stops p tail)
    (cs : List Char) :
    (cs ++ tail).takeWhile p = cs.takeWhile p := by
  induction cs with
  | nil =>
      cases tail with
      | nil => rfl
      | cons c tail => simp [hStops c rfl]
  | cons c cs ih =>
      by_cases hTest : p c = true
      · simp [hTest, ih]
      · simp [hTest]

theorem dropWhile_append_stops
    (hStops : Stops p tail)
    (cs : List Char) :
    (cs ++ tail).dropWhile p = cs.dropWhile p ++ tail := by
  induction cs with
  | nil =>
      cases tail with
      | nil => rfl
      | cons c tail => simp [hStops c rfl]
  | cons c cs ih =>
      by_cases hTest : p c = true
      · simp [hTest, ih]
      · simp [hTest]

/- A run is found again in front of what does not go on. -/
theorem takeWhile_run
    (hStops : Stops p tail)
    (cs : List Char) :
    (cs.takeWhile p ++ tail).takeWhile p =
      cs.takeWhile p := by
  rw [takeWhile_append_stops hStops, List.takeWhile_idem]

theorem dropWhile_run
    (hStops : Stops p tail)
    (cs : List Char) :
    (cs.takeWhile p ++ tail).dropWhile p = tail := by
  have hNone : (cs.takeWhile p).dropWhile p = [] :=
    List.dropWhile_eq_nil_iff.mpr fun c hMem =>
      List.mem_takeWhile_imp hMem
  rw [dropWhile_append_stops hStops, hNone, List.nil_append]

end Text

end LosslessCss

------------------------------------------------------------
-- Local Scanners
------------------------------------------------------------

namespace LosslessCss

namespace Lexeme

variable {α β : Type}

/- The lexeme with another rest. -/
def withRest
    (lexeme : Lexeme α)
    (rest : List Char) : Lexeme α :=
  { lexeme with rest := rest }

/-
  A lexeme that ends before the text `old` stays the same
  when that text is replaced by `new`.
-/
def Local
    (scan : List Char → Lexeme α)
    (old new : List Char) : Prop :=
  ∀ ⦃input kept : List Char⦄,
    (scan input).rest = kept ++ old →
      scan ((scan input).raw ++ (kept ++ new)) =
        (scan input).withRest (kept ++ new)

/-
  The same for a scanner whose first character is given, and
  where a test holds that is passed again.
-/
def LocalWhere
    (test : List Char → Prop)
    (c : Char)
    (scan : List Char → Lexeme α)
    (old new : List Char) : Prop :=
  ∀ ⦃input kept : List Char⦄,
    test input → (scan input).rest = kept ++ old →
      ∃ taken,
        (scan input).raw = c :: taken ∧
          input = taken ++ (kept ++ old) ∧
          test (taken ++ (kept ++ new)) ∧
          scan (taken ++ (kept ++ new)) =
            (scan input).withRest (kept ++ new)

def LocalAfter
    (c : Char)
    (scan : List Char → Lexeme α)
    (old new : List Char) : Prop :=
  LocalWhere (fun _ => True) c scan old new

/- What is taken and what is kept come before `old`. -/
theorem Splits.eq_append
    {lexeme : Lexeme α}
    {input kept old : List Char}
    (hSplits : lexeme.Splits input)
    (hRest : lexeme.rest = kept ++ old) :
    input = (lexeme.raw ++ kept) ++ old := by
  rw [List.append_assoc, ← hRest]
  exact hSplits.symm

theorem Splits.stops_append
    {lexeme : Lexeme α}
    {input kept old new : List Char}
    {p : Char → Bool}
    (hSplits : lexeme.Splits input)
    (hFence : Text.Fence old new)
    (hRest : lexeme.rest = kept ++ old)
    (hFences : Text.Rejects p)
    (hStops : Text.Stops p input) :
    Text.Stops p (lexeme.raw ++ (kept ++ new)) := by
  rw [hSplits.eq_append hRest] at hStops
  rw [← List.append_assoc]
  exact hFence.stops hFences hStops

/- A lexeme with characters takes the first one. -/
theorem Splits.exists_cons
    {lexeme : Lexeme α}
    {c : Char}
    {cs : List Char}
    (hSplits : lexeme.Splits (c :: cs))
    (hRaw : lexeme.raw ≠ []) :
    ∃ taken,
      lexeme.raw = c :: taken ∧
        cs = taken ++ lexeme.rest := by
  cases hTaken : lexeme.raw with
  | nil => exact absurd hTaken hRaw
  | cons d taken =>
      rw [Splits, hTaken, List.cons_append] at hSplits
      rcases List.cons.inj hSplits with ⟨rfl, hRest⟩
      exact ⟨taken, rfl, hRest.symm⟩

/- A scanner that takes its first character itself. -/
theorem Local.localWhere
    {scan : List Char → Lexeme α}
    {test : List Char → Prop}
    {c : Char}
    {old new : List Char}
    (hLocal : Local scan old new)
    (hSplits : ∀ input, (scan input).Splits input)
    (hRaw : ∀ {cs}, test cs → (scan (c :: cs)).raw ≠ [])
    (hTest :
      ∀ {cs kept taken},
        test cs → (scan (c :: cs)).raw = c :: taken →
          cs = taken ++ (kept ++ old) →
            test (taken ++ (kept ++ new))) :
    LocalWhere test c (fun cs => scan (c :: cs)) old new := by
  intro cs kept hStarts hRest
  rcases (hSplits (c :: cs)).exists_cons (hRaw hStarts) with
    ⟨taken, hTaken, hInput⟩
  have hScan := hLocal hRest
  rw [hTaken, List.cons_append] at hScan
  rw [hRest] at hInput
  exact
    ⟨taken, hTaken, hInput, hTest hStarts hTaken hInput,
      hScan⟩

/- A test decides between two scanners. -/
theorem LocalWhere.ite
    {test : List Char → Prop}
    [DecidablePred test]
    {c : Char}
    {f g : List Char → Lexeme α}
    {old new : List Char}
    (hThen : LocalWhere test c f old new)
    (hTest :
      ∀ {kept}, ¬ test (kept ++ old) → ¬ test (kept ++ new))
    (hElse : LocalAfter c g old new) :
    LocalAfter c (fun cs => if test cs then f cs else g cs)
      old new := by
  intro input kept _ hRest
  by_cases hStarts : test input
  · simp only [hStarts, if_true] at hRest ⊢
    rcases hThen hStarts hRest with
      ⟨taken, hTaken, hInput, hAgain, hScan⟩
    refine ⟨taken, hTaken, hInput, trivial, ?_⟩
    rw [if_pos hAgain, hScan]
  · simp only [hStarts, if_false] at hRest ⊢
    rcases hElse trivial hRest with
      ⟨taken, hTaken, hInput, -, hScan⟩
    refine ⟨taken, hTaken, hInput, trivial, ?_⟩
    rw [hInput, ← List.append_assoc] at hStarts
    have hAgain := hTest hStarts
    rw [List.append_assoc] at hAgain
    rw [if_neg hAgain, hScan]

end Lexeme

end LosslessCss

------------------------------------------------------------
-- Escapes
------------------------------------------------------------

namespace LosslessCss

open Text (Fence Fenced Stops Rejects)

namespace Escape

variable {cs tail old new kept : List Char} {c : Char}

theorem startsEscape_of_ne
    (hSlash : c ≠ '\\')
    (cs : List Char) :
    startsEscape (c :: cs) = false := by
  simp [startsEscape, hSlash]

/-
  Where no escape starts in front of the one text, none
  starts in front of the other.
-/
theorem startsEscape_eq_false
    (hFence : Fence old new)
    (hEscape : startsEscape (kept ++ old) = false) :
    startsEscape (kept ++ new) = false := by
  cases kept with
  | nil =>
      cases hFence.new_fenced <;> rfl
  | cons c kept =>
      by_cases hSlash : c = '\\'
      · subst hSlash
        cases kept with
        | nil =>
            cases hFence.old_fenced with
            | nil => exact absurd rfl hFence.ne_nil
            | semicolon => cases hEscape
            | rightCurly => cases hEscape
            | slash => cases hEscape
        | cons d kept => exact hEscape
      · exact startsEscape_of_ne hSlash _

/- An escape takes a character, if there is one. -/
theorem raw_scan_ne_nil
    {input : List Char}
    (hSome : input ≠ []) :
    (scan input).raw ≠ [] := by
  unfold scan
  simp only
  split
  · cases input with
    | nil => exact absurd rfl hSome
    | cons c cs => simp
  · rename_i hDigits
    intro hNone
    rw [(List.append_eq_nil_iff.mp hNone).1] at hDigits
    exact hDigits rfl

/- The escape itself tells that it is one. -/
theorem startsEscape_raw
    (hEscape : startsEscape (c :: cs) = true)
    (tail : List Char) :
    startsEscape (c :: ((scan cs).raw ++ tail)) = true := by
  by_cases hSlash : c = '\\'
  · subst hSlash
    cases cs with
    | nil => cases hEscape
    | cons d cs =>
        have hRaw :=
          raw_scan_ne_nil (List.cons_ne_nil d cs)
        rcases (scan_splits (d :: cs)).exists_cons hRaw with
          ⟨taken, hTaken, -⟩
        rw [hTaken]
        exact hEscape
  · rw [startsEscape_of_ne hSlash] at hEscape
    cases hEscape

theorem takeBlank_append_stops
    (hStops : Stops Text.isBlank tail)
    (cs : List Char) :
    takeBlank (cs ++ tail) =
      ((takeBlank cs).1, (takeBlank cs).2 ++ tail) := by
  cases cs with
  | nil =>
      cases tail with
      | nil => rfl
      | cons c tail => simp [takeBlank, hStops c rfl]
  | cons c cs =>
      by_cases hBlank : Text.isBlank c = true
      · simp [takeBlank, hBlank]
      · simp [takeBlank, hBlank]

/- An escape ends before a fence that it does not escape. -/
theorem scan_append_fenced
    (hTail : Fenced tail)
    (hSome : cs ≠ []) :
    scan (cs ++ tail) =
      (scan cs).withRest ((scan cs).rest ++ tail) := by
  have hHex : Rejects isHexDigit := by decide
  have hBlank : Rejects Text.isBlank := by decide
  have hLength :
      ((cs.takeWhile isHexDigit).take 6).length ≤
        cs.length :=
    ((List.take_prefix _ _).trans
      (List.takeWhile_prefix _)).length_le
  unfold scan
  simp only
    [Text.takeWhile_append_stops (hTail.stops hHex)]
  split
  · cases cs with
    | nil => exact absurd rfl hSome
    | cons c cs => rfl
  · rw [List.drop_append_of_le_length hLength,
      takeBlank_append_stops (hTail.stops hBlank)]
    rfl

theorem scan_local
    (hFence : Fence old new) :
    Lexeme.Local scan old new := by
  intro input kept hRest
  have hInput := (scan_splits input).eq_append hRest
  -- What is taken is not empty, and so the first character
  -- after the backslash is not the fence.
  have hRaw : (scan input).raw ≠ [] := by
    apply raw_scan_ne_nil
    rw [hInput]
    simp [hFence.ne_nil]
  have hSome : (scan input).raw ++ kept ≠ [] := by
    simp [hRaw]
  have hOld := scan_append_fenced hFence.old_fenced hSome
  have hNew := scan_append_fenced hFence.new_fenced hSome
  rw [← hInput] at hOld
  rw [List.append_assoc] at hNew
  have hKept :
      (scan ((scan input).raw ++ kept)).rest = kept := by
    have hSame := congrArg Lexeme.rest hOld
    rw [hRest] at hSame
    exact (List.append_cancel_right hSame).symm
  rw [hKept] at hOld hNew
  calc
    scan ((scan input).raw ++ (kept ++ new))
      = ((scan ((scan input).raw ++ kept)).withRest
          (kept ++ old)).withRest (kept ++ new) := hNew
    _ = (scan input).withRest (kept ++ new) := by
        rw [← hOld]

/-
  An escape with what was scanned after it.  Neither of them
  has to know the replaced text.
-/
theorem scan_raw_append
    {α : Type}
    (hFence : Fence old new)
    {lexeme : Lexeme α}
    (hSplits : lexeme.Splits (scan cs).rest)
    (hRest : lexeme.rest = kept ++ old) :
    scan ((scan cs).raw ++ (lexeme.raw ++ (kept ++ new))) =
      (scan cs).withRest (lexeme.raw ++ (kept ++ new)) := by
  have hAfter := hSplits.eq_append hRest
  simpa using scan_local hFence hAfter

/- No escape starts in front of what was scanned. -/
theorem startsEscape_raw_append
    {α : Type}
    (hFence : Fence old new)
    {lexeme : Lexeme α}
    (hSplits : lexeme.Splits cs)
    (hRest : lexeme.rest = kept ++ old)
    (hEscape : startsEscape (c :: cs) = false) :
    startsEscape (c :: (lexeme.raw ++ (kept ++ new))) =
      false := by
  rw [hSplits.eq_append hRest, ← List.cons_append]
    at hEscape
  simpa using startsEscape_eq_false hFence hEscape

end Escape

end LosslessCss

------------------------------------------------------------
-- Names
------------------------------------------------------------

namespace LosslessCss

open Text (Fence Fenced Stops Rejects)

namespace Name

variable {cs tail old new kept : List Char}

/- Where a name does not go on, nothing is taken. -/
theorem scan_of_not_continues
    {input : List Char}
    (hStops : continues input = false) :
    scan input = .stop [] input := by
  cases input with
  | nil =>
      rw [scan]
  | cons c cs =>
      have hParts :
          isPart c = false ∧
            Escape.startsEscape (c :: cs) = false := by
        simpa [continues] using hStops
      rw [scan]
      simp [hParts]

theorem continues_eq_false
    (hFence : Fence old new)
    (hStops : continues (kept ++ old) = false) :
    continues (kept ++ new) = false := by
  cases kept with
  | nil =>
      cases hFence.new_fenced <;> rfl
  | cons c kept =>
      have hParts :
          isPart c = false ∧
            Escape.startsEscape (c :: kept ++ old) =
              false := by
        simpa [continues] using hStops
      have hEscape :=
        Escape.startsEscape_eq_false hFence hParts.2
      simpa [continues] using And.intro hParts.1 hEscape

/- A name that ends before a fence stays the same. -/
theorem scan_local
    (hFence : Fence old new) :
    Lexeme.Local scan old new := by
  intro input kept hRest
  fun_induction scan input with
  | case1 =>
      exact absurd hRest (hFence.nil_ne_append kept)
  | case2 c cs hEscape escape tail ih =>
      -- The escape ends before what the rest of the name
      -- took, so it does not reach the fence either.
      have hScan :=
        Escape.scan_raw_append hFence
          (scan_splits escape.rest) hRest
      have hStarts :=
        Escape.startsEscape_raw hEscape
          (tail.raw ++ (kept ++ new))
      simp only [Lexeme.extend, Lexeme.map, List.cons_append,
        List.append_assoc]
      rw [scan, if_pos hStarts]
      simp only [escape, tail, hScan, Lexeme.withRest,
        Lexeme.extend, Lexeme.map, ih hRest,
        List.cons_append]
  | case3 c cs hEscape hPart ih =>
      have hStarts :=
        Escape.startsEscape_raw_append hFence
          (scan_splits cs) hRest (by simpa using hEscape)
      simp only [Lexeme.extend, Lexeme.map, List.cons_append,
        List.nil_append]
      rw [scan, if_neg (by simp [hStarts]), if_pos hPart,
        ih hRest]
      rfl
  | case4 c cs hEscape hPart =>
      have hKept : c :: cs = kept ++ old := hRest
      have hStops : continues (c :: cs) = false := by
        simp [continues, hPart, hEscape]
      rw [hKept] at hStops
      have hNew := continues_eq_false hFence hStops
      exact scan_of_not_continues hNew

/- The name itself tells that it is one. -/
theorem continues_raw
    {input : List Char}
    (hGoes : continues input = true)
    (tail : List Char) :
    continues ((scan input).raw ++ tail) = true := by
  cases input with
  | nil => cases hGoes
  | cons c cs =>
      rw [scan]
      split
      · rename_i hEscape
        simp [continues, Lexeme.extend,
          Escape.startsEscape_raw hEscape]
      · rename_i hEscape
        have hPart : isPart c = true := by
          simpa [continues, hEscape] using hGoes
        simp [continues, Lexeme.extend, hPart]

theorem startsEscape_raw
    {input : List Char}
    (hEscape : Escape.startsEscape input = true)
    (tail : List Char) :
    Escape.startsEscape ((scan input).raw ++ tail) =
      true := by
  cases input with
  | nil => cases hEscape
  | cons c cs =>
      rw [scan, if_pos hEscape]
      simp [Lexeme.extend, Escape.startsEscape_raw hEscape]

theorem startsName_of_ne
    {c : Char}
    (hMinus : c ≠ '-')
    (hSlash : c ≠ '\\')
    (cs : List Char) :
    startsName (c :: cs) = isStart c := by
  unfold startsName
  split
  · contradiction
  · simp_all
  · simp_all
  · simp_all

theorem startsName_raw
    {input : List Char}
    (hStarts : startsName input = true)
    (tail : List Char) :
    startsName ((scan input).raw ++ tail) = true := by
  have hRaw :=
    raw_scan_ne_nil (continues_of_startsName hStarts)
  cases input with
  | nil => cases hStarts
  | cons c cs =>
      rcases (scan_splits (c :: cs)).exists_cons hRaw with
        ⟨taken, hTaken, -⟩
      by_cases hSlash : c = '\\'
      · subst hSlash
        have hEscape := startsEscape_raw hStarts tail
        rw [hTaken] at hEscape ⊢
        exact hEscape
      by_cases hMinus : c = '-'
      · subst hMinus
        cases cs with
        | nil => cases hStarts
        | cons d cs =>
            have hTest :
                (isStart d = true ∨ d = '-') ∨
                  Escape.startsEscape (d :: cs) = true := by
              simpa [startsName] using hStarts
            have hGoes : continues (d :: cs) = true := by
              rcases hTest with (hStart | rfl) | hEscape
              · simp [continues, isPart, hStart]
              · simp [continues, isPart]
              · simp [continues, hEscape]
            have hScan :
                (scan ('-' :: d :: cs)).raw =
                  '-' :: (scan (d :: cs)).raw := by
              rw [scan]
              simp [Escape.startsEscape, isPart,
                Lexeme.extend, Lexeme.map]
            rcases (scan_splits (d :: cs)).exists_cons
              (raw_scan_ne_nil hGoes) with ⟨next, hNext, -⟩
            rw [hScan, hNext]
            rcases hTest with (hStart | rfl) | hEscape
            · simp [startsName, hStart]
            · simp [startsName]
            · have hSlash := startsEscape_raw hEscape tail
              rw [hNext, List.cons_append] at hSlash
              simp [startsName, hSlash]
      · rw [startsName_of_ne hMinus hSlash] at hStarts
        rw [hTaken, List.cons_append,
          startsName_of_ne hMinus hSlash, hStarts]

theorem startsName_eq_false
    (hFence : Fence old new)
    (hStarts : startsName (kept ++ old) = false) :
    startsName (kept ++ new) = false := by
  cases kept with
  | nil =>
      cases hFence.new_fenced <;> rfl
  | cons c kept =>
      by_cases hSlash : c = '\\'
      · subst hSlash
        have hEscape :
            Escape.startsEscape ('\\' :: kept ++ old) =
              false :=
          hStarts
        exact Escape.startsEscape_eq_false hFence hEscape
      by_cases hMinus : c = '-'
      · subst hMinus
        cases kept with
        | nil =>
            cases hFence.new_fenced <;> rfl
        | cons d kept =>
            have hParts :
                (isStart d = false ∧ (d == '-') = false) ∧
                  Escape.startsEscape (d :: kept ++ old) =
                    false := by
              simpa [startsName] using hStarts
            have hEscape :=
              Escape.startsEscape_eq_false hFence hParts.2
            simpa [startsName] using
              And.intro hParts.1 hEscape
      · rw [List.cons_append,
          startsName_of_ne hMinus hSlash] at hStarts ⊢
        exact hStarts

end Name

end LosslessCss

------------------------------------------------------------
-- Numerals
------------------------------------------------------------

namespace LosslessCss

open Text (Fence Fenced Stops Rejects)

namespace Numeral

variable {tail old new kept : List Char}

/- No part of a numeral starts with a fence. -/
theorem startsDigit_append
    (hTail : Fenced tail)
    (cs : List Char) :
    startsDigit (cs ++ tail) = startsDigit cs := by
  cases cs with
  | nil => cases hTail <;> rfl
  | cons c cs => rfl

theorem startsUnsigned_append
    (hTail : Fenced tail)
    (cs : List Char) :
    startsUnsigned (cs ++ tail) = startsUnsigned cs := by
  cases cs with
  | nil => cases hTail <;> rfl
  | cons c cs =>
      by_cases hPoint : c = '.'
      · subst hPoint
        exact startsDigit_append hTail cs
      · simp [startsUnsigned, startsDigit, hPoint]

theorem startsSigned_append
    (hTail : Fenced tail)
    (cs : List Char) :
    startsSigned (cs ++ tail) = startsSigned cs := by
  cases cs with
  | nil => cases hTail <;> rfl
  | cons c cs =>
      by_cases hPlus : c = '+'
      · subst hPlus
        exact startsUnsigned_append hTail cs
      by_cases hMinus : c = '-'
      · subst hMinus
        exact startsUnsigned_append hTail cs
      · simp [startsSigned, hPlus, hMinus]

theorem startsUnsigned_eq
    (hFence : Fence old new)
    (kept : List Char) :
    startsUnsigned (kept ++ new) =
      startsUnsigned (kept ++ old) := by
  rw [startsUnsigned_append hFence.new_fenced,
    startsUnsigned_append hFence.old_fenced]

theorem startsSigned_eq
    (hFence : Fence old new)
    (kept : List Char) :
    startsSigned (kept ++ new) =
      startsSigned (kept ++ old) := by
  rw [startsSigned_append hFence.new_fenced,
    startsSigned_append hFence.old_fenced]

theorem takeSign_append_fenced
    (hTail : Fenced tail)
    (cs : List Char) :
    takeSign (cs ++ tail) =
      ((takeSign cs).1, (takeSign cs).2 ++ tail) := by
  cases cs with
  | nil => cases hTail <;> rfl
  | cons c cs =>
      by_cases hPlus : c = '+'
      · subst hPlus
        rfl
      by_cases hMinus : c = '-'
      · subst hMinus
        rfl
      · simp [takeSign, hPlus, hMinus]

theorem takeDigits_append_fenced
    (hTail : Fenced tail)
    (cs : List Char) :
    takeDigits (cs ++ tail) =
      ((takeDigits cs).1, (takeDigits cs).2 ++ tail) := by
  have hDigit : Rejects Char.isDigit := by decide
  have hStops := hTail.stops hDigit
  simp [takeDigits, Text.takeWhile_append_stops hStops,
    Text.dropWhile_append_stops hStops]

theorem takeFraction_append_fenced
    (hTail : Fenced tail)
    (cs : List Char) :
    takeFraction (cs ++ tail) =
      ((takeFraction cs).1, (takeFraction cs).2 ++ tail) := by
  cases cs with
  | nil => cases hTail <;> rfl
  | cons c cs =>
      by_cases hPoint : c = '.'
      · subst hPoint
        simp only [List.cons_append, takeFraction,
          startsDigit_append hTail,
          takeDigits_append_fenced hTail]
        split
        · rfl
        · rfl
      · simp [takeFraction, hPoint]

theorem takeExponent_append_fenced
    (hTail : Fenced tail)
    (cs : List Char) :
    takeExponent (cs ++ tail) =
      ((takeExponent cs).1, (takeExponent cs).2 ++ tail) := by
  cases cs with
  | nil => cases hTail <;> rfl
  | cons c cs =>
      simp only [List.cons_append, takeExponent,
        takeSign_append_fenced hTail,
        startsDigit_append hTail,
        takeDigits_append_fenced hTail]
      split
      · rfl
      · rfl

theorem takeNumeral_append_fenced
    (hTail : Fenced tail)
    (cs : List Char) :
    takeNumeral (cs ++ tail) =
      ((takeNumeral cs).1, (takeNumeral cs).2 ++ tail) := by
  simp only [takeNumeral, takeSign_append_fenced hTail,
    takeDigits_append_fenced hTail,
    takeFraction_append_fenced hTail,
    takeExponent_append_fenced hTail]

/- A numeral that ends before a fence stays the same. -/
theorem takeNumeral_local
    {input : List Char}
    (hFence : Fence old new)
    (hRest : (takeNumeral input).2 = kept ++ old) :
    takeNumeral ((takeNumeral input).1 ++ (kept ++ new)) =
      ((takeNumeral input).1, kept ++ new) := by
  have hInput :
      ((takeNumeral input).1 ++ kept) ++ old = input := by
    rw [List.append_assoc, ← hRest]
    exact takeNumeral_append input
  have hOld :=
    takeNumeral_append_fenced hFence.old_fenced
      ((takeNumeral input).1 ++ kept)
  have hNew :=
    takeNumeral_append_fenced hFence.new_fenced
      ((takeNumeral input).1 ++ kept)
  rw [hInput] at hOld
  have hFirst := congrArg Prod.fst hOld
  have hSecond := congrArg Prod.snd hOld
  rw [hRest] at hSecond
  rw [← List.append_assoc, hNew, ← hFirst,
    ← List.append_cancel_right hSecond]

/- A numeral with a unit. -/
theorem scan_of_startsName
    {input : List Char}
    (hUnit : Name.startsName (takeNumeral input).2 = true) :
    scan input =
      ((Name.scan (takeNumeral input).2).map fun name =>
          TokenKind.dimension (value (takeNumeral input).1)
            (String.ofList name)).extend
        (takeNumeral input).1 := by
  simp [scan, hUnit]

theorem scan_of_percent
    {input rest : List Char}
    (hRest : (takeNumeral input).2 = '%' :: rest) :
    scan input =
      ⟨.percentage (value (takeNumeral input).1),
        (takeNumeral input).1 ++ ['%'], rest, true⟩ := by
  have hUnit : Name.startsName ('%' :: rest) = false := rfl
  simp [scan, hRest, hUnit]

theorem scan_of_stops
    {input : List Char}
    (hUnit : Name.startsName (takeNumeral input).2 = false)
    (hStops : Stops (· == '%') (takeNumeral input).2) :
    scan input =
      ⟨.number (value (takeNumeral input).1),
        (takeNumeral input).1, (takeNumeral input).2,
        true⟩ := by
  unfold scan
  simp only [hUnit, Bool.false_eq_true, if_false]
  split
  · rename_i rest hRest
    rw [hRest] at hStops
    simp [Stops] at hStops
  · rfl

theorem scan_local
    (hFence : Fence old new) :
    Lexeme.Local scan old new := by
  intro input kept hRest
  cases hUnit : Name.startsName (takeNumeral input).2 with
  | true =>
      rw [scan_of_startsName hUnit] at hRest ⊢
      let unit := Name.scan (takeNumeral input).2
      have hAfter : (takeNumeral input).2 =
          (unit.raw ++ kept) ++ old :=
        (Name.scan_splits _).eq_append hRest
      have hNumeral := takeNumeral_local hFence hAfter
      have hStarts :=
        Name.startsName_raw hUnit (kept ++ new)
      have hName : Name.scan (unit.raw ++ (kept ++ new)) =
          unit.withRest (kept ++ new) :=
        Name.scan_local hFence hRest
      simp only [Lexeme.extend, Lexeme.map,
        List.append_assoc] at hNumeral ⊢
      rw [scan_of_startsName (by rw [hNumeral]; exact hStarts),
        hNumeral, hName]
      rfl
  | false =>
      rcases Text.stops_or_eq_cons '%'
        (takeNumeral input).2 with hStops | ⟨rest, hPercent⟩
      · rw [scan_of_stops hUnit hStops] at hRest ⊢
        have hAfter : (takeNumeral input).2 = kept ++ old :=
          hRest
        have hNumeral := takeNumeral_local hFence hAfter
        rw [hAfter] at hUnit hStops
        have hStarts := Name.startsName_eq_false hFence hUnit
        have hEnds := hFence.stops (by decide) hStops
        rw [scan_of_stops (by rw [hNumeral]; exact hStarts)
          (by rw [hNumeral]; exact hEnds), hNumeral]
        rfl
      · rw [scan_of_percent hPercent] at hRest ⊢
        have hAfter :
            (takeNumeral input).2 = ('%' :: kept) ++ old := by
          rw [hPercent, List.cons_append, ← hRest]
        have hNumeral := takeNumeral_local hFence hAfter
        have hNew := congrArg Prod.snd hNumeral
        simp only [List.append_assoc, List.cons_append,
          List.nil_append] at hNumeral hNew ⊢
        rw [scan_of_percent hNew, hNumeral]
        rfl

end Numeral

end LosslessCss
