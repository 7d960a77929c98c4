import LosslessCss.Lexer.Lexeme
import LosslessCss.Text.Blank

/-
  Escapes.

  A backslash escapes the character after it, unless that is
  a line feed.  One to six hexadecimal digits give a code
  point, and one blank after them belongs to the escape.
  Any other character stands for itself.

  Key definitions include:
    * `Escape.startsEscape`
    * `Escape.codePoint`
    * `Escape.scan`
-/

------------------------------------------------------------
-- Code Points
------------------------------------------------------------

namespace LosslessCss

namespace Escape

/- Whether an escape starts here. -/
def startsEscape : List Char → Bool
| '\\' :: c :: _ => c != '\n'
| _ => false

/- Whether a character is a hexadecimal digit. -/
def isHexDigit (c : Char) : Bool :=
  c.isDigit || ('a' ≤ c && c ≤ 'f') ||
    ('A' ≤ c && c ≤ 'F')

/- The value of a hexadecimal digit. -/
def hexValue (c : Char) : Nat :=
  if c.isDigit then c.toNat - '0'.toNat
  else c.toLower.toNat - 'a'.toNat + 10

/- The value of a run of hexadecimal digits. -/
def ofHexDigits (cs : List Char) : Nat :=
  cs.foldl (fun n c => 16 * n + hexValue c) 0

/- What stands for a code point that may not occur. -/
def replacement : Char :=
  '\uFFFD'

/-
  The character of a code point.  Zero, the surrogates and
  everything past the last code point are replaced.
-/
def codePoint (n : Nat) : Char :=
  if n ≠ 0 ∧ n.isValidChar then Char.ofNat n
  else replacement

end Escape

end LosslessCss

------------------------------------------------------------
-- Scanning
------------------------------------------------------------

namespace LosslessCss

namespace Escape

/- Split off one leading blank, if there is one. -/
def takeBlank : List Char → List Char × List Char
| [] => ([], [])
| c :: cs =>
    if Text.isBlank c then ([c], cs) else ([], c :: cs)

/- Scan an escape, with the input after its backslash. -/
def scan (input : List Char) : Lexeme Char :=
  let digits := (input.takeWhile isHexDigit).take 6
  if digits.isEmpty then
    match input with
    | [] => .stop replacement []
    | c :: cs => ⟨c, [c], cs, true⟩
  else
    let blank := takeBlank (input.drop digits.length)
    ⟨codePoint (ofHexDigits digits), digits ++ blank.1,
      blank.2, true⟩

/- Splitting a blank off loses nothing. -/
theorem takeBlank_append
    (cs : List Char) :
    (takeBlank cs).1 ++ (takeBlank cs).2 = cs := by
  cases cs with
  | nil => rfl
  | cons c cs =>
      simp only [takeBlank]
      split
      · rfl
      · rfl

/- The leading hexadecimal digits are a part of the input. -/
theorem hexDigits_append
    (input : List Char) :
    (input.takeWhile isHexDigit).take 6 ++
        input.drop
          ((input.takeWhile isHexDigit).take 6).length =
      input := by
  have hfront :
      (input.takeWhile isHexDigit).take 6 <+: input :=
    (List.take_prefix _ _).trans
      (List.takeWhile_prefix _)
  obtain ⟨tail, htail⟩ := hfront
  generalize (input.takeWhile isHexDigit).take 6 = front
    at htail ⊢
  subst htail
  simp

/- An escape splits the input. -/
theorem scan_splits
    (input : List Char) :
    (scan input).Splits input := by
  unfold scan
  simp only
  split
  · cases input with
    | nil => rfl
    | cons c cs => rfl
  · simp only [Lexeme.Splits]
    rw [List.append_assoc, takeBlank_append]
    exact hexDigits_append input

end Escape

end LosslessCss
