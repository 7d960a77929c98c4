import LosslessCss.Lexer.Escape
import LosslessCss.Token

/-
  Quotations: texts in single or double quotes.

  A quotation ends with its opening quote, or with the
  input.  A line feed that is not escaped spoils it and is
  left in the input.  An escaped line feed stands for
  nothing.

  Key definitions include:
    * `Quotation.isQuote`
    * `Quotation.Body`
    * `Quotation.scanBody`
    * `Quotation.scan`
-/

------------------------------------------------------------
-- Scanning
------------------------------------------------------------

namespace LosslessCss

namespace Quotation

/- Whether a character opens a quotation. -/
def isQuote (c : Char) : Bool :=
  c == '"' || c == '\''

/- The text of a quotation, and whether it was spoiled. -/
structure Body where
  text : List Char
  spoiled : Bool
deriving DecidableEq

namespace Body

/- Put a character in front of the text. -/
def cons
    (c : Char)
    (body : Body) : Body :=
  { body with text := c :: body.text }

/- The kind of token that a quotation becomes. -/
def kind (body : Body) : TokenKind :=
  if body.spoiled then
    .badQuotation (String.ofList body.text)
  else
    .quotation (String.ofList body.text)

end Body

/- Whether an escaped line feed stands here. -/
def startsFold : List Char → Bool
| '\\' :: '\n' :: _ => true
| _ => false

/- Scan a quotation, with the input after its quote. -/
def scanBody
    (quote : Char)
    (input : List Char) : Lexeme Body :=
  match input with
  | [] => .cutOff ⟨[], false⟩
  | c :: cs =>
      if c = quote then
        ⟨⟨[], false⟩, [c], cs, true⟩
      else if c = '\n' then
        .stop ⟨[], true⟩ (c :: cs)
      else if startsFold (c :: cs) then
        (scanBody quote (cs.drop 1)).extend
          (c :: cs.take 1)
      else if Escape.startsEscape (c :: cs) then
        let escape := Escape.scan cs
        let tail := scanBody quote escape.rest
        (tail.map (Body.cons escape.value)).extend
          (c :: escape.raw)
      else
        ((scanBody quote cs).map (Body.cons c)).extend [c]
termination_by input.length
decreasing_by
  · simp only [List.length_cons, List.length_drop]
    omega
  · have hle := (Escape.scan_splits cs).length_rest_le
    simp only [List.length_cons]
    omega
  · simp only [List.length_cons]
    omega

/- Scan a quotation that opens with the given quote. -/
def scan
    (quote : Char)
    (input : List Char) : Lexeme TokenKind :=
  ((scanBody quote input).map Body.kind).extend [quote]

/- The body of a quotation splits the input. -/
theorem scanBody_splits
    (quote : Char)
    (input : List Char) :
    (scanBody quote input).Splits input := by
  fun_induction scanBody quote input with
  | case1 => rfl
  | case2 => rfl
  | case3 => rfl
  | case4 c cs _ _ _ ih =>
      have hjoin := ih.extend (c :: cs.take 1)
      rw [List.cons_append, List.take_append_drop] at hjoin
      exact hjoin
  | case5 c cs _ _ _ _ escape tail ih =>
      have hsplit := Escape.scan_splits cs
      have hjoin :=
        (ih.map (Body.cons escape.value)).extend
          (c :: escape.raw)
      rw [List.cons_append, hsplit] at hjoin
      exact hjoin
  | case6 c cs _ _ _ _ ih =>
      exact (ih.map (Body.cons c)).extend [c]

/- A quotation splits the input. -/
theorem scan_splits
    (quote : Char)
    (input : List Char) :
    (scan quote input).Splits (quote :: input) :=
  ((scanBody_splits quote input).map Body.kind).extend
    [quote]

end Quotation

end LosslessCss
