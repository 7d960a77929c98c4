import LosslessCss.Lexer.Escape
import LosslessCss.Token

/-
  Addresses without quotes, as in `url( a.png )`.

  Blanks around the address are dropped.  Blanks inside it,
  quotes, opening parentheses, control characters and lone
  backslashes spoil the token, which then runs to the next
  closing parenthesis that is not escaped.

  Key definitions include:
    * `Url.Body`
    * `Url.scanRemnants`
    * `Url.scanAddress`
    * `Url.scan`
-/

------------------------------------------------------------
-- Spoiled Addresses
------------------------------------------------------------

namespace LosslessCss

namespace Url

/- An address, and whether it was spoiled. -/
structure Body where
  address : List Char
  spoiled : Bool
deriving DecidableEq

namespace Body

/- Put a character in front of the address. -/
def cons
    (c : Char)
    (body : Body) : Body :=
  { body with address := c :: body.address }

/- The kind of token that an address becomes. -/
def kind (body : Body) : TokenKind :=
  if body.spoiled then
    .badUrl (String.ofList body.address)
  else
    .url (String.ofList body.address)

end Body

/- Whether a character is a control character. -/
def isControl (c : Char) : Bool :=
  c.toNat ≤ 0x08 || c.toNat == 0x0B ||
    (0x0E ≤ c.toNat && c.toNat ≤ 0x1F) ||
    c.toNat == 0x7F

/- Whether a character spoils an address. -/
def spoils (c : Char) : Bool :=
  c == '"' || c == '\'' || c == '(' || isControl c

/- Scan up to a closing parenthesis. -/
def scanRemnants
    (input : List Char) : Lexeme Body :=
  match input with
  | [] => .cutOff ⟨[], true⟩
  | c :: cs =>
      if c = ')' then
        ⟨⟨[], true⟩, [c], cs, true⟩
      else if Escape.startsEscape (c :: cs) then
        let escape := Escape.scan cs
        (scanRemnants escape.rest).extend (c :: escape.raw)
      else
        (scanRemnants cs).extend [c]
termination_by input.length
decreasing_by
  · have hle := (Escape.scan_splits cs).length_rest_le
    simp only [List.length_cons]
    omega
  · simp only [List.length_cons]
    omega

/- The remnants split the input. -/
theorem scanRemnants_splits
    (input : List Char) :
    (scanRemnants input).Splits input := by
  fun_induction scanRemnants input with
  | case1 => rfl
  | case2 => rfl
  | case3 c cs _ _ escape ih =>
      have hsplit := Escape.scan_splits cs
      have hjoin := ih.extend (c :: escape.raw)
      rw [List.cons_append, hsplit] at hjoin
      exact hjoin
  | case4 c cs _ _ ih =>
      exact ih.extend [c]

end Url

end LosslessCss

------------------------------------------------------------
-- Addresses
------------------------------------------------------------

namespace LosslessCss

namespace Url

/- Scan what may follow the blanks after an address. -/
def scanEnd : List Char → Lexeme Body
| [] => .cutOff ⟨[], false⟩
| c :: cs =>
    if c = ')' then ⟨⟨[], false⟩, [c], cs, true⟩
    else scanRemnants (c :: cs)

/- Scan an address, with the input after the blanks. -/
def scanAddress
    (input : List Char) : Lexeme Body :=
  match input with
  | [] => .cutOff ⟨[], false⟩
  | c :: cs =>
      if c = ')' then
        ⟨⟨[], false⟩, [c], cs, true⟩
      else if Text.isBlank c then
        (scanEnd ((c :: cs).dropWhile Text.isBlank)).extend
          ((c :: cs).takeWhile Text.isBlank)
      else if spoils c then
        scanRemnants (c :: cs)
      else if Escape.startsEscape (c :: cs) then
        let escape := Escape.scan cs
        let tail := scanAddress escape.rest
        (tail.map (Body.cons escape.value)).extend
          (c :: escape.raw)
      else if c = '\\' then
        scanRemnants (c :: cs)
      else
        ((scanAddress cs).map (Body.cons c)).extend [c]
termination_by input.length
decreasing_by
  · have hle := (Escape.scan_splits cs).length_rest_le
    simp only [List.length_cons]
    omega
  · simp only [List.length_cons]
    omega

/- Scan the token, with the input after its parenthesis. -/
def scan (input : List Char) : Lexeme TokenKind :=
  let body := scanAddress (input.dropWhile Text.isBlank)
  (body.map Body.kind).extend
    (input.takeWhile Text.isBlank)

/- The end of an address splits the input. -/
theorem scanEnd_splits
    (input : List Char) :
    (scanEnd input).Splits input := by
  cases input with
  | nil => rfl
  | cons c cs =>
      simp only [scanEnd]
      split
      · rfl
      · exact scanRemnants_splits (c :: cs)

/- An address splits the input. -/
theorem scanAddress_splits
    (input : List Char) :
    (scanAddress input).Splits input := by
  fun_induction scanAddress input with
  | case1 => rfl
  | case2 => rfl
  | case3 c cs _ _ =>
      have hjoin :=
        (scanEnd_splits
          ((c :: cs).dropWhile Text.isBlank)).extend
          ((c :: cs).takeWhile Text.isBlank)
      rw [List.takeWhile_append_dropWhile] at hjoin
      exact hjoin
  | case4 c cs _ _ _ =>
      exact scanRemnants_splits (c :: cs)
  | case5 c cs _ _ _ _ escape tail ih =>
      have hsplit := Escape.scan_splits cs
      have hjoin :=
        (ih.map (Body.cons escape.value)).extend
          (c :: escape.raw)
      rw [List.cons_append, hsplit] at hjoin
      exact hjoin
  | case6 cs _ _ _ _ =>
      exact scanRemnants_splits ('\\' :: cs)
  | case7 c cs _ _ _ _ _ ih =>
      exact (ih.map (Body.cons c)).extend [c]

/- An address token splits the input. -/
theorem scan_splits
    (input : List Char) :
    (scan input).Splits input := by
  have hjoin :=
    ((scanAddress_splits
      (input.dropWhile Text.isBlank)).map
        Body.kind).extend
      (input.takeWhile Text.isBlank)
  rw [List.takeWhile_append_dropWhile] at hjoin
  exact hjoin

end Url

end LosslessCss
