/-
  Lexemes: what a scanner takes from the front of a run of
  characters.

  A scanner splits its input into the characters that it
  takes and the rest, and says what the taken ones mean.  A
  lexeme that is cut off by the end of the input, such as a
  quotation without its closing quote, is not complete: more
  input could still change it.

  Key definitions include:
    * `Lexeme`
    * `Lexeme.Splits`
    * `Lexeme.extend`
    * `Lexeme.map`
-/

------------------------------------------------------------
-- Lexemes
------------------------------------------------------------

namespace LosslessCss

/- The result of scanning the front of some characters. -/
structure Lexeme (α : Type) where
  value : α
  raw : List Char
  rest : List Char
  complete : Bool

namespace Lexeme

variable {α β : Type}

/- Take nothing. -/
def stop
    (value : α)
    (rest : List Char) : Lexeme α :=
  ⟨value, [], rest, true⟩

/- Take nothing, because the input has run out too early. -/
def cutOff (value : α) : Lexeme α :=
  ⟨value, [], [], false⟩

/- Change the value. -/
def map
    (f : α → β)
    (lexeme : Lexeme α) : Lexeme β :=
  ⟨f lexeme.value, lexeme.raw, lexeme.rest,
    lexeme.complete⟩

/- Put characters that were taken earlier in front. -/
def extend
    (taken : List Char)
    (lexeme : Lexeme α) : Lexeme α :=
  { lexeme with raw := taken ++ lexeme.raw }

/- The lexeme splits the given input in two. -/
def Splits
    (input : List Char)
    (lexeme : Lexeme α) : Prop :=
  lexeme.raw ++ lexeme.rest = input

end Lexeme

end LosslessCss

------------------------------------------------------------
-- Splitting the Input
------------------------------------------------------------

namespace LosslessCss

namespace Lexeme

variable {α β : Type}

/- A new value does not move the split. -/
theorem Splits.map
    {input : List Char}
    {lexeme : Lexeme α}
    (h : lexeme.Splits input)
    (f : α → β) :
    (lexeme.map f).Splits input :=
  h

/- Characters put in front of the lexeme join the input. -/
theorem Splits.extend
    {input : List Char}
    {lexeme : Lexeme α}
    (h : lexeme.Splits input)
    (taken : List Char) :
    (lexeme.extend taken).Splits (taken ++ input) := by
  simp only [Splits, Lexeme.extend] at h ⊢
  rw [List.append_assoc, h]

/- The rest is not longer than the input. -/
theorem Splits.length_rest_le
    {input : List Char}
    {lexeme : Lexeme α}
    (h : lexeme.Splits input) :
    lexeme.rest.length ≤ input.length := by
  have hlen := congrArg List.length h
  simp only [List.length_append] at hlen
  omega

/- A lexeme with characters leaves a shorter rest. -/
theorem Splits.length_rest_lt
    {input : List Char}
    {lexeme : Lexeme α}
    (h : lexeme.Splits input)
    (hraw : lexeme.raw ≠ []) :
    lexeme.rest.length < input.length := by
  have hlen := congrArg List.length h
  have hpos := List.length_pos_iff.mpr hraw
  simp only [List.length_append] at hlen
  omega

end Lexeme

end LosslessCss
