/-
  Locations in a source text.

  A location counts lines and columns from one and UTF-8
  bytes from zero.  A column is one character wide, and only
  a line feed starts a new line.

  A text may start at any location, its origin.  Its places
  are counted as if it were a file of its own, and the
  origin is added where a place is told.

  Key definitions include:
    * `Location`
    * `Location.start`
    * `Location.advance`
    * `Location.advanceBy`
    * `Location.label`
    * `Location.relocated`
    * `Location.Counted`

  Key theorems include:
    * `Location.advanceOver_append`
    * `Location.advanceOver_relocated`
-/

------------------------------------------------------------
-- Locations
------------------------------------------------------------

namespace LosslessCss

/- A place in a source text. -/
structure Location where
  line : Nat
  column : Nat
  offset : Nat
deriving DecidableEq

namespace Location

/- The place of the first character of a text. -/
def start : Location :=
  ⟨1, 1, 0⟩

/- The place directly after one character. -/
def advance
    (here : Location)
    (c : Char) : Location :=
  if c = '\n' then
    ⟨here.line + 1, 1, here.offset + 1⟩
  else
    ⟨here.line, here.column + 1,
      here.offset + c.utf8Size⟩

/- The place directly after a run of characters. -/
def advanceOver
    (here : Location)
    (cs : List Char) : Location :=
  cs.foldl advance here

/- The place directly after a text. -/
def advanceBy
    (here : Location)
    (text : String) : Location :=
  here.advanceOver text.toList

/- Lines and columns, as messages show them. -/
def label (here : Location) : String :=
  toString here.line ++ ":" ++ toString here.column

end Location

end LosslessCss

------------------------------------------------------------
-- Advancing Over Several Characters
------------------------------------------------------------

namespace LosslessCss

namespace Location

/- No characters leave the location where it is. -/
@[simp]
theorem advanceOver_nil
    (here : Location) :
    here.advanceOver [] = here :=
  rfl

/- One character moves the location by that character. -/
@[simp]
theorem advanceOver_cons
    (here : Location)
    (c : Char)
    (cs : List Char) :
    here.advanceOver (c :: cs) =
      (here.advance c).advanceOver cs :=
  rfl

/- Two runs in a row advance one after the other. -/
theorem advanceOver_append
    (here : Location)
    (cs ds : List Char) :
    here.advanceOver (cs ++ ds) =
      (here.advanceOver cs).advanceOver ds := by
  simp [advanceOver]

/- Two texts in a row advance one after the other. -/
theorem advanceBy_append
    (here : Location)
    (s t : String) :
    here.advanceBy (s ++ t) =
      (here.advanceBy s).advanceBy t := by
  simp [advanceBy, advanceOver_append]

end Location

end LosslessCss

------------------------------------------------------------
-- Locations From an Origin
------------------------------------------------------------

namespace LosslessCss

namespace Location

/-
  Where a place of a text is when the text starts at the
  given origin.
-/
def relocated (origin here : Location) : Location :=
  { line := origin.line + here.line - 1
    column :=
      if here.line = 1 then
        origin.column + here.column - 1
      else
        here.column
    offset := origin.offset + here.offset }

/- Lines and columns that are counted from one. -/
def Counted (here : Location) : Prop :=
  1 ≤ here.line ∧ 1 ≤ here.column

theorem relocated_start
    (origin : Location) :
    relocated origin start = origin := by
  simp [relocated, start]

/- Only places on the first line change their column. -/
example :
    relocated ⟨3, 7, 40⟩ ⟨1, 2, 1⟩ = ⟨3, 8, 41⟩ ∧
      relocated ⟨3, 7, 40⟩ ⟨2, 2, 5⟩ = ⟨4, 2, 45⟩ := by
  decide

theorem counted_start :
    Counted start :=
  ⟨by decide, by decide⟩

theorem Counted.advance
    {here : Location}
    (hCounted : Counted here)
    (c : Char) :
    Counted (here.advance c) := by
  rcases hCounted with ⟨hLine, hColumn⟩
  unfold Location.advance
  split
  · exact ⟨by simp, by simp⟩
  · exact ⟨hLine, by simp⟩

theorem Counted.advanceOver
    {here : Location}
    (hCounted : Counted here)
    (cs : List Char) :
    Counted (here.advanceOver cs) := by
  induction cs generalizing here with
  | nil => exact hCounted
  | cons c cs ih => exact ih (hCounted.advance c)

theorem Counted.relocated
    {origin here : Location}
    (hOrigin : Counted origin)
    (hHere : Counted here) :
    Counted (relocated origin here) := by
  rcases hOrigin with ⟨hFirstLine, hFirstColumn⟩
  rcases hHere with ⟨hLine, hColumn⟩
  unfold Location.relocated
  constructor
  · simp only
    omega
  · simp only
    split
    · omega
    · exact hColumn

/- An origin may itself be counted from another one. -/
theorem relocated_relocated
    (origin : Location)
    {middle here : Location}
    (hMiddle : Counted middle)
    (hHere : Counted here) :
    relocated origin (relocated middle here) =
      relocated (relocated origin middle) here := by
  rcases hMiddle with ⟨hFirstLine, hFirstColumn⟩
  rcases hHere with ⟨hLine, hColumn⟩
  -- The column counts from an origin on its line only.
  by_cases hHereFirst : here.line = 1
  · by_cases hMiddleFirst : middle.line = 1
    · simp only [relocated, hHereFirst, hMiddleFirst,
        Nat.add_sub_cancel, if_true, mk.injEq, true_and]
      omega
    · simp only [relocated, hHereFirst, hMiddleFirst,
        Nat.add_sub_cancel, if_true, if_false, mk.injEq,
        true_and]
      omega
  · have hLater : middle.line + here.line - 1 ≠ 1 := by
      omega
    simp only [relocated, hHereFirst, hLater, if_false,
      mk.injEq, true_and]
    omega

/- One character moves both places alike. -/
theorem advance_relocated
    {here : Location}
    (hCounted : Counted here)
    (origin : Location)
    (c : Char) :
    (relocated origin here).advance c =
      relocated origin (here.advance c) := by
  rcases here with ⟨line, column, offset⟩
  rcases hCounted with ⟨hLine, hColumn⟩
  simp only at hLine hColumn
  by_cases hFeed : c = '\n'
  · have hNext : line + 1 ≠ 1 := by omega
    simp only [relocated, advance, hFeed, if_true,
      if_neg hNext, mk.injEq, true_and]
    omega
  · by_cases hFirst : line = 1
    · simp only [relocated, advance, hFeed, hFirst,
        if_false, if_true, mk.injEq, true_and]
      omega
    · simp only [relocated, advance, hFeed, hFirst,
        if_false, mk.injEq, true_and]
      omega

theorem advanceOver_relocated
    {here : Location}
    (hCounted : Counted here)
    (origin : Location)
    (cs : List Char) :
    (relocated origin here).advanceOver cs =
      relocated origin (here.advanceOver cs) := by
  induction cs generalizing here with
  | nil => rfl
  | cons c cs ih =>
      rw [advanceOver_cons, advance_relocated hCounted,
        ih (hCounted.advance c), advanceOver_cons]

end Location

end LosslessCss
