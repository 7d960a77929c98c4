import LosslessCss.Proofs.Fences
import Mathlib.Computability.RegularExpressions

/-
  The pattern of numbers.

  A number is an optional sign, digits with an optional
  fraction or a fraction alone, and an optional exponent.
  The scanner of numerals takes its parts one by one, each
  as long as possible, and together they are the longest
  match of the pattern.  Every match can be read.

  Key definitions include:
    * `NumberPattern.numeral`
    * `NumberPattern.Longest`

  Key theorems include:
    * `NumberPattern.mem_numeral_iff`
    * `NumberPattern.longest_takeNumeral`
    * `NumberPattern.Longest.takeNumeral_eq`
    * `NumberPattern.exists_ofNumeral?`
-/

------------------------------------------------------------
-- The Pattern
------------------------------------------------------------

namespace LosslessCss

namespace NumberPattern

open RegularExpression (char)

/- One of some characters. -/
def anyOf (cs : List Char) : RegularExpression Char :=
  cs.foldr (fun c e => char c + e) 0

/- The ASCII digits. -/
def digitMarks : List Char :=
  ['0', '1', '2', '3', '4', '5', '6', '7', '8', '9']

/- One or more ASCII digits. -/
def digits : RegularExpression Char :=
  anyOf digitMarks * (anyOf digitMarks).star

/- An expression that may be missing. -/
def optional
    (e : RegularExpression Char) : RegularExpression Char :=
  1 + e

def sign : RegularExpression Char :=
  optional (anyOf ['+', '-'])

def fraction : RegularExpression Char :=
  char '.' * digits

def exponent : RegularExpression Char :=
  optional (anyOf ['e', 'E'] * sign * digits)

/- `[+-]?(digits(.digits)?|.digits)([eE][+-]?digits)?` -/
def numeral : RegularExpression Char :=
  sign * (digits * optional fraction + fraction) * exponent

/- The longest match at the front of a text. -/
structure Longest (n input : List Char) : Prop where
  front : n <+: input
  mem : n ∈ numeral.matches'
  longest :
    ∀ m, m <+: input → m ∈ numeral.matches' →
      m.length ≤ n.length

end NumberPattern

end LosslessCss

------------------------------------------------------------
-- Matches
------------------------------------------------------------

namespace LosslessCss

namespace NumberPattern

/- One or more digits, character by character. -/
structure Digits (ds : List Char) : Prop where
  ne_nil : ds ≠ []
  all : ∀ c ∈ ds, c.isDigit = true

/- A sign, or nothing. -/
inductive Sign : List Char → Prop where
  | none : Sign []
  | plus : Sign ['+']
  | minus : Sign ['-']

/- A point with digits after it, or nothing. -/
inductive Fraction : List Char → Prop where
  | none : Fraction []
  | point {ds : List Char} (hDigits : Digits ds) :
      Fraction ('.' :: ds)

/- An exponent, or nothing. -/
inductive Exponent : List Char → Prop where
  | none : Exponent []
  | mark {c : Char} {s ds : List Char}
      (hMark : Numeral.isExponentMark c = true)
      (hSign : Sign s)
      (hDigits : Digits ds) :
      Exponent (c :: (s ++ ds))

/- The parts of a number. -/
inductive Match : List Char → Prop where
  | intro {s w f e : List Char}
      (hSign : Sign s)
      (hWhole : ∀ c ∈ w, c.isDigit = true)
      (hFraction : Fraction f)
      (hSome : w ≠ [] ∨ f ≠ [])
      (hExponent : Exponent e) :
      Match (s ++ (w ++ (f ++ e)))

theorem mem_char_iff
    {c : Char}
    {cs : List Char} :
    cs ∈ (RegularExpression.char c).matches' ↔ cs = [c] :=
  Iff.rfl

theorem mem_add_iff
    {e f : RegularExpression Char}
    {cs : List Char} :
    cs ∈ (e + f).matches' ↔
      cs ∈ e.matches' ∨ cs ∈ f.matches' :=
  Iff.rfl

theorem mem_mul_iff
    {e f : RegularExpression Char}
    {cs : List Char} :
    cs ∈ (e * f).matches' ↔
      ∃ front ∈ e.matches', ∃ back ∈ f.matches',
        front ++ back = cs :=
  Iff.rfl

theorem mem_optional_iff
    {e : RegularExpression Char}
    {cs : List Char} :
    cs ∈ (optional e).matches' ↔
      cs = [] ∨ cs ∈ e.matches' :=
  Iff.rfl

theorem mem_anyOf_iff
    {marks cs : List Char} :
    cs ∈ (anyOf marks).matches' ↔ ∃ c ∈ marks, cs = [c] := by
  induction marks with
  | nil => simp [anyOf]
  | cons c marks ih =>
      have hMore :
          anyOf (c :: marks) =
            RegularExpression.char c + anyOf marks :=
        rfl
      rw [hMore, mem_add_iff, mem_char_iff, ih]
      simp

theorem mem_digitMarks_iff
    {c : Char} :
    c ∈ digitMarks ↔ c.isDigit = true := by
  constructor
  · exact
      Text.of_mem (P := fun c => c.isDigit = true) (by decide)
  · intro hTest
    have hBound := Text.toNat_le_of_isDigit hTest
    revert hTest
    exact
      Text.of_ascii
        (P := fun c => c.isDigit = true → c ∈ digitMarks)
        (by decide)
        (Nat.lt_of_le_of_lt hBound (by decide))

theorem mem_digits_iff
    {cs : List Char} :
    cs ∈ digits.matches' ↔ Digits cs := by
  simp only [digits, mem_mul_iff,
    RegularExpression.matches'_star, Language.mem_kstar,
    mem_anyOf_iff, mem_digitMarks_iff]
  constructor
  · intro h
    rcases h with
      ⟨_, ⟨c, hFirst, rfl⟩, _, ⟨ds, rfl, hAll⟩, rfl⟩
    refine ⟨by simp, ?_⟩
    intro d hMem
    rcases List.mem_cons.mp hMem with rfl | hOther
    · exact hFirst
    · rcases List.mem_flatten.mp hOther with ⟨l, hList, hIn⟩
      rcases hAll l hList with ⟨d, hOne, rfl⟩
      rw [List.mem_singleton.mp hIn]
      exact hOne
  · intro h
    rcases h with ⟨hSome, hAll⟩
    cases cs with
    | nil => exact absurd rfl hSome
    | cons c cs =>
        refine
          ⟨[c], ⟨c, hAll c (by simp), rfl⟩, cs,
            ⟨cs.map fun d => [d], ?_, ?_⟩, rfl⟩
        · rw [← List.flatMap_def]
          simp
        · intro l hList
          rcases List.mem_map.mp hList with ⟨d, hMem, rfl⟩
          exact ⟨d, hAll d (by simp [hMem]), rfl⟩

theorem mem_sign_iff
    {cs : List Char} :
    cs ∈ sign.matches' ↔ Sign cs := by
  rw [sign, mem_optional_iff, mem_anyOf_iff]
  constructor
  · intro h
    rcases h with rfl | ⟨c, hMem, rfl⟩
    · exact .none
    · have hCase : c = '+' ∨ c = '-' := by simpa using hMem
      rcases hCase with rfl | rfl
      · exact .plus
      · exact .minus
  · intro h
    cases h <;> simp

theorem mem_fraction_iff
    {cs : List Char} :
    cs ∈ fraction.matches' ↔
      ∃ ds, Digits ds ∧ cs = '.' :: ds := by
  simp only [fraction, mem_mul_iff, mem_char_iff,
    mem_digits_iff]
  constructor
  · intro h
    rcases h with ⟨_, rfl, ds, hDigits, rfl⟩
    exact ⟨ds, hDigits, rfl⟩
  · intro h
    rcases h with ⟨ds, hDigits, rfl⟩
    exact ⟨_, rfl, ds, hDigits, rfl⟩

theorem mem_exponent_iff
    {cs : List Char} :
    cs ∈ exponent.matches' ↔ Exponent cs := by
  simp only [exponent, mem_optional_iff, mem_mul_iff,
    mem_anyOf_iff, mem_sign_iff, mem_digits_iff]
  constructor
  · intro h
    rcases h with rfl |
      ⟨_, ⟨_, ⟨c, hMem, rfl⟩, s, hSign, rfl⟩, ds, hDigits,
        rfl⟩
    · exact .none
    · have hMark : Numeral.isExponentMark c = true := by
        simpa [Numeral.isExponentMark] using hMem
      exact .mark hMark hSign hDigits
  · intro h
    cases h with
    | none => exact .inl rfl
    | @mark c s ds hMark hSign hDigits =>
        have hMem : c ∈ ['e', 'E'] := by
          simpa [Numeral.isExponentMark] using hMark
        exact
          .inr
            ⟨c :: s, ⟨[c], ⟨c, hMem, rfl⟩, s, hSign, rfl⟩,
              ds, hDigits, rfl⟩

/- The matches of the pattern have the parts of a number. -/
theorem mem_numeral_iff
    {n : List Char} :
    n ∈ numeral.matches' ↔ Match n := by
  simp only [numeral, mem_mul_iff, mem_add_iff,
    mem_optional_iff, mem_sign_iff, mem_digits_iff,
    mem_fraction_iff, mem_exponent_iff]
  constructor
  · intro h
    rcases h with
      ⟨_, ⟨s, hSign, _,
        ⟨w, hWhole, _, rfl | ⟨ds, hDigits, rfl⟩, rfl⟩ |
          ⟨ds, hDigits, rfl⟩, rfl⟩, e, hExponent, rfl⟩
    · have hMatch :=
        Match.intro hSign hWhole.all .none
          (.inl hWhole.ne_nil) hExponent
      simpa using hMatch
    · have hMatch :=
        Match.intro hSign hWhole.all (.point hDigits)
          (.inl hWhole.ne_nil) hExponent
      simpa using hMatch
    · have hMatch :=
        Match.intro (w := []) hSign (by simp)
          (.point hDigits) (.inr (by simp)) hExponent
      simpa using hMatch
  · intro h
    cases h with
    | @intro s w f e hSign hWhole hFraction hSome hExponent =>
        refine
          ⟨s ++ (w ++ f), ⟨s, hSign, w ++ f, ?_, rfl⟩, e,
            hExponent, by simp⟩
        cases hFraction with
        | none =>
            have hDigits : Digits w :=
              ⟨by simpa using hSome, hWhole⟩
            exact .inl ⟨w, hDigits, [], .inl rfl, rfl⟩
        | @point ds hDigits =>
            by_cases hNone : w = []
            · exact .inr ⟨ds, hDigits, by rw [hNone]; rfl⟩
            · exact
                .inl ⟨w, ⟨hNone, hWhole⟩, '.' :: ds,
                  .inr ⟨ds, hDigits, rfl⟩, rfl⟩

end NumberPattern

end LosslessCss

------------------------------------------------------------
-- The Longest Match
------------------------------------------------------------

namespace LosslessCss

open Text (Stops)

namespace NumberPattern

open Numeral

variable {s w f e ds tail : List Char}

/- Whether a numeral starts, with a sign or without one. -/
def starts (input : List Char) : Bool :=
  startsUnsigned (takeSign input).2

theorem starts_eq
    (input : List Char) :
    starts input =
      (startsSigned input || startsUnsigned input) := by
  unfold starts takeSign
  split
  · simp [startsSigned, startsUnsigned, startsDigit]
  · simp [startsSigned, startsUnsigned, startsDigit]
  · rename_i hPlus hMinus
    have hSigned : startsSigned input = false := by
      unfold startsSigned
      split
      · exact absurd rfl (hPlus _)
      · exact absurd rfl (hMinus _)
      · rfl
    simp [hSigned]

theorem sign_takeSign
    (input : List Char) :
    Sign (takeSign input).1 := by
  unfold takeSign
  split
  · exact .plus
  · exact .minus
  · exact .none

theorem startsDigit_iff
    {input : List Char} :
    startsDigit input = true ↔
      (takeDigits input).1 ≠ [] := by
  cases input with
  | nil => simp [startsDigit, takeDigits]
  | cons c cs =>
      by_cases hDigit : c.isDigit = true
      · simp [startsDigit, takeDigits, hDigit]
      · simp [startsDigit, takeDigits, hDigit]

theorem all_takeDigits
    (input : List Char) :
    ∀ c ∈ (takeDigits input).1, c.isDigit = true :=
  fun _ hMem => List.mem_takeWhile_imp hMem

theorem fraction_takeFraction
    (input : List Char) :
    Fraction (takeFraction input).1 := by
  unfold takeFraction
  split
  · split
    · rename_i cs hStarts
      exact
        .point ⟨startsDigit_iff.mp hStarts, all_takeDigits cs⟩
    · exact .none
  · exact .none

theorem exponent_takeExponent
    (input : List Char) :
    Exponent (takeExponent input).1 := by
  unfold takeExponent
  split
  · exact .none
  · rename_i c cs
    simp only
    split
    · rename_i hStarts
      rcases Bool.and_eq_true_iff.mp hStarts with
        ⟨hMark, hDigits⟩
      exact
        .mark hMark (sign_takeSign cs)
          ⟨startsDigit_iff.mp hDigits, all_takeDigits _⟩
    · exact .none

/- The parts that are taken are those of a number. -/
theorem match_takeNumeral
    {input : List Char}
    (hStarts : starts input = true) :
    Match (takeNumeral input).1 := by
  have hParts :
      (takeDigits (takeSign input).2).1 ≠ [] ∨
        (takeFraction (takeDigits (takeSign input).2).2).1 ≠
          [] := by
    unfold starts startsUnsigned at hStarts
    split at hStarts
    · rename_i cs hPoint
      rw [hPoint]
      exact .inr (by simp [takeDigits, takeFraction, hStarts])
    · exact .inl (startsDigit_iff.mp hStarts)
  have hMatch :=
    Match.intro (sign_takeSign input) (all_takeDigits _)
      (fraction_takeFraction _) hParts
      (exponent_takeExponent
        (takeFraction (takeDigits (takeSign input).2).2).2)
  simpa [takeNumeral] using hMatch

theorem Sign.takeSign_append
    (hSign : Sign s)
    (hStops : Stops (fun c => c == '+' || c == '-') tail) :
    takeSign (s ++ tail) = (s, tail) := by
  cases hSign with
  | none =>
      cases tail with
      | nil => rfl
      | cons c tail =>
          have hOther : c ≠ '+' ∧ c ≠ '-' := by
            simpa [Stops] using hStops
          simp [takeSign, hOther]
  | plus => rfl
  | minus => rfl

theorem takeDigits_append_of_all
    (hAll : ∀ c ∈ ds, c.isDigit = true)
    (tail : List Char) :
    takeDigits (ds ++ tail) =
      (ds ++ (takeDigits tail).1, (takeDigits tail).2) := by
  simp only [takeDigits,
    List.takeWhile_append_of_pos hAll,
    List.dropWhile_append_of_pos hAll]

theorem takeDigits_of_stops
    (hStops : Stops Char.isDigit tail) :
    takeDigits tail = ([], tail) := by
  cases tail with
  | nil => rfl
  | cons c tail => simp [takeDigits, hStops c rfl]

theorem Digits.exists_cons
    (hDigits : Digits ds) :
    ∃ c cs, ds = c :: cs ∧ c.isDigit = true := by
  cases ds with
  | nil => exact absurd rfl hDigits.ne_nil
  | cons c cs => exact ⟨c, cs, rfl, hDigits.all c (by simp)⟩

theorem Digits.stops_sign
    (hDigits : Digits ds)
    (tail : List Char) :
    Stops (fun c => c == '+' || c == '-') (ds ++ tail) := by
  rcases hDigits.exists_cons with ⟨d, cs, rfl, hDigit⟩
  have hPlus := Text.ne_of_test hDigit (d := '+') rfl
  have hMinus := Text.ne_of_test hDigit (d := '-') rfl
  simp [Stops, hPlus, hMinus]

theorem Digits.startsDigit_append
    (hDigits : Digits ds)
    (tail : List Char) :
    startsDigit (ds ++ tail) = true := by
  rcases hDigits.exists_cons with ⟨d, cs, rfl, hDigit⟩
  exact hDigit

theorem Exponent.prefix_takeExponent
    (hExponent : Exponent e)
    (tail : List Char) :
    e <+: (takeExponent (e ++ tail)).1 := by
  cases hExponent with
  | none => exact List.nil_prefix
  | @mark c s ds hMark hSign hDigits =>
      have hStops := hDigits.stops_sign tail
      have hStarts := hDigits.startsDigit_append tail
      have hTake :
          (takeExponent (c :: (s ++ ds) ++ tail)).1 =
            c :: (s ++ (ds ++ (takeDigits tail).1)) := by
        simp only [List.cons_append, List.append_assoc,
          takeExponent, hSign.takeSign_append hStops, hMark,
          hStarts, Bool.and_self, if_true,
          takeDigits_append_of_all hDigits.all]
      rw [hTake]
      exact ⟨(takeDigits tail).1, by simp⟩

/- A fraction and an exponent, as they are taken. -/
def takeScale (input : List Char) : List Char :=
  (takeFraction input).1 ++
    (takeExponent (takeFraction input).2).1

theorem takeFraction_of_stops
    (hStops : Stops (· == '.') tail) :
    takeFraction tail = ([], tail) := by
  cases tail with
  | nil => rfl
  | cons c tail =>
      have hPoint : c ≠ '.' := by simpa [Stops] using hStops
      simp [takeFraction, hPoint]

theorem Exponent.nil_or_stops
    {p : Char → Bool}
    (hExponent : Exponent e)
    (hMarks : p 'e' = false ∧ p 'E' = false)
    (tail : List Char) :
    e = [] ∨ Stops p (e ++ tail) := by
  cases hExponent with
  | none => exact .inl rfl
  | @mark c s ds hMark hSign hDigits =>
      have hCase : c = 'e' ∨ c = 'E' := by
        simpa [isExponentMark] using hMark
      rcases hCase with rfl | rfl
      · exact .inr (by simp [Stops, hMarks])
      · exact .inr (by simp [Stops, hMarks])

theorem Fraction.prefix_takeScale
    (hFraction : Fraction f)
    (hExponent : Exponent e)
    (tail : List Char) :
    f ++ e <+: takeScale (f ++ (e ++ tail)) := by
  cases hFraction with
  | none =>
      rcases hExponent.nil_or_stops (p := (· == '.'))
        (by decide) tail with rfl | hStops
      · exact List.nil_prefix
      · simp only [List.nil_append, takeScale,
          takeFraction_of_stops hStops]
        exact hExponent.prefix_takeExponent tail
  | @point ds hDigits =>
      have hStarts := hDigits.startsDigit_append (e ++ tail)
      have hTake :
          takeFraction ('.' :: ds ++ (e ++ tail)) =
            ('.' :: (ds ++ (takeDigits (e ++ tail)).1),
              (takeDigits (e ++ tail)).2) := by
        simp only [List.cons_append, takeFraction, hStarts,
          if_true, takeDigits_append_of_all hDigits.all]
      rw [takeScale, hTake]
      rcases hExponent.nil_or_stops (p := Char.isDigit)
        (by decide) tail with rfl | hStops
      · simp
      · rw [takeDigits_of_stops hStops, List.append_nil]
        exact
          (List.prefix_append_right_inj _).mpr
            (hExponent.prefix_takeExponent tail)

theorem Fraction.nil_or_stops
    (hFraction : Fraction f)
    (hExponent : Exponent e)
    (tail : List Char) :
    f ++ e = [] ∨ Stops Char.isDigit (f ++ (e ++ tail)) := by
  cases hFraction with
  | none => exact hExponent.nil_or_stops (by decide) tail
  | point hDigits => exact .inr (by simp [Stops])

/- Digits or a fraction start with no sign. -/
theorem startsUnsigned_append
    (hWhole : ∀ c ∈ w, c.isDigit = true)
    (hFraction : Fraction f)
    (hSome : w ≠ [] ∨ f ≠ [])
    (tail : List Char) :
    startsUnsigned (w ++ (f ++ tail)) = true ∧
      Stops (fun c => c == '+' || c == '-')
        (w ++ (f ++ tail)) := by
  cases w with
  | cons c w =>
      have hDigit : c.isDigit = true := hWhole c (by simp)
      have hPoint := Text.ne_of_test hDigit (d := '.') rfl
      have hPlus := Text.ne_of_test hDigit (d := '+') rfl
      have hMinus := Text.ne_of_test hDigit (d := '-') rfl
      simp [startsUnsigned, startsDigit, Stops, hDigit,
        hPoint, hPlus, hMinus]
  | nil =>
      cases hFraction with
      | none => simp at hSome
      | point hDigits =>
          rcases hDigits.exists_cons with ⟨d, cs, rfl, hDigit⟩
          simp [startsUnsigned, startsDigit, Stops, hDigit]

/- Where a number is found, at least that much is taken. -/
theorem Match.prefix_takeNumeral
    {n : List Char}
    (hMatch : Match n)
    (tail : List Char) :
    starts (n ++ tail) = true ∧
      n <+: (takeNumeral (n ++ tail)).1 := by
  cases hMatch with
  | @intro s w f e hSign hWhole hFraction hSome hExponent =>
      let rest := w ++ (f ++ (e ++ tail))
      have hInput :
          s ++ (w ++ (f ++ e)) ++ tail = s ++ rest := by
        simp [rest]
      have hFirst :=
        startsUnsigned_append hWhole hFraction hSome
          (e ++ tail)
      have hSigned := hSign.takeSign_append hFirst.2
      have hTake :
          (takeNumeral (s ++ rest)).1 =
            s ++ ((takeDigits rest).1 ++
              takeScale (takeDigits rest).2) := by
        simp [takeNumeral, rest, hSigned, takeScale]
      rw [hInput, hTake, starts, hSigned]
      refine
        ⟨hFirst.1, (List.prefix_append_right_inj _).mpr ?_⟩
      simp only [rest, takeDigits_append_of_all hWhole]
      rcases hFraction.nil_or_stops hExponent tail with
        hNone | hStops
      · rw [hNone, List.append_nil, List.append_assoc]
        exact List.prefix_append _ _
      · rw [takeDigits_of_stops hStops, List.append_nil]
        exact
          (List.prefix_append_right_inj _).mpr
            (hFraction.prefix_takeScale hExponent tail)

/- A numeral starts exactly where the pattern matches. -/
theorem starts_iff
    {input : List Char} :
    starts input = true ↔
      ∃ n, n <+: input ∧ n ∈ numeral.matches' := by
  constructor
  · intro hStarts
    exact
      ⟨(takeNumeral input).1,
        ⟨(takeNumeral input).2, takeNumeral_append input⟩,
        mem_numeral_iff.mpr (match_takeNumeral hStarts)⟩
  · intro hFound
    rcases hFound with ⟨n, ⟨tail, rfl⟩, hMem⟩
    exact
      ((mem_numeral_iff.mp hMem).prefix_takeNumeral tail).1

/- The numeral that is taken is the longest match. -/
theorem longest_takeNumeral
    {input : List Char}
    (hStarts : starts input = true) :
    Longest (takeNumeral input).1 input := by
  refine
    ⟨⟨(takeNumeral input).2, takeNumeral_append input⟩,
      mem_numeral_iff.mpr (match_takeNumeral hStarts), ?_⟩
  rintro m ⟨tail, rfl⟩ hMem
  exact
    ((mem_numeral_iff.mp hMem).prefix_takeNumeral
      tail).2.length_le

/- The longest match is what is taken. -/
theorem Longest.takeNumeral_eq
    {n tail : List Char}
    (hLongest : Longest n (n ++ tail)) :
    takeNumeral (n ++ tail) = (n, tail) := by
  have hStarts : starts (n ++ tail) = true :=
    starts_iff.mpr ⟨n, hLongest.front, hLongest.mem⟩
  have hTaken := longest_takeNumeral hStarts
  have hFront : (takeNumeral (n ++ tail)).1 = n := by
    have hMore :=
      ((mem_numeral_iff.mp hLongest.mem).prefix_takeNumeral
        tail).2
    have hLess :=
      hLongest.longest _ hTaken.front hTaken.mem
    exact (hMore.eq_of_length_le hLess).symm
  have hJoin := takeNumeral_append (n ++ tail)
  rw [hFront] at hJoin
  exact Prod.ext hFront (List.append_cancel_left hJoin)

theorem Longest.takeNumeral_fst
    {n input : List Char}
    (hLongest : Longest n input) :
    (takeNumeral input).1 = n := by
  rcases hLongest.front with ⟨tail, rfl⟩
  rw [hLongest.takeNumeral_eq]

/- One more digit is a part of the number. -/
theorem Match.concat_digit
    {n : List Char}
    {d : Char}
    (hMatch : Match n)
    (hDigit : d.isDigit = true) :
    Match (n ++ [d]) := by
  have hMore :
      ∀ {ds : List Char},
        (∀ c ∈ ds, c.isDigit = true) → Digits (ds ++ [d]) := by
    intro ds hAll
    refine ⟨by simp, ?_⟩
    intro c hMem
    rcases List.mem_append.mp hMem with hIn | hIn
    · exact hAll c hIn
    · rw [List.mem_singleton.mp hIn]
      exact hDigit
  cases hMatch with
  | @intro s w f e hSign hWhole hFraction hSome hExponent =>
      cases hExponent with
      | @mark c s' ds hMark hSign' hDigits =>
          have hLonger :=
            Match.intro hSign hWhole hFraction hSome
              (.mark hMark hSign' (hMore hDigits.all))
          simpa using hLonger
      | none =>
          cases hFraction with
          | point hDigits =>
              have hLonger :=
                Match.intro hSign hWhole
                  (.point (hMore hDigits.all)) (.inr (by simp))
                  .none
              simpa using hLonger
          | none =>
              have hLonger :=
                Match.intro hSign (hMore hWhole).all .none
                  (.inl (by simp)) .none
              simpa using hLonger

/- No digit follows the longest match. -/
theorem Longest.stops_isDigit
    {n tail : List Char}
    (hLongest : Longest n (n ++ tail)) :
    Stops Char.isDigit tail := by
  intro d hMem
  rw [Bool.eq_false_iff]
  intro hDigit
  rcases List.head?_eq_some_iff.mp hMem with ⟨rest, rfl⟩
  have hMatch :=
    (mem_numeral_iff.mp hLongest.mem).concat_digit hDigit
  have hFront : n ++ [d] <+: n ++ d :: rest := ⟨rest, by simp⟩
  have hLength :=
    hLongest.longest _ hFront (mem_numeral_iff.mpr hMatch)
  rw [List.length_append, List.length_singleton] at hLength
  omega

/- A longest match stays one where the text is cut off. -/
theorem Longest.of_front
    {n input front : List Char}
    (hLongest : Longest n input)
    (hFront : front <+: input)
    (hOwn : n <+: front) :
    Longest n front :=
  ⟨hOwn, hLongest.mem, fun m hMatch =>
    hLongest.longest m (hMatch.trans hFront)⟩

end NumberPattern

end LosslessCss

------------------------------------------------------------
-- Reading Matches
------------------------------------------------------------

namespace LosslessCss

open Text (Stops)

namespace NumberPattern

variable {s w f e ds tail : List Char}

/- The reader and the scanner split the same sign off. -/
theorem takeSign_snd
    (input : List Char) :
    (Decimal.takeSign input).2 =
      (Numeral.takeSign input).2 := by
  unfold Decimal.takeSign Numeral.takeSign
  split
  · rfl
  · rfl
  · rename_i hMinus hPlus
    split
    · exact absurd rfl (hPlus _)
    · exact absurd rfl (hMinus _)
    · rfl

theorem takeDigits_run
    (hAll : ∀ c ∈ ds, c.isDigit = true)
    (hStops : Stops Char.isDigit tail) :
    Numeral.takeDigits (ds ++ tail) = (ds, tail) := by
  rw [takeDigits_append_of_all hAll,
    takeDigits_of_stops hStops, List.append_nil]

theorem Exponent.stops
    {p : Char → Bool}
    (hExponent : Exponent e)
    (hMarks : p 'e' = false ∧ p 'E' = false) :
    Stops p e := by
  rcases hExponent.nil_or_stops hMarks [] with
    rfl | hStops
  · simp [Stops]
  · rwa [List.append_nil] at hStops

theorem Fraction.stops
    (hFraction : Fraction f)
    (hExponent : Exponent e) :
    Stops Char.isDigit (f ++ e) := by
  rcases hFraction.nil_or_stops hExponent [] with
    hNone | hStops
  · simp [hNone, Stops]
  · rwa [List.append_nil] at hStops

theorem Exponent.isSome_exponent?
    (hExponent : Exponent e) :
    (Decimal.exponent? e).isSome = true := by
  cases hExponent with
  | none => rfl
  | @mark c s ds hMark hSign hDigits =>
      have hCase : c = 'e' ∨ c = 'E' := by
        simpa [Numeral.isExponentMark] using hMark
      have hStops := hDigits.stops_sign []
      rw [List.append_nil] at hStops
      have hSigned :
          (Decimal.takeSign (s ++ ds)).2 = ds := by
        rw [takeSign_snd, hSign.takeSign_append hStops]
      have hAll : ds.all Char.isDigit = true :=
        List.all_eq_true.mpr hDigits.all
      simp [Decimal.exponent?, hSigned, hCase,
        hDigits.ne_nil, hAll]

/- The fraction is read as far as it goes. -/
theorem Fraction.exists_takeFraction
    (hFraction : Fraction f)
    (hExponent : Exponent e) :
    ∃ ds, Decimal.takeFraction (f ++ e) = (ds, e) ∧
      (f ≠ [] → ds ≠ []) := by
  cases hFraction with
  | none =>
      refine ⟨[], ?_, fun hSome => absurd rfl hSome⟩
      have hStops :=
        hExponent.stops (p := (· == '.')) (by decide)
      cases e with
      | nil => rfl
      | cons c e =>
          have hPoint : c ≠ '.' := by
            simpa [Stops] using hStops
          simp [Decimal.takeFraction, hPoint]
  | @point ds hDigits =>
      have hStops :=
        hExponent.stops (p := Char.isDigit) (by decide)
      exact
        ⟨ds, takeDigits_run hDigits.all hStops,
          fun _ => hDigits.ne_nil⟩

/- Every match can be read. -/
theorem exists_ofNumeral?
    {n : List Char}
    (hMem : n ∈ numeral.matches') :
    ∃ value, Binary32.ofNumeral? n = some value := by
  have hMatch := mem_numeral_iff.mp hMem
  cases hMatch with
  | @intro s w f e hSign hWhole hFraction hSome hExponent =>
      have hFirst :=
        startsUnsigned_append hWhole hFraction hSome e
      have hSigned :
          (Decimal.takeSign (s ++ (w ++ (f ++ e)))).2 =
            w ++ (f ++ e) := by
        rw [takeSign_snd, hSign.takeSign_append hFirst.2]
      rcases Prod.mk.inj
          (takeDigits_run hWhole
            (hFraction.stops hExponent)) with
        ⟨hDigits, hAfter⟩
      rcases hFraction.exists_takeFraction hExponent with
        ⟨ds, hPoint, hPresent⟩
      rcases Option.isSome_iff_exists.mp
        hExponent.isSome_exponent? with ⟨scale, hScale⟩
      have hEmpty : (w.isEmpty && ds.isEmpty) = false := by
        rcases hSome with hWhole | hFraction
        · simp [hWhole]
        · simp [hPresent hFraction]
      simp [Binary32.ofNumeral?, Decimal.parse?, hSigned,
        hDigits, hAfter, hPoint, hEmpty, hScale]

end NumberPattern

end LosslessCss
