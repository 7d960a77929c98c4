import LosslessCss.Json
import Mathlib.Data.List.TakeWhile

/-
  A JSON value can be told from its text.

  The text of a value never goes on to the text of another
  one, whatever comes after it.  Only a number could be
  continued, so no digit may follow it directly.  The text
  of a list or a record then falls apart into those of its
  elements in only one way.

  Key definitions include:
    * `Json.Shape`
    * `Json.Ends`

  Key theorems include:
    * `Json.escaped_append_inj`
    * `Json.quoted_append_inj`
    * `Json.chars_append_inj`
    * `Json.pretty_inj`
-/

------------------------------------------------------------
-- Escaped Characters
------------------------------------------------------------

namespace LosslessCss

namespace Json

/- The character that is written as a backslash and a mark. -/
def marked (mark : Char) : Char :=
  if mark = 'b' then Char.ofNat 0x08
  else if mark = 'f' then Char.ofNat 0x0C
  else if mark = 'n' then '\n'
  else if mark = 'r' then '\r'
  else if mark = 't' then '\t'
  else mark

/-
  A character is written as it stands, as a backslash with a
  mark, or as a backslash with its code.
-/
theorem escaped_cases
    (c : Char) :
    (escaped c = [c] ∧ c ≠ '"' ∧ c ≠ '\\') ∨
      (∃ mark, escaped c = ['\\', mark] ∧ mark ≠ 'u' ∧
        c = marked mark) ∨
      (escaped c =
          ['\\', 'u', '0', '0'] ++ hexPair c.toNat ∧
        c.toNat < 0x20) := by
  have hCode (n : Nat) (hSame : c.toNat = n) :
      c = Char.ofNat n := by
    rw [← hSame, Char.ofNat_toNat]
  unfold escaped
  split
  · rename_i hQuote
    exact .inr (.inl ⟨'"', rfl, by decide, hQuote⟩)
  split
  · rename_i hSlash
    exact .inr (.inl ⟨'\\', rfl, by decide, hSlash⟩)
  split
  · rename_i hBack
    exact .inr (.inl ⟨'b', rfl, by decide, hCode _ hBack⟩)
  split
  · rename_i hFeed
    exact .inr (.inl ⟨'f', rfl, by decide, hCode _ hFeed⟩)
  split
  · rename_i hLine
    exact .inr (.inl ⟨'n', rfl, by decide, hLine⟩)
  split
  · rename_i hReturn
    exact .inr (.inl ⟨'r', rfl, by decide, hReturn⟩)
  split
  · rename_i hTab
    exact .inr (.inl ⟨'t', rfl, by decide, hTab⟩)
  split
  · rename_i hLow
    exact .inr (.inr ⟨rfl, hLow⟩)
  · rename_i hQuote hSlash _ _ _ _ _ _
    exact .inl ⟨rfl, hQuote, hSlash⟩

/- The codes that are written are told apart. -/
theorem hexPair_inj :
    ∀ m < 0x20, ∀ n < 0x20,
      hexPair m = hexPair n → m = n := by
  decide +kernel

/- No escape is the start of another one. -/
theorem escaped_append_inj
    {c d : Char}
    {r s : List Char}
    (h : escaped c ++ r = escaped d ++ s) :
    c = d ∧ r = s := by
  rcases escaped_cases c with
    ⟨hc, _, hSlash⟩ | ⟨mark, hc, hMark, rfl⟩ | ⟨hc, hLow⟩
  · rcases escaped_cases d with
      ⟨hd, _, _⟩ | ⟨other, hd, _, rfl⟩ | ⟨hd, _⟩
    · simpa [hc, hd] using h
    · simp [hc, hd, hSlash] at h
    · simp [hc, hd, hSlash] at h
  · rcases escaped_cases d with
      ⟨hd, _, hOther⟩ | ⟨other, hd, _, rfl⟩ | ⟨hd, _⟩
    · simp [hc, hd, Ne.symm hOther] at h
    · simp only [hc, hd, List.cons_append, List.nil_append,
        List.cons.injEq, true_and] at h
      rw [h.1]
      exact ⟨rfl, h.2⟩
    · simp [hc, hd, hMark] at h
  · rcases escaped_cases d with
      ⟨hd, _, hOther⟩ | ⟨other, hd, hMark, rfl⟩ | ⟨hd, hSmall⟩
    · simp [hc, hd, Ne.symm hOther] at h
    · simp [hc, hd, Ne.symm hMark] at h
    · rw [hc, hd, List.append_assoc, List.append_assoc,
        List.append_cancel_left_eq] at h
      rcases List.append_inj h rfl with ⟨hPair, hRest⟩
      have hCode := hexPair_inj _ hLow _ hSmall hPair
      exact ⟨Char.toNat_inj.mp hCode, hRest⟩

/- An escape never starts like the end of a quoted text. -/
theorem escaped_append_ne
    (c : Char)
    (r s : List Char) :
    escaped c ++ r ≠ '"' :: s := by
  rcases escaped_cases c with
    ⟨hc, hQuote, _⟩ | ⟨mark, hc, _⟩ | ⟨hc, _⟩
  · simp [hc, hQuote]
  · simp [hc]
  · simp [hc]

end Json

end LosslessCss

------------------------------------------------------------
-- Quoted Texts and Numbers
------------------------------------------------------------

namespace LosslessCss

namespace Json

theorem flatMap_escaped_append_inj
    {cs ds r s : List Char}
    (h :
      cs.flatMap escaped ++ '"' :: r =
        ds.flatMap escaped ++ '"' :: s) :
    cs = ds ∧ r = s := by
  induction cs generalizing ds with
  | nil =>
      cases ds with
      | nil => simpa using h
      | cons d ds =>
          rw [List.flatMap_cons, List.append_assoc] at h
          exact absurd h.symm (escaped_append_ne d _ r)
  | cons c cs ih =>
      rw [List.flatMap_cons, List.append_assoc] at h
      cases ds with
      | nil => exact absurd h (escaped_append_ne c _ s)
      | cons d ds =>
          rw [List.flatMap_cons, List.append_assoc] at h
          rcases escaped_append_inj h with ⟨rfl, hTail⟩
          rcases ih hTail with ⟨rfl, hRest⟩
          exact ⟨rfl, hRest⟩

/- A quoted text ends at the first quote that is no escape. -/
theorem quoted_append_inj
    {a b : String}
    {r s : List Char}
    (h : quoted a ++ r = quoted b ++ s) :
    a = b ∧ r = s := by
  have hInner :
      a.toList.flatMap escaped ++ '"' :: r =
        b.toList.flatMap escaped ++ '"' :: s := by
    simpa [quoted] using h
  rcases flatMap_escaped_append_inj hInner with
    ⟨hText, hRest⟩
  exact ⟨String.toList_injective hText, hRest⟩

/- What comes after a value does not start with a digit. -/
def Ends (r : List Char) : Prop :=
  ∀ c ∈ r.head?, c.isDigit = false

theorem ends_line
    (depth : Nat)
    (r : List Char) :
    Ends (line depth ++ r) := by
  simp [Ends, line]

theorem takeWhile_toDigits_append
    (n : Nat)
    {r : List Char}
    (hEnds : Ends r) :
    (Nat.toDigits 10 n ++ r).takeWhile Char.isDigit =
      Nat.toDigits 10 n := by
  have hDigits :
      ∀ c ∈ Nat.toDigits 10 n, c.isDigit = true :=
    fun c hMem =>
      Nat.isDigit_of_mem_toDigits (by decide) (by decide) hMem
  rw [List.takeWhile_append_of_pos hDigits]
  cases r with
  | nil => simp
  | cons c r =>
      have hStop : c.isDigit = false := hEnds c rfl
      simp [hStop]

/- A number is all digits up to what comes after it. -/
theorem toDigits_append_inj
    {m n : Nat}
    {r s : List Char}
    (hFirst : Ends r)
    (hSecond : Ends s)
    (h : Nat.toDigits 10 m ++ r = Nat.toDigits 10 n ++ s) :
    m = n ∧ r = s := by
  have hDigits : Nat.toDigits 10 m = Nat.toDigits 10 n := by
    rw [← takeWhile_toDigits_append m hFirst, h,
      takeWhile_toDigits_append n hSecond]
  have hNumber :=
    congrArg (fun cs => Nat.ofDigitChars 10 cs 0) hDigits
  simp only [Nat.ofDigitChars_ten_toDigits] at hNumber
  rw [hDigits] at h
  exact ⟨hNumber, List.append_cancel_left h⟩

theorem flagChars_append_inj
    {a b : Bool}
    {r s : List Char}
    (h : flagChars a ++ r = flagChars b ++ s) :
    a = b ∧ r = s := by
  cases a with
  | true =>
      cases b with
      | true => simpa [flagChars] using h
      | false => simp [flagChars] at h
  | false =>
      cases b with
      | true => simp [flagChars] at h
      | false => simpa [flagChars] using h

end Json

end LosslessCss

------------------------------------------------------------
-- The First Character
------------------------------------------------------------

namespace LosslessCss

namespace Json

/- The kinds of values. -/
inductive Shape where
  | text
  | natural
  | flag
  | list
  | record
deriving DecidableEq

/- The kind of a value. -/
def shape : Json → Shape
| .text _ => .text
| .natural _ => .natural
| .flag _ => .flag
| .list _ => .list
| .record _ => .record

/- The kind of the values that start with a character. -/
def shapeFrom (c : Char) : Shape :=
  if c = '"' then .text
  else if c = '[' then .list
  else if c = '\x7b' then .record
  else if c.isDigit then .natural
  else .flag

/- The first character of a value shows its kind. -/
theorem exists_head
    (depth : Nat)
    (value : Json) :
    ∃ c cs,
      chars depth value = c :: cs ∧
        shapeFrom c = value.shape := by
  cases value with
  | text value => exact ⟨_, _, by rw [chars, quoted], rfl⟩
  | natural value =>
      rw [chars]
      cases hDigits : Nat.toDigits 10 value with
      | nil => exact absurd hDigits Nat.toDigits_ne_nil
      | cons c cs =>
          have hDigit : c.isDigit = true :=
            Nat.isDigit_of_mem_toDigits (b := 10) (n := value)
              (by decide) (by decide) (by simp [hDigits])
          refine ⟨c, cs, rfl, ?_⟩
          unfold shapeFrom
          split
          · simp_all
          split
          · simp_all
          split
          · simp_all
          · rfl
  | flag value =>
      cases value with
      | true => exact ⟨_, _, rfl, rfl⟩
      | false => exact ⟨_, _, rfl, rfl⟩
  | list items =>
      cases items with
      | nil => exact ⟨_, _, by rw [chars], rfl⟩
      | cons item items => exact ⟨_, _, by rw [chars], rfl⟩
  | record fields =>
      cases fields with
      | nil => exact ⟨_, _, by rw [chars], rfl⟩
      | cons field fields =>
          exact ⟨_, _, by rw [chars], rfl⟩

theorem shape_eq_of_append
    {depth : Nat}
    {v w : Json}
    {r s : List Char}
    (h : chars depth v ++ r = chars depth w ++ s) :
    v.shape = w.shape := by
  rcases exists_head depth v with ⟨c, cs, hv, hFirst⟩
  rcases exists_head depth w with ⟨d, ds, hw, hSecond⟩
  rw [hv, hw, List.cons_append, List.cons_append] at h
  rw [← hFirst, ← hSecond, (List.cons.inj h).1]

end Json

end LosslessCss

------------------------------------------------------------
-- Values
------------------------------------------------------------

namespace LosslessCss

namespace Json

theorem ends_itemChars
    (depth outer : Nat)
    (items : List Json)
    (r : List Char) :
    Ends (itemChars depth items ++ (line outer ++ r)) := by
  cases items with
  | nil =>
      rw [itemChars, List.nil_append]
      exact ends_line outer r
  | cons item items => simp [Ends, itemChars]

theorem ends_fieldChars
    (depth outer : Nat)
    (fields : List (String × Json))
    (r : List Char) :
    Ends (fieldChars depth fields ++ (line outer ++ r)) := by
  cases fields with
  | nil =>
      rw [fieldChars, List.nil_append]
      exact ends_line outer r
  | cons field fields => simp [Ends, fieldChars]

mutual

/-
  Two values that are written at the same depth and start a
  text are the same value, with the same rest of the text.
-/
theorem chars_append_inj
    (depth : Nat) :
    ∀ (v w : Json) {r s : List Char},
      Ends r → Ends s →
        chars depth v ++ r = chars depth w ++ s →
          v = w ∧ r = s
| .text a, w, r, s, _, _, h => by
    cases w with
    | text b =>
        rw [chars, chars] at h
        rcases quoted_append_inj h with ⟨rfl, hRest⟩
        exact ⟨rfl, hRest⟩
    | _ => cases shape_eq_of_append h
| .natural m, w, r, s, hFirst, hSecond, h => by
    cases w with
    | natural n =>
        rw [chars, chars] at h
        rcases toDigits_append_inj hFirst hSecond h with
          ⟨rfl, hRest⟩
        exact ⟨rfl, hRest⟩
    | _ => cases shape_eq_of_append h
| .flag a, w, r, s, _, _, h => by
    cases w with
    | flag b =>
        rw [chars, chars] at h
        rcases flagChars_append_inj h with ⟨rfl, hRest⟩
        exact ⟨rfl, hRest⟩
    | _ => cases shape_eq_of_append h
| .list [], w, r, s, _, _, h => by
    cases w with
    | list ws =>
        cases ws with
        | nil => simpa [chars] using h
        | cons w ws => simp [chars, line] at h
    | _ => cases shape_eq_of_append h
| .list (v :: vs), w, r, s, _, _, h => by
    cases w with
    | list ws =>
        cases ws with
        | nil => simp [chars, line] at h
        | cons w ws =>
            simp only [chars, List.cons_append,
              List.append_assoc, List.cons.injEq, true_and,
              List.append_cancel_left_eq] at h
            rcases chars_append_inj (depth + 1) v w
                (ends_itemChars _ _ vs _)
                (ends_itemChars _ _ ws _) h with
              ⟨rfl, hTail⟩
            rcases itemChars_append_inj (depth + 1) depth vs ws
                hTail with
              ⟨rfl, hRest⟩
            exact ⟨rfl, by simpa using hRest⟩
    | _ => cases shape_eq_of_append h
| .record [], w, r, s, _, _, h => by
    cases w with
    | record gs =>
        cases gs with
        | nil => simpa [chars] using h
        | cons g gs => simp [chars, line] at h
    | _ => cases shape_eq_of_append h
| .record ((key, v) :: fs), w, r, s, _, _, h => by
    cases w with
    | record gs =>
        cases gs with
        | nil => simp [chars, line] at h
        | cons g gs =>
            rcases g with ⟨other, w⟩
            simp only [chars, List.cons_append,
              List.append_assoc, List.cons.injEq, true_and,
              List.append_cancel_left_eq] at h
            rcases quoted_append_inj h with ⟨rfl, hValue⟩
            simp only [List.cons.injEq, true_and,
              List.nil_append] at hValue
            rcases chars_append_inj (depth + 1) v w
                (ends_fieldChars _ _ fs _)
                (ends_fieldChars _ _ gs _) hValue with
              ⟨rfl, hTail⟩
            rcases fieldChars_append_inj (depth + 1) depth
                fs gs hTail with
              ⟨rfl, hRest⟩
            exact ⟨rfl, by simpa using hRest⟩
    | _ => cases shape_eq_of_append h

/- Further elements end where a new line has no comma. -/
theorem itemChars_append_inj
    (depth outer : Nat) :
    ∀ (vs ws : List Json) {r s : List Char},
      itemChars depth vs ++ (line outer ++ r) =
          itemChars depth ws ++ (line outer ++ s) →
        vs = ws ∧ r = s
| [], [], r, s, h => by simpa [itemChars] using h
| [], w :: ws, r, s, h => by simp [itemChars, line] at h
| v :: vs, [], r, s, h => by simp [itemChars, line] at h
| v :: vs, w :: ws, r, s, h => by
    simp only [itemChars, List.cons_append,
      List.append_assoc, List.cons.injEq, true_and,
      List.append_cancel_left_eq] at h
    rcases chars_append_inj depth v w
        (ends_itemChars _ _ vs _)
        (ends_itemChars _ _ ws _) h with
      ⟨rfl, hTail⟩
    rcases itemChars_append_inj depth outer vs ws hTail with
      ⟨rfl, hRest⟩
    exact ⟨rfl, hRest⟩

theorem fieldChars_append_inj
    (depth outer : Nat) :
    ∀ (fs gs : List (String × Json)) {r s : List Char},
      fieldChars depth fs ++ (line outer ++ r) =
          fieldChars depth gs ++ (line outer ++ s) →
        fs = gs ∧ r = s
| [], [], r, s, h => by simpa [fieldChars] using h
| [], g :: gs, r, s, h => by simp [fieldChars, line] at h
| f :: fs, [], r, s, h => by simp [fieldChars, line] at h
| (key, v) :: fs, (other, w) :: gs, r, s, h => by
    simp only [fieldChars, List.cons_append,
      List.append_assoc, List.cons.injEq, true_and,
      List.append_cancel_left_eq] at h
    rcases quoted_append_inj h with ⟨rfl, hValue⟩
    simp only [List.cons.injEq, true_and,
      List.nil_append] at hValue
    rcases chars_append_inj depth v w
        (ends_fieldChars _ _ fs _)
        (ends_fieldChars _ _ gs _) hValue with
      ⟨rfl, hTail⟩
    rcases fieldChars_append_inj depth outer fs gs hTail with
      ⟨rfl, hRest⟩
    exact ⟨rfl, hRest⟩

end

/- The text of a value determines it. -/
theorem pretty_inj
    {v w : Json}
    (h : v.pretty = w.pretty) :
    v = w := by
  have hChars : chars 0 v ++ [] = chars 0 w ++ [] := by
    simpa [pretty] using congrArg String.toList h
  have hEnds : Ends [] := by simp [Ends]
  exact (chars_append_inj 0 v w hEnds hEnds hChars).1

end Json

end LosslessCss
