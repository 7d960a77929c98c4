import LosslessCss.Proofs.Locality
import Mathlib.Data.List.Basic
import Mathlib.Data.Nat.Digits.Defs

/-
  Spelled texts.

  The text of a name, of a quotation or of an address is
  spelled in parts: characters that stand for themselves,
  escapes, and escaped line feeds.  All scanners of such
  texts read them part by part, and each takes the parts up
  to the first one that is not its own.

  A text that is cut off keeps its parts up to there, because
  an escape ends before the character that follows it.

  Key definitions include:
    * `Spelling.Part`
    * `Spelling.parts`
    * `Spelling.unescape`
    * `Spelling.unquote`
    * `Spelling.Apart`
    * `Spelling.Run`

  Key theorems include:
    * `Spelling.parts_of_startsEscape`
    * `Spelling.parts_raw_append`
    * `Spelling.Run.scan_eq`
    * `Name.scan_of_run`
    * `Quotation.scanBody_of_run`
    * `Url.scanAddress_of_run`
-/

------------------------------------------------------------
-- Parts
------------------------------------------------------------

namespace LosslessCss

namespace Spelling

/- The value of a hexadecimal digit, in either case. -/
def digit? (c : Char) : Option Nat :=
  if '0' ≤ c ∧ c ≤ '9' then
    some (c.toNat - '0'.toNat)
  else if 'a' ≤ c ∧ c ≤ 'f' then
    some (c.toNat - 'a'.toNat + 10)
  else if 'A' ≤ c ∧ c ≤ 'F' then
    some (c.toNat - 'A'.toNat + 10)
  else
    none

/- The number that hexadecimal digits denote. -/
def number (digits : List Char) : Nat :=
  Nat.ofDigits 16 (digits.filterMap digit?).reverse

/-
  The character of a code point.  Zero, the surrogates and
  what lies above the last code point are replaced.
-/
def character (code : Nat) : Char :=
  if code = 0 ∨ (0xD800 ≤ code ∧ code ≤ 0xDFFF) ∨
      0x10FFFF < code then
    '\uFFFD'
  else
    Char.ofNat code

/-
  A part of a spelled text: a character outside of every
  escape, an escape with what its backslash is followed by
  and the character that it stands for, or an escaped line
  feed.
-/
inductive Part where
  | bare (c : Char)
  | escaped (code : List Char) (c : Char)
  | fold
deriving DecidableEq

namespace Part

/- The characters that a part is spelled with. -/
def raw : Part → List Char
| .bare c => [c]
| .escaped code _ => '\\' :: code
| .fold => ['\\', '\n']

/- What a part stands for.  A fold stays as it is. -/
def text : Part → List Char
| .bare c => [c]
| .escaped _ c => [c]
| .fold => ['\\', '\n']

/- What a part of a quotation stands for. -/
def quoted : Part → List Char
| .bare c => [c]
| .escaped _ c => [c]
| .fold => []

end Part

/-
  The parts of a text from left to right.  One to six
  hexadecimal digits after a backslash give a code point and
  take one blank with them.  Any other character that is
  escaped stands for itself, and so does a backslash with
  nothing after it.
-/
def parts (input : List Char) : List Part :=
  match input with
  | [] => []
  | '\\' :: '\n' :: cs => .fold :: parts cs
  | '\\' :: c :: cs =>
      let digits :=
        ((c :: cs).takeWhile fun d =>
          (digit? d).isSome).take 6
      let after := (c :: cs).drop digits.length
      let blank := (after.take 1).filter Text.isBlank
      if digits = [] then
        .escaped [c] c :: parts cs
      else
        .escaped (digits ++ blank)
            (character (number digits)) ::
          parts (after.drop blank.length)
  | c :: cs => .bare c :: parts cs
termination_by input.length
decreasing_by
  all_goals simp only [List.length_cons, List.length_drop]
  all_goals omega

/- The characters of a run of parts. -/
def raw (ps : List Part) : List Char :=
  ps.flatMap Part.raw

/- What a run of parts stands for. -/
def text (ps : List Part) : List Char :=
  ps.flatMap Part.text

/- What a run of parts stands for in a quotation. -/
def quoted (ps : List Part) : List Char :=
  ps.flatMap Part.quoted

/- A text with its escapes decoded. -/
def unescape (input : List Char) : List Char :=
  text (parts input)

/-
  The inside of a quotation, with its escapes decoded and
  its escaped line feeds left out.
-/
def unquote (input : List Char) : List Char :=
  quoted (parts input)

/- No part of a text reaches into what follows it. -/
def Apart (front back : List Char) : Prop :=
  parts (front ++ back) = parts front ++ parts back

@[simp] theorem raw_nil : raw [] = [] := rfl

@[simp] theorem raw_cons
    (p : Part)
    (ps : List Part) :
    raw (p :: ps) = p.raw ++ raw ps :=
  List.flatMap_cons

@[simp] theorem raw_append
    (ps qs : List Part) :
    raw (ps ++ qs) = raw ps ++ raw qs :=
  List.flatMap_append

@[simp] theorem text_nil : text [] = [] := rfl

@[simp] theorem text_cons
    (p : Part)
    (ps : List Part) :
    text (p :: ps) = p.text ++ text ps :=
  List.flatMap_cons

@[simp] theorem quoted_nil : quoted [] = [] := rfl

@[simp] theorem quoted_cons
    (p : Part)
    (ps : List Part) :
    quoted (p :: ps) = p.quoted ++ quoted ps :=
  List.flatMap_cons

end Spelling

end LosslessCss

------------------------------------------------------------
-- Escapes Are Parts
------------------------------------------------------------

namespace LosslessCss

open Text (Stops)

namespace Spelling

/- The scanner of escapes knows the same digits. -/
theorem digit?_eq
    (c : Char) :
    digit? c =
      if Escape.isHexDigit c then
        some (Escape.hexValue c)
      else
        none := by
  by_cases hSmall : c.toNat < 128
  · exact
      Text.of_ascii
        (P := fun c =>
          digit? c =
            if Escape.isHexDigit c then
              some (Escape.hexValue c)
            else
              none)
        (by decide) hSmall
  · have hAbove :
        ∀ high : Char, high.toNat < 128 → ¬ c ≤ high := by
      intro high hHigh hLe
      have hNat : c.toNat ≤ high.toNat := hLe
      omega
    have hDigit := hAbove '9' (by decide)
    have hLower := hAbove 'f' (by decide)
    have hUpper := hAbove 'F' (by decide)
    have hHex : Escape.isHexDigit c = false := by
      have hNumber : c.isDigit = false := by
        rw [Bool.eq_false_iff]
        exact fun hTest =>
          hDigit (Text.toNat_le_of_isDigit hTest)
      simp [Escape.isHexDigit, hNumber, hLower, hUpper]
    simp [digit?, hDigit, hLower, hUpper, hHex]

theorem isSome_digit? :
    (fun c => (digit? c).isSome) = Escape.isHexDigit := by
  funext c
  rw [digit?_eq]
  split <;> simp_all

theorem number_eq
    {digits : List Char}
    (hHex : ∀ c ∈ digits, Escape.isHexDigit c = true) :
    number digits = Escape.ofHexDigits digits := by
  have hValues :
      digits.filterMap digit? =
        digits.map Escape.hexValue := by
    rw [List.filterMap_eq_map_iff_forall_eq_some]
    intro c hMem
    rw [digit?_eq, if_pos (hHex c hMem)]
  rw [number, hValues, Nat.ofDigits_eq_foldr,
    List.foldr_reverse, List.foldl_map, Escape.ofHexDigits]
  simp [Nat.add_comm]

theorem character_eq
    (code : Nat) :
    character code = Escape.codePoint code := by
  unfold character Escape.codePoint Nat.isValidChar
  split
  · rw [if_neg (by omega)]
    rfl
  · rw [if_pos (by omega)]

theorem takeBlank_eq
    (cs : List Char) :
    Escape.takeBlank cs =
      ((cs.take 1).filter Text.isBlank,
        cs.drop ((cs.take 1).filter Text.isBlank).length) := by
  cases cs with
  | nil => rfl
  | cons c cs =>
      by_cases hBlank : Text.isBlank c = true
      · simp [Escape.takeBlank, hBlank]
      · simp [Escape.takeBlank, hBlank]

@[simp] theorem parts_nil : parts [] = [] := by
  rw [parts]

/- An escape is the first part. -/
theorem parts_of_startsEscape
    {c : Char}
    {cs : List Char}
    (hEscape : Escape.startsEscape (c :: cs) = true) :
    parts (c :: cs) =
      .escaped (Escape.scan cs).raw (Escape.scan cs).value ::
        parts (Escape.scan cs).rest := by
  have hSlash : c = '\\' := by
    by_contra hOther
    rw [Escape.startsEscape_of_ne hOther] at hEscape
    cases hEscape
  subst hSlash
  cases cs with
  | nil => cases hEscape
  | cons d ds =>
      have hFeed : d ≠ '\n' := by
        simpa [Escape.startsEscape] using hEscape
      rw [parts]
      · unfold Escape.scan
        simp only [isSome_digit?, takeBlank_eq,
          List.isEmpty_iff]
        split
        · rfl
        · rw [character_eq, number_eq]
          intro e hMem
          exact List.mem_takeWhile_imp
            (List.mem_of_mem_take hMem)
      · simpa using hFeed

theorem parts_fold
    (cs : List Char) :
    parts ('\\' :: '\n' :: cs) = .fold :: parts cs := by
  rw [parts]

theorem parts_of_ne
    {c : Char}
    (hSlash : c ≠ '\\')
    (cs : List Char) :
    parts (c :: cs) = .bare c :: parts cs := by
  rw [parts]
  · simp [hSlash]
  · simp [hSlash]

theorem parts_slash : parts ['\\'] = [.bare '\\'] := by
  rw [parts]
  · simp
  · simp
  · simp

/-
  The first part of a text, and what is after it.  Only the
  end of the text leaves a backslash alone.
-/
inductive First : List Char → Part → List Char → Prop where
  | escaped {cs : List Char}
      (hEscape : Escape.startsEscape ('\\' :: cs) = true) :
      First ('\\' :: cs)
        (.escaped (Escape.scan cs).raw (Escape.scan cs).value)
        (Escape.scan cs).rest
  | fold {cs : List Char} :
      First ('\\' :: '\n' :: cs) .fold cs
  | bare {c : Char} {cs : List Char} (hSlash : c ≠ '\\') :
      First (c :: cs) (.bare c) cs
  | slash : First ['\\'] (.bare '\\') []

theorem exists_first
    (c : Char)
    (cs : List Char) :
    ∃ p tail, First (c :: cs) p tail := by
  by_cases hSlash : c = '\\'
  · subst hSlash
    cases hEscape : Escape.startsEscape ('\\' :: cs) with
    | true => exact ⟨_, _, .escaped hEscape⟩
    | false =>
        cases cs with
        | nil => exact ⟨_, _, .slash⟩
        | cons d cs =>
            have hFeed : d = '\n' := by
              simpa [Escape.startsEscape] using hEscape
            subst hFeed
            exact ⟨_, _, .fold⟩
  · exact ⟨_, _, .bare hSlash⟩

theorem First.parts_eq
    {input tail : List Char}
    {p : Part}
    (hFirst : First input p tail) :
    parts input = p :: parts tail := by
  cases hFirst with
  | escaped hEscape => exact parts_of_startsEscape hEscape
  | fold => exact parts_fold tail
  | bare hSlash => exact parts_of_ne hSlash tail
  | slash => rw [parts_slash, parts_nil]

theorem First.input_eq
    {input tail : List Char}
    {p : Part}
    (hFirst : First input p tail) :
    input = p.raw ++ tail := by
  cases hFirst with
  | escaped hEscape =>
      rw [Part.raw, List.cons_append,
        show _ ++ _ = _ from Escape.scan_splits _]
  | fold => rfl
  | bare hSlash => rfl
  | slash => rfl

theorem exists_first_of_parts
    {input : List Char}
    {p : Part}
    {ps : List Part}
    (hParts : parts input = p :: ps) :
    ∃ tail, First input p tail ∧ parts tail = ps := by
  cases input with
  | nil => simp at hParts
  | cons c cs =>
      rcases exists_first c cs with ⟨q, tail, hFirst⟩
      rw [hFirst.parts_eq] at hParts
      rcases List.cons.inj hParts with ⟨rfl, hTail⟩
      exact ⟨tail, hFirst, hTail⟩

/- The parts of a text are the text. -/
theorem raw_eq_of_parts
    {input : List Char}
    {ps : List Part}
    (hParts : parts input = ps) :
    raw ps = input := by
  induction ps generalizing input with
  | nil =>
      cases input with
      | nil => rfl
      | cons c cs =>
          rcases exists_first c cs with ⟨p, tail, hFirst⟩
          rw [hFirst.parts_eq] at hParts
          cases hParts
  | cons p ps ih =>
      rcases exists_first_of_parts hParts with
        ⟨tail, hFirst, hTail⟩
      rw [raw_cons, ih hTail, ← hFirst.input_eq]

@[simp] theorem raw_parts
    (input : List Char) :
    raw (parts input) = input :=
  raw_eq_of_parts rfl

end Spelling

end LosslessCss

------------------------------------------------------------
-- Texts That Are Cut Off
------------------------------------------------------------

namespace LosslessCss

open Text (Stops)

namespace Text

theorem Stops.of_front
    {p : Char → Bool}
    {cs front : List Char}
    (hStops : Stops p cs)
    (hFront : front <+: cs) :
    Stops p front := by
  rcases hFront with ⟨tail, rfl⟩
  cases front with
  | nil => simp [Stops]
  | cons c front => exact hStops

end Text

namespace Escape

/- No escape starts where the text is cut off. -/
theorem startsEscape_of_front
    {c : Char}
    {cs front : List Char}
    (hEscape : startsEscape (c :: cs) = false)
    (hFront : front <+: cs) :
    startsEscape (c :: front) = false := by
  by_cases hSlash : c = '\\'
  · subst hSlash
    rcases hFront with ⟨tail, rfl⟩
    cases front with
    | nil => rfl
    | cons d front => exact hEscape
  · exact startsEscape_of_ne hSlash front

theorem ne_nil_of_startsEscape
    {c : Char}
    {cs : List Char}
    (hEscape : startsEscape (c :: cs) = true) :
    cs ≠ [] := by
  rintro rfl
  by_cases hSlash : c = '\\'
  · subst hSlash
    cases hEscape
  · rw [startsEscape_of_ne hSlash] at hEscape
    cases hEscape

/- Six digits, or all that there are. -/
structure Digits (digits after : List Char) : Prop where
  hex : ∀ c ∈ digits, isHexDigit c = true
  bound : digits.length ≤ 6
  full : digits.length = 6 ∨ Stops isHexDigit after

/- The digits of an escape, with what is after them. -/
theorem exists_digits
    (cs : List Char) :
    ∃ digits after,
      cs = digits ++ after ∧ Digits digits after := by
  refine
    ⟨(cs.takeWhile isHexDigit).take 6,
      (cs.takeWhile isHexDigit).drop 6 ++
        cs.dropWhile isHexDigit, ?_, ?_, ?_, ?_⟩
  · rw [← List.append_assoc, List.take_append_drop,
      List.takeWhile_append_dropWhile]
  · intro c hMem
    exact List.mem_takeWhile_imp (List.mem_of_mem_take hMem)
  · rw [List.length_take]
    exact Nat.min_le_left _ _
  · by_cases hMany : 6 ≤ (cs.takeWhile isHexDigit).length
    · exact .inl (by simp [hMany])
    · rw [List.drop_of_length_le (by omega)]
      exact .inr (Text.stops_dropWhile _ _)

theorem Digits.take_eq
    {digits after : List Char}
    (hDigits : Digits digits after) :
    ((digits ++ after).takeWhile isHexDigit).take 6 =
      digits := by
  rw [List.takeWhile_append_of_pos hDigits.hex]
  rcases hDigits.full with hFull | hStops
  · rw [← hFull, List.take_append_length]
  · have hNone : after.takeWhile isHexDigit = [] := by
      cases after with
      | nil => rfl
      | cons c after => simp [hStops c rfl]
    rw [hNone, List.append_nil,
      List.take_of_length_le hDigits.bound]

theorem Digits.of_front
    {digits after front : List Char}
    (hDigits : Digits digits after)
    (hFront : front <+: after) :
    Digits digits front := by
  refine ⟨hDigits.hex, hDigits.bound, ?_⟩
  rcases hDigits.full with hFull | hStops
  · exact .inl hFull
  · exact .inr (hStops.of_front hFront)

theorem scan_digits
    {digits after : List Char}
    (hDigits : Digits digits after)
    (hSome : digits ≠ []) :
    scan (digits ++ after) =
      ⟨codePoint (ofHexDigits digits),
        digits ++ (takeBlank after).1, (takeBlank after).2,
        true⟩ := by
  unfold scan
  simp [hDigits.take_eq, hSome]

theorem scan_of_stops
    {c : Char}
    (hHex : isHexDigit c = false)
    (cs : List Char) :
    scan (c :: cs) = ⟨c, [c], cs, true⟩ := by
  simp [scan, hHex]

theorem takeBlank_front
    {cs front : List Char}
    (hFront : front <+: (takeBlank cs).2) :
    takeBlank ((takeBlank cs).1 ++ front) =
      ((takeBlank cs).1, front) := by
  cases cs with
  | nil =>
      rw [List.prefix_nil.mp hFront]
      rfl
  | cons c cs =>
      by_cases hBlank : Text.isBlank c = true
      · simp [takeBlank, hBlank]
      · simp only [takeBlank, hBlank] at hFront ⊢
        cases front with
        | nil => rfl
        | cons d front =>
            rcases List.cons_prefix_cons.mp hFront with
              ⟨rfl, -⟩
            simp [hBlank]

/- An escape that is cut off behind itself stays the same. -/
theorem scan_raw_front
    {cs front : List Char}
    (hSome : cs ≠ [])
    (hFront : front <+: (scan cs).rest) :
    scan ((scan cs).raw ++ front) =
      (scan cs).withRest front := by
  rcases exists_digits cs with ⟨digits, after, rfl, hDigits⟩
  by_cases hNone : digits = []
  · subst hNone
    cases after with
    | nil => exact absurd rfl hSome
    | cons c after =>
        have hStops : isHexDigit c = false := by
          rcases hDigits.full with hFull | hStops
          · cases hFull
          · exact hStops c rfl
        simp only [List.nil_append, scan_of_stops hStops,
          List.cons_append, Lexeme.withRest]
  · rw [scan_digits hDigits hNone] at hFront ⊢
    have hBlank := takeBlank_front hFront
    have hCut :
        Digits digits ((takeBlank after).1 ++ front) := by
      apply hDigits.of_front
      nth_rewrite 2 [← takeBlank_append after]
      exact (List.prefix_append_right_inj _).mpr hFront
    simp only [List.append_assoc]
    rw [scan_digits hCut hNone, hBlank]
    rfl

end Escape

namespace Spelling

/- The first part stays, wherever the text is cut off. -/
theorem First.of_front
    {input tail front : List Char}
    {p : Part}
    (hFirst : First input p tail)
    (hFront : front <+: tail) :
    First (p.raw ++ front) p front := by
  cases hFirst with
  | @escaped cs hEscape =>
      have hSome := Escape.ne_nil_of_startsEscape hEscape
      have hStarts := Escape.startsEscape_raw hEscape front
      have hScan := Escape.scan_raw_front hSome hFront
      have hCut := First.escaped hStarts
      rw [hScan] at hCut
      exact hCut
  | fold => exact .fold
  | bare hSlash => exact .bare hSlash
  | slash =>
      rw [List.prefix_nil.mp hFront]
      exact .slash

/-
  What follows some parts of a text can be cut off anywhere.
  The parts stay, and others are read from what is left.
-/
theorem parts_raw_append
    {input front : List Char}
    {ps qs : List Part}
    (hParts : parts input = ps ++ qs)
    (hFront : front <+: raw qs) :
    parts (raw ps ++ front) = ps ++ parts front := by
  induction ps generalizing input with
  | nil => rfl
  | cons p ps ih =>
      rw [List.cons_append] at hParts
      rcases exists_first_of_parts hParts with
        ⟨tail, hFirst, hTail⟩
      have hShort : raw ps ++ front <+: tail := by
        rw [← raw_eq_of_parts hTail, raw_append]
        exact (List.prefix_append_right_inj _).mpr hFront
      rw [raw_cons, List.append_assoc,
        (hFirst.of_front hShort).parts_eq, ih hTail,
        List.cons_append]

theorem parts_raw_left
    {input : List Char}
    {ps qs : List Part}
    (hParts : parts input = ps ++ qs) :
    parts (raw ps) = ps := by
  simpa using parts_raw_append hParts List.nil_prefix

theorem parts_raw_right
    {input : List Char}
    {ps qs : List Part}
    (hParts : parts input = ps ++ qs) :
    parts (raw qs) = qs := by
  have hWhole :=
    parts_raw_append hParts (List.prefix_refl (raw qs))
  rw [← raw_append, ← hParts, raw_parts, hParts] at hWhole
  exact (List.append_cancel_left hWhole).symm

/- Parts end before what follows them. -/
theorem apart_raw
    {input front : List Char}
    {ps qs : List Part}
    (hParts : parts input = ps ++ qs)
    (hFront : front <+: raw qs) :
    Apart (raw ps) front := by
  rw [Apart, parts_raw_append hParts hFront,
    parts_raw_left hParts]

end Spelling

end LosslessCss

------------------------------------------------------------
-- Runs of Parts
------------------------------------------------------------

namespace LosslessCss

namespace Spelling

/-
  A text of parts of one kind, as long as possible: the next
  part of what follows is of another kind.
-/
structure Run
    (own : Part → Bool)
    (front rest : List Char) : Prop where
  apart : Apart front rest
  all : ∀ p ∈ parts front, own p = true
  stops : ∀ p ∈ (parts rest).head?, own p = false

theorem exists_run
    (own : Part → Bool)
    (input : List Char) :
    ∃ front rest,
      input = front ++ rest ∧ Run own front rest := by
  let ps := (parts input).takeWhile own
  let qs := (parts input).dropWhile own
  have hParts : parts input = ps ++ qs :=
    List.takeWhile_append_dropWhile.symm
  have hLeft := parts_raw_left hParts
  have hRight := parts_raw_right hParts
  refine ⟨raw ps, raw qs, ?_, ?_, ?_, ?_⟩
  · rw [← raw_append, ← hParts, raw_parts]
  · exact apart_raw hParts (List.prefix_refl _)
  · rw [hLeft]
    exact fun p hMem => List.mem_takeWhile_imp hMem
  · rw [hRight]
    intro p hMem
    have hHead := List.head?_dropWhile_not own (parts input)
    rw [hMem] at hHead
    exact hHead

theorem Run.apart_of_front
    {own : Part → Bool}
    {front rest less : List Char}
    (hRun : Run own front rest)
    (hLess : less <+: rest) :
    Apart front less := by
  have hApart := apart_raw hRun.apart (by simpa using hLess)
  simpa using hApart

/- A run stays one when less follows it. -/
theorem Run.of_front
    {own : Part → Bool}
    {front rest less : List Char}
    (hRun : Run own front rest)
    (hLess : less <+: rest)
    (hStops : ∀ p ∈ (parts less).head?, own p = false) :
    Run own front less :=
  ⟨hRun.apart_of_front hLess, hRun.all, hStops⟩

/- The mark that ends a run can be kept. -/
theorem Run.of_mark
    {own : Part → Bool}
    {front rest less : List Char}
    {c : Char}
    (hRun : Run own front (c :: rest))
    (hSlash : c ≠ '\\')
    (hLess : less <+: rest) :
    Run own front (c :: less) := by
  refine
    hRun.of_front (List.cons_prefix_cons.mpr ⟨rfl, hLess⟩) ?_
  have hStops := hRun.stops
  rw [parts_of_ne hSlash] at hStops ⊢
  exact hStops

theorem Run.alone
    {own : Part → Bool}
    {front rest : List Char}
    (hRun : Run own front rest) :
    Run own front [] :=
  hRun.of_front List.nil_prefix (by simp)

/-
  A scanner that puts every part of its own in front of what
  it makes of the rest takes all of them.
-/
theorem scan_of_parts
    {α : Type}
    {scan : List Char → Lexeme α}
    {own : Part → Bool}
    {f : Part → α → α}
    {input : List Char}
    {ps qs : List Part}
    (hStep :
      ∀ {input tail : List Char} {p : Part},
        First input p tail → own p = true →
          scan input =
            ((scan tail).map (f p)).extend p.raw)
    (hParts : parts input = ps ++ qs)
    (hAll : ∀ p ∈ ps, own p = true) :
    scan input =
      ((scan (raw qs)).map (ps.foldr f)).extend
        (raw ps) := by
  induction ps generalizing input with
  | nil =>
      rw [← raw_eq_of_parts hParts]
      rfl
  | cons p ps ih =>
      rcases exists_first_of_parts hParts with
        ⟨tail, hFirst, hTail⟩
      have hOthers : ∀ q ∈ ps, own q = true :=
        fun q hMem => hAll q (by simp [hMem])
      rw [hStep hFirst (hAll p (by simp)),
        ih hTail hOthers]
      simp [Lexeme.extend, Lexeme.map]

theorem Run.scan_eq
    {α : Type}
    {scan : List Char → Lexeme α}
    {own : Part → Bool}
    {f : Part → α → α}
    {front rest : List Char}
    (hStep :
      ∀ {input tail : List Char} {p : Part},
        First input p tail → own p = true →
          scan input =
            ((scan tail).map (f p)).extend p.raw)
    (hRun : Run own front rest) :
    scan (front ++ rest) =
      ((scan rest).map ((parts front).foldr f)).extend
        front := by
  rw [scan_of_parts hStep hRun.apart hRun.all, raw_parts,
    raw_parts]

end Spelling

end LosslessCss

------------------------------------------------------------
-- Names
------------------------------------------------------------

namespace LosslessCss

open Spelling (Part First Run text unescape)

/- The parts of a name. -/
def Spelling.Part.inName : Part → Bool
| .bare c => Name.isPart c
| .escaped _ _ => true
| .fold => false

namespace Name

variable {input tail : List Char} {p : Part}

theorem scan_first
    (hFirst : First input p tail)
    (hOwn : p.inName = true) :
    scan input =
      ((scan tail).map (p.text ++ ·)).extend p.raw := by
  cases hFirst with
  | escaped hEscape =>
      rw [scan, if_pos hEscape]
      rfl
  | fold => cases hOwn
  | @bare c _ hSlash =>
      have hPart : isPart c = true := hOwn
      rw [scan, Escape.startsEscape_of_ne hSlash,
        if_neg (by simp), if_pos hPart]
      rfl
  | slash => cases hOwn

theorem continues_first
    (hFirst : First input p tail) :
    continues input = p.inName := by
  cases hFirst with
  | escaped hEscape =>
      simp [continues, hEscape, Part.inName]
  | fold => rfl
  | bare hSlash =>
      simp [continues, Escape.startsEscape_of_ne hSlash,
        Part.inName]
  | slash => rfl

variable {front rest : List Char}

/- A name does not go on where its run has ended. -/
theorem continues_of_run
    (hRun : Run Part.inName front rest) :
    continues rest = false := by
  cases rest with
  | nil => rfl
  | cons c cs =>
      rcases Spelling.exists_first c cs with
        ⟨p, tail, hFirst⟩
      rw [continues_first hFirst]
      exact hRun.stops p (by simp [hFirst.parts_eq])

/- A name is a run of its parts. -/
theorem scan_of_run
    (hRun : Run Part.inName front rest) :
    scan (front ++ rest) =
      ⟨unescape front, front, rest, true⟩ := by
  rw [hRun.scan_eq scan_first,
    scan_of_not_continues (continues_of_run hRun)]
  simp [Lexeme.extend, Lexeme.map, Lexeme.stop, unescape,
    text, List.flatMap_def]

/- Whether a name starts is decided by its own parts. -/
theorem startsName_of_run
    (hStarts : startsName (front ++ rest) = true)
    (hRun : Run Part.inName front rest)
    (tail : List Char) :
    startsName (front ++ tail) = true := by
  have hRaw := startsName_raw hStarts tail
  rwa [scan_of_run hRun] at hRaw

end Name

end LosslessCss

------------------------------------------------------------
-- Quotations
------------------------------------------------------------

namespace LosslessCss

open Spelling (Part First Run parts quoted unquote)

/- The parts inside of a quotation. -/
def Spelling.Part.inQuotation
    (quote : Char)
    (p : Part) : Bool :=
  p != .bare quote && p != .bare '\n'

namespace Quotation

variable {quote : Char} {input tail : List Char} {p : Part}

/- Put what a part stands for in front of the text. -/
def Body.add
    (p : Part)
    (body : Body) : Body :=
  { body with text := p.quoted ++ body.text }

theorem foldr_add
    (ps : List Part)
    (body : Body) :
    ps.foldr Body.add body =
      ⟨quoted ps ++ body.text, body.spoiled⟩ := by
  induction ps with
  | nil => rfl
  | cons p ps ih => simp [ih, Body.add]

theorem ne_slash_of_isQuote
    (hQuote : isQuote quote = true) :
    quote ≠ '\\' := by
  rintro rfl
  cases hQuote

theorem scanBody_first
    (hQuote : isQuote quote = true)
    (hFirst : First input p tail)
    (hOwn : p.inQuotation quote = true) :
    scanBody quote input =
      ((scanBody quote tail).map (Body.add p)).extend
        p.raw := by
  have hSlash := (ne_slash_of_isQuote hQuote).symm
  cases hFirst with
  | escaped hEscape =>
      have hFold := startsFold_of_startsEscape hEscape
      rw [scanBody, if_neg hSlash, if_neg (by decide),
        if_neg (by simp [hFold]), if_pos hEscape]
      rfl
  | fold =>
      have hFold : startsFold ('\\' :: '\n' :: tail) = true :=
        rfl
      rw [scanBody, if_neg hSlash, if_neg (by decide),
        if_pos hFold]
      rfl
  | @bare c _ hOther =>
      have hInside : c ≠ quote ∧ c ≠ '\n' := by
        simpa [Part.inQuotation] using hOwn
      rw [scanBody, if_neg hInside.1, if_neg hInside.2,
        startsFold_of_ne hOther, if_neg (by simp),
        Escape.startsEscape_of_ne hOther, if_neg (by simp)]
      rfl
  | slash =>
      have hNone :
          scanBody quote [] = .cutOff ⟨[], false⟩ := by
        rw [scanBody]
      rw [hNone, scanBody, if_neg hSlash,
        if_neg (by decide), if_neg (by decide),
        if_neg (by decide), hNone]
      rfl

variable {front rest : List Char}

/- The inside of a quotation is a run of its parts. -/
theorem scanBody_of_run
    (hQuote : isQuote quote = true)
    (hRun : Run (Part.inQuotation quote) front rest) :
    scanBody quote (front ++ rest) =
      ((scanBody quote rest).map fun body =>
          ⟨unquote front ++ body.text, body.spoiled⟩).extend
        front := by
  rw [hRun.scan_eq (scanBody_first hQuote)]
  simp only [funext (foldr_add (parts front)), unquote]

/- After the inside: a quote, a line feed, or the end. -/
theorem rest_cases_of_run
    (hRun : Run (Part.inQuotation quote) front rest) :
    rest = [] ∨ (∃ tail, rest = quote :: tail) ∨
      ∃ tail, rest = '\n' :: tail := by
  cases rest with
  | nil => exact .inl rfl
  | cons c cs =>
      rcases Spelling.exists_first c cs with
        ⟨p, tail, hFirst⟩
      have hOther :=
        hRun.stops p (by simp [hFirst.parts_eq])
      have hPart : p = .bare quote ∨ p = .bare '\n' := by
        simpa [Part.inQuotation, or_iff_not_imp_left]
          using hOther
      have hInput := hFirst.input_eq
      rcases hPart with rfl | rfl
      · exact .inr (.inl ⟨tail, hInput⟩)
      · exact .inr (.inr ⟨tail, hInput⟩)

end Quotation

end LosslessCss

------------------------------------------------------------
-- Addresses
------------------------------------------------------------

namespace LosslessCss

open Spelling (Part First Run parts text unescape)

/- The parts of an address. -/
def Spelling.Part.inAddress : Part → Bool
| .bare c =>
    c != ')' && !Text.isBlank c && !Url.spoils c &&
      c != '\\'
| .escaped _ _ => true
| .fold => false

namespace Url

variable {input tail : List Char} {p : Part}

/- Put what a part stands for in front of the address. -/
def Body.add
    (p : Part)
    (body : Body) : Body :=
  { body with address := p.text ++ body.address }

theorem foldr_add
    (ps : List Part)
    (body : Body) :
    ps.foldr Body.add body =
      ⟨text ps ++ body.address, body.spoiled⟩ := by
  induction ps with
  | nil => rfl
  | cons p ps ih => simp [ih, Body.add]

theorem scanAddress_first
    (hFirst : First input p tail)
    (hOwn : p.inAddress = true) :
    scanAddress input =
      ((scanAddress tail).map (Body.add p)).extend
        p.raw := by
  cases hFirst with
  | escaped hEscape =>
      rw [scanAddress, if_neg (by decide), if_neg (by decide),
        if_neg (by decide), if_pos hEscape]
      rfl
  | fold => cases hOwn
  | @bare c _ hSlash =>
      have hOther :
          ((c ≠ ')' ∧ Text.isBlank c = false) ∧
            spoils c = false) ∧ c ≠ '\\' := by
        simpa [Part.inAddress] using hOwn
      rw [scanAddress, if_neg hOther.1.1.1,
        if_neg (by simp [hOther]), if_neg (by simp [hOther]),
        Escape.startsEscape_of_ne hSlash, if_neg (by simp),
        if_neg hSlash]
      rfl
  | slash => cases hOwn

/- An address is a run of its parts. -/
theorem scanAddress_of_run
    {front rest : List Char}
    (hRun : Run Part.inAddress front rest) :
    scanAddress (front ++ rest) =
      ((scanAddress rest).map fun body =>
          ⟨unescape front ++ body.address,
            body.spoiled⟩).extend
        front := by
  rw [hRun.scan_eq scanAddress_first]
  simp only [funext (foldr_add (parts front)), unescape]

end Url

end LosslessCss
