import LosslessCss.Proofs.StreamReading
import LosslessCss.Text.EncodedStream

/-
  Streams of bytes keep their cursors between characters.

  A stream of characters can be encoded, and every operation
  does the same before and after the encoding.  So whatever
  is done with a new stream of bytes, it stays the encoding
  of some characters, and no look at its text can fail.

  Key definitions include:
    * `CharStream.encoded`
    * `EncodedStream.Step`
    * `EncodedStream.run?`
    * `EncodedStream.readings?`

  Key theorems include:
    * `Text.splitAtByte_eq_some_iff`
    * `CharStream.next?_encoded`
    * `CharStream.slice_encoded`
    * `EncodedStream.exists_run?_encoded`
    * `EncodedStream.cursor_between_characters`
-/

------------------------------------------------------------
-- Boundaries Between Characters
------------------------------------------------------------

namespace LosslessCss

namespace Text

/- A split after some bytes is one after some characters. -/
theorem splitAtByte_eq_some_iff
    {n : Nat}
    {cs front back : List Char} :
    splitAtByte n cs = some (front, back) ↔
      cs = front ++ back ∧ byteLength front = n := by
  constructor
  · intro h
    induction n, cs using splitAtByte.induct
        generalizing front with
    | case1 cs =>
        rw [splitAtByte] at h
        cases h
        exact ⟨rfl, rfl⟩
    | case2 n =>
        cases h
    | case3 n c cs hSize ih =>
        rw [splitAtByte, if_pos hSize,
          Option.map_eq_some_iff] at h
        rcases h with ⟨⟨taken, rest⟩, hSplit, hParts⟩
        cases hParts
        rcases ih hSplit with ⟨rfl, hLength⟩
        refine ⟨rfl, ?_⟩
        rw [byteLength, hLength]
        omega
    | case4 n c cs hSize =>
        rw [splitAtByte, if_neg hSize] at h
        cases h
  · rintro ⟨rfl, rfl⟩
    exact splitAtByte_append front back

/-
  Two ways to cut out the bytes after the first ones: from
  the front of a longer split, or from the back of a shorter
  one.
-/
theorem splitAtByte_add
    (m n : Nat)
    (cs : List Char) :
    ((splitAtByte (m + n) cs).bind fun parts =>
        splitAtByte m parts.1) =
      (splitAtByte m cs).bind fun parts =>
        (splitAtByte n parts.2).map fun cut =>
          (parts.1, cut.1) := by
  apply Option.ext
  rintro ⟨front, cut⟩
  simp only [Option.bind_eq_some_iff, Option.map_eq_some_iff,
    Prod.exists, splitAtByte_eq_some_iff, Prod.mk.injEq]
  constructor
  · rintro ⟨_, back, ⟨rfl, hLong⟩, rfl, hFront⟩
    rw [byteLength_append, hFront,
      Nat.add_left_cancel_iff] at hLong
    exact
      ⟨front, cut ++ back, ⟨by simp, hFront⟩, cut, back,
        ⟨rfl, hLong⟩, rfl, rfl⟩
  · rintro ⟨left, _, ⟨rfl, hLeft⟩, right, back,
      ⟨rfl, hRight⟩, rfl, rfl⟩
    exact
      ⟨left ++ right, back,
        ⟨by simp, by rw [byteLength_append, hLeft, hRight]⟩,
        rfl, hLeft⟩

/- A text can be split at the boundaries of its characters. -/
theorem isSome_splitAtByte_iff
    {text : String}
    {n : Nat} :
    (splitAtByte n text.toList).isSome = true ↔
      String.Pos.Raw.IsValid text ⟨n⟩ := by
  rw [Option.isSome_iff_exists,
    String.Pos.Raw.isValid_iff_exists_append]
  constructor
  · rintro ⟨⟨front, back⟩, hSplit⟩
    rcases splitAtByte_eq_some_iff.mp hSplit with
      ⟨hText, rfl⟩
    refine ⟨String.ofList front, String.ofList back, ?_, ?_⟩
    · rw [← String.ofList_append, ← hText,
        String.ofList_toList]
    · have hSize := byteLength_toList (String.ofList front)
      rw [String.toList_ofList] at hSize
      rw [String.Pos.Raw.ext_iff, hSize]
      rfl
  · rintro ⟨front, back, rfl, hPlace⟩
    have hSize : front.utf8ByteSize = n :=
      (String.Pos.Raw.ext_iff.mp hPlace).symm
    refine ⟨(front.toList, back.toList), ?_⟩
    rw [splitAtByte_eq_some_iff, byteLength_toList]
    exact ⟨String.toList_append, hSize⟩

end Text

end LosslessCss

------------------------------------------------------------
-- Encoding a Stream
------------------------------------------------------------

namespace LosslessCss

namespace CharStream

/- The text of the stream and the bytes behind its cursor. -/
def encoded (s : CharStream) : EncodedStream :=
  ⟨String.ofList s.content, s.position, s.closed⟩

theorem toList_text_encoded
    (s : CharStream) :
    s.encoded.text.toList = s.passed.reverse ++ s.ahead :=
  String.toList_ofList

theorem splitAtByte_encoded
    (s : CharStream) :
    Text.splitAtByte s.encoded.position
        s.encoded.text.toList =
      some (s.passed.reverse, s.ahead) := by
  rw [toList_text_encoded, encoded, position,
    ← Text.byteLength_reverse]
  exact Text.splitAtByte_append _ _

/- The cursor of an encoded stream is at a boundary. -/
theorem isValid_position_encoded
    (s : CharStream) :
    String.Pos.Raw.IsValid s.encoded.text
      ⟨s.encoded.position⟩ := by
  rw [← Text.isSome_splitAtByte_iff, splitAtByte_encoded]
  rfl

theorem rest?_encoded
    (s : CharStream) :
    s.encoded.rest? = some s.ahead := by
  rw [EncodedStream.rest?, splitAtByte_encoded]
  rfl

theorem read?_encoded
    (s : CharStream) :
    s.encoded.read? = some s.read := by
  rw [EncodedStream.read?, rest?_encoded, read]
  cases s.ahead with
  | nil => rfl
  | cons c cs => rfl

theorem peek?_encoded
    (s : CharStream)
    (n : Nat) :
    s.encoded.peek? n = some (s.peek n) := by
  rw [EncodedStream.peek?, rest?_encoded, peek]
  cases hChar : s.ahead[n]? with
  | none => simp [hChar]; rfl
  | some c => simp [hChar]

/- Moving over a character moves over all of its bytes. -/
theorem past_encoded
    (s : CharStream) :
    s.encoded.past s.read = s.skip.encoded := by
  cases hAhead : s.ahead with
  | nil =>
      have hRead : s.read.char? = none := by
        rw [read, hAhead]
        exact s.char?_dry
      rw [skip, hAhead, EncodedStream.past, hRead]
      rfl
  | cons c cs =>
      simp [EncodedStream.past, encoded, read, skip, hAhead,
        content, position, Text.byteLength, Nat.add_comm,
        Reading.char?]

theorem next?_encoded
    (s : CharStream) :
    s.encoded.next? = some (s.read, s.skip.encoded) := by
  rw [EncodedStream.next?, read?_encoded, Option.map_some,
    past_encoded]

theorem load_encoded
    (s : CharStream)
    (text : String) :
    s.encoded.load text = (s.load text).encoded := by
  simp [encoded, EncodedStream.load, load, content,
    position, Text.byteLength]

theorem rewind_encoded
    (s : CharStream) :
    s.encoded.rewind = s.rewind.encoded := by
  simp [encoded, EncodedStream.rewind, rewind, content,
    position, Text.byteLength]

theorem close_encoded
    (s : CharStream) :
    s.encoded.close = s.close.encoded :=
  rfl

/- No byte is left where no character is left. -/
theorem exhausted_encoded
    (s : CharStream) :
    s.encoded.exhausted = s.exhausted := by
  have hSize :
      s.encoded.text.utf8ByteSize =
        s.encoded.position + Text.byteLength s.ahead := by
    rw [← Text.byteLength_toList, toList_text_encoded,
      Text.byteLength_append, Text.byteLength_reverse]
    rfl
  rw [EncodedStream.exhausted, exhausted, hSize]
  cases s.ahead with
  | nil => simp [Text.byteLength]
  | cons c cs =>
      have hPos := Char.utf8Size_pos c
      simp [Text.byteLength]
      omega

theorem finished_encoded
    (s : CharStream) :
    s.encoded.finished = s.finished := by
  rw [EncodedStream.finished, exhausted_encoded]
  rfl

/- A reversed range holds nothing. -/
theorem cut?_of_lt
    (s : EncodedStream)
    {first last : Nat}
    (hOrder : last < first) :
    s.cut? first last = none := by
  rw [EncodedStream.cut?, Option.bind_eq_bind,
    Option.bind_eq_none_iff]
  rintro ⟨front, back⟩ hLast
  cases hFirst : Text.splitAtByte first front with
  | none => rfl
  | some parts =>
      rcases Text.splitAtByte_eq_some_iff.mp hLast with
        ⟨_, hFront⟩
      rcases Text.splitAtByte_eq_some_iff.mp hFirst with
        ⟨hParts, hLeft⟩
      rw [hParts, Text.byteLength_append] at hFront
      omega

/- The same text is cut out, or none in both cases. -/
theorem slice_encoded
    (s : CharStream)
    (first last : Nat) :
    s.encoded.slice first last = s.slice first last := by
  unfold EncodedStream.slice slice
  split
  · rename_i hOrder
    rcases Nat.exists_eq_add_of_le hOrder with ⟨n, rfl⟩
    have hSplit := Text.splitAtByte_add first n s.content
    have hCut :
        s.encoded.cut? first (first + n) =
          (Text.splitAtByte first s.content).bind
            fun parts =>
              (Text.splitAtByte n parts.2).map Prod.fst := by
      have hSnd := congrArg (Option.map Prod.snd) hSplit
      rw [Option.map_bind, Option.map_bind] at hSnd
      rw [EncodedStream.cut?, encoded, String.toList_ofList]
      simpa [Function.comp_def, Option.map_eq_bind,
        Option.bind_assoc] using hSnd
    rw [hCut, Nat.add_sub_cancel_left]
    cases Text.splitAtByte first s.content with
    | none => rfl
    | some parts =>
        rcases parts with ⟨front, tail⟩
        simp only [Option.bind_some]
        cases Text.splitAtByte n tail with
        | none => rfl
        | some cut => rfl
  · rename_i hOrder
    rw [cut?_of_lt _ (Nat.lt_of_not_le hOrder)]
    rfl

end CharStream

end LosslessCss

------------------------------------------------------------
-- Runs
------------------------------------------------------------

namespace LosslessCss

namespace EncodedStream

/- What can be done with a stream. -/
inductive Step where
  | load (text : String)
  | read
  | next
  | peek (n : Nat)
  | rewind
  | close
deriving DecidableEq

/- The stream after one step, unless the step fails. -/
def step?
    (s : EncodedStream) : Step → Option EncodedStream
| .load text => some (s.load text)
| .read => s.read?.map fun _ => s
| .next => s.next?.map Prod.snd
| .peek n => (s.peek? n).map fun _ => s
| .rewind => some s.rewind
| .close => some s.close

/- The stream after some steps, unless one of them fails. -/
def run?
    (s : EncodedStream)
    (steps : List Step) : Option EncodedStream :=
  steps.foldlM step? s

/- The next `n` readings, and the stream after them. -/
def readings? :
    Nat → EncodedStream →
      Option (List Reading × EncodedStream)
| 0, s => some ([], s)
| n + 1, s => do
    let (r, next) ← s.next?
    let (rs, last) ← readings? n next
    return (r :: rs, last)

/- Every step leads from encoded characters to others. -/
theorem exists_step?_encoded
    (c : CharStream)
    (step : Step) :
    ∃ d : CharStream,
      c.encoded.step? step = some d.encoded := by
  cases step with
  | load text =>
      exact
        ⟨c.load text, congrArg some (c.load_encoded text)⟩
  | read =>
      exact ⟨c, by rw [step?, c.read?_encoded]; rfl⟩
  | next =>
      exact ⟨c.skip, by rw [step?, c.next?_encoded]; rfl⟩
  | peek n =>
      exact ⟨c, by rw [step?, c.peek?_encoded]; rfl⟩
  | rewind =>
      exact ⟨c.rewind, congrArg some c.rewind_encoded⟩
  | close =>
      exact ⟨c.close, congrArg some c.close_encoded⟩

/- No step of a run fails, and characters stay encoded. -/
theorem exists_run?_encoded
    (c : CharStream)
    (steps : List Step) :
    ∃ d : CharStream,
      c.encoded.run? steps = some d.encoded := by
  induction steps generalizing c with
  | nil => exact ⟨c, rfl⟩
  | cons step steps ih =>
      rcases exists_step?_encoded c step with ⟨d, hStep⟩
      rcases ih d with ⟨last, hRun⟩
      refine ⟨last, ?_⟩
      rw [run?, List.foldlM_cons, hStep]
      exact hRun

end EncodedStream

end LosslessCss

------------------------------------------------------------
-- Successive Readings
------------------------------------------------------------

namespace LosslessCss

namespace CharStream

/- Looking past a character is looking one place further. -/
theorem peek_skip
    (s : CharStream)
    (n : Nat) :
    s.skip.peek n = s.peek (n + 1) := by
  unfold peek skip
  cases hAhead : s.ahead with
  | nil => simp [hAhead]
  | cons c cs => simp [dry]

theorem read_eq_peek
    (s : CharStream) :
    s.read = s.peek 0 := by
  unfold read peek
  cases s.ahead with
  | nil => rfl
  | cons c cs => rfl

/- A cursor that moves on shows what was ahead of it. -/
theorem read_iterate_skip
    (n : Nat)
    (s : CharStream) :
    (skip^[n] s).read = s.peek n := by
  induction n generalizing s with
  | zero => exact s.read_eq_peek
  | succ n ih =>
      rw [Function.iterate_succ_apply, ih, peek_skip]

/- Moving on takes the characters one after another. -/
theorem iterate_skip
    (n : Nat)
    (s : CharStream) :
    skip^[n] s = s.pass (s.ahead.take n) (s.ahead.drop n) := by
  induction n generalizing s with
  | zero => rfl
  | succ n ih =>
      rw [Function.iterate_succ_apply, ih]
      cases hAhead : s.ahead with
      | nil => simp [skip, pass, hAhead]
      | cons c cs => simp [skip, pass, hAhead]

/- Successive readings show one place after another. -/
theorem readings?_encoded
    (n : Nat)
    (s : CharStream) :
    s.encoded.readings? n =
      some
        ((List.range n).map s.peek,
          (skip^[n] s).encoded) := by
  induction n generalizing s with
  | zero => rfl
  | succ n ih =>
      rw [EncodedStream.readings?, next?_encoded,
        List.range_succ_eq_map, Function.iterate_succ_apply]
      simp [ih, read_eq_peek, peek_skip, Function.comp_def]

/- The characters that successive readings show. -/
theorem filterMap_char?_peek
    (n : Nat)
    (s : CharStream) :
    ((List.range n).map s.peek).filterMap Reading.char? =
      s.ahead.take n := by
  induction n with
  | zero => rfl
  | succ n ih =>
      rw [List.range_succ, List.map_append,
        List.filterMap_append, ih, List.take_add_one]
      congr 1
      unfold peek
      cases hChar : s.ahead[n]? with
      | none => simp [hChar, s.char?_dry]
      | some c => simp [hChar, Reading.char?]

end CharStream

namespace EncodedStream

/-
  Whatever is done with a new stream, its cursor stays at a
  boundary between characters, so that no look at the text
  fails.  Looking ahead shows what will be read, the stream
  knows when it has run dry or has ended, and what has been
  moved over can be cut out again.
-/
theorem cursor_between_characters
    (steps : List Step) :
    ∃ s, empty.run? steps = some s ∧
      s.position ≤ s.text.utf8ByteSize ∧
      String.Pos.Raw.IsValid s.text ⟨s.position⟩ ∧
      (∃ r, s.read? = some r ∧
        (s.exhausted = true ↔ r.char? = none) ∧
        (s.finished = true ↔ r = .ended)) ∧
      ∀ n, ∃ rs t,
        s.readings? n = some (rs, t) ∧
          (∃ r u,
            t.next? = some (r, u) ∧
              s.peek? n = some r) ∧
          t.slice s.position t.position =
            String.ofList (rs.filterMap Reading.char?) := by
  rcases exists_run?_encoded CharStream.empty steps with
    ⟨c, hRun⟩
  have hValid := c.isValid_position_encoded
  refine
    ⟨c.encoded, hRun, hValid.le_utf8ByteSize, hValid,
      ⟨c.read, c.read?_encoded, ?_, ?_⟩, fun n =>
      ⟨_, _, c.readings?_encoded n,
        ⟨_, _, CharStream.next?_encoded _, ?_⟩, ?_⟩⟩
  · rw [c.exhausted_encoded]
    unfold CharStream.exhausted CharStream.read
    cases c.ahead with
    | nil => simp [c.char?_dry]
    | cons _ _ => simp [Reading.char?]
  · rw [c.finished_encoded]
    unfold CharStream.finished CharStream.exhausted
      CharStream.read
    cases c.ahead with
    | nil => simp [CharStream.dry]
    | cons _ _ => simp
  · rw [c.peek?_encoded, CharStream.read_iterate_skip]
  · rw [CharStream.slice_encoded, c.filterMap_char?_peek,
      CharStream.iterate_skip]
    exact c.slice_pass _ _

end EncodedStream

end LosslessCss
