import LosslessCss.Proofs.Form
import LosslessCss.Proofs.TokenKinds
import LosslessCss.Proofs.Yielding

/-
  The routines of the grammar recognize the forms.

  For every routine, what it yields is what has the matching
  form.  Each result is an equivalence: a routine finds no
  form that is not there, and misses none.

  Key theorems include:
    * `Grammar.yields_span`
    * `Grammar.yields_chunksWhile`
    * `Grammar.yields_fragment`
    * `Grammar.yields_statementValue`
    * `Grammar.yields_blockParameters`
-/

------------------------------------------------------------
-- Spans and Chunks
------------------------------------------------------------

namespace LosslessCss

open TokenSource (Passes upcoming)

namespace Grammar

variable {σ : Type} [TokenSource σ]

/- A span that has been read has the form of one. -/
theorem form_of_yields_span
    {closer : Closer}
    {s s' : σ}
    {text : String}
    (h : (span closer).Yields s text s') :
    ∃ ts, Passes s ts s' ∧ Form.SpanRest closer ts ∧
      text = Token.rawText ts := by
  induction s using TokenSource.remaining_induction
    generalizing closer s' text with
  | step s ih =>
      rw [span_eq, Parser.yields_bind_current] at h
      split at h
      · rename_i hCloses
        rw [Parser.yields_bind_advance,
          Parser.yields_pure] at h
        rcases h with ⟨rfl, rfl⟩
        refine
          ⟨[TokenSource.current s], ?_, .close hCloses, ?_⟩
        · simp [isEof_of_closes hCloses]
        · simp [Token.rawText]
      · rename_i hCloses
        split at h
        · exact absurd h Parser.yields_fail
        · rename_i hEof
          have hEof :
              (TokenSource.current s).isEof = false := by
            simpa using hEof
          have hNext :=
            TokenSource.remaining_advance_lt s hEof
          split at h
          · rename_i hOpens
            rw [Parser.yields_bind_advance,
              Parser.yields_bind] at h
            rcases h with ⟨tail, m, hTail, hPure⟩
            rw [Parser.yields_pure] at hPure
            rcases hPure with ⟨rfl, rfl⟩
            rcases ih _ hNext hTail with
              ⟨ts, hPasses, hForm, rfl⟩
            exact
              ⟨TokenSource.current s :: ts,
                ⟨rfl, hEof, hPasses⟩,
                .plain (by simpa using hCloses) hOpens hForm,
                rfl⟩
          · rename_i opener hOpens
            rw [Parser.yields_bind_enter,
              Parser.yields_bind_advance,
              Parser.yields_bind] at h
            rcases h with ⟨body, m, hBody, hAfter⟩
            rw [Parser.yields_bind] at hAfter
            rcases hAfter with ⟨tail, n, hTail, hPure⟩
            rw [Parser.yields_pure] at hPure
            rcases hPure with ⟨rfl, rfl⟩
            rcases ih _ hNext hBody with
              ⟨us, hPassesBody, hFormBody, rfl⟩
            have hMiddle :=
              Nat.lt_of_le_of_lt
                hPassesBody.remaining_le hNext
            rcases ih _ hMiddle hTail with
              ⟨ts, hPassesTail, hFormTail, rfl⟩
            refine
              ⟨TokenSource.current s :: (us ++ ts),
                ⟨rfl, hEof, hPassesBody.append hPassesTail⟩,
                .nested hOpens hFormBody hFormTail, ?_⟩
            simp [Token.rawText, Token.rawText_append,
              String.append_assoc]

/- What has the form of a span is read as one. -/
theorem yields_span_of_form
    {closer : Closer}
    {s s' : σ}
    {ts : List Token}
    (hForm : Form.SpanRest closer ts)
    (hPasses : Passes s ts s') :
    (span closer).Yields s (Token.rawText ts) s' := by
  induction hForm generalizing s s' with
  | close hCloses =>
      rw [span_eq, Parser.yields_bind_current]
      rcases hPasses with ⟨rfl, _, rfl⟩
      rw [if_pos hCloses, Parser.yields_bind_advance,
        Parser.yields_pure]
      simp [Token.rawText]
  | plain hCloses hOpens hRest ih =>
      rw [span_eq, Parser.yields_bind_current]
      rcases hPasses with ⟨rfl, hEof, hTail⟩
      simp only [hCloses, hEof, hOpens, Bool.false_eq_true,
        if_false]
      rw [Parser.yields_bind_advance, Parser.yields_bind]
      exact ⟨_, s', ih hTail, by simp [Token.rawText]⟩
  | nested hOpens hBody hRest ihBody ihRest =>
      rw [span_eq, Parser.yields_bind_current]
      rcases hPasses with ⟨rfl, hEof, hTail⟩
      rcases TokenSource.passes_append.mp hTail with
        ⟨m, hPassesBody, hPassesRest⟩
      simp only [closes_of_opens? hOpens, hEof, hOpens,
        Bool.false_eq_true, if_false]
      rw [Parser.yields_bind_enter,
        Parser.yields_bind_advance, Parser.yields_bind]
      refine ⟨_, m, ihBody hPassesBody, ?_⟩
      rw [Parser.yields_bind]
      refine ⟨_, s', ihRest hPassesRest, ?_⟩
      simp [Token.rawText, Token.rawText_append,
        String.append_assoc]

/- Reading a span is recognizing its form. -/
theorem yields_span
    {closer : Closer}
    {s s' : σ}
    {text : String} :
    (span closer).Yields s text s' ↔
      ∃ ts, Passes s ts s' ∧ Form.SpanRest closer ts ∧
        text = Token.rawText ts := by
  constructor
  · exact form_of_yields_span
  · intro h
    rcases h with ⟨ts, hPasses, hForm, rfl⟩
    exact yields_span_of_form hForm hPasses

/- A chunk is a token, or a span with its first token. -/
theorem yields_chunk
    {opens : Token → Option Opener}
    {s s' : σ}
    {c : Chunk} :
    (chunk opens).Yields s c s' ↔
      (opens (TokenSource.current s) = none ∧
        c = ⟨TokenSource.current s,
          (TokenSource.current s).raw⟩ ∧
        s' = TokenSource.advance s) ∨
      ∃ opener body,
        opens (TokenSource.current s) = some opener ∧
          Passes (TokenSource.advance s) body s' ∧
          Form.SpanRest opener.closer body ∧
          c = ⟨TokenSource.current s,
            (TokenSource.current s).raw ++
              Token.rawText body⟩ := by
  unfold chunk
  rw [Parser.yields_bind_current]
  split
  · rename_i hOpens
    rw [Parser.yields_bind_advance, Parser.yields_pure]
    simp [hOpens]
  · rename_i opener hOpens
    rw [Parser.yields_bind_enter,
      Parser.yields_bind_advance, Parser.yields_bind]
    simp only [Parser.yields_pure, yields_span]
    constructor
    · intro h
      rcases h with
        ⟨_, m, ⟨body, hPasses, hForm, rfl⟩, rfl, rfl⟩
      exact
        .inr ⟨opener, body, hOpens, hPasses, hForm, rfl⟩
    · rintro (⟨hNone, _⟩ | ⟨other, body, hOther, hPasses,
        hForm, rfl⟩)
      · rw [hOpens] at hNone
        cases hNone
      · rw [hOpens] at hOther
        cases hOther
        exact
          ⟨_, s', ⟨body, hPasses, hForm, rfl⟩, rfl, rfl⟩

/- Chunks that have been read have the form of chunks. -/
theorem form_of_yields_chunksWhile
    {opens : Token → Option Opener}
    {p : Token → Bool}
    {s s' : σ}
    {chunks : List Chunk}
    (h : (chunksWhile opens p).Yields s chunks s') :
    ∃ ts, Passes s ts s' ∧
      Form.Chunks opens p ts chunks ∧
      Token.Stops p (upcoming s') := by
  induction chunks generalizing s with
  | nil =>
      rw [chunksWhile_eq, Parser.yields_bind_current] at h
      split at h
      · simp only [Parser.yields_bind,
          Parser.yields_pure] at h
        rcases h with ⟨_, _, _, _, _, _, hCons, _⟩
        cases hCons
      · rename_i hTest
        rcases Parser.yields_pure.mp h with ⟨_, rfl⟩
        exact
          ⟨[], rfl, .nil,
            stops_upcoming_iff.mpr (by simpa using hTest)⟩
  | cons c chunks ih =>
      rw [chunksWhile_eq, Parser.yields_bind_current] at h
      split at h
      · rename_i hTest
        simp only [Bool.and_eq_true, Bool.not_eq_true']
          at hTest
        simp only [Parser.yields_bind,
          Parser.yields_pure] at h
        rcases h with
          ⟨first, m, hFirst, tail, n, hTail, hCons, rfl⟩
        cases hCons
        rcases ih hTail with ⟨ts, hPasses, hForm, hStops⟩
        rcases yields_chunk.mp hFirst with
          ⟨hOpens, rfl, rfl⟩ |
          ⟨opener, body, hOpens, hBody, hRest, rfl⟩
        · exact
            ⟨TokenSource.current s :: ts,
              ⟨rfl, hTest.1, hPasses⟩,
              .token hOpens hTest.2 hForm, hStops⟩
        · exact
            ⟨TokenSource.current s :: (body ++ ts),
              ⟨rfl, hTest.1, hBody.append hPasses⟩,
              .span hOpens hTest.2 hRest hForm, hStops⟩
      · cases (Parser.yields_pure.mp h).1

/- What has the form of chunks is read as chunks. -/
theorem yields_chunksWhile_of_form
    {opens : Token → Option Opener}
    {p : Token → Bool}
    {s s' : σ}
    {ts : List Token}
    {chunks : List Chunk}
    (hForm : Form.Chunks opens p ts chunks)
    (hPasses : Passes s ts s')
    (hStops : Token.Stops p (upcoming s')) :
    (chunksWhile opens p).Yields s chunks s' := by
  induction hForm generalizing s with
  | nil =>
      rcases hPasses with rfl
      rw [stops_upcoming_iff] at hStops
      rw [chunksWhile_eq, Parser.yields_bind_current]
      simp [hStops]
  | token hOpens hFirst hRest ih =>
      rcases hPasses with ⟨rfl, hEof, hTail⟩
      rw [chunksWhile_eq, Parser.yields_bind_current]
      simp only [hEof, hFirst, Bool.not_false, Bool.and_self,
        if_true, Parser.yields_bind, Parser.yields_pure]
      exact
        ⟨_, _, yields_chunk.mpr (.inl ⟨hOpens, rfl, rfl⟩),
          _, s', ih hTail, rfl, rfl⟩
  | span hOpens hFirst hBody hRest ih =>
      rcases hPasses with ⟨rfl, hEof, hTail⟩
      rcases TokenSource.passes_append.mp hTail with
        ⟨m, hPassesBody, hPassesRest⟩
      rw [chunksWhile_eq, Parser.yields_bind_current]
      simp only [hEof, hFirst, Bool.not_false, Bool.and_self,
        if_true, Parser.yields_bind, Parser.yields_pure]
      exact
        ⟨_, m,
          yields_chunk.mpr
            (.inr ⟨_, _, hOpens, hPassesBody, hBody, rfl⟩),
          _, s', ih hPassesRest, rfl, rfl⟩

/- Reading chunks is recognizing their form. -/
theorem yields_chunksWhile
    {opens : Token → Option Opener}
    {p : Token → Bool}
    {s s' : σ}
    {chunks : List Chunk} :
    (chunksWhile opens p).Yields s chunks s' ↔
      ∃ ts, Passes s ts s' ∧
        Form.Chunks opens p ts chunks ∧
        Token.Stops p (upcoming s') := by
  constructor
  · exact form_of_yields_chunksWhile
  · intro h
    rcases h with ⟨ts, hPasses, hForm, hStops⟩
    exact yields_chunksWhile_of_form hForm hPasses hStops

/- Reading a fragment is recognizing its form. -/
theorem yields_fragment
    {ends : Token → Bool}
    {s s' : σ}
    {pieces : List Piece} :
    (fragment ends).Yields s pieces s' ↔
      ∃ ts, Passes s ts s' ∧
        Form.Fragment ends ts (upcoming s') pieces := by
  unfold fragment
  rw [Parser.yields_bind_enter]
  simp only [Parser.yields_bind, Parser.yields_pure,
    yields_filler, yields_chunksWhile]
  constructor
  · intro h
    rcases h with
      ⟨_, m, ⟨leading, hLeading, hFillers, hStop, rfl⟩,
        chunks, _, ⟨body, hBody, hForm, hEnds⟩, rfl, rfl⟩
    rw [hBody.upcoming_eq] at hStop
    exact
      ⟨leading ++ body, hLeading.append hBody, leading, body,
        chunks, rfl, hFillers, hStop, hForm, hEnds, rfl⟩
  · intro h
    rcases h with
      ⟨_, hPasses, leading, body, chunks, rfl, hFillers,
        hStop, hForm, hEnds, rfl⟩
    rcases TokenSource.passes_append.mp hPasses with
      ⟨m, hLeading, hBody⟩
    rw [← hBody.upcoming_eq] at hStop
    exact
      ⟨_, m, ⟨leading, hLeading, hFillers, hStop, rfl⟩,
        chunks, s', ⟨body, hBody, hForm, hEnds⟩, rfl, rfl⟩

end Grammar

end LosslessCss

------------------------------------------------------------
-- Statements
------------------------------------------------------------

namespace LosslessCss

open TokenSource (Passes upcoming)

namespace Grammar

variable {σ : Type} [TokenSource σ]

/- Reading an address is recognizing its form. -/
theorem yields_address
    {kind : ErrorKind}
    {s s' : σ}
    {piece : Piece} :
    (address kind).Yields s piece s' ↔
      ∃ ts, Passes s ts s' ∧ Form.Address ts piece := by
  unfold address
  rw [Parser.yields_bind_current]
  constructor
  · intro h
    split at h
    · rename_i hPlain
      rw [Parser.yields_bind_advance,
        Parser.yields_pure] at h
      rcases h with ⟨rfl, rfl⟩
      exact
        ⟨[TokenSource.current s],
          ⟨rfl, isEof_of_test hPlain fun _ _ => rfl, rfl⟩,
          .token hPlain⟩
    · split at h
      · rename_i hUrl
        simp only [Parser.yields_bind, yields_chunk,
          Parser.yields_pure,
          opensFunction?_of_isUrlFunction hUrl] at h
        rcases h with
          ⟨_, m, ⟨hNone, _⟩ |
            ⟨_, body, hOpens, hPasses, hForm, rfl⟩,
            rfl, rfl⟩
        · cases hNone
        · cases hOpens
          exact
            ⟨TokenSource.current s :: body,
              ⟨rfl, isEof_of_test hUrl fun _ _ => rfl,
                hPasses⟩,
              .call hUrl hForm⟩
      · exact absurd h Parser.yields_fail
  · intro h
    rcases h with ⟨ts, hPasses, hForm⟩
    cases hForm with
    | token hPlain =>
        rcases hPasses with ⟨rfl, _, rfl⟩
        rw [if_pos hPlain, Parser.yields_bind_advance,
          Parser.yields_pure]
        exact ⟨rfl, rfl⟩
    | call hUrl hBody =>
        rcases hPasses with ⟨rfl, _, hTail⟩
        simp only [isPlainAddress_of_isUrlFunction hUrl, hUrl,
          Bool.false_eq_true, if_false, if_true]
        have hCall :=
          yields_chunk.mpr
            (.inr
              ⟨_, _, opensFunction?_of_isUrlFunction hUrl,
                hTail, hBody, rfl⟩)
        rw [Parser.yields_bind]
        exact
          ⟨_, s', hCall, Parser.yields_pure.mpr ⟨rfl, rfl⟩⟩

/- A run that takes no terminator stops at the end. -/
theorem stops_of_end
    {p : Token → Bool}
    {mark rest : List Token}
    (hEnd : Form.End mark rest)
    (hSemicolon : ∀ t, t.kind = .semicolon → p t = false)
    (hRight : ∀ t, t.kind = .rightCurly → p t = false) :
    Token.Stops p (mark ++ rest) := by
  cases hEnd with
  | semicolon hKind => simp [hSemicolon _ hKind]
  | nothing hRest =>
      intro t hMem
      exact hRight t (isRightCurly_iff_kind.mp (hRest t hMem))

theorem stops_isFiller_of_end
    {mark rest : List Token}
    (hEnd : Form.End mark rest) :
    Token.Stops Token.isFiller (mark ++ rest) := by
  apply stops_of_end hEnd
  · intro t hKind
    simp [Token.isFiller, Token.isWhitespace,
      Token.isComment, hKind]
  · intro t hKind
    simp [Token.isFiller, Token.isWhitespace,
      Token.isComment, hKind]

/-
  Without a semicolon, a right brace or the end of the input
  follows.
-/
theorem end_nothing_iff
    {s : σ} :
    Form.End [] (upcoming s) ↔
      (TokenSource.current s).kind = .eof ∨
        (TokenSource.current s).kind = .rightCurly := by
  have hEnd :
      Form.End [] (upcoming s) ↔
        ∀ t ∈ (upcoming s).head?, isRightCurly t = true := by
    constructor
    · intro h
      cases h
      assumption
    · exact .nothing
  rw [hEnd, TokenSource.head?_upcoming, ← isEof_iff_kind,
    ← isRightCurly_iff_kind]
  cases (TokenSource.current s).isEof with
  | true => simp
  | false => simp

/- Reading the end of a statement is recognizing its form. -/
theorem yields_statementEnd
    {pieces value : List Piece}
    {kind : ErrorKind}
    {s s' : σ} :
    (statementEnd pieces kind).Yields s value s' ↔
      ∃ inner mark, Passes s (inner ++ mark) s' ∧
        Form.Fillers inner ∧ Form.End mark (upcoming s') ∧
        value =
          Piece.pushFiller
            (Piece.pushFiller pieces (Token.rawText inner))
            (Token.rawText mark) := by
  unfold statementEnd
  constructor
  · intro h
    rcases Parser.yields_bind.mp h with ⟨_, m, hBlank, hEnd⟩
    rcases yields_filler.mp hBlank with
      ⟨inner, hInner, hFillers, _, rfl⟩
    rw [Parser.yields_bind_current] at hEnd
    split at hEnd
    · rename_i hKind
      rw [Parser.yields_bind_advance,
        Parser.yields_pure] at hEnd
      rcases hEnd with ⟨rfl, rfl⟩
      have hMark :
          Passes m [TokenSource.current m]
            (TokenSource.advance m) := by
        simp [Token.isEof, hKind]
      exact
        ⟨inner, _, hInner.append hMark, hFillers,
          .semicolon hKind, by simp [Token.rawText]⟩
    · rename_i hKind
      rcases Parser.yields_pure.mp hEnd with ⟨rfl, rfl⟩
      exact
        ⟨inner, [], by simpa using hInner, hFillers,
          end_nothing_iff.mpr (.inl hKind),
          by simp [Token.rawText, Piece.pushFiller]⟩
    · rename_i hKind
      rcases Parser.yields_pure.mp hEnd with ⟨rfl, rfl⟩
      exact
        ⟨inner, [], by simpa using hInner, hFillers,
          end_nothing_iff.mpr (.inr hKind),
          by simp [Token.rawText, Piece.pushFiller]⟩
    · exact absurd hEnd Parser.yields_fail
  · intro h
    rcases h with
      ⟨inner, mark, hPasses, hFillers, hEnd, rfl⟩
    rcases TokenSource.passes_append.mp hPasses with
      ⟨m, hInner, hMark⟩
    have hBlank :
        (filler : Parser σ String).Yields s
          (Token.rawText inner) m := by
      refine
        yields_filler.mpr ⟨inner, hInner, hFillers, ?_, rfl⟩
      rw [hMark.upcoming_eq]
      exact stops_isFiller_of_end hEnd
    rw [Parser.yields_bind]
    refine ⟨_, m, hBlank, ?_⟩
    rw [Parser.yields_bind_current]
    cases hEnd with
    | semicolon hKind =>
        rcases hMark with ⟨rfl, _, rfl⟩
        rw [hKind]
        simp [Parser.yields_bind_advance, Token.rawText]
    | nothing hRest =>
        rcases hMark with rfl
        rcases end_nothing_iff.mp (.nothing hRest) with
          hKind | hKind
        · rw [hKind]
          simp [Token.rawText, Piece.pushFiller]
        · rw [hKind]
          simp [Token.rawText, Piece.pushFiller]

/- Reading an encoding is recognizing its form. -/
theorem yields_charsetValue
    {s s' : σ}
    {pieces : List Piece} :
    (charsetValue : Parser σ (List Piece)).Yields
        s pieces s' ↔
      ∃ ts, Passes s ts s' ∧
        Form.Statement .charsetRule ts (upcoming s')
          pieces := by
  unfold charsetValue
  rw [Parser.yields_bind_enter]
  constructor
  · intro h
    rcases Parser.yields_bind.mp h with ⟨_, m, hBlank, hRest⟩
    rcases yields_filler.mp hBlank with
      ⟨blank, hPasses, hFillers, _, rfl⟩
    rw [Parser.yields_bind_current] at hRest
    split at hRest
    · rename_i hQuoted
      rw [Parser.yields_bind_advance,
        yields_statementEnd] at hRest
      rcases hRest with
        ⟨inner, mark, hTail, hInner, hEnd, rfl⟩
      have hToken :
          Passes m
            (TokenSource.current m :: (inner ++ mark)) s' :=
        ⟨rfl, isEof_of_test hQuoted fun _ _ => rfl, hTail⟩
      exact
        ⟨_, hPasses.append hToken,
          .charsetRule hFillers hQuoted hInner hEnd⟩
    · exact absurd hRest Parser.yields_fail
  · intro h
    rcases h with ⟨ts, hPasses, hForm⟩
    cases hForm with
    | charsetRule hFillers hQuoted hInner hEnd =>
        rcases TokenSource.passes_append.mp hPasses with
          ⟨m, hBlank, hRest⟩
        have hStops :
            Token.Stops Token.isFiller (upcoming m) := by
          rw [hRest.upcoming_eq]
          simp [isFiller_of_isDoubleQuoted hQuoted]
        rw [Parser.yields_bind]
        refine
          ⟨_, m,
            yields_filler.mpr
              ⟨_, hBlank, hFillers, hStops, rfl⟩, ?_⟩
        rcases hRest with ⟨rfl, _, hTail⟩
        rw [Parser.yields_bind_current, if_pos hQuoted,
          Parser.yields_bind_advance, yields_statementEnd]
        exact ⟨_, _, hTail, hInner, hEnd, rfl⟩

/- An address starts with a token of its own. -/
theorem stops_of_address
    {p : Token → Bool}
    {ts rest : List Token}
    {piece : Piece}
    (hForm : Form.Address ts piece)
    (hPlain : ∀ t, isPlainAddress t = true → p t = false)
    (hUrl : ∀ t, isUrlFunction t = true → p t = false) :
    Token.Stops p (ts ++ rest) := by
  cases hForm with
  | token h => simp [hPlain _ h]
  | call h _ => simp [hUrl _ h]

theorem stops_isFiller_of_address
    {ts rest : List Token}
    {piece : Piece}
    (hForm : Form.Address ts piece) :
    Token.Stops Token.isFiller (ts ++ rest) := by
  apply stops_of_address hForm
  · intro t h
    unfold isPlainAddress at h
    unfold Token.isFiller Token.isWhitespace Token.isComment
    split at h <;> simp_all
  · intro t h
    unfold isUrlFunction at h
    unfold Token.isFiller Token.isWhitespace Token.isComment
    split at h <;> simp_all

theorem stops_isIdent_of_address
    {ts rest : List Token}
    {piece : Piece}
    (hForm : Form.Address ts piece) :
    Token.Stops Token.isIdent (ts ++ rest) := by
  apply stops_of_address hForm
  · intro t h
    unfold isPlainAddress at h
    unfold Token.isIdent
    split at h <;> simp_all
  · intro t h
    unfold isUrlFunction at h
    unfold Token.isIdent
    split at h <;> simp_all

/- No formatting stands where conditions end. -/
theorem eq_nil_of_stops_endsImport
    {inner rest : List Token}
    (hInner : Form.Fillers inner)
    (hStops :
      Token.Stops (fun t => !endsImport t) (inner ++ rest)) :
    inner = [] := by
  cases inner with
  | nil => rfl
  | cons t inner =>
      have hFiller := hInner t (by simp)
      have hEnds : endsImport t = true := by
        simpa using hStops
      unfold Token.isFiller Token.isWhitespace
        Token.isComment at hFiller
      unfold endsImport at hEnds
      split at hEnds <;> simp_all

/- Reading an import is recognizing its form. -/
theorem yields_importValue
    {s s' : σ}
    {pieces : List Piece} :
    (importValue : Parser σ (List Piece)).Yields
        s pieces s' ↔
      ∃ ts, Passes s ts s' ∧
        Form.Statement .importRule ts (upcoming s')
          pieces := by
  unfold importValue
  rw [Parser.yields_bind_enter]
  constructor
  · intro h
    simp only [Parser.yields_bind, yields_filler,
      yields_address, yields_fragment,
      yields_statementEnd] at h
    rcases h with
      ⟨_, a, ⟨blank, hBlank, hFillers, _, rfl⟩,
        url, b, ⟨us, hUrl, hAddress⟩,
        _, c, ⟨conditions, hConditions, hFragment⟩,
        inner, mark, hTail, hInner, hEnd, rfl⟩
    have hNone : inner = [] := by
      rcases hFragment with ⟨_, _, _, _, _, _, _, hStops, _⟩
      rw [hTail.upcoming_eq, List.append_assoc] at hStops
      exact eq_nil_of_stops_endsImport hInner hStops
    subst hNone
    rw [hTail.upcoming_eq] at hFragment
    exact
      ⟨_, hBlank.append
          (hUrl.append (hConditions.append hTail)),
        .importRule hFillers hAddress hFragment hEnd⟩
  · intro h
    rcases h with ⟨ts, hPasses, hForm⟩
    cases hForm with
    | importRule hFillers hAddress hFragment hEnd =>
        rcases TokenSource.passes_append.mp hPasses with
          ⟨a, hBlank, hAfterBlank⟩
        rcases TokenSource.passes_append.mp hAfterBlank with
          ⟨b, hUrl, hAfterUrl⟩
        rcases TokenSource.passes_append.mp hAfterUrl with
          ⟨c, hConditions, hMark⟩
        have hStops :
            Token.Stops Token.isFiller (upcoming a) := by
          rw [hUrl.upcoming_eq]
          exact stops_isFiller_of_address hAddress
        rw [← hMark.upcoming_eq] at hFragment
        simp only [Parser.yields_bind, yields_filler,
          yields_address, yields_fragment,
          yields_statementEnd]
        exact
          ⟨_, a, ⟨_, hBlank, hFillers, hStops, rfl⟩,
            _, b, ⟨_, hUrl, hAddress⟩,
            _, c, ⟨_, hConditions, hFragment⟩,
            [], _, hMark, by simp [Form.Fillers], hEnd,
            by simp [Token.rawText, Piece.pushFiller]⟩

/- Reading the name before an address. -/
theorem form_of_yields_namespaceName
    {s s' : σ}
    {pieces : List Piece}
    (h :
      (namespaceName : Parser σ (List Piece)).Yields
        s pieces s') :
    ∃ ts, Passes s ts s' ∧ Form.Alias ts pieces := by
  unfold namespaceName at h
  rcases Parser.yields_bind.mp h with ⟨_, m, hBlank, hRest⟩
  rcases yields_filler.mp hBlank with
    ⟨blank, hPasses, hFillers, _, rfl⟩
  rw [Parser.yields_bind_current] at hRest
  split at hRest
  · rename_i hIdent
    rw [Parser.yields_bind_advance,
      Parser.yields_bind] at hRest
    rcases hRest with ⟨_, n, hInner, hPure⟩
    rcases yields_filler.mp hInner with
      ⟨inner, hPassesInner, hFillersInner, _, rfl⟩
    rcases Parser.yields_pure.mp hPure with ⟨rfl, rfl⟩
    have hToken :
        Passes m (TokenSource.current m :: inner) s' :=
      ⟨rfl, isEof_of_test hIdent fun _ _ => rfl, hPassesInner⟩
    exact
      ⟨_, hPasses.append hToken,
        .present hFillers hIdent hFillersInner⟩
  · rcases Parser.yields_pure.mp hRest with ⟨rfl, rfl⟩
    exact ⟨blank, hPasses, .absent hFillers⟩

/- A name is read where no formatting or name follows. -/
theorem yields_namespaceName_of_form
    {s s' : σ}
    {ts : List Token}
    {pieces : List Piece}
    (hForm : Form.Alias ts pieces)
    (hPasses : Passes s ts s')
    (hFiller : Token.Stops Token.isFiller (upcoming s'))
    (hName : Token.Stops Token.isIdent (upcoming s')) :
    (namespaceName : Parser σ (List Piece)).Yields
      s pieces s' := by
  unfold namespaceName
  rw [Parser.yields_bind]
  cases hForm with
  | absent hBlank =>
      refine
        ⟨_, s', yields_filler.mpr
          ⟨_, hPasses, hBlank, hFiller, rfl⟩, ?_⟩
      have hIdent :
          ¬ (TokenSource.current s').isIdent = true := by
        intro hIdent
        rw [stops_upcoming_iff, hIdent,
          isEof_of_test hIdent fun _ _ => rfl] at hName
        cases hName
      rw [Parser.yields_bind_current, if_neg hIdent,
        Parser.yields_pure]
      exact ⟨rfl, rfl⟩
  | present hBlank hIdent hInner =>
      rcases TokenSource.passes_append.mp hPasses with
        ⟨m, hPassesBlank, hAfter⟩
      have hStops :
          Token.Stops Token.isFiller (upcoming m) := by
        rw [hAfter.upcoming_eq]
        simp [isFiller_of_isIdent hIdent]
      refine
        ⟨_, m, yields_filler.mpr
          ⟨_, hPassesBlank, hBlank, hStops, rfl⟩, ?_⟩
      rcases hAfter with ⟨rfl, _, hTail⟩
      rw [Parser.yields_bind_current, if_pos hIdent,
        Parser.yields_bind_advance, Parser.yields_bind]
      exact
        ⟨_, s', yields_filler.mpr
          ⟨_, hTail, hInner, hFiller, rfl⟩,
          Parser.yields_pure.mpr ⟨rfl, rfl⟩⟩

/- Reading a namespace is recognizing its form. -/
theorem yields_namespaceValue
    {s s' : σ}
    {pieces : List Piece} :
    (namespaceValue : Parser σ (List Piece)).Yields
        s pieces s' ↔
      ∃ ts, Passes s ts s' ∧
        Form.Statement .namespaceRule ts (upcoming s')
          pieces := by
  unfold namespaceValue
  rw [Parser.yields_bind_enter]
  simp only [Parser.yields_bind, yields_address,
    yields_statementEnd]
  constructor
  · intro h
    rcases h with
      ⟨_, a, hName, url, b, ⟨us, hUrl, hAddress⟩, inner,
        mark, hTail, hInner, hEnd, rfl⟩
    rcases form_of_yields_namespaceName hName with
      ⟨name, hPassesName, hAlias⟩
    exact
      ⟨_, hPassesName.append (hUrl.append hTail),
        .namespaceRule hAlias hAddress hInner hEnd⟩
  · intro h
    rcases h with ⟨ts, hPasses, hForm⟩
    cases hForm with
    | namespaceRule hAlias hAddress hInner hEnd =>
        rcases TokenSource.passes_append.mp hPasses with
          ⟨a, hName, hAfterName⟩
        rcases TokenSource.passes_append.mp hAfterName with
          ⟨b, hUrl, hTail⟩
        refine
          ⟨_, a, yields_namespaceName_of_form hAlias hName
              ?_ ?_,
            _, b, ⟨_, hUrl, hAddress⟩,
            _, _, hTail, hInner, hEnd, rfl⟩
        · rw [hUrl.upcoming_eq]
          exact stops_isFiller_of_address hAddress
        · rw [hUrl.upcoming_eq]
          exact stops_isIdent_of_address hAddress

/- Reading a statement is recognizing its form. -/
theorem yields_statementValue
    {name : StatementRule}
    {s s' : σ}
    {pieces : List Piece} :
    (statementValue name).Yields s pieces s' ↔
      ∃ ts, Passes s ts s' ∧
        Form.Statement name ts (upcoming s') pieces := by
  cases name with
  | charsetRule => exact yields_charsetValue
  | importRule => exact yields_importValue
  | namespaceRule => exact yields_namespaceValue

/- Reading parameters is recognizing their form. -/
theorem yields_blockParameters
    {s s' : σ}
    {pieces : List Piece} :
    (blockParameters : Parser σ (List Piece)).Yields
        s pieces s' ↔
      ∃ ts left, Passes s (ts ++ [left]) s' ∧
        Form.Fragment isLeftCurly ts [left] pieces ∧
        isLeftCurly left = true := by
  unfold blockParameters
  rw [Parser.yields_bind_enter, Parser.yields_bind]
  simp only [Parser.yields_bind_current, yields_fragment]
  constructor
  · intro h
    rcases h with ⟨_, m, ⟨ts, hPasses, hFragment⟩, hAfter⟩
    split at hAfter
    · rename_i hLeft
      rw [Parser.yields_bind_advance,
        Parser.yields_pure] at hAfter
      rcases hAfter with ⟨rfl, rfl⟩
      have hEof := isEof_of_test hLeft fun _ _ => rfl
      rw [TokenSource.upcoming_of_not_isEof hEof,
        Form.fragment_congr_rest] at hFragment
      exact
        ⟨ts, _, hPasses.append ⟨rfl, hEof, rfl⟩,
          hFragment, hLeft⟩
    · exact absurd hAfter Parser.yields_fail
  · intro h
    rcases h with ⟨ts, left, hPasses, hFragment, hLeft⟩
    rcases TokenSource.passes_append.mp hPasses with
      ⟨m, hParameters, hToken⟩
    refine ⟨pieces, m, ⟨ts, hParameters, ?_⟩, ?_⟩
    · rw [hToken.upcoming_eq]
      exact Form.fragment_congr_rest.mpr hFragment
    · rcases hToken with ⟨rfl, _, rfl⟩
      rw [if_pos hLeft, Parser.yields_bind_advance,
        Parser.yields_pure]
      exact ⟨rfl, rfl⟩

end Grammar

end LosslessCss
