import LosslessCss.Proofs.Recognition
import LosslessCss.Proofs.Views

/-
  The grammar recognizes lists of items.

  A declaration and the selectors of a rule are read from an
  isolated run of tokens, all other parts from the source
  itself.

  Key theorems include:
    * `Grammar.yields_itemHead_leaf`
    * `Grammar.yields_itemHead_opening`
    * `Grammar.yields_items`
-/

------------------------------------------------------------
-- Isolated Runs
------------------------------------------------------------

namespace LosslessCss

open TokenSource (Passes upcoming)

namespace Grammar

variable {σ : Type} [TokenSource σ] {α : Type}

/-
  A parser that recognizes a form up to the end of its input
  succeeds where the rest of the input has that form.
-/
theorem outcome_eq_ok_iff
    {p : Parser σ α}
    {form : List Token → α → Prop}
    (hForm :
      ∀ {s s' value},
        p.Yields s value s' ↔
          ∃ ts, Passes s ts s' ∧ form ts value ∧
            upcoming s' = [])
    {s : σ}
    {value : α} :
    (p.run s).outcome = .ok value ↔
      form (upcoming s) value := by
  constructor
  · intro h
    rcases hForm.mp (Parser.yields_of_outcome h) with
      ⟨us, hPasses, hUs, hEnd⟩
    have hAll := hPasses.upcoming_eq
    rw [hEnd, List.append_nil] at hAll
    rw [hAll]
    exact hUs
  · intro hTs
    rcases TokenSource.exists_passes_upcoming s with
      ⟨m, hPasses, hEnd⟩
    exact (hForm.mpr ⟨_, hPasses, hTs, hEnd⟩).1

/- It recognizes the same form in an isolated run. -/
theorem exists_yields_slice_iff
    {p : Parser TokenSlice α}
    {form : List Token → α → Prop}
    (hForm :
      ∀ {s s' value},
        p.Yields s value s' ↔
          ∃ ts, Passes s ts s' ∧ form ts value ∧
            upcoming s' = [])
    {ts : List Token}
    (hEof : ∀ t ∈ ts, t.isEof = false)
    {fallback : Location}
    {value : α} :
    (∃ m, p.Yields (TokenSlice.ofTokens ts fallback)
        value m) ↔
      form ts value := by
  have hShown :
      upcoming (TokenSlice.ofTokens ts fallback) = ts := by
    rw [TokenSlice.upcoming_ofTokens]
    exact Token.untilEof_eq_self hEof
  have hOutcome :
      (p.run (TokenSlice.ofTokens ts fallback)).outcome =
          .ok value ↔
        form ts value := by
    rw [outcome_eq_ok_iff hForm, hShown]
  rw [← hOutcome]
  constructor
  · intro h
    rcases h with ⟨m, hYields⟩
    exact hYields.1
  · intro h
    exact ⟨_, Parser.yields_of_outcome h⟩

/- A run of all tokens stops at the end only. -/
theorem stops_all_iff
    {ts : List Token} :
    Token.Stops (fun _ => true) ts ↔ ts = [] := by
  cases ts with
  | nil => simp
  | cons t ts => simp

/- Reading a selector list is recognizing its form. -/
theorem yields_selectorList
    {s s' : σ}
    {pieces : List Piece} :
    (selectorList : Parser σ (List Piece)).Yields
        s pieces s' ↔
      ∃ ts, Passes s ts s' ∧
        (∃ chunks,
          Form.Chunks opens? (fun _ => true) ts chunks ∧
            pieces = arrangeSelectors chunks) ∧
        upcoming s' = [] := by
  unfold selectorList
  rw [Parser.yields_bind_enter]
  simp only [Parser.yields_bind, yields_chunksWhile,
    Parser.yields_pure, stops_all_iff]
  constructor
  · intro h
    rcases h with
      ⟨chunks, m, ⟨ts, hPasses, hChunks, hEnd⟩, rfl, rfl⟩
    exact ⟨ts, hPasses, ⟨chunks, hChunks, rfl⟩, hEnd⟩
  · intro h
    rcases h with
      ⟨ts, hPasses, ⟨chunks, hChunks, rfl⟩, hEnd⟩
    exact
      ⟨chunks, s', ⟨ts, hPasses, hChunks, hEnd⟩, rfl, rfl⟩

/- Reading a declaration is recognizing its form. -/
theorem yields_declaration
    {s s' : σ}
    {leaf : Leaf} :
    (declaration : Parser σ Leaf).Yields s leaf s' ↔
      ∃ ts, Passes s ts s' ∧ Form.Declaration ts leaf ∧
        upcoming s' = [] := by
  unfold declaration
  rw [Parser.yields_bind_enter, Parser.yields_bind_current]
  constructor
  · intro h
    split at h
    · rename_i hIdent
      rw [Parser.yields_bind_advance,
        Parser.yields_bind] at h
      rcases h with ⟨between, m, hBetween, hAfter⟩
      rcases yields_tokensWhile.mp hBetween with
        ⟨hPasses, hAll, _⟩
      rw [Parser.yields_bind_current] at hAfter
      split at hAfter
      · rename_i hColon
        rw [Parser.yields_bind_advance] at hAfter
        simp only [Parser.yields_bind, yields_chunksWhile,
          Parser.yields_pure, stops_all_iff] at hAfter
        rcases hAfter with
          ⟨chunks, n, ⟨value, hValue, hChunks, hEnd⟩,
            rfl, rfl⟩
        have hTail :
            Passes m (TokenSource.current m :: value) s' :=
          ⟨rfl, by simp [Token.isEof, hColon], hValue⟩
        exact
          ⟨_,
            .cons (isEof_of_test hIdent fun _ _ => rfl)
              (hPasses.append hTail),
            .intro hIdent hAll hColon hChunks, hEnd⟩
      · exact absurd hAfter Parser.yields_fail
    · exact absurd h Parser.yields_fail
  · intro h
    rcases h with ⟨ts, hPasses, hForm, hEnd⟩
    cases hForm with
    | intro hIdent hAll hColon hChunks =>
        rcases hPasses with ⟨rfl, _, hRest⟩
        rcases TokenSource.passes_append.mp hRest with
          ⟨m, hBetween, hAfter⟩
        have hStops :
            Token.Stops beforeColon (upcoming m) := by
          rw [hAfter.upcoming_eq]
          simp [beforeColon, hColon]
        rw [if_pos hIdent, Parser.yields_bind_advance,
          Parser.yields_bind]
        refine
          ⟨_, m, yields_tokensWhile.mpr
            ⟨hBetween, hAll, hStops⟩, ?_⟩
        rcases hAfter with ⟨rfl, _, hValue⟩
        rw [Parser.yields_bind_current, hColon]
        simp only [Parser.yields_bind_advance]
        simp only [Parser.yields_bind, yields_chunksWhile,
          Parser.yields_pure, stops_all_iff]
        exact
          ⟨_, s', ⟨_, hValue, hChunks, hEnd⟩, rfl, rfl⟩

end Grammar

end LosslessCss

------------------------------------------------------------
-- Heads of Items
------------------------------------------------------------

namespace LosslessCss

open TokenSource (Passes upcoming)

namespace AtRule

/- A keyword belongs to the at-rule that is called so. -/
theorem ofKeyword?_eq_some_iff
    {word : String}
    {rule : AtRule} :
    ofKeyword? word = some rule ↔ rule.keyword = word := by
  constructor
  · intro h
    simpa using List.find?_some h
  · rintro rfl
    rcases rule with rule | rule
    · cases rule <;> decide
    · cases rule <;> decide

/- Every at-rule has a keyword. -/
theorem keyword_ne_empty
    (rule : AtRule) :
    rule.keyword ≠ "" := by
  rcases rule with rule | rule
  · cases rule <;> decide
  · cases rule <;> decide

end AtRule

namespace Grammar

variable {σ : Type} [TokenSource σ]

/- The keyword of a token is what follows its at sign. -/
theorem keywordOf_eq_iff
    {raw word : String}
    (hWord : word ≠ "") :
    keywordOf raw = word ↔ raw = "@" ++ word := by
  unfold keywordOf
  constructor
  · intro h
    split at h
    · rename_i cs hRaw
      rw [← h, ← String.toList_inj, hRaw]
      simp
    · exact absurd h.symm hWord
  · rintro rfl
    simp

/- A token names an at-rule by its exact spelling. -/
theorem ofKeyword?_keywordOf_iff
    {raw : String}
    {rule : AtRule} :
    AtRule.ofKeyword? (keywordOf raw) = some rule ↔
      raw = "@" ++ rule.keyword := by
  rw [AtRule.ofKeyword?_eq_some_iff, eq_comm,
    keywordOf_eq_iff rule.keyword_ne_empty]

/- Reading a statement at-rule is recognizing its form. -/
theorem yields_atRule_leaf
    {s s' : σ}
    {leaf : Leaf} :
    (atRule : Parser σ Head).Yields s (.leaf leaf) s' ↔
      ∃ name pieces ts,
        (TokenSource.current s).raw =
            "@" ++ StatementRule.keyword name ∧
          Passes (TokenSource.advance s) ts s' ∧
          Form.Statement name ts (upcoming s') pieces ∧
          leaf = .statement name pieces := by
  unfold atRule
  rw [Parser.yields_bind_enter, Parser.yields_bind_current]
  constructor
  · intro h
    split at h
    · exact absurd h Parser.yields_fail
    · rename_i name hName
      rw [Parser.yields_bind_advance,
        Parser.yields_bind] at h
      rcases h with ⟨pieces, m, hValue, hPure⟩
      rcases Parser.yields_pure.mp hPure with ⟨hLeaf, rfl⟩
      cases hLeaf
      rcases yields_statementValue.mp hValue with
        ⟨ts, hPasses, hForm⟩
      exact
        ⟨name, pieces, ts,
          ofKeyword?_keywordOf_iff.mp hName, hPasses, hForm,
          rfl⟩
    · rw [Parser.yields_bind_advance,
        Parser.yields_bind] at h
      rcases h with ⟨pieces, m, _, hPure⟩
      cases (Parser.yields_pure.mp hPure).1
  · intro h
    rcases h with
      ⟨name, pieces, ts, hRaw, hPasses, hForm, rfl⟩
    have hName :
        AtRule.ofKeyword?
            (keywordOf (TokenSource.current s).raw) =
          some (.statement name) :=
      ofKeyword?_keywordOf_iff.mpr hRaw
    simp only [hName]
    rw [Parser.yields_bind_advance, Parser.yields_bind]
    exact
      ⟨pieces, s',
        yields_statementValue.mpr ⟨ts, hPasses, hForm⟩,
        Parser.yields_pure.mpr ⟨rfl, rfl⟩⟩

/- Reading a block at-rule is recognizing its opening. -/
theorem yields_atRule_opening
    {s s' : σ}
    {opening : Opening} :
    (atRule : Parser σ Head).Yields s (.opening opening) s' ↔
      ∃ name pieces ts left,
        (TokenSource.current s).raw =
            "@" ++ BlockRule.keyword name ∧
          Passes (TokenSource.advance s) (ts ++ [left]) s' ∧
          Form.Fragment isLeftCurly ts [left] pieces ∧
          isLeftCurly left = true ∧
          opening = .atRule name pieces := by
  unfold atRule
  rw [Parser.yields_bind_enter, Parser.yields_bind_current]
  constructor
  · intro h
    split at h
    · exact absurd h Parser.yields_fail
    · rw [Parser.yields_bind_advance,
        Parser.yields_bind] at h
      rcases h with ⟨pieces, m, _, hPure⟩
      cases (Parser.yields_pure.mp hPure).1
    · rename_i name hName
      rw [Parser.yields_bind_advance,
        Parser.yields_bind] at h
      rcases h with ⟨pieces, m, hParameters, hPure⟩
      rcases Parser.yields_pure.mp hPure with ⟨hOpening, rfl⟩
      cases hOpening
      rcases yields_blockParameters.mp hParameters with
        ⟨ts, left, hPasses, hForm, hLeft⟩
      exact
        ⟨name, pieces, ts, left,
          ofKeyword?_keywordOf_iff.mp hName, hPasses, hForm,
          hLeft, rfl⟩
  · intro h
    rcases h with
      ⟨name, pieces, ts, left, hRaw, hPasses, hForm, hLeft,
        rfl⟩
    have hName :
        AtRule.ofKeyword?
            (keywordOf (TokenSource.current s).raw) =
          some (.block name) :=
      ofKeyword?_keywordOf_iff.mpr hRaw
    simp only [hName]
    rw [Parser.yields_bind_advance, Parser.yields_bind]
    exact
      ⟨pieces, s',
        yields_blockParameters.mpr
          ⟨ts, left, hPasses, hForm, hLeft⟩,
        Parser.yields_pure.mpr ⟨rfl, rfl⟩⟩

/- A run that is not a rule ends like a declaration. -/
theorem form_of_yields_ambiguousSpan
    {s s' : σ}
    {ts : List Token}
    (h :
      (ambiguousSpan :
        Parser σ (List Token × SpanEnd)).Yields s
          (ts, .declaration) s') :
    ∃ run mark, ts = run ++ mark ∧ Passes s ts s' ∧
      (∀ t ∈ run, isAmbiguous t = true) ∧
      Form.End mark (upcoming s') := by
  unfold ambiguousSpan at h
  rw [Parser.yields_bind_enter, Parser.yields_bind] at h
  rcases h with ⟨run, m, hRun, hAfter⟩
  rcases yields_tokensWhile.mp hRun with
    ⟨hPasses, hAll, hStops⟩
  rw [Parser.yields_bind_current] at hAfter
  split at hAfter
  · rename_i hKind
    rw [Parser.yields_bind_advance,
      Parser.yields_pure] at hAfter
    rcases hAfter with ⟨hValue, rfl⟩
    cases hValue
    have hMark :
        Passes m [TokenSource.current m]
          (TokenSource.advance m) :=
      .single (by simp [Token.isEof, hKind])
    exact
      ⟨run, _, rfl, hPasses.append hMark, hAll,
        .semicolon hKind⟩
  · rw [Parser.yields_bind_advance,
      Parser.yields_pure] at hAfter
    cases hAfter.1
  · rename_i hKind
    split at hAfter
    · exact absurd hAfter Parser.yields_fail
    · rcases Parser.yields_pure.mp hAfter with
        ⟨hValue, rfl⟩
      cases hValue
      exact
        ⟨ts, [], by simp, hPasses, hAll,
          end_nothing_iff.mpr (.inr hKind)⟩
  · rename_i hSemicolon hLeft hRight
    rcases Parser.yields_pure.mp hAfter with ⟨hValue, rfl⟩
    cases hValue
    have hEof : (TokenSource.current s').kind = .eof := by
      rw [stops_upcoming_iff] at hStops
      rw [← isEof_iff_kind]
      unfold isAmbiguous at hStops
      split at hStops <;> simp_all
    exact
      ⟨ts, [], by simp, hPasses, hAll,
        end_nothing_iff.mpr (.inl hEof)⟩

/- What ends like a declaration is not taken as a rule. -/
theorem yields_ambiguousSpan_of_form
    {s s' : σ}
    {run mark : List Token}
    (hPasses : Passes s (run ++ mark) s')
    (hAll : ∀ t ∈ run, isAmbiguous t = true)
    (hEnd : Form.End mark (upcoming s'))
    (hSome : run ≠ []) :
    (ambiguousSpan :
      Parser σ (List Token × SpanEnd)).Yields s
        (run ++ mark, .declaration) s' := by
  rcases TokenSource.passes_append.mp hPasses with
    ⟨m, hRun, hMark⟩
  have hStops : Token.Stops isAmbiguous (upcoming m) := by
    rw [hMark.upcoming_eq]
    apply stops_of_end hEnd
    · intro t hKind
      simp [isAmbiguous, hKind]
    · intro t hKind
      simp [isAmbiguous, hKind]
  unfold ambiguousSpan
  rw [Parser.yields_bind_enter, Parser.yields_bind]
  refine
    ⟨run, m, yields_tokensWhile.mpr ⟨hRun, hAll, hStops⟩, ?_⟩
  rw [Parser.yields_bind_current]
  cases hEnd with
  | semicolon hKind =>
      rcases hMark with ⟨rfl, _, rfl⟩
      rw [hKind]
      simp
  | nothing hRest =>
      rcases hMark with rfl
      rcases end_nothing_iff.mp (.nothing hRest) with
        hKind | hKind
      · rw [hKind]
        simp
      · rw [hKind]
        simp [hSome]

/- A run in front of a left brace is taken as a rule. -/
theorem yields_ambiguousSpan_block
    {s s' : σ}
    {ts : List Token} :
    (ambiguousSpan :
      Parser σ (List Token × SpanEnd)).Yields s
        (ts, .block) s' ↔
      ∃ left, Passes s (ts ++ [left]) s' ∧
        (∀ t ∈ ts, isAmbiguous t = true) ∧
        isLeftCurly left = true := by
  unfold ambiguousSpan
  rw [Parser.yields_bind_enter, Parser.yields_bind]
  simp only [Parser.yields_bind_current, yields_tokensWhile]
  constructor
  · intro h
    rcases h with ⟨run, m, ⟨hPasses, hAll, _⟩, hAfter⟩
    split at hAfter
    · rw [Parser.yields_bind_advance,
        Parser.yields_pure] at hAfter
      cases hAfter.1
    · rename_i hKind
      rw [Parser.yields_bind_advance,
        Parser.yields_pure] at hAfter
      rcases hAfter with ⟨hValue, rfl⟩
      cases hValue
      have hLeft : Passes m [TokenSource.current m]
          (TokenSource.advance m) :=
        .single (by simp [Token.isEof, hKind])
      exact
        ⟨_, hPasses.append hLeft, hAll,
          isLeftCurly_iff_kind.mpr hKind⟩
    · split at hAfter
      · exact absurd hAfter Parser.yields_fail
      · cases (Parser.yields_pure.mp hAfter).1
    · cases (Parser.yields_pure.mp hAfter).1
  · intro h
    rcases h with ⟨left, hPasses, hAll, hLeft⟩
    have hKind := isLeftCurly_iff_kind.mp hLeft
    rcases TokenSource.passes_append.mp hPasses with
      ⟨m, hRun, hAfter⟩
    have hStops : Token.Stops isAmbiguous (upcoming m) := by
      rw [hAfter.upcoming_eq]
      simp [isAmbiguous, hKind]
    refine ⟨ts, m, ⟨hRun, hAll, hStops⟩, ?_⟩
    rcases hAfter with ⟨rfl, _, rfl⟩
    rw [hKind]
    simp

/- The tokens of a declaration are read apart. -/
theorem yields_isolatedDeclaration
    {ts : List Token}
    (hEof : ∀ t ∈ ts, t.isEof = false)
    {s s' : σ}
    {leaf : Leaf} :
    (isolatedDeclaration ts).Yields s leaf s' ↔
      s' = s ∧ Form.Declaration ts leaf := by
  unfold isolatedDeclaration
  rw [Parser.yields_bind_location, Parser.yields_isolated,
    exists_yields_slice_iff yields_declaration hEof]

/- The selectors of a rule are read apart. -/
theorem yields_ruleOpening
    {ts : List Token}
    (hEof : ∀ t ∈ ts, t.isEof = false)
    {start : Location}
    {s s' : σ}
    {opening : Opening} :
    (ruleOpening ts start).Yields s opening s' ↔
      s' = s ∧ ∃ chunks,
        Form.Chunks opens? (fun _ => true) ts chunks ∧
          opening = .rule (arrangeSelectors chunks) := by
  unfold ruleOpening
  rw [Parser.yields_bind_enter, Parser.yields_bind]
  simp only [Parser.yields_isolated, Parser.yields_pure,
    exists_yields_slice_iff yields_selectorList hEof]
  constructor
  · intro h
    rcases h with
      ⟨_, m, ⟨rfl, chunks, hChunks, rfl⟩, rfl, rfl⟩
    exact ⟨rfl, chunks, hChunks, rfl⟩
  · intro h
    rcases h with ⟨rfl, chunks, hChunks, rfl⟩
    exact ⟨_, s', ⟨rfl, chunks, hChunks, rfl⟩, rfl, rfl⟩

/- A declaration is not only its terminator. -/
theorem run_ne_nil_of_declaration
    {run mark rest : List Token}
    {leaf : Leaf}
    (hEnd : Form.End mark rest)
    (hForm : Form.Declaration (run ++ mark) leaf) :
    run ≠ [] := by
  rintro rfl
  rcases hForm.exists_head with ⟨t, hHead, hIdent⟩
  cases hEnd with
  | semicolon hKind =>
      cases hHead
      simp [Token.isIdent, hKind] at hIdent
  | nothing _ => cases hHead

/- Reading a declaration among items. -/
theorem yields_ruleOrDeclaration_leaf
    {s s' : σ}
    {leaf : Leaf} :
    (ruleOrDeclaration : Parser σ Head).Yields s
        (.leaf leaf) s' ↔
      ∃ run mark, Passes s (run ++ mark) s' ∧
        (∀ t ∈ run, isAmbiguous t = true) ∧
        Form.End mark (upcoming s') ∧
        Form.Declaration (run ++ mark) leaf := by
  unfold ruleOrDeclaration
  rw [Parser.yields_bind_enter, Parser.yields_bind_location,
    Parser.yields_bind]
  constructor
  · intro h
    rcases h with ⟨⟨ts, ending⟩, m, hSpan, hAfter⟩
    cases ending with
    | declaration =>
        rcases form_of_yields_ambiguousSpan hSpan with
          ⟨run, mark, rfl, hPasses, hAll, hEnd⟩
        rcases Parser.yields_bind.mp hAfter with
          ⟨content, n, hContent, hPure⟩
        rw [yields_isolatedDeclaration
          fun t => hPasses.isEof_of_mem] at hContent
        rcases hContent with ⟨rfl, hForm⟩
        rcases Parser.yields_pure.mp hPure with ⟨hLeaf, rfl⟩
        cases hLeaf
        exact ⟨run, mark, hPasses, hAll, hEnd, hForm⟩
    | block =>
        rcases Parser.yields_bind.mp hAfter with
          ⟨opening, n, _, hPure⟩
        cases (Parser.yields_pure.mp hPure).1
  · intro h
    rcases h with ⟨run, mark, hPasses, hAll, hEnd, hForm⟩
    have hSome := run_ne_nil_of_declaration hEnd hForm
    refine
      ⟨(run ++ mark, .declaration), s',
        yields_ambiguousSpan_of_form hPasses hAll hEnd hSome,
        ?_⟩
    refine Parser.yields_bind.mpr ⟨leaf, s', ?_, ?_⟩
    · rw [yields_isolatedDeclaration
        fun t => hPasses.isEof_of_mem]
      exact ⟨rfl, hForm⟩
    · exact Parser.yields_pure.mpr ⟨rfl, rfl⟩

/- Reading the selectors of a rule among items. -/
theorem yields_ruleOrDeclaration_opening
    {s s' : σ}
    {opening : Opening} :
    (ruleOrDeclaration : Parser σ Head).Yields s
        (.opening opening) s' ↔
      ∃ ts left chunks, Passes s (ts ++ [left]) s' ∧
        (∀ t ∈ ts, isAmbiguous t = true) ∧
        isLeftCurly left = true ∧
        Form.Chunks opens? (fun _ => true) ts chunks ∧
        opening = .rule (arrangeSelectors chunks) := by
  unfold ruleOrDeclaration
  rw [Parser.yields_bind_enter, Parser.yields_bind_location,
    Parser.yields_bind]
  constructor
  · intro h
    rcases h with ⟨⟨ts, ending⟩, m, hSpan, hAfter⟩
    cases ending with
    | declaration =>
        rcases Parser.yields_bind.mp hAfter with
          ⟨content, n, _, hPure⟩
        cases (Parser.yields_pure.mp hPure).1
    | block =>
        rcases yields_ambiguousSpan_block.mp hSpan with
          ⟨left, hPasses, hAll, hLeft⟩
        rcases Parser.yields_bind.mp hAfter with
          ⟨_, n, hOpening, hPure⟩
        rw [yields_ruleOpening fun t hMem =>
          hPasses.isEof_of_mem
            (List.mem_append_left _ hMem)] at hOpening
        rcases hOpening with ⟨rfl, chunks, hChunks, rfl⟩
        rcases Parser.yields_pure.mp hPure with
          ⟨hOpening, rfl⟩
        cases hOpening
        exact
          ⟨ts, left, chunks, hPasses, hAll, hLeft, hChunks,
            rfl⟩
  · intro h
    rcases h with
      ⟨ts, left, chunks, hPasses, hAll, hLeft, hChunks, rfl⟩
    refine
      ⟨(ts, .block), s',
        yields_ambiguousSpan_block.mpr
          ⟨left, hPasses, hAll, hLeft⟩, ?_⟩
    refine
      Parser.yields_bind.mpr
        ⟨.rule (arrangeSelectors chunks), s', ?_, ?_⟩
    · rw [yields_ruleOpening fun t hMem =>
        hPasses.isEof_of_mem
          (List.mem_append_left _ hMem)]
      exact ⟨rfl, chunks, hChunks, rfl⟩
    · exact Parser.yields_pure.mpr ⟨rfl, rfl⟩

/- Reading an item without children. -/
theorem yields_itemHead_leaf
    {s s' : σ}
    {leaf : Leaf} :
    (itemHead : Parser σ Head).Yields s (.leaf leaf) s' ↔
      ∃ ts, Passes s ts s' ∧
        Form.Flat ts (upcoming s') leaf := by
  unfold itemHead
  rw [Parser.yields_bind_current]
  constructor
  · intro h
    split at h
    · rename_i text hKind
      have hComment := isComment_iff_kind.mpr ⟨text, hKind⟩
      rw [Parser.yields_bind_advance,
        Parser.yields_pure] at h
      rcases h with ⟨hLeaf, rfl⟩
      cases hLeaf
      exact
        ⟨_, .single (isEof_of_test hComment fun _ _ => rfl),
          .comment hComment⟩
    · rename_i word hKind
      have hKeyword := isAtKeyword_iff_kind.mpr ⟨word, hKind⟩
      have hEof := isEof_of_test hKeyword fun _ _ => rfl
      rcases yields_atRule_leaf.mp h with
        ⟨name, pieces, ts, hRaw, hPasses, hForm, rfl⟩
      exact
        ⟨_, .cons hEof hPasses,
          .statement ⟨hKeyword, hRaw⟩ hForm⟩
    · rcases yields_ruleOrDeclaration_leaf.mp h with
        ⟨run, mark, hPasses, hAll, hEnd, hForm⟩
      exact
        ⟨run ++ mark, hPasses,
          .declaration hAll hEnd hForm⟩
  · intro h
    rcases h with ⟨ts, hPasses, hForm⟩
    cases hForm with
    | comment hComment =>
        rcases hPasses with ⟨rfl, _, rfl⟩
        rcases isComment_iff_kind.mp hComment with
          ⟨text, hKind⟩
        rw [hKind]
        simp
    | statement hKeyword hForm =>
        rcases hPasses with ⟨rfl, _, hTail⟩
        rcases isAtKeyword_iff_kind.mp hKeyword.1 with
          ⟨word, hKind⟩
        rw [hKind]
        exact
          yields_atRule_leaf.mpr
            ⟨_, _, _, hKeyword.2, hTail, hForm, rfl⟩
    | declaration hAll hEnd hForm =>
        rcases hForm.exists_head with ⟨t, hHead, hIdent⟩
        have hCurrent := hPasses.current_eq hHead
        have hRead :=
          yields_ruleOrDeclaration_leaf.mpr
            ⟨_, _, hPasses, hAll, hEnd, hForm⟩
        split
        · rename_i text hKind
          simp [← hCurrent, Token.isIdent, hKind] at hIdent
        · rename_i word hKind
          simp [← hCurrent, Token.isIdent, hKind] at hIdent
        · exact hRead

/- A rule does not start like an item of another kind. -/
theorem startsOther_current_of_rule
    {s s' : σ}
    {ts : List Token}
    {left : Token}
    (hPasses : Passes s (ts ++ [left]) s')
    (hStart : Token.Stops Form.startsOther ts)
    (hLeft : isLeftCurly left = true) :
    Form.startsOther (TokenSource.current s) = false := by
  cases ts with
  | nil =>
      rw [hPasses.current_eq rfl]
      have hKind := isLeftCurly_iff_kind.mp hLeft
      simp [Form.startsOther, Token.isComment, isAtKeyword,
        hKind]
  | cons t ts =>
      rw [hPasses.current_eq rfl]
      simpa using hStart

/- Reading what opens a block. -/
theorem yields_itemHead_opening
    {s s' : σ}
    {opening : Opening} :
    (itemHead : Parser σ Head).Yields s
        (.opening opening) s' ↔
      ∃ ts, Passes s ts s' ∧ Form.Opens ts opening := by
  unfold itemHead
  rw [Parser.yields_bind_current]
  constructor
  · intro h
    split at h
    · rw [Parser.yields_bind_advance,
        Parser.yields_pure] at h
      cases h.1
    · rename_i word hKind
      have hKeyword := isAtKeyword_iff_kind.mpr ⟨word, hKind⟩
      have hEof := isEof_of_test hKeyword fun _ _ => rfl
      rcases yields_atRule_opening.mp h with
        ⟨name, pieces, ts, left, hRaw, hPasses, hForm,
          hLeft, rfl⟩
      exact
        ⟨_, .cons hEof hPasses,
          .atRule ⟨hKeyword, hRaw⟩ hForm hLeft⟩
    · rename_i hComment hKeyword
      rcases yields_ruleOrDeclaration_opening.mp h with
        ⟨ts, left, chunks, hPasses, hAll, hLeft, hChunks,
          rfl⟩
      have hStart : Token.Stops Form.startsOther ts := by
        apply hPasses.stops
        simp [Form.startsOther, Token.isComment, isAtKeyword]
      exact
        ⟨_, hPasses, .rule hAll hStart hChunks hLeft⟩
  · intro h
    rcases h with ⟨ts, hPasses, hForm⟩
    cases hForm with
    | rule hAll hStart hChunks hLeft =>
        have hRead :=
          yields_ruleOrDeclaration_opening.mpr
            ⟨_, _, _, hPasses, hAll, hLeft, hChunks, rfl⟩
        have hOther :=
          startsOther_current_of_rule hPasses hStart hLeft
        split
        · rename_i text hKind
          simp [Form.startsOther, Token.isComment, hKind]
            at hOther
        · rename_i word hKind
          simp [Form.startsOther, isAtKeyword, hKind]
            at hOther
        · exact hRead
    | atRule hKeyword hForm hLeft =>
        rcases hPasses with ⟨rfl, _, hTail⟩
        rcases isAtKeyword_iff_kind.mp hKeyword.1 with
          ⟨word, hKind⟩
        rw [hKind]
        exact
          yields_atRule_opening.mpr
            ⟨_, _, _, _, hKeyword.2, hTail, hForm, hLeft,
              rfl⟩

end Grammar

end LosslessCss

------------------------------------------------------------
-- Lists of Items
------------------------------------------------------------

namespace LosslessCss

open TokenSource (Passes upcoming)

open Grammar

namespace Form

/- An item without children starts with a token of its own. -/
theorem Flat.exists_head
    {ts rest : List Token}
    {leaf : Leaf}
    (hForm : Flat ts rest leaf) :
    ∃ t, ts.head? = some t ∧ isSeparator t = false ∧
      isRightCurly t = false := by
  cases hForm with
  | comment hComment =>
      rcases isComment_iff_kind.mp hComment with ⟨text, hKind⟩
      exact
        ⟨_, rfl, by simp [isSeparator, hKind],
          by simp [isRightCurly, hKind]⟩
  | statement hKeyword _ =>
      rcases isAtKeyword_iff_kind.mp hKeyword.1 with
        ⟨word, hKind⟩
      exact
        ⟨_, rfl, by simp [isSeparator, hKind],
          by simp [isRightCurly, hKind]⟩
  | declaration _ _ hContent =>
      rcases hContent.exists_head with ⟨t, hHead, hIdent⟩
      rcases isIdent_iff_kind.mp hIdent with ⟨name, hKind⟩
      exact
        ⟨t, hHead, by simp [isSeparator, hKind],
          by simp [isRightCurly, hKind]⟩

/- What opens a block does not start with a right brace. -/
theorem Opens.exists_head
    {ts : List Token}
    {opening : Opening}
    (hForm : Opens ts opening) :
    ∃ t, ts.head? = some t ∧ isRightCurly t = false := by
  cases hForm with
  | @rule run left chunks hRun hStart _ hLeft =>
      cases run with
      | nil =>
          have hKind := isLeftCurly_iff_kind.mp hLeft
          exact ⟨left, rfl, by simp [isRightCurly, hKind]⟩
      | cons t run =>
          have hAmbiguous := hRun t (by simp)
          refine ⟨t, rfl, ?_⟩
          unfold isAmbiguous at hAmbiguous
          unfold isRightCurly
          split at hAmbiguous <;> simp_all
  | atRule hKeyword _ _ =>
      rcases isAtKeyword_iff_kind.mp hKeyword.1 with
        ⟨word, hKind⟩
      exact ⟨_, rfl, by simp [isRightCurly, hKind]⟩

end Form

namespace Grammar

variable {σ : Type} [TokenSource σ]

/- Reading a block is recognizing its items. -/
theorem yields_blockNode
    {opening : Opening}
    {start : Location}
    {s s' : σ}
    {node : Node} :
    (blockNode .full opening start).Yields s node s' ↔
      ∃ inner m, (items true "").Yields s inner m ∧
        isRightCurly (TokenSource.current m) = true ∧
        s' = TokenSource.advance m ∧
        node = inner.toNode opening start "" := by
  unfold blockNode
  rw [Parser.yields_bind, ruleList_eq]
  simp only [Parser.yields_bind_current,
    Parser.yields_bind_enter]
  constructor
  · intro h
    rcases h with ⟨inner, m, hItems, hAfter⟩
    split at hAfter
    · rename_i hRight
      rw [Parser.yields_bind_advance,
        Parser.yields_pure] at hAfter
      exact ⟨inner, m, hItems, hRight, hAfter.2, hAfter.1⟩
    · exact absurd hAfter Parser.yields_fail
  · intro h
    rcases h with ⟨inner, m, hItems, hRight, rfl, rfl⟩
    refine ⟨inner, m, hItems, ?_⟩
    rw [if_pos hRight, Parser.yields_bind_advance,
      Parser.yields_pure]
    exact ⟨rfl, rfl⟩

/- Items start where the first token of the run stands. -/
theorem startOf_of_passes
    {s s' : σ}
    {t : Token}
    {ts : List Token}
    (hPasses : Passes s ts s')
    (hHead : ts.head? = some t) :
    Form.startOf ts = (TokenSource.current s).location := by
  rw [hPasses.current_eq hHead]
  simp [Form.startOf, hHead]

/- Items that have been read have the form of items. -/
theorem form_of_yields_items
    {nested : Bool}
    {before : String}
    {s s' : σ}
    {block : Block}
    (h : (items nested before).Yields s block s') :
    ∃ ts, Passes s ts s' ∧
      Form.Items before ts (upcoming s') block ∧
      endsItems nested (TokenSource.current s') = true := by
  induction s using TokenSource.remaining_induction
    generalizing nested before s' block with
  | step s ih =>
      rw [items_eq, Parser.yields_bind_current] at h
      split at h
      · rename_i hEnds
        rcases Parser.yields_pure.mp h with ⟨rfl, rfl⟩
        exact ⟨[], rfl, .done, hEnds⟩
      · rename_i hEnds
        have hEof :
            (TokenSource.current s).isEof = false := by
          simp only [endsItems, Bool.or_eq_true, not_or]
            at hEnds
          simpa using hEnds.1
        split at h
        · rename_i hSeparator
          rw [Parser.yields_bind_advance] at h
          have hNext :=
            TokenSource.remaining_advance_lt s hEof
          rcases ih _ hNext h with
            ⟨ts, hPasses, hForm, hLast⟩
          exact
            ⟨_, .cons hEof hPasses,
              .separator hSeparator hForm, hLast⟩
        · rename_i hSeparator
          simp only [Parser.yields_bind,
            Parser.yields_pure] at h
          rcases h with
            ⟨head, m, hHead, node, n, hNode, tail, _, hTail,
              rfl, rfl⟩
          have hLess :=
            (consumes_itemHead hEof).lt_of_yields hHead
          cases head with
          | leaf content =>
              rcases Parser.yields_pure.mp hNode with
                ⟨rfl, rfl⟩
              rcases yields_itemHead_leaf.mp hHead with
                ⟨item, hItem, hFlat⟩
              rcases ih _ hLess hTail with
                ⟨ts, hPasses, hForm, hLast⟩
              rcases hFlat.exists_head with ⟨t, hFirst, _⟩
              rw [hPasses.upcoming_eq] at hFlat
              refine
                ⟨_, hItem.append hPasses, ?_, hLast⟩
              rw [← startOf_of_passes hItem hFirst]
              exact .flat hFlat hForm
          | opening opening =>
              rcases yields_itemHead_opening.mp hHead with
                ⟨head, hPassesHead, hOpens⟩
              rcases yields_blockNode.mp hNode with
                ⟨inner, k, hInner, hRight, rfl, rfl⟩
              rcases ih _ hLess hInner with
                ⟨body, hBody, hItems, _⟩
              have hEofRight :=
                isEof_of_test hRight fun _ _ => rfl
              have hRest :
                  TokenSource.remaining
                      (TokenSource.advance k) <
                    TokenSource.remaining s :=
                Nat.lt_of_le_of_lt
                  (Nat.le_trans
                    (TokenSource.remaining_advance_le k)
                    hBody.remaining_le)
                  hLess
              rcases ih _ hRest hTail with
                ⟨ts, hPasses, hForm, hLast⟩
              rcases hOpens.exists_head with ⟨t, hFirst, _⟩
              have hAfter :
                  Passes k (TokenSource.current k :: ts) s' :=
                .cons hEofRight hPasses
              rw [hAfter.upcoming_eq] at hItems
              refine
                ⟨_, hPassesHead.append (hBody.append hAfter),
                  ?_, hLast⟩
              have hStart :
                  Token.Stops isSeparator head := by
                intro u hMem
                rw [← hPassesHead.current_eq hMem]
                simpa using hSeparator
              rw [← startOf_of_passes hPassesHead hFirst]
              exact
                .block hOpens hStart hItems hRight hForm

/- A token that starts an item is not skipped before it. -/
theorem yields_items_of_head
    {nested : Bool}
    {before : String}
    {s m n s' : σ}
    {head : Head}
    {node : Node}
    {tail : Block}
    (hEof : (TokenSource.current s).isEof = false)
    (hSeparator :
      isSeparator (TokenSource.current s) = false)
    (hRight :
      isRightCurly (TokenSource.current s) = false)
    (hHead : itemHead.Yields s head m)
    (hNode :
      (finishItem .full head
        (TokenSource.current s).location).Yields m node n)
    (hTail : (items nested "").Yields n tail s') :
    (items nested before).Yields s
      (tail.cons (node.withBefore before)) s' := by
  rw [items_eq, Parser.yields_bind_current]
  simp only [endsItems, hEof, hSeparator, hRight,
    Bool.and_false, Bool.or_self, Bool.false_eq_true,
    if_false, Parser.yields_bind, Parser.yields_pure]
  exact
    ⟨head, m, hHead, node, n, hNode, tail, s', hTail, rfl,
      rfl⟩

/- What has the form of items is read as items. -/
theorem yields_items_of_form
    {nested : Bool}
    {before : String}
    {s s' : σ}
    {ts rest : List Token}
    {block : Block}
    (hForm : Form.Items before ts rest block)
    (hPasses : Passes s ts s')
    (hRest : rest = upcoming s')
    (hEnds :
      endsItems nested (TokenSource.current s') = true) :
    (items nested before).Yields s block s' := by
  induction hForm generalizing nested s s' with
  | done =>
      rcases hPasses with rfl
      rw [items_eq, Parser.yields_bind_current, if_pos hEnds,
        Parser.yields_pure]
      exact ⟨rfl, rfl⟩
  | separator hSeparator hTail ih =>
      rcases hPasses with ⟨rfl, hEof, hPassesTail⟩
      have hRight := isRightCurly_of_isSeparator hSeparator
      rw [items_eq, Parser.yields_bind_current]
      simp only [endsItems, hEof, hRight, hSeparator,
        Bool.and_false, Bool.or_self, Bool.false_eq_true,
        if_false, if_true]
      rw [Parser.yields_bind_advance]
      exact ih hPassesTail hRest hEnds
  | flat hItem hTail ih =>
      rcases TokenSource.passes_append.mp hPasses with
        ⟨m, hPassesItem, hPassesTail⟩
      rcases hItem.exists_head with
        ⟨t, hFirst, hSeparator, hRight⟩
      have hCurrent := hPassesItem.current_eq hFirst
      have hEof : (TokenSource.current s).isEof = false := by
        rw [hCurrent]
        exact hPassesItem.isEof_of_mem
          (List.mem_of_head? hFirst)
      rw [hRest, ← hPassesTail.upcoming_eq] at hItem
      rw [startOf_of_passes hPassesItem hFirst]
      exact
        yields_items_of_head hEof (hCurrent ▸ hSeparator)
          (hCurrent ▸ hRight)
          (yields_itemHead_leaf.mpr ⟨_, hPassesItem, hItem⟩)
          (Parser.yields_pure.mpr ⟨rfl, rfl⟩)
          (ih hPassesTail hRest hEnds)
  | block hHead hSeparator hBody hRight hTail ihBody ihTail =>
      rcases TokenSource.passes_append.mp hPasses with
        ⟨m, hPassesHead, hPassesAfter⟩
      rcases TokenSource.passes_append.mp hPassesAfter with
        ⟨k, hPassesBody, hPassesRight⟩
      rcases hHead.exists_head with ⟨t, hFirst, hOther⟩
      have hCurrent := hPassesHead.current_eq hFirst
      have hEof : (TokenSource.current s).isEof = false := by
        rw [hCurrent]
        exact hPassesHead.isEof_of_mem
          (List.mem_of_head? hFirst)
      have hUpcoming := hPassesRight.upcoming_eq
      rw [← hRest] at hUpcoming
      rcases hPassesRight with ⟨rfl, hEofRight, hPassesTail⟩
      have hInner : (items true "").Yields m _ k :=
        ihBody hPassesBody hUpcoming.symm
          (by simp [endsItems, hRight])
      rw [startOf_of_passes hPassesHead hFirst]
      exact
        yields_items_of_head hEof
          (hCurrent ▸ hSeparator t hFirst)
          (hCurrent ▸ hOther)
          (yields_itemHead_opening.mpr
            ⟨_, hPassesHead, hHead⟩)
          (yields_blockNode.mpr
            ⟨_, k, hInner, hRight, rfl, rfl⟩)
          (ihTail hPassesTail hRest hEnds)

/- Reading items is recognizing their form. -/
theorem yields_items
    {nested : Bool}
    {before : String}
    {s s' : σ}
    {block : Block} :
    (items nested before).Yields s block s' ↔
      ∃ ts, Passes s ts s' ∧
        Form.Items before ts (upcoming s') block ∧
        endsItems nested (TokenSource.current s') = true := by
  constructor
  · exact form_of_yields_items
  · intro h
    rcases h with ⟨ts, hPasses, hForm, hEnds⟩
    exact yields_items_of_form hForm hPasses rfl hEnds

end Grammar

end LosslessCss
