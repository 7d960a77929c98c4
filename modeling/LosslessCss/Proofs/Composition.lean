import LosslessCss.Proofs.Acceptance
import LosslessCss.Proofs.RoundTrip
import LosslessCss.Proofs.SingleItems

/-
  Style sheets one after another.

  A style sheet whose last item is closed by a semicolon or a
  right brace can be continued.  What is parsed after it does
  not change the items in front, and these change nothing
  behind them but the formatting of the first item there.

  Key definitions include:
    * `Block.followedBy`
    * `Form.Closed`

  Key theorems include:
    * `Form.Items.of_closed`
    * `Grammar.outcome_items_before`
    * `Grammar.outcome_items_of_form`
    * `Parse.tokens_append`
-/

------------------------------------------------------------
-- Blocks One after Another
------------------------------------------------------------

namespace LosslessCss

namespace Node

@[simp] theorem before_withBefore
    (node : Node)
    (text : String) :
    (node.withBefore text).before = text := by
  cases node with
  | leaf _ _ _ => rfl
  | block _ _ _ _ _ => rfl

end Node

namespace Block

/-
  The children of two blocks.  What follows those of the
  first goes in front of those of the second, or in front of
  what follows them when there are none.
-/
def followedBy (first second : Block) : Block :=
  match second.children with
  | [] => ⟨first.children, first.after ++ second.after⟩
  | node :: nodes =>
      ⟨first.children ++
          node.withBefore (first.after ++ node.before) ::
            nodes,
        second.after⟩

/- A child in front stays in front. -/
theorem map_followedBy_cons
    (node : Node)
    (first : Block)
    (outcome : Except SyntaxError Block) :
    (outcome.map first.followedBy).map (cons node) =
      outcome.map (first.cons node).followedBy := by
  cases outcome with
  | error e => rfl
  | ok second =>
      apply congrArg Except.ok
      unfold followedBy cons
      cases second.children with
      | nil => rfl
      | cons child others => rfl

end Block

end LosslessCss

------------------------------------------------------------
-- Closed Runs
------------------------------------------------------------

namespace LosslessCss

open Grammar

namespace Form

/- Whether a token closes an item. -/
def endsItem (t : Token) : Bool :=
  match t.kind with
  | .semicolon => true
  | .rightCurly => true
  | _ => false

/- The last token that is not between items. -/
def lastSolid? (ts : List Token) : Option Token :=
  ts.reverse.find? fun t => !isLoose t

theorem lastSolid?_append
    (ts us : List Token) :
    lastSolid? (ts ++ us) =
      (lastSolid? us).or (lastSolid? ts) := by
  unfold lastSolid?
  rw [List.reverse_append, List.find?_append]

/- The last token that is not between items closes one. -/
def Closed (ts : List Token) : Prop :=
  ∀ t ∈ lastSolid? ts, endsItem t = true

/- The last token that is not between items closes none. -/
def Unclosed (ts : List Token) : Prop :=
  ∀ t ∈ lastSolid? ts, endsItem t = false

theorem unclosed_of_all
    {ts : List Token}
    (hAll : ∀ t ∈ ts, endsItem t = false) :
    Unclosed ts := by
  intro t hLast
  have hMem := List.mem_of_find?_eq_some hLast
  exact hAll t (List.mem_reverse.mp hMem)

theorem Unclosed.append
    {ts us : List Token}
    (hFirst : Unclosed ts)
    (hSecond : Unclosed us) :
    Unclosed (ts ++ us) := by
  intro t hLast
  rw [lastSolid?_append, Option.mem_def,
    Option.or_eq_some_iff] at hLast
  rcases hLast with hLast | ⟨_, hLast⟩
  · exact hSecond t hLast
  · exact hFirst t hLast

/- What is not closed and not empty is open. -/
theorem Unclosed.not_closed
    {ts : List Token}
    {t : Token}
    (hUnclosed : Unclosed ts)
    (hMem : t ∈ ts)
    (hSolid : isLoose t = false) :
    ¬ Closed ts := by
  intro hClosed
  cases hLast : lastSolid? ts with
  | none =>
      have hLoose :=
        List.find?_eq_none.mp hLast t
          (List.mem_reverse.mpr hMem)
      simp [hSolid] at hLoose
  | some last =>
      have hNo := hUnclosed last hLast
      rw [hClosed last hLast] at hNo
      cases hNo

/- Of a closed run, the end is closed. -/
theorem Closed.of_append
    {ts us : List Token}
    (hClosed : Closed (ts ++ us)) :
    Closed us := by
  intro t hLast
  apply hClosed t
  rw [lastSolid?_append, Option.mem_def.mp hLast]
  rfl

end Form

end LosslessCss

------------------------------------------------------------
-- Forms That Are Closed
------------------------------------------------------------

namespace LosslessCss

open Grammar

namespace Form

theorem endsItem_of_isFiller
    {t : Token}
    (hFiller : t.isFiller = true) :
    endsItem t = false := by
  unfold Token.isFiller Token.isWhitespace Token.isComment
    at hFiller
  unfold endsItem
  split <;> simp_all

theorem Fillers.unclosed
    {ts : List Token}
    (hFillers : Fillers ts) :
    Unclosed ts :=
  unclosed_of_all fun t hMem =>
    endsItem_of_isFiller (hFillers t hMem)

theorem SpanRest.unclosed
    {closer : Closer}
    {ts : List Token}
    (hForm : SpanRest closer ts) :
    Unclosed ts := by
  rcases hForm.exists_last with ⟨front, last, rfl, hCloses⟩
  have hKind :
      last.kind = .rightParen ∨ last.kind = .rightBracket := by
    unfold Closer.closes at hCloses
    split at hCloses <;> simp_all
  have hLast : lastSolid? (front ++ [last]) = some last := by
    rw [lastSolid?_append]
    rcases hKind with hKind | hKind
    · simp [lastSolid?, isLoose, isSeparator,
        Token.isComment, hKind]
    · simp [lastSolid?, isLoose, isSeparator,
        Token.isComment, hKind]
  intro t hMem
  rw [hLast] at hMem
  cases hMem
  rcases hKind with hKind | hKind
  · simp [endsItem, hKind]
  · simp [endsItem, hKind]

theorem unclosed_singleton
    {t : Token}
    (hEnds : endsItem t = false) :
    Unclosed [t] := by
  apply unclosed_of_all
  simpa using hEnds

/- A terminator inside of a span closes no item. -/
theorem Chunks.unclosed
    {opens : Token → Option Opener}
    {p : Token → Bool}
    {ts : List Token}
    {chunks : List Chunk}
    (hForm : Chunks opens p ts chunks)
    (hFirst : ∀ t, p t = true → endsItem t = false) :
    Unclosed ts := by
  induction hForm with
  | nil => exact unclosed_of_all (by simp)
  | @token t ts _ _ hTest _ ih =>
      exact (unclosed_singleton (hFirst t hTest)).append ih
  | @span t _ body ts _ _ hTest hBody _ ih =>
      exact
        (unclosed_singleton (hFirst t hTest)).append
          (hBody.unclosed.append ih)

theorem Address.unclosed
    {ts : List Token}
    {piece : Piece}
    (hForm : Address ts piece) :
    Unclosed ts := by
  cases hForm with
  | @token t hPlain =>
      apply unclosed_singleton
      unfold isPlainAddress at hPlain
      unfold endsItem
      split <;> simp_all
  | @call t body hUrl hBody =>
      have hOpens : endsItem t = false := by
        unfold isUrlFunction at hUrl
        unfold endsItem
        split <;> simp_all
      exact (unclosed_singleton hOpens).append hBody.unclosed

theorem endsItem_of_isIdent
    {t : Token}
    (hIdent : t.isIdent = true) :
    endsItem t = false := by
  rcases isIdent_iff_kind.mp hIdent with ⟨name, hKind⟩
  simp [endsItem, hKind]

theorem Alias.unclosed
    {ts : List Token}
    {pieces : List Piece}
    (hForm : Alias ts pieces) :
    Unclosed ts := by
  cases hForm with
  | absent hBlank => exact hBlank.unclosed
  | present hBlank hIdent hInner =>
      have hName :=
        unclosed_singleton (endsItem_of_isIdent hIdent)
      exact hBlank.unclosed.append (hName.append hInner.unclosed)

theorem Fragment.unclosed
    {ends : Token → Bool}
    {ts rest : List Token}
    {pieces : List Piece}
    (hForm : Fragment ends ts rest pieces)
    (hEnds : ∀ t, endsItem t = true → ends t = true) :
    Unclosed ts := by
  rcases hForm with
    ⟨leading, body, chunks, rfl, hLeading, _, hBody, _⟩
  apply hLeading.unclosed.append (hBody.unclosed ?_)
  intro t hTest
  by_contra hOther
  simp [hEnds t (by simpa using hOther)] at hTest

/-
  A statement is closed by its semicolon, or nothing in it
  closes an item.
-/
theorem Statement.of_end
    {name : StatementRule}
    {ts : List Token}
    {pieces : List Piece}
    (hForm : Statement name ts [] pieces) :
    Unclosed ts ∨ ∀ rest, Statement name ts rest pieces := by
  cases hForm with
  | @charsetRule blank inner mark _ t
      hBlank hQuoted hInner hEnd =>
      cases hEnd with
      | semicolon hKind =>
          exact
            .inr fun rest =>
              .charsetRule hBlank hQuoted hInner
                (.semicolon hKind)
      | nothing _ =>
          have hText : endsItem t = false := by
            unfold isDoubleQuoted at hQuoted
            unfold endsItem
            split <;> simp_all
          rw [List.append_nil]
          exact
            .inl
              (hBlank.unclosed.append
                ((unclosed_singleton hText).append
                  hInner.unclosed))
  | importRule hBlank hUrl hConditions hEnd =>
      cases hEnd with
      | semicolon hKind =>
          exact
            .inr fun rest =>
              .importRule hBlank hUrl
                (hConditions.congr_rest Token.startsLike_cons)
                (.semicolon hKind)
      | nothing _ =>
          have hEnds :
              ∀ t, endsItem t = true → endsImport t = true := by
            intro t hTest
            unfold endsItem at hTest
            unfold endsImport
            split at hTest <;> simp_all
          rw [List.append_nil]
          exact
            .inl
              (hBlank.unclosed.append
                (hUrl.unclosed.append
                  (hConditions.unclosed hEnds)))
  | namespaceRule hName hUrl hInner hEnd =>
      cases hEnd with
      | semicolon hKind =>
          exact
            .inr fun rest =>
              .namespaceRule hName hUrl hInner
                (.semicolon hKind)
      | nothing _ =>
          rw [List.append_nil]
          exact
            .inl
              (hName.unclosed.append
                (hUrl.unclosed.append hInner.unclosed))

/- A closed item without children may be followed by others. -/
theorem Flat.of_closed
    {ts : List Token}
    {leaf : Leaf}
    (hForm : Flat ts [] leaf)
    (hClosed : Closed ts)
    (rest : List Token) :
    Flat ts rest leaf := by
  cases hForm with
  | comment hComment => exact .comment hComment
  | @statement t _ ts _ _ hKeyword hValue =>
      rcases isAtKeyword_iff_kind.mp hKeyword.1 with
        ⟨word, hKind⟩
      rcases hValue.of_end with hUnclosed | hAny
      · have hAll : Unclosed ([t] ++ ts) :=
          (unclosed_singleton (by simp [endsItem, hKind])).append
            hUnclosed
        have hSolid : isLoose t = false := by
          simp [isLoose, isSeparator, Token.isComment, hKind]
        exact
          absurd hClosed (hAll.not_closed (by simp) hSolid)
      · exact .statement hKeyword (hAny rest)
  | @declaration ts mark _ _ hRun hEnd hContent =>
      cases hEnd with
      | semicolon hKind =>
          exact .declaration hRun (.semicolon hKind) hContent
      | nothing _ =>
          rw [List.append_nil] at hClosed hContent
          have hUnclosed : Unclosed ts := by
            apply unclosed_of_all
            intro t hMem
            have hInner := hRun t hMem
            unfold isAmbiguous at hInner
            unfold endsItem
            split at hInner <;> simp_all
          rcases hContent.exists_head with
            ⟨t, hHead, hIdent⟩
          rcases isIdent_iff_kind.mp hIdent with
            ⟨name, hKind⟩
          have hSolid : isLoose t = false := by
            simp [isLoose, isSeparator, Token.isComment,
              hKind]
          exact
            absurd hClosed
              (hUnclosed.not_closed
                (List.mem_of_head? hHead) hSolid)

/- A closed list of items may be followed by others. -/
theorem Items.of_closed
    {before : String}
    {ts : List Token}
    {block : Block}
    (hForm : Items before ts [] block)
    (hClosed : Closed ts)
    (rest : List Token) :
    Items before ts rest block := by
  generalize hNone : ([] : List Token) = none at hForm
  induction hForm with
  | done => exact .done
  | @separator _ t ts _ _ hSeparator _ ih =>
      rw [← List.singleton_append] at hClosed
      exact
        .separator hSeparator (ih hClosed.of_append hNone)
  | @flat _ item ts _ _ _ hItem _ ih =>
      subst hNone
      refine .flat ?_ (ih hClosed.of_append rfl)
      cases ts with
      | nil =>
          rw [List.append_nil] at hClosed
          exact hItem.of_closed hClosed rest
      | cons t ts =>
          exact hItem.congr_rest Token.startsLike_cons
  | @block _ head body ts _ right _ _ _
      hHead hSeparator hBody hRight _ _ ih =>
      have hTail : Closed ts := by
        rw [← List.append_assoc,
          List.append_cons _ right ts] at hClosed
        exact hClosed.of_append
      exact
        .block hHead hSeparator
          (hBody.congr_rest Token.startsLike_cons) hRight
          (ih hTail hNone)

end Form

end LosslessCss

------------------------------------------------------------
-- Outcomes
------------------------------------------------------------

namespace LosslessCss

namespace Parser

variable {σ : Type} [TokenSource σ] {α β γ : Type}

/- After a result, the outcome is that of what follows. -/
theorem Yields.outcome_bind
    {p : Parser σ α}
    {f : α → Parser σ β}
    {s m : σ}
    {a : α}
    (h : p.Yields s a m) :
    ((p >>= f).run s).outcome = ((f a).run m).outcome := by
  rw [run_bind_of_ok p f s h.1, ← h.2]
  rfl

theorem outcome_bind_pure
    {p : Parser σ α}
    {f : α → β}
    {s : σ} :
    ((p >>= fun a => pure (f a)).run s).outcome =
      (p.run s).outcome.map f := by
  rw [run_bind, continueWith_pure]
  rfl

/- A change of what follows changes the outcome. -/
theorem outcome_bind_map
    {p : Parser σ α}
    {f : α → Parser σ β}
    {g : α → Parser σ γ}
    {change : γ → β}
    {s : σ}
    (h :
      ∀ a m, p.Yields s a m →
        ((f a).run m).outcome =
          ((g a).run m).outcome.map change) :
    ((p >>= f).run s).outcome =
      ((p >>= g).run s).outcome.map change := by
  cases hp : (p.run s).outcome with
  | error e =>
      rw [run_bind_of_error p f s hp,
        run_bind_of_error p g s hp]
      rfl
  | ok a =>
      have hYields := yields_of_outcome hp
      rw [hYields.outcome_bind, hYields.outcome_bind]
      exact h a _ hYields

end Parser

end LosslessCss

------------------------------------------------------------
-- Items after Items
------------------------------------------------------------

namespace LosslessCss

open TokenSource (Passes upcoming)

namespace Grammar

variable {σ : Type} [TokenSource σ]

/- Text in front of items only goes to the first of them. -/
theorem outcome_items_before
    {nested : Bool}
    (first second : String)
    (s : σ) :
    ((items nested (first ++ second)).run s).outcome =
      ((items nested second).run s).outcome.map
        (Block.followedBy ⟨[], first⟩) := by
  induction s using TokenSource.remaining_induction
    generalizing second with
  | step s ih =>
      rw [items_eq nested (first ++ second),
        items_eq nested second, Parser.run_bind_current,
        Parser.run_bind_current]
      split
      · rfl
      rename_i hGoesOn
      have hEof : (TokenSource.current s).isEof = false := by
        simp only [endsItems, Bool.or_eq_true, not_or]
          at hGoesOn
        simpa using hGoesOn.1
      split
      · rw [String.append_assoc]
        exact ih _ (TokenSource.remaining_advance_lt s hEof) _
      · apply Parser.outcome_bind_map
        intro head m _
        apply Parser.outcome_bind_map
        intro node n _
        rw [Parser.outcome_bind_pure,
          Parser.outcome_bind_pure]
        cases ((items nested "").run n).outcome with
        | error e => rfl
        | ok tail =>
            simp [Except.map, Block.followedBy, Block.cons]

/- There are no items at the end of the input. -/
theorem outcome_items_of_isEof
    {nested : Bool}
    {before : String}
    {s : σ}
    (hEof : (TokenSource.current s).isEof = true) :
    ((items nested before).run s).outcome =
      .ok ⟨[], before⟩ := by
  rw [items_eq, Parser.run_bind_current]
  simp only [endsItems, hEof, Bool.true_or, if_true]
  rfl

/- An item that has been read is in front of the others. -/
theorem outcome_items_of_head
    {nested : Bool}
    {before : String}
    {s m n : σ}
    {head : Head}
    {node : Node}
    (hEof : (TokenSource.current s).isEof = false)
    (hSeparator :
      isSeparator (TokenSource.current s) = false)
    (hRight :
      isRightCurly (TokenSource.current s) = false)
    (hHead : itemHead.Yields s head m)
    (hNode :
      (finishItem .full head
        (TokenSource.current s).location).Yields m node n) :
    ((items nested before).run s).outcome =
      ((items nested "").run n).outcome.map
        (Block.cons (node.withBefore before)) := by
  rw [items_eq, Parser.run_bind_current]
  simp only [endsItems, hEof, hSeparator, hRight,
    Bool.and_false, Bool.or_self, Bool.false_eq_true,
    if_false]
  rw [hHead.outcome_bind, hNode.outcome_bind,
    Parser.outcome_bind_pure]

/-
  After tokens that have the form of items, what follows is
  parsed as if they were not there.
-/
theorem outcome_items_of_form
    {nested : Bool}
    {before : String}
    {s m : σ}
    {ts rest : List Token}
    {block : Block}
    (hForm : Form.Items before ts rest block)
    (hPasses : Passes s ts m)
    (hRest : rest = upcoming m) :
    ((items nested before).run s).outcome =
      ((items nested "").run m).outcome.map
        block.followedBy := by
  induction hForm generalizing s with
  | @done before _ =>
      rcases hPasses with rfl
      simpa using outcome_items_before before "" s
  | separator hSeparator hTail ih =>
      rcases hPasses with ⟨rfl, hEof, hPassesTail⟩
      have hRight := isRightCurly_of_isSeparator hSeparator
      rw [items_eq, Parser.run_bind_current]
      simp only [endsItems, hEof, hRight, hSeparator,
        Bool.and_false, Bool.or_self, Bool.false_eq_true,
        if_false, if_true]
      exact ih hPassesTail hRest
  | flat hItem hTail ih =>
      rcases TokenSource.passes_append.mp hPasses with
        ⟨n, hPassesItem, hPassesTail⟩
      rcases hItem.exists_head with
        ⟨t, hFirst, hSeparator, hRight⟩
      have hCurrent := hPassesItem.current_eq hFirst
      have hEof : (TokenSource.current s).isEof = false := by
        rw [hCurrent]
        exact hPassesItem.isEof_of_mem
          (List.mem_of_head? hFirst)
      rw [hRest, ← hPassesTail.upcoming_eq] at hItem
      rw [startOf_of_passes hPassesItem hFirst,
        outcome_items_of_head hEof (hCurrent ▸ hSeparator)
          (hCurrent ▸ hRight)
          (yields_itemHead_leaf.mpr ⟨_, hPassesItem, hItem⟩)
          (Parser.yields_pure.mpr ⟨rfl, rfl⟩),
        ih hPassesTail hRest, Block.map_followedBy_cons]
      rfl
  | block hHead hSeparator hBody hRight hTail _ ihTail =>
      rcases TokenSource.passes_append.mp hPasses with
        ⟨n, hPassesHead, hPassesAfter⟩
      rcases TokenSource.passes_append.mp hPassesAfter with
        ⟨k, hPassesBody, hPassesRight⟩
      rcases hHead.exists_head with ⟨t, hFirst, hOther⟩
      have hCurrent := hPassesHead.current_eq hFirst
      have hEof : (TokenSource.current s).isEof = false := by
        rw [hCurrent]
        exact hPassesHead.isEof_of_mem
          (List.mem_of_head? hFirst)
      have hUpcoming := hPassesRight.upcoming_eq
      rw [← hRest] at hUpcoming
      rcases hPassesRight with ⟨rfl, _, hPassesTail⟩
      have hInner : (items true "").Yields n _ k :=
        yields_items_of_form hBody hPassesBody hUpcoming.symm
          (by simp [endsItems, hRight])
      rw [startOf_of_passes hPassesHead hFirst,
        outcome_items_of_head hEof
          (hCurrent ▸ hSeparator t hFirst)
          (hCurrent ▸ hOther)
          (yields_itemHead_opening.mpr
            ⟨_, hPassesHead, hHead⟩)
          (yields_blockNode.mpr
            ⟨_, k, hInner, hRight, rfl, rfl⟩),
        ihTail hPassesTail hRest, Block.map_followedBy_cons]
      rfl

end Grammar

end LosslessCss

------------------------------------------------------------
-- Lists of Tokens
------------------------------------------------------------

namespace LosslessCss

open TokenSource (Passes upcoming)

namespace TokenList

/- After some tokens of a list, the others are a list. -/
theorem passes_ofTokens
    {first : List Token}
    (hEof : ∀ t ∈ first, t.isEof = false)
    (t : Token)
    (second : List Token) :
    Passes (ofTokens (first ++ t :: second)) first
      (ofTokens (t :: second)) := by
  induction first with
  | nil => exact TokenSource.passes_nil.mpr rfl
  | cons u first ih =>
      rcases List.forall_mem_cons.mp hEof with
        ⟨hFirst, hOthers⟩
      refine .cons hFirst ?_
      have hNext :
          TokenSource.advance
              (ofTokens (u :: first ++ t :: second)) =
            ofTokens (first ++ t :: second) := by
        cases first with
        | nil => exact advance_cons hFirst second
        | cons v first => exact advance_cons hFirst _
      rw [hNext]
      exact ih hOthers

/-
  Items that are closed, and then the items of the others
  as if they came alone.
-/
theorem outcome_items_append
    {first : List Token}
    {block : Block}
    (hEof : ∀ t ∈ first, t.isEof = false)
    (hForm : Form.Items "" first [] block)
    (hClosed : Form.Closed first)
    (second : List Token) :
    ((Grammar.items false "").run
        (ofTokens (first ++ second))).outcome =
      ((Grammar.items false "").run
          (ofTokens second)).outcome.map
        block.followedBy := by
  cases second with
  | nil =>
      -- No token shows where the first list ends, so its end
      -- mark is elsewhere than that of the empty list.
      have hUpcoming :
          upcoming (ofTokens (first ++ [])) = first := by
        rw [List.append_nil, upcoming_ofTokens,
          Token.untilEof_eq_self hEof]
      rcases TokenSource.exists_passes_upcoming
          (ofTokens (first ++ [])) with
        ⟨m, hPasses, hEnd⟩
      rw [hUpcoming] at hPasses
      rw [Grammar.outcome_items_of_form hForm hPasses
          hEnd.symm,
        Grammar.outcome_items_of_isEof
          (TokenSource.upcoming_eq_nil_iff.mp hEnd),
        Grammar.outcome_items_of_isEof rfl]
  | cons t second =>
      exact
        Grammar.outcome_items_of_form
          (hForm.of_closed hClosed _)
          (passes_ofTokens hEof t second) rfl

end TokenList

namespace Parse

variable {here : Location} {source : Option String}

/- The tree of a style sheet has its items as children. -/
theorem tokens_styleSheet
    (list : List Token) :
    tokens list ⟨.styleSheet, here, source⟩ =
      ((Grammar.items false "").run
          (TokenList.ofTokens list)).outcome.map
        fun block =>
          block.toNode .styleSheet
            (TokenSource.location (TokenList.ofTokens list))
            "" :=
  Parser.outcome_bind_pure

/-
  Two lists of tokens, of which the first is a style sheet
  that is closed.  Together they are parsed to the children
  of both, or fail where the second one fails.
-/
theorem tokens_append
    {first second : List Token}
    {root : Node}
    {block : Block}
    (hEof : ∀ t ∈ first ++ second, t.isEof = false)
    (hFirst :
      tokens first ⟨.styleSheet, here, source⟩ = .ok root)
    (hBlock : root.block? = some block)
    (hClosed : Form.Closed first) :
    (∀ other rest,
      tokens second ⟨.styleSheet, here, source⟩ = .ok other →
        other.block? = some rest →
          ∃ whole,
            tokens (first ++ second)
                ⟨.styleSheet, here, source⟩ =
              .ok whole ∧
            whole.block? = some (block.followedBy rest)) ∧
    ∀ e,
      tokens second ⟨.styleSheet, here, source⟩ = .error e →
        tokens (first ++ second)
            ⟨.styleSheet, here, source⟩ =
          .error e := by
  have hEofFirst : ∀ t ∈ first, t.isEof = false :=
    fun t hMem => hEof t (by simp [hMem])
  have hForm : Form.Items "" first [] block := by
    rcases (tokens_styleSheet_iff hEofFirst).mp hFirst with
      ⟨found, hForm, rfl⟩
    cases hBlock
    exact hForm
  have hWhole :=
    TokenList.outcome_items_append hEofFirst hForm hClosed
      second
  simp only [tokens_styleSheet, hWhole]
  cases ((Grammar.items false "").run
      (TokenList.ofTokens second)).outcome with
  | error e =>
      refine ⟨nofun, ?_⟩
      rintro _ ⟨⟩
      rfl
  | ok rest =>
      refine ⟨?_, nofun⟩
      rintro _ _ ⟨⟩ ⟨⟩
      exact ⟨_, rfl, rfl⟩

/-
  An import with another semicolon in its conditions, and a
  comment and a blank after it.  The blank goes to the rule
  of the second list.
-/
theorem tokens_append_import :
    ∃ (first second : List Token) (block rest : Block)
        (whole : Node),
      (∀ t ∈ first ++ second, t.isEof = false) ∧
      tokens first Settings.default =
        .ok (block.toNode .styleSheet Location.start "") ∧
      Form.Closed first ∧
      tokens second Settings.default =
        .ok (rest.toNode .styleSheet Location.start "") ∧
      tokens (first ++ second) Settings.default =
        .ok whole ∧
      whole.block? = some (block.followedBy rest) ∧
      (block.followedBy rest).children.map Node.before =
        ["", "", " -->"] := by
  let first :=
    (Lexer.tokenize "@import 'p' (;);/**/ "
      Location.start).dropLast
  let second :=
    (Lexer.tokenize "-->q\x7b\x7d" Location.start).dropLast
  let block : Block :=
    ⟨[ .leaf
          (.statement .importRule
            [ .filler " ", .value "'p'", .filler " ",
              .value "(;)", .filler ";" ])
          ⟨1, 1, 0⟩ "",
        .leaf (.comment "/**/") ⟨1, 17, 16⟩ "" ],
      " "⟩
  let rest : Block :=
    ⟨[ .block
          (.rule [.filler "", .value "q", .filler ""])
          [] "" ⟨1, 4, 3⟩ "-->" ],
      ""⟩
  have hEof : ∀ t ∈ first ++ second, t.isEof = false := by
    decide +kernel
  have hClosed : Form.Closed first := by
    unfold Form.Closed
    decide +kernel
  have hFirst :
      tokens first Settings.default =
        .ok (block.toNode .styleSheet Location.start "") := by
    decide +kernel
  have hSecond :
      tokens second Settings.default =
        .ok (rest.toNode .styleSheet Location.start "") := by
    decide +kernel
  rcases (tokens_append hEof hFirst rfl hClosed).1 _ _
      hSecond rfl with
    ⟨whole, hParse, hWhole⟩
  exact
    ⟨first, second, block, rest, whole, hEof, hFirst,
      hClosed, hSecond, hParse, hWhole, rfl⟩

end Parse

end LosslessCss
