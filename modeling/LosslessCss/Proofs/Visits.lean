import LosslessCss.Proofs.Failing
import LosslessCss.Proofs.Pulling
import LosslessCss.Proofs.SingleItems

/-
  The discipline of a parse: it visits tokens from the first
  one on, each of them once, and it never goes on from an end
  mark.  A parse that succeeds has visited all tokens, and
  nothing is left for a later one.

  Texts leave their tokens in the trace.  Lists and slices of
  tokens are watched to see where their cursors go.

  Key definitions include:
    * `Watched`
    * `Parser.visits`
    * `Parser.Disciplined`
    * `Parse.Thorough`

  Key theorems include:
    * `Parser.disciplined_of_pulls`
    * `Parse.session_of_isEof`
    * `Parse.pull_discipline`
-/

------------------------------------------------------------
-- Watched Sources
------------------------------------------------------------

namespace LosslessCss

open TokenSource (Alike upcoming ending)

/- A source that tells of each token that it moves to. -/
structure Watched (σ : Type) where
  source : σ

namespace Watched

variable {σ : Type} [TokenSource σ]

instance : TokenSource (Watched σ) where
  current s := TokenSource.current s.source
  advance s := ⟨TokenSource.advance s.source⟩
  remaining s := TokenSource.remaining s.source
  traced := true
  remaining_advance_le s :=
    TokenSource.remaining_advance_le s.source
  remaining_advance_lt s :=
    TokenSource.remaining_advance_lt s.source

theorem source_iterate_advance
    (s : Watched σ)
    (n : Nat) :
    (TokenSource.advance^[n] s).source =
      TokenSource.advance^[n] s.source := by
  induction n generalizing s with
  | zero => rfl
  | succ n ih => exact ih (TokenSource.advance s)

/- Watching a source does not change what it shows. -/
theorem alike
    (s : σ) :
    Alike (Watched.mk s) s := by
  apply TokenSource.alike_of_current
  intro n
  have hSource := source_iterate_advance (Watched.mk s) n
  change
    TokenSource.current
        (TokenSource.advance^[n] (Watched.mk s)).source = _
  rw [hSource]

end Watched

namespace TokenSource

variable {σ τ : Type} [TokenSource σ] [TokenSource τ]

/- Sources that are alike are at the same token. -/
theorem Alike.current_eq
    {s : σ}
    {t : τ}
    (hAlike : Alike s t) :
    current s = current t := by
  have hShown : shown s = shown t := by
    rw [shown, shown, hAlike.1, hAlike.2]
  rcases shown_eq_cons s with ⟨_, hLeft⟩
  rcases shown_eq_cons t with ⟨_, hRight⟩
  rw [hLeft, hRight] at hShown
  exact (List.cons.inj hShown).1

/- Where no token is upcoming, the end mark is all there is. -/
theorem shown_of_isEof
    {s : σ}
    (hEof : (current s).isEof = true) :
    shown s = [current s] := by
  rw [shown, upcoming_of_isEof hEof, ending_of_isEof hEof]
  rfl

end TokenSource

end LosslessCss

------------------------------------------------------------
-- Disciplined Parses
------------------------------------------------------------

namespace LosslessCss

open TokenSource (upcoming shown)

namespace Parser

variable {σ : Type} [TokenSource σ] {α : Type}

/- The tokens that the cursor of a source comes to. -/
def visits
    (p : Parser (Watched σ) α)
    (s : σ) : List Token :=
  TokenSource.current s ::
    Event.tokens (p.run ⟨s⟩).trace

/-
  The tokens `visited` by a parse come first among `all`
  tokens, and at most one of them is an end mark.  Success
  means that all of them have been visited and that the
  cursor is at the last one, the end mark.
-/
structure Disciplined
    (all visited : List Token)
    (reply : Reply σ α) : Prop where
  visited_prefix : visited <+: all
  count_isEof_le : visited.countP Token.isEof ≤ 1
  of_success :
    ∀ {value},
      reply.outcome = .ok value →
        visited = all ∧
          all.getLast? =
            some (TokenSource.current reply.source) ∧
          (TokenSource.current reply.source).isEof = true

end Parser

namespace TokenSource

variable {σ : Type} [TokenSource σ]

/- Only the last of the tokens that are shown is an end mark. -/
theorem countP_isEof_shown
    (s : σ) :
    (shown s).countP Token.isEof = 1 := by
  have hNone : (upcoming s).countP Token.isEof = 0 := by
    rw [List.countP_eq_zero]
    intro t hMem
    simp [isEof_of_mem_upcoming hMem]
  rw [shown, List.countP_append, hNone,
    List.countP_singleton, isEof_ending, if_pos rfl]

end TokenSource

namespace Parser

variable {σ : Type} [TokenSource σ] {α : Type}

/-
  A parser that pulls is disciplined, as long as it does not
  succeed before the end.
-/
theorem disciplined_of_pulls
    {p : Parser σ α}
    {s : σ}
    {arrived : List Token}
    (hTraced : TokenSource.traced σ = true)
    (hPulls : p.Pulls s)
    (hArrived : Event.tokens (p.run s).trace = arrived)
    (hEnd :
      ∀ {value},
        (p.run s).outcome = .ok value →
          upcoming (p.run s).source = []) :
    Disciplined (shown s) (TokenSource.current s :: arrived)
      (p.run s) := by
  rcases hPulls with
    ⟨passed, others, hPasses, hOthers, hTrace⟩
  rw [hTraced, if_pos rfl, hArrived] at hTrace
  subst hTrace
  rcases TokenSource.shown_eq_cons (p.run s).source with
    ⟨rest, hRest⟩
  have hAll :
      shown s = TokenSource.current s :: arrived ++ rest := by
    rw [hPasses.shown_eq, hRest, ← hOthers,
      List.append_assoc]
    rfl
  have hPrefix :
      TokenSource.current s :: arrived <+: shown s :=
    ⟨rest, hAll.symm⟩
  refine ⟨hPrefix, ?_, ?_⟩
  · rw [← TokenSource.countP_isEof_shown s]
    exact hPrefix.sublist.countP_le
  · intro value hOk
    have hEof :=
      TokenSource.upcoming_eq_nil_iff.mp (hEnd hOk)
    have hLast :=
      TokenSource.shown_of_isEof hEof
    refine ⟨?_, ?_, hEof⟩
    · rw [hPasses.shown_eq, hLast, hOthers]
    · rw [hPasses.shown_eq, hLast, List.getLast?_concat]

end Parser

end LosslessCss

------------------------------------------------------------
-- Watched Parses
------------------------------------------------------------

namespace LosslessCss

open TokenSource (Alike upcoming shown)

namespace Parser

variable {σ : Type} [TokenSource σ] {α : Type}

/-
  A parser is disciplined on a source if it pulls on the
  watched one and does the same there.
-/
theorem disciplined_of_watched
    {p : Parser σ α}
    {q : Parser (Watched σ) α}
    {s : σ}
    (hPulls : q.Pulls ⟨s⟩)
    (hAgree : Agree q p ⟨s⟩ s)
    (hEnd :
      ∀ {value},
        (q.run ⟨s⟩).outcome = .ok value →
          upcoming (q.run ⟨s⟩).source = []) :
    Disciplined (shown s) (q.visits s) (p.run s) := by
  have hShown : shown (Watched.mk s) = shown s := by
    rw [shown, shown, (Watched.alike s).1,
      (Watched.alike s).2]
  have hWatched :=
    disciplined_of_pulls rfl hPulls rfl hEnd
  rw [hShown] at hWatched
  refine
    ⟨hWatched.visited_prefix, hWatched.count_isEof_le, ?_⟩
  intro value hOk
  rw [← hAgree.2.current_eq]
  exact hWatched.of_success (hAgree.1.trans hOk)

end Parser

namespace Grammar

variable {σ τ : Type} [TokenSource σ] [TokenSource τ]

/- Parsers that follow each other in place agree. -/
theorem agree_of_follows
    {α : Type}
    {p : Parser σ α}
    {q : Parser τ α}
    {s : σ}
    {t : τ}
    {g : α → α}
    (hSame : ∀ a, g a = a)
    (hFollows : Parser.Follows false id g p q s t) :
    Parser.Agree p q s t := by
  rcases hFollows.2 with hEnd | ⟨hOutcome, hSource⟩
  · cases hEnd.1
  · refine ⟨?_, TokenSource.follows_id_iff.mp hSource⟩
    rw [hOutcome]
    cases (p.run s).outcome with
    | error e => rfl
    | ok a => rw [Parser.movedOutcome, hSame]

/- A document that is read has no tokens behind it. -/
theorem upcoming_eq_nil_of_document
    {context : Context}
    {s s' : σ}
    {root : Node}
    (hYields : (document .full context).Yields s root s') :
    upcoming s' = [] := by
  rcases form_of_yields_document hYields with
    ⟨_, hPasses, _⟩
  exact List.append_right_eq_self.mp
    hPasses.upcoming_eq.symm

variable (s : σ)

theorem disciplined_document
    (context : Context) :
    Parser.Disciplined (shown s)
      ((document .full context).visits s)
      ((document .full context).run s) := by
  apply Parser.disciplined_of_watched
    (pulls_document context)
    (agree_document context (Watched.alike s))
  intro root hOk
  exact
    upcoming_eq_nil_of_document
      (Parser.yields_of_outcome hOk)

theorem disciplined_selectorList :
    Parser.Disciplined (shown s) (selectorList.visits s)
      (selectorList.run s) := by
  apply Parser.disciplined_of_watched pulls_selectorList
  · exact
      agree_of_follows (fun _ => rfl)
        (follows_selectorList
          (TokenSource.follows_id_iff.mpr (Watched.alike s)))
  · intro pieces hOk
    have hYields := Parser.yields_of_outcome hOk
    rcases yields_selectorList.mp hYields with ⟨_, _, _, hEnd⟩
    exact hEnd

theorem disciplined_declaration :
    Parser.Disciplined (shown s) (declaration.visits s)
      (declaration.run s) := by
  apply Parser.disciplined_of_watched pulls_declaration
  · exact
      agree_of_follows (fun _ => rfl)
        (follows_declaration
          (TokenSource.follows_id_iff.mpr (Watched.alike s)))
  · intro leaf hOk
    have hYields := Parser.yields_of_outcome hOk
    rcases yields_declaration.mp hYields with ⟨_, _, _, hEnd⟩
    exact hEnd

end Grammar

end LosslessCss

------------------------------------------------------------
-- After the End
------------------------------------------------------------

namespace LosslessCss

open TokenSource (upcoming)

namespace Parse

variable {σ : Type} [TokenSource σ] {s : σ}

/- From the end mark on, no parse moves the cursor. -/
theorem session_of_isEof
    (hEof : (TokenSource.current s).isEof = true)
    (contexts : List Context) :
    session s contexts =
      contexts.map fun context =>
        ((Grammar.document .full context).run s).outcome := by
  induction contexts with
  | nil => rfl
  | cons context contexts ih =>
      rcases Grammar.pulls_document context (s := s) with
        ⟨_, _, hPasses, _⟩
      simp only [session, Session.parse_ofSource]
      rw [hPasses.eq_of_isEof hEof, ih]
      rfl

/- At the end mark there is an empty style sheet. -/
theorem outcome_styleSheet_of_isEof
    (hEof : (TokenSource.current s).isEof = true) :
    ((Grammar.document .full .styleSheet).run s).outcome =
      .ok
        (.block .styleSheet [] ""
          (TokenSource.current s).location "") := by
  have hNone := TokenSource.upcoming_of_isEof hEof
  have hYields :
      (Grammar.styleSheet .full : Parser σ Node).Yields s
        (.block .styleSheet [] ""
          (TokenSource.current s).location "")
        s := by
    rw [Grammar.yields_styleSheet, hNone]
    exact ⟨⟨[], ""⟩, rfl, .done, rfl⟩
  exact hYields.1

/-
  Nothing is left: whatever else is parsed before, a style
  sheet that is parsed later has no items and no formatting.
-/
def Exhausted (s : σ) : Prop :=
  ∀ contexts,
    (session s (contexts ++ [.styleSheet])).getLast? =
      some
        (.ok
          (.block .styleSheet [] ""
            (TokenSource.current s).location ""))

theorem exhausted_of_isEof
    (hEof : (TokenSource.current s).isEof = true) :
    Exhausted s := by
  intro contexts
  rw [session_of_isEof hEof, List.map_append,
    List.map_singleton, List.getLast?_concat,
    outcome_styleSheet_of_isEof hEof]

end Parse

end LosslessCss

------------------------------------------------------------
-- Tokens of Texts and Lists
------------------------------------------------------------

namespace LosslessCss

open TokenSource (upcoming shown)

namespace Token

/- Tokens in different places are different. -/
theorem Located.nodup
    {here : Location}
    {ts : List Token}
    (hLocated : Located here ts)
    (hRaw : ∀ t ∈ ts, t.raw ≠ "") :
    ts.Nodup := by
  induction ts generalizing here with
  | nil => exact List.nodup_nil
  | cons t ts ih =>
      rcases List.forall_mem_cons.mp hRaw with
        ⟨hFirst, hOthers⟩
      rcases hLocated with ⟨rfl, hTail⟩
      refine List.nodup_cons.mpr ⟨?_, ih hTail hOthers⟩
      intro hMem
      have hBounds := hTail.offset_bounds hMem
      have hEnd := offset_lt_endLocation hFirst
      omega

end Token

namespace PulledText

variable (css : String) (here : Location)

theorem shown_eq_tokenize :
    shown (ofText css here) = Lexer.tokenize css here :=
  (tokenize_eq css here).symm

/- No token of a text is read twice. -/
theorem nodup_tokenize :
    (Lexer.tokenize css here).Nodup := by
  have hRaw :=
    (Lexer.ofText css here).raw_ne_empty_of_mem_upcoming
  have hNodup := (located_upcoming css here).nodup hRaw
  rw [tokenize_eq, List.nodup_append]
  refine ⟨hNodup, List.pairwise_singleton _ _, ?_⟩
  intro t hMem u hEnd hSame
  rw [List.mem_singleton] at hEnd
  have hToken := TokenSource.isEof_of_mem_upcoming hMem
  rw [hSame, hEnd, TokenSource.isEof_ending] at hToken
  cases hToken

end PulledText

end LosslessCss

------------------------------------------------------------
-- Thorough Parses
------------------------------------------------------------

namespace LosslessCss

open TokenSource (shown)

namespace Parse

/-
  A parse of a document is thorough if it is disciplined and
  leaves nothing for a later parse when it succeeds.
-/
structure Thorough
    {σ : Type}
    [TokenSource σ]
    (all visited : List Token)
    (reply : Reply σ Node) : Prop extends
    Parser.Disciplined all visited reply where
  exhausted :
    ∀ {root},
      reply.outcome = .ok root → Exhausted reply.source

variable {σ : Type} [TokenSource σ]

theorem Thorough.of_disciplined
    {all visited : List Token}
    {reply : Reply σ Node}
    (hDisciplined : Parser.Disciplined all visited reply) :
    Thorough all visited reply where
  toDisciplined := hDisciplined
  exhausted hOk :=
    exhausted_of_isEof (hDisciplined.of_success hOk).2.2

/- Reading a text is thorough, in any context. -/
theorem thorough_readText
    (css : String)
    (settings : Settings) :
    Thorough (Lexer.tokenize css settings.location)
      (Event.tokens (readText css settings).trace)
      (readText css settings) := by
  have hDisciplined :=
    Parser.disciplined_of_pulls
      (s := PulledText.ofText css settings.location)
      rfl (Grammar.pulls_document settings.context) rfl
      (fun hOk =>
        Grammar.upcoming_eq_nil_of_document
          (Parser.yields_of_outcome hOk))
  rw [PulledText.shown_eq_tokenize] at hDisciplined
  -- The events of the start change neither end nor outcome.
  rcases hDisciplined with ⟨hPrefix, hCount, hSuccess⟩
  exact .of_disciplined ⟨hPrefix, hCount, hSuccess⟩

/- Parsing from another source is thorough as well. -/
theorem thorough_document
    (context : Context)
    (s : σ) :
    Thorough (shown s)
      ((Grammar.document .full context).visits s)
      ((Grammar.document .full context).run s) :=
  .of_disciplined (Grammar.disciplined_document s context)

/-
  The discipline of parses.  The tokens that are read from a
  text come first among its tokens and are read once.  The
  tokens that are visited in a list or in a slice come first
  among those up to the end mark, be it in the list or added
  to it, and that holds for the parts that are parsed from
  slices of their own, too.  No parse goes on from the end
  mark, and one that succeeds leaves no other token behind.
-/
theorem pull_discipline :
    (∀ (css : String) (settings : Settings),
      Thorough (Lexer.tokenize css settings.location)
          (Event.tokens (readText css settings).trace)
          (readText css settings) ∧
        (Event.tokens (readText css settings).trace).Nodup) ∧
    (∀ (list : List Token) (context : Context),
      Thorough
        (Token.untilEof list ++
          [Token.eofAfter Location.start list])
        ((Grammar.document .full context).visits
          (TokenList.ofTokens list))
        ((Grammar.document .full context).run
          (TokenList.ofTokens list))) ∧
    (∀ (list : List Token) (fallback : Location)
        (context : Context),
      Thorough
        (Token.untilEof list ++
          [Token.eofAfter fallback list])
        ((Grammar.document .full context).visits
          (TokenSlice.ofTokens list fallback))
        ((Grammar.document .full context).run
          (TokenSlice.ofTokens list fallback))) ∧
    (∀ (list : List Token) (fallback : Location),
      Parser.Disciplined
          (Token.untilEof list ++
            [Token.eofAfter fallback list])
          (Grammar.selectorList.visits
            (TokenSlice.ofTokens list fallback))
          (Grammar.selectorList.run
            (TokenSlice.ofTokens list fallback)) ∧
        Parser.Disciplined
          (Token.untilEof list ++
            [Token.eofAfter fallback list])
          (Grammar.declaration.visits
            (TokenSlice.ofTokens list fallback))
          (Grammar.declaration.run
            (TokenSlice.ofTokens list fallback))) := by
  refine ⟨?_, ?_, ?_, ?_⟩
  · intro css settings
    have hThorough := thorough_readText css settings
    refine ⟨hThorough, ?_⟩
    have hNodup :=
      PulledText.nodup_tokenize css settings.location
    exact hNodup.sublist hThorough.visited_prefix.sublist
  · intro list context
    rw [← TokenList.upcoming_ofTokens,
      ← TokenList.ending_ofTokens]
    exact thorough_document context _
  · intro list fallback context
    rw [← TokenSlice.upcoming_ofTokens list fallback,
      ← TokenSlice.ending_ofTokens]
    exact thorough_document context _
  · intro list fallback
    rw [← TokenSlice.upcoming_ofTokens list fallback,
      ← TokenSlice.ending_ofTokens]
    exact
      ⟨Grammar.disciplined_selectorList _,
        Grammar.disciplined_declaration _⟩

end Parse

end LosslessCss
