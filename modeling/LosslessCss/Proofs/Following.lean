import LosslessCss.Proofs.ItemRecognition

/-
  The grammar passes locations along without looking at them,
  and it never looks past the end of what it has read.

  One source follows another when it shows the same tokens at
  other places, and perhaps more of them.  Every routine then
  does the same on both, up to the places.  Only where the
  second source may have more, a routine that has reached the
  end of the first one can differ.

  Key definitions include:
    * `Token.moved`
    * `Node.moved`
    * `TokenSource.Follows`
    * `Parser.Follows`

  Key theorems include:
    * `TokenSlice.follows_ofTokens`
    * `Parser.Follows.bind`
    * `Grammar.follows_items`
    * `Grammar.follows_document`
-/

------------------------------------------------------------
-- Moved Tokens and Trees
------------------------------------------------------------

namespace LosslessCss

namespace Token

/- The token at another place. -/
def moved
    (f : Location → Location)
    (t : Token) : Token :=
  ⟨t.kind, t.raw, f t.location⟩

@[simp] theorem kind_moved
    (f : Location → Location)
    (t : Token) :
    (t.moved f).kind = t.kind :=
  rfl

@[simp] theorem raw_moved
    (f : Location → Location)
    (t : Token) :
    (t.moved f).raw = t.raw :=
  rfl

@[simp] theorem isEof_moved
    (f : Location → Location)
    (t : Token) :
    (t.moved f).isEof = t.isEof :=
  rfl

@[simp] theorem rawText_map_moved
    (f : Location → Location)
    (ts : List Token) :
    rawText (ts.map (moved f)) = rawText ts := by
  induction ts with
  | nil => rfl
  | cons t ts ih => simp [rawText, ih]

/- The place after a token moves along with the token. -/
def Carried
    (f : Location → Location)
    (t : Token) : Prop :=
  (t.moved f).endLocation = f t.endLocation

/- What does not depend on the place of a token. -/
def Blind
    {α : Type}
    (p : Token → α) : Prop :=
  ∀ (f : Location → Location) (t : Token),
    p (t.moved f) = p t

/- The end mark after moved tokens is the moved end mark. -/
theorem eofAfter_map_moved
    {f : Location → Location}
    {ts : List Token}
    (hCarried : ∀ t ∈ ts, t.Carried f)
    (fallback : Location) :
    eofAfter (f fallback) (ts.map (moved f)) =
      (eofAfter fallback ts).moved f := by
  induction ts generalizing fallback with
  | nil => rfl
  | cons t ts ih =>
      rcases List.forall_mem_cons.mp hCarried with
        ⟨hFirst, hOthers⟩
      rw [List.map_cons, eofAfter, eofAfter, isEof_moved,
        hFirst, ih hOthers]
      split <;> rfl

theorem untilEof_map_moved
    (f : Location → Location)
    (ts : List Token) :
    untilEof (ts.map (moved f)) =
      (untilEof ts).map (moved f) := by
  unfold untilEof
  rw [List.takeWhile_map]
  rfl

end Token

namespace Chunk

/- The chunk at another place. -/
def moved
    (f : Location → Location)
    (c : Chunk) : Chunk :=
  ⟨c.head.moved f, c.raw⟩

@[simp] theorem rawText_map_moved
    (f : Location → Location)
    (cs : List Chunk) :
    rawText (cs.map (moved f)) = rawText cs := by
  induction cs with
  | nil => rfl
  | cons c cs ih => simp [rawText, moved, ih]

end Chunk

namespace Node

mutual

/- The node with all its descendants at other places. -/
def moved
    (f : Location → Location) : Node → Node
| .leaf content location before =>
    .leaf content (f location) before
| .block opening children after location before =>
    .block opening (movedAll f children) after
      (f location) before

/- The same for a list of nodes. -/
def movedAll
    (f : Location → Location) : List Node → List Node
| [] => []
| node :: nodes => moved f node :: movedAll f nodes

end

@[simp] theorem moved_withBefore
    (f : Location → Location)
    (node : Node)
    (before : String) :
    (node.withBefore before).moved f =
      (node.moved f).withBefore before := by
  cases node with
  | leaf _ _ _ => rfl
  | block _ _ _ _ _ => rfl

end Node

namespace Block

/- The block with all its nodes at other places. -/
def moved
    (f : Location → Location)
    (block : Block) : Block :=
  ⟨Node.movedAll f block.children, block.after⟩

@[simp] theorem moved_cons
    (f : Location → Location)
    (node : Node)
    (block : Block) :
    (block.cons node).moved f =
      (block.moved f).cons (node.moved f) :=
  rfl

@[simp] theorem moved_toNode
    (f : Location → Location)
    (block : Block)
    (opening : Opening)
    (location : Location)
    (before : String) :
    (block.toNode opening location before).moved f =
      (block.moved f).toNode opening (f location) before :=
  rfl

end Block

namespace SyntaxError

/- The error at another place. -/
def moved
    (f : Location → Location)
    (e : SyntaxError) : SyntaxError :=
  ⟨e.kind, e.detail, f e.location⟩

end SyntaxError

namespace Parser

variable {α : Type}

/-
  An outcome at another place, where `g` says what becomes
  of a result.
-/
def movedOutcome
    (f : Location → Location)
    (g : α → α) : Except SyntaxError α → Except SyntaxError α
| .ok value => .ok (g value)
| .error e => .error (e.moved f)

end Parser

end LosslessCss

------------------------------------------------------------
-- Arrangements
------------------------------------------------------------

namespace LosslessCss

namespace Grammar

variable (f : Location → Location) (chunks : List Chunk)

theorem trimFiller_map_moved :
    trimFiller (chunks.map (Chunk.moved f)) =
      (trimFiller chunks).map (Chunk.moved f) := by
  simp only [trimFiller, ← List.map_reverse,
    List.dropWhile_map]
  rfl

theorem trailingFiller_map_moved :
    trailingFiller (chunks.map (Chunk.moved f)) =
      (trailingFiller chunks).map (Chunk.moved f) := by
  simp only [trailingFiller, ← List.map_reverse,
    List.takeWhile_map]
  rfl

/- No arrangement of chunks looks at their places. -/
theorem arrangeFragment_map_moved
    (leading : String) :
    arrangeFragment leading (chunks.map (Chunk.moved f)) =
      arrangeFragment leading chunks := by
  unfold arrangeFragment
  rw [trimFiller_map_moved, trailingFiller_map_moved,
    Chunk.rawText_map_moved, Chunk.rawText_map_moved]

theorem arrangeSelectors_map_moved :
    arrangeSelectors (chunks.map (Chunk.moved f)) =
      arrangeSelectors chunks := by
  simp only [arrangeSelectors, List.foldl_map]
  rfl

theorem arrangeValue_map_moved :
    arrangeValue (chunks.map (Chunk.moved f)) =
      arrangeValue chunks := by
  simp only [arrangeValue, List.foldl_map]
  rfl

end Grammar

end LosslessCss

------------------------------------------------------------
-- Sources That Follow Others
------------------------------------------------------------

namespace LosslessCss

namespace TokenSource

variable {σ τ : Type} [TokenSource σ] [TokenSource τ]

/- At the end of the input nothing can be passed. -/
theorem Passes.eq_of_isEof
    {s s' : σ}
    {ts : List Token}
    (hPasses : Passes s ts s')
    (hEof : (current s).isEof = true) :
    s' = s := by
  cases ts with
  | nil => exact hPasses.symm
  | cons t ts =>
      rcases hPasses with ⟨rfl, hOther, _⟩
      rw [hEof] at hOther
      cases hOther

/-
  The second source shows the tokens of the first one at
  other places.  It has the same end, unless it may be
  longer: then more tokens may follow.
-/
structure Follows
    (longer : Bool)
    (f : Location → Location)
    (s : σ)
    (t : τ) : Prop where
  shown :
    ∃ more,
      upcoming t = (upcoming s).map (Token.moved f) ++ more ∧
        (longer = false → more = [])
  ended : longer = false → ending t = (ending s).moved f
  carried : ∀ x ∈ upcoming s, x.Carried f

variable {longer : Bool} {f : Location → Location}
variable {s : σ} {t : τ}

/- A source that is at its end is followed by any other. -/
theorem follows_of_isEof
    (hLonger : longer = true)
    (hEof : (current s).isEof = true)
    (t : τ) :
    Follows longer f s t where
  shown := by
    rw [upcoming_of_isEof hEof]
    exact ⟨upcoming t, rfl, by simp [hLonger]⟩
  ended := by simp [hLonger]
  carried := by simp [upcoming_of_isEof hEof]

/- Where a token is shown, the same token is shown. -/
theorem Follows.current_of_not_isEof
    (hFollows : Follows longer f s t)
    (hEof : (current s).isEof = false) :
    current t = (current s).moved f := by
  rcases hFollows.shown with ⟨more, hShown, _⟩
  have hHead := congrArg List.head? hShown
  rw [head?_upcoming, upcoming_of_not_isEof hEof] at hHead
  cases hOther : (current t).isEof with
  | true => simp [hOther] at hHead
  | false => simpa [hOther] using hHead

/- The end is shown alike, if the sources end alike. -/
theorem Follows.current_of_isEof
    (hFollows : Follows longer f s t)
    (hEof : (current s).isEof = true)
    (hLonger : longer = false) :
    current t = (current s).moved f := by
  rcases hFollows.shown with ⟨more, hShown, hMore⟩
  rw [hMore hLonger, upcoming_of_isEof hEof] at hShown
  have hOther := upcoming_eq_nil_iff.mp hShown
  rw [← ending_of_isEof hEof, ← ending_of_isEof hOther]
  exact hFollows.ended hLonger

theorem Follows.current_eq_or
    (hFollows : Follows longer f s t) :
    current t = (current s).moved f ∨
      longer = true ∧ (current s).isEof = true := by
  cases hEof : (current s).isEof with
  | false => exact .inl (hFollows.current_of_not_isEof hEof)
  | true =>
      cases hLonger : longer with
      | false =>
          exact
            .inl (hFollows.current_of_isEof hEof hLonger)
      | true => exact .inr ⟨rfl, rfl⟩

/- Both sources move over a token alike. -/
theorem Follows.advance
    (hFollows : Follows longer f s t)
    (hEof : (current s).isEof = false) :
    Follows longer f (advance s) (advance t) := by
  have hCurrent := hFollows.current_of_not_isEof hEof
  have hOther : (current t).isEof = false := by
    rw [hCurrent, Token.isEof_moved, hEof]
  rcases hFollows with ⟨⟨more, hShown, hMore⟩, hEnd, hPlace⟩
  rw [upcoming_of_not_isEof hEof,
    upcoming_of_not_isEof hOther] at hShown
  rw [ending_of_not_isEof hEof,
    ending_of_not_isEof hOther] at hEnd
  rw [upcoming_of_not_isEof hEof] at hPlace
  rcases List.cons.inj hShown with ⟨_, hTail⟩
  exact
    ⟨⟨more, hTail, hMore⟩, hEnd,
      (List.forall_mem_cons.mp hPlace).2⟩

end TokenSource

namespace TokenSlice

/- Isolated runs of the same tokens end alike. -/
theorem follows_ofTokens
    {f : Location → Location}
    {ts : List Token}
    (hCarried : ∀ t ∈ ts, t.Carried f)
    (fallback : Location) :
    TokenSource.Follows false f (ofTokens ts fallback)
      (ofTokens (ts.map (Token.moved f)) (f fallback)) where
  shown := by
    rw [upcoming_ofTokens, upcoming_ofTokens,
      Token.untilEof_map_moved]
    exact ⟨[], by simp, fun _ => rfl⟩
  ended := by
    intro _
    rw [ending_ofTokens, ending_ofTokens,
      Token.eofAfter_map_moved hCarried]
  carried := by
    rw [upcoming_ofTokens]
    intro t hMem
    exact hCarried t ((List.takeWhile_prefix _).subset hMem)

end TokenSlice

end LosslessCss

------------------------------------------------------------
-- Parsers That Follow Others
------------------------------------------------------------

namespace LosslessCss

open TokenSource (Passes)

namespace Parser

variable {σ τ : Type} [TokenSource σ] [TokenSource τ]
variable {α β : Type}

/-
  The first parser only moves over tokens.  Unless it gets to
  an end that the other source may not have, the second one
  has the same outcome at the other places.
-/
def Follows
    (longer : Bool)
    (f : Location → Location)
    (g : α → α)
    (p : Parser σ α)
    (q : Parser τ α)
    (s : σ)
    (t : τ) : Prop :=
  (∃ ts, Passes s ts (p.run s).source) ∧
    ((longer = true ∧
        (TokenSource.current (p.run s).source).isEof =
          true) ∨
      ((q.run t).outcome =
          movedOutcome f g (p.run s).outcome ∧
        TokenSource.Follows longer f (p.run s).source
          (q.run t).source))

variable {longer : Bool} {f : Location → Location}
variable {g : α → α} {h : β → β}
variable {s : σ} {t : τ}

/- From the end of the input a parser does not move. -/
theorem Follows.of_isEof
    {p : Parser σ α}
    {q : Parser τ α}
    (hPasses : ∃ ts, Passes s ts (p.run s).source)
    (hLonger : longer = true)
    (hEof : (TokenSource.current s).isEof = true) :
    Follows longer f g p q s t := by
  rcases hPasses with ⟨ts, hPasses⟩
  refine ⟨⟨ts, hPasses⟩, .inl ⟨hLonger, ?_⟩⟩
  rw [hPasses.eq_of_isEof hEof]
  exact hEof

theorem Follows.of_eq
    {p p' : Parser σ α}
    {q q' : Parser τ α}
    (hLeft : p = p')
    (hRight : q = q')
    (hFollows : Follows longer f g p' q' s t) :
    Follows longer f g p q s t := by
  rw [hLeft, hRight]
  exact hFollows

theorem follows_pure
    (hFollows : TokenSource.Follows longer f s t)
    (value : α) :
    Follows longer f g (pure value) (pure (g value)) s t :=
  ⟨⟨[], rfl⟩, .inr ⟨rfl, hFollows⟩⟩

/-
  Sequences follow each other when their first steps do, and
  what comes next does wherever the first step has led.
-/
theorem Follows.bind
    {p : Parser σ α}
    {q : Parser τ α}
    {next : α → Parser σ β}
    {other : α → Parser τ β}
    (hFirst : Follows longer f g p q s t)
    (hNext :
      ∀ a s' t', p.Yields s a s' →
        TokenSource.Follows longer f s' t' →
          Follows longer f h (next a) (other (g a)) s' t') :
    Follows longer f h (p >>= next) (q >>= other) s t := by
  rcases hFirst with ⟨⟨ts, hPasses⟩, hCases⟩
  unfold Follows
  cases hp : (p.run s).outcome with
  | error e =>
      rw [run_bind_of_error p next s hp]
      refine ⟨⟨ts, hPasses⟩, ?_⟩
      rcases hCases with hEnd | ⟨hOutcome, hSource⟩
      · exact .inl hEnd
      · rw [hp] at hOutcome
        rw [run_bind_of_error q other t hOutcome]
        exact .inr ⟨rfl, hSource⟩
  | ok a =>
      have hYields := yields_of_outcome hp
      rw [run_bind_of_ok p next s hp]
      rcases hCases with ⟨hLonger, hEof⟩ | ⟨hOutcome, hSource⟩
      · -- The end has been reached, and any place follows it.
        have hAny :=
          TokenSource.follows_of_isEof (f := f) hLonger hEof t
        rcases hNext a _ t hYields hAny with
          ⟨⟨us, hMore⟩, _⟩
        refine
          ⟨⟨ts ++ us, hPasses.append hMore⟩,
            .inl ⟨hLonger, ?_⟩⟩
        rw [show (((next a).run (p.run s).source).after
            (p.run s).trace).source = _ from
          hMore.eq_of_isEof hEof]
        exact hEof
      · rw [hp] at hOutcome
        rw [run_bind_of_ok q other t hOutcome]
        rcases hNext a _ _ hYields hSource with
          ⟨⟨us, hMore⟩, hLast⟩
        exact ⟨⟨ts ++ us, hPasses.append hMore⟩, hLast⟩

theorem follows_bind_current
    {next : Token → Parser σ β}
    {other : Token → Parser τ β}
    (hFollows : TokenSource.Follows longer f s t)
    (hNext :
      Follows longer f h (next (TokenSource.current s))
        (other ((TokenSource.current s).moved f)) s t) :
    Follows longer f h (current >>= next)
      (current >>= other) s t := by
  rcases hFollows.current_eq_or with
    hCurrent | ⟨hLonger, hEof⟩
  · unfold Follows
    rw [run_bind_current, run_bind_current, hCurrent]
    exact hNext
  · exact .of_isEof hNext.1 hLonger hEof

theorem follows_bind_location
    {next : Location → Parser σ β}
    {other : Location → Parser τ β}
    (hFollows : TokenSource.Follows longer f s t)
    (hNext :
      Follows longer f h (next (TokenSource.location s))
        (other (f (TokenSource.location s))) s t) :
    Follows longer f h (location >>= next)
      (location >>= other) s t := by
  rcases hFollows.current_eq_or with
    hCurrent | ⟨hLonger, hEof⟩
  · have hPlace :
        TokenSource.location t = f (TokenSource.location s) :=
      congrArg Token.location hCurrent
    rw [← hPlace] at hNext
    exact hNext
  · exact .of_isEof hNext.1 hLonger hEof

theorem follows_bind_enter
    {routine : Routine}
    {next : Unit → Parser σ β}
    {other : Unit → Parser τ β}
    (hNext : Follows longer f h (next ()) (other ()) s t) :
    Follows longer f h (enter routine >>= next)
      (enter routine >>= other) s t :=
  hNext

/- A token is only moved over when it is no end mark. -/
theorem follows_bind_advance
    {next : Unit → Parser σ β}
    {other : Unit → Parser τ β}
    (hEof : (TokenSource.current s).isEof = false)
    (hNext :
      Follows longer f h (next ()) (other ())
        (TokenSource.advance s) (TokenSource.advance t)) :
    Follows longer f h (advance >>= next)
      (advance >>= other) s t := by
  rcases hNext with ⟨⟨ts, hPasses⟩, hCases⟩
  exact ⟨⟨_, .cons hEof hPasses⟩, hCases⟩

theorem follows_fail
    (hFollows : TokenSource.Follows longer f s t)
    (kind : ErrorKind)
    (detail : String) :
    Follows longer f g (fail kind detail)
      (fail kind detail) s t := by
  rcases hFollows.current_eq_or with
    hCurrent | ⟨hLonger, hEof⟩
  · have hPlace := congrArg Token.location hCurrent
    have hError :=
      congrArg (SyntaxError.mk kind detail) hPlace
    exact
      ⟨⟨[], rfl⟩,
        .inr ⟨congrArg Except.error hError, hFollows⟩⟩
  · exact .of_isEof ⟨[], rfl⟩ hLonger hEof

/- An isolated run counts for itself. -/
theorem follows_isolated
    {p q : Scope → Parser TokenSlice α}
    {ts : List Token}
    {fallback : Location}
    (hFollows : TokenSource.Follows longer f s t)
    (hCarried : ∀ u ∈ ts, u.Carried f)
    (hRun :
      ∀ {a b : TokenSlice}, TokenSource.Follows false f a b →
        Follows false f g (p .fragment) (q .fragment)
          a b) :
    Follows longer f g (isolated ts fallback p)
      (isolated (ts.map (Token.moved f)) (f fallback) q)
      s t := by
  have hSlices :=
    TokenSlice.follows_ofTokens hCarried fallback
  rcases (hRun hSlices).2 with hEnd | ⟨hOutcome, _⟩
  · cases hEnd.1
  · exact ⟨⟨[], rfl⟩, .inr ⟨hOutcome, hFollows⟩⟩

theorem follows_ite
    {c : Prop}
    [Decidable c]
    {p p' : Parser σ α}
    {q q' : Parser τ α}
    (hYes : c → Follows longer f g p q s t)
    (hNo : ¬ c → Follows longer f g p' q' s t) :
    Follows longer f g (if c then p else p')
      (if c then q else q') s t := by
  by_cases h : c
  · simpa [h] using hYes h
  · simpa [h] using hNo h

end Parser

end LosslessCss

------------------------------------------------------------
-- Runs and Spans
------------------------------------------------------------

namespace LosslessCss

namespace Grammar

variable {σ τ : Type} [TokenSource σ] [TokenSource τ]
variable {longer : Bool} {f : Location → Location}
variable {s : σ} {t : τ}

theorem follows_tokensWhile
    {p : Token → Bool}
    (hBlind : Token.Blind p)
    (hFollows : TokenSource.Follows longer f s t) :
    Parser.Follows longer f (List.map (Token.moved f))
      (tokensWhile p) (tokensWhile p) s t := by
  induction s using TokenSource.remaining_induction
    generalizing t with
  | step s ih =>
      apply Parser.Follows.of_eq (tokensWhile_eq p)
        (tokensWhile_eq p)
      apply Parser.follows_bind_current hFollows
      simp only [Token.isEof_moved,
        hBlind f (TokenSource.current s)]
      apply Parser.follows_ite
      · intro hGoesOn
        simp only [Bool.and_eq_true, Bool.not_eq_true']
          at hGoesOn
        apply Parser.follows_bind_advance hGoesOn.1
        apply Parser.Follows.bind
        · exact ih _
            (TokenSource.remaining_advance_lt s hGoesOn.1)
            (hFollows.advance hGoesOn.1)
        · intro tail s' t' _ hNext
          exact Parser.follows_pure hNext _
      · intro _
        exact Parser.follows_pure hFollows _

theorem follows_filler
    (hFollows : TokenSource.Follows longer f s t) :
    Parser.Follows longer f id filler filler s t := by
  have hBlind : Token.Blind Token.isFiller := fun _ _ => rfl
  apply Parser.Follows.bind
    (follows_tokensWhile hBlind hFollows)
  intro tokens s' t' _ hNext
  rw [Token.rawText_map_moved]
  exact Parser.follows_pure hNext _

theorem follows_span
    (closer : Closer)
    (hFollows : TokenSource.Follows longer f s t) :
    Parser.Follows longer f id (span closer) (span closer)
      s t := by
  induction s using TokenSource.remaining_induction
    generalizing closer t with
  | step s ih =>
      apply Parser.Follows.of_eq (span_eq closer)
        (span_eq closer)
      apply Parser.follows_bind_current hFollows
      apply Parser.follows_ite
      · intro hCloses
        have hEof := isEof_of_closes hCloses
        apply Parser.follows_bind_advance hEof
        exact Parser.follows_pure (hFollows.advance hEof) _
      · intro _
        apply Parser.follows_ite
        · intro _
          exact Parser.follows_fail hFollows _ _
        · intro hEof
          rw [Bool.not_eq_true] at hEof
          have hLt := TokenSource.remaining_advance_lt s hEof
          have hNext := hFollows.advance hEof
          have hBlind :
              opens? ((TokenSource.current s).moved f) =
                opens? (TokenSource.current s) := rfl
          rw [hBlind]
          cases hOpens : opens? (TokenSource.current s) with
          | none =>
              apply Parser.follows_bind_advance hEof
              apply Parser.Follows.bind
                (ih _ hLt closer hNext)
              intro tail s' t' _ hLast
              exact Parser.follows_pure hLast _
          | some opener =>
              apply Parser.follows_bind_enter
              apply Parser.follows_bind_advance hEof
              apply Parser.Follows.bind
                (ih _ hLt opener.closer hNext)
              intro body s' t' hBody hInner
              have hLast :=
                Nat.lt_of_le_of_lt hBody.remaining_le hLt
              apply Parser.Follows.bind
                (ih _ hLast closer hInner)
              intro tail s'' t'' _ hEnd
              exact Parser.follows_pure hEnd _

/- A chunk is only read where there is a token. -/
theorem follows_chunk
    {opens : Token → Option Opener}
    (hBlind : Token.Blind opens)
    (hFollows : TokenSource.Follows longer f s t)
    (hEof : (TokenSource.current s).isEof = false) :
    Parser.Follows longer f (Chunk.moved f) (chunk opens)
      (chunk opens) s t := by
  have hNext := hFollows.advance hEof
  apply Parser.follows_bind_current hFollows
  simp only [hBlind f (TokenSource.current s),
    Token.raw_moved]
  cases hOpens : opens (TokenSource.current s) with
  | none =>
      apply Parser.follows_bind_advance hEof
      exact Parser.follows_pure hNext _
  | some opener =>
      apply Parser.follows_bind_enter
      apply Parser.follows_bind_advance hEof
      apply Parser.Follows.bind (follows_span _ hNext)
      intro body s' t' _ hLast
      exact Parser.follows_pure hLast _

theorem follows_chunksWhile
    {opens : Token → Option Opener}
    {p : Token → Bool}
    (hOpens : Token.Blind opens)
    (hBlind : Token.Blind p)
    (hFollows : TokenSource.Follows longer f s t) :
    Parser.Follows longer f (List.map (Chunk.moved f))
      (chunksWhile opens p) (chunksWhile opens p) s t := by
  induction s using TokenSource.remaining_induction
    generalizing t with
  | step s ih =>
      apply Parser.Follows.of_eq (chunksWhile_eq opens p)
        (chunksWhile_eq opens p)
      apply Parser.follows_bind_current hFollows
      simp only [Token.isEof_moved,
        hBlind f (TokenSource.current s)]
      apply Parser.follows_ite
      · intro hGoesOn
        simp only [Bool.and_eq_true, Bool.not_eq_true']
          at hGoesOn
        apply Parser.Follows.bind
          (follows_chunk hOpens hFollows hGoesOn.1)
        intro first s' t' hFirst hNext
        have hLt :=
          (consumes_chunk opens hGoesOn.1).lt_of_yields hFirst
        apply Parser.Follows.bind (ih _ hLt hNext)
        intro tail s'' t'' _ hLast
        exact Parser.follows_pure hLast _
      · intro _
        exact Parser.follows_pure hFollows _

theorem blind_opens? :
    Token.Blind opens? :=
  fun _ _ => rfl

theorem blind_opensFunction? :
    Token.Blind opensFunction? :=
  fun _ _ => rfl

theorem follows_fragment
    {ends : Token → Bool}
    (hBlind : Token.Blind ends)
    (hFollows : TokenSource.Follows longer f s t) :
    Parser.Follows longer f id (fragment ends)
      (fragment ends) s t := by
  have hTest : Token.Blind fun t => !ends t :=
    fun f t => congrArg (!·) (hBlind f t)
  apply Parser.follows_bind_enter
  apply Parser.Follows.bind (follows_filler hFollows)
  intro leading s' t' _ hNext
  apply Parser.Follows.bind
    (follows_chunksWhile blind_opens? hTest hNext)
  intro chunks s'' t'' _ hLast
  rw [arrangeFragment_map_moved]
  exact Parser.follows_pure hLast _

end Grammar

end LosslessCss

------------------------------------------------------------
-- At-Rules
------------------------------------------------------------

namespace LosslessCss

namespace Grammar

variable {σ τ : Type} [TokenSource σ] [TokenSource τ]
variable {longer : Bool} {f : Location → Location}
variable {s : σ} {t : τ}

theorem follows_address
    (kind : ErrorKind)
    (hFollows : TokenSource.Follows longer f s t) :
    Parser.Follows longer f id (address kind) (address kind)
      s t := by
  apply Parser.follows_bind_current hFollows
  apply Parser.follows_ite
  · intro hPlain
    have hEof := isEof_of_test hPlain fun _ _ => rfl
    apply Parser.follows_bind_advance hEof
    exact Parser.follows_pure (hFollows.advance hEof) _
  · intro _
    apply Parser.follows_ite
    · intro hUrl
      have hEof := isEof_of_test hUrl fun _ _ => rfl
      apply Parser.Follows.bind
        (follows_chunk blind_opensFunction? hFollows hEof)
      intro call s' t' _ hNext
      exact Parser.follows_pure hNext _
    · intro _
      exact Parser.follows_fail hFollows _ _

theorem follows_statementEnd
    (pieces : List Piece)
    (kind : ErrorKind)
    (hFollows : TokenSource.Follows longer f s t) :
    Parser.Follows longer f id (statementEnd pieces kind)
      (statementEnd pieces kind) s t := by
  apply Parser.Follows.bind (follows_filler hFollows)
  intro blank s' t' _ hNext
  apply Parser.follows_bind_current hNext
  simp only [Token.kind_moved, Token.raw_moved]
  cases hKind : (TokenSource.current s').kind with
  | semicolon =>
      have hEof : (TokenSource.current s').isEof = false := by
        simp [Token.isEof, hKind]
      apply Parser.follows_bind_advance hEof
      exact Parser.follows_pure (hNext.advance hEof) _
  | eof => exact Parser.follows_pure hNext _
  | rightCurly => exact Parser.follows_pure hNext _
  | _ => exact Parser.follows_fail hNext _ _

theorem follows_charsetValue
    (hFollows : TokenSource.Follows longer f s t) :
    Parser.Follows longer f id charsetValue charsetValue
      s t := by
  apply Parser.follows_bind_enter
  apply Parser.Follows.bind (follows_filler hFollows)
  intro blank s' t' _ hNext
  apply Parser.follows_bind_current hNext
  apply Parser.follows_ite
  · intro hQuoted
    have hEof := isEof_of_test hQuoted fun _ _ => rfl
    apply Parser.follows_bind_advance hEof
    exact follows_statementEnd _ _ (hNext.advance hEof)
  · intro _
    exact Parser.follows_fail hNext _ _

theorem follows_importValue
    (hFollows : TokenSource.Follows longer f s t) :
    Parser.Follows longer f id importValue importValue
      s t := by
  have hBlind : Token.Blind endsImport := fun _ _ => rfl
  apply Parser.follows_bind_enter
  apply Parser.Follows.bind (follows_filler hFollows)
  intro blank s₁ t₁ _ hBlank
  apply Parser.Follows.bind (follows_address _ hBlank)
  intro url s₂ t₂ _ hUrl
  apply Parser.Follows.bind (follows_fragment hBlind hUrl)
  intro conditions s₃ t₃ _ hConditions
  exact follows_statementEnd _ _ hConditions

theorem follows_namespaceName
    (hFollows : TokenSource.Follows longer f s t) :
    Parser.Follows longer f id namespaceName namespaceName
      s t := by
  apply Parser.Follows.bind (follows_filler hFollows)
  intro blank s' t' _ hNext
  apply Parser.follows_bind_current hNext
  apply Parser.follows_ite
  · intro hIdent
    have hEof := isEof_of_test hIdent fun _ _ => rfl
    apply Parser.follows_bind_advance hEof
    apply Parser.Follows.bind
      (follows_filler (hNext.advance hEof))
    intro inner s'' t'' _ hLast
    exact Parser.follows_pure hLast _
  · intro _
    exact Parser.follows_pure hNext _

theorem follows_namespaceValue
    (hFollows : TokenSource.Follows longer f s t) :
    Parser.Follows longer f id namespaceValue namespaceValue
      s t := by
  apply Parser.follows_bind_enter
  apply Parser.Follows.bind (follows_namespaceName hFollows)
  intro name s' t' _ hName
  apply Parser.Follows.bind (follows_address _ hName)
  intro url s'' t'' _ hUrl
  exact follows_statementEnd _ _ hUrl

theorem follows_statementValue
    (name : StatementRule)
    (hFollows : TokenSource.Follows longer f s t) :
    Parser.Follows longer f id (statementValue name)
      (statementValue name) s t := by
  cases name with
  | charsetRule => exact follows_charsetValue hFollows
  | importRule => exact follows_importValue hFollows
  | namespaceRule => exact follows_namespaceValue hFollows

theorem follows_blockParameters
    (hFollows : TokenSource.Follows longer f s t) :
    Parser.Follows longer f id blockParameters
      blockParameters s t := by
  have hBlind : Token.Blind isLeftCurly := fun _ _ => rfl
  apply Parser.follows_bind_enter
  apply Parser.Follows.bind (follows_fragment hBlind hFollows)
  intro parameters s' t' _ hNext
  apply Parser.follows_bind_current hNext
  apply Parser.follows_ite
  · intro hLeft
    have hEof := isEof_of_test hLeft fun _ _ => rfl
    apply Parser.follows_bind_advance hEof
    exact Parser.follows_pure (hNext.advance hEof) _
  · intro _
    exact Parser.follows_fail hNext _ _

/-
  The keyword is read off the text of the token alone, and
  the text of an end mark may look like one.  This is why
  the token has to be known.
-/
theorem follows_atRule
    (hFollows : TokenSource.Follows longer f s t)
    (hEof : (TokenSource.current s).isEof = false) :
    Parser.Follows longer f id atRule atRule s t := by
  have hNext := hFollows.advance hEof
  apply Parser.follows_bind_enter
  apply Parser.follows_bind_current hFollows
  simp only [Token.raw_moved]
  cases hRule :
      AtRule.ofKeyword?
        (keywordOf (TokenSource.current s).raw) with
  | none => exact Parser.follows_fail hFollows _ _
  | some rule =>
      cases rule with
      | statement name =>
          apply Parser.follows_bind_advance hEof
          apply Parser.Follows.bind
            (follows_statementValue name hNext)
          intro value s' t' _ hLast
          exact Parser.follows_pure hLast _
      | block name =>
          apply Parser.follows_bind_advance hEof
          apply Parser.Follows.bind
            (follows_blockParameters hNext)
          intro parameters s' t' _ hLast
          exact Parser.follows_pure hLast _

end Grammar

end LosslessCss

------------------------------------------------------------
-- Items
------------------------------------------------------------

namespace LosslessCss

namespace Grammar

variable {σ τ : Type} [TokenSource σ] [TokenSource τ]
variable {longer : Bool} {f : Location → Location}
variable {s : σ} {t : τ}

theorem follows_ambiguousSpan
    (hFollows : TokenSource.Follows longer f s t) :
    Parser.Follows longer f
      (Prod.map (List.map (Token.moved f)) id)
      ambiguousSpan ambiguousSpan s t := by
  have hBlind : Token.Blind isAmbiguous := fun _ _ => rfl
  apply Parser.follows_bind_enter
  apply Parser.Follows.bind
    (follows_tokensWhile hBlind hFollows)
  intro tokens s' t' _ hNext
  apply Parser.follows_bind_current hNext
  simp only [Token.kind_moved, List.isEmpty_map]
  cases hKind : (TokenSource.current s').kind with
  | semicolon =>
      have hEof : (TokenSource.current s').isEof = false := by
        simp [Token.isEof, hKind]
      have hMark :
          tokens.map (Token.moved f) ++
              [(TokenSource.current s').moved f] =
            (tokens ++ [TokenSource.current s']).map
              (Token.moved f) := by
        simp
      rw [hMark]
      apply Parser.follows_bind_advance hEof
      exact Parser.follows_pure (hNext.advance hEof) _
  | leftCurly =>
      have hEof : (TokenSource.current s').isEof = false := by
        simp [Token.isEof, hKind]
      apply Parser.follows_bind_advance hEof
      exact Parser.follows_pure (hNext.advance hEof) _
  | rightCurly =>
      apply Parser.follows_ite
      · intro _
        exact Parser.follows_fail hNext _ _
      · intro _
        exact Parser.follows_pure hNext _
  | _ => exact Parser.follows_pure hNext _

/- The tokens of a run are among those that are shown. -/
theorem carried_of_yields_ambiguousSpan
    {s s' : σ}
    {tokens : List Token}
    {ending : SpanEnd}
    (hFollows : TokenSource.Follows longer f s t)
    (hSpan :
      (ambiguousSpan :
        Parser σ (List Token × SpanEnd)).Yields s
          (tokens, ending) s') :
    ∀ u ∈ tokens, u.Carried f := by
  have hPasses :
      ∃ mark, TokenSource.Passes s (tokens ++ mark) s' := by
    cases ending with
    | declaration =>
        rcases form_of_yields_ambiguousSpan hSpan with
          ⟨_, _, _, hPasses, _⟩
        exact ⟨[], by simpa using hPasses⟩
    | block =>
        rcases yields_ambiguousSpan_block.mp hSpan with
          ⟨left, hPasses, _⟩
        exact ⟨[left], hPasses⟩
  rcases hPasses with ⟨mark, hPasses⟩
  intro u hMem
  apply hFollows.carried
  rw [hPasses.upcoming_eq]
  simp [hMem]

theorem follows_selectorList
    (hFollows : TokenSource.Follows longer f s t) :
    Parser.Follows longer f id selectorList selectorList
      s t := by
  apply Parser.follows_bind_enter
  apply Parser.Follows.bind
    (follows_chunksWhile blind_opens? (fun _ _ => rfl)
      hFollows)
  intro chunks s' t' _ hNext
  rw [arrangeSelectors_map_moved]
  exact Parser.follows_pure hNext _

theorem follows_declaration
    (hFollows : TokenSource.Follows longer f s t) :
    Parser.Follows longer f id declaration declaration
      s t := by
  have hBlind : Token.Blind beforeColon := fun _ _ => rfl
  apply Parser.follows_bind_enter
  apply Parser.follows_bind_current hFollows
  apply Parser.follows_ite
  · intro hIdent
    have hEof := isEof_of_test hIdent fun _ _ => rfl
    apply Parser.follows_bind_advance hEof
    apply Parser.Follows.bind
      (follows_tokensWhile hBlind (hFollows.advance hEof))
    intro between s₁ t₁ _ hBetween
    apply Parser.follows_bind_current hBetween
    simp only [Token.kind_moved, Token.raw_moved,
      Token.rawText_map_moved]
    cases hKind : (TokenSource.current s₁).kind with
    | colon =>
        have hColon :
            (TokenSource.current s₁).isEof = false := by
          simp [Token.isEof, hKind]
        apply Parser.follows_bind_advance hColon
        apply Parser.Follows.bind
          (follows_chunksWhile blind_opensFunction?
            (fun _ _ => rfl) (hBetween.advance hColon))
        intro chunks s₂ t₂ _ hLast
        rw [arrangeValue_map_moved]
        exact Parser.follows_pure hLast _
    | _ => exact Parser.follows_fail hBetween _ _
  · intro _
    exact Parser.follows_fail hFollows _ _

theorem follows_ruleOpening
    {tokens : List Token}
    {start : Location}
    (hFollows : TokenSource.Follows longer f s t)
    (hCarried : ∀ u ∈ tokens, u.Carried f) :
    Parser.Follows longer f id (ruleOpening tokens start)
      (ruleOpening (tokens.map (Token.moved f)) (f start))
      s t := by
  apply Parser.follows_bind_enter
  apply Parser.Follows.bind
    (Parser.follows_isolated hFollows hCarried
      follows_selectorList)
  intro selectors s' t' _ hNext
  exact Parser.follows_pure hNext _

theorem follows_isolatedDeclaration
    {tokens : List Token}
    (hFollows : TokenSource.Follows longer f s t)
    (hCarried : ∀ u ∈ tokens, u.Carried f) :
    Parser.Follows longer f id (isolatedDeclaration tokens)
      (isolatedDeclaration (tokens.map (Token.moved f)))
      s t := by
  apply Parser.follows_bind_location hFollows
  exact Parser.follows_isolated hFollows hCarried
    follows_declaration

theorem follows_ruleOrDeclaration
    (hFollows : TokenSource.Follows longer f s t) :
    Parser.Follows longer f id ruleOrDeclaration
      ruleOrDeclaration s t := by
  apply Parser.follows_bind_enter
  apply Parser.follows_bind_location hFollows
  apply Parser.Follows.bind (follows_ambiguousSpan hFollows)
  rintro ⟨tokens, ending⟩ s' t' hSpan hNext
  have hCarried :=
    carried_of_yields_ambiguousSpan hFollows hSpan
  cases ending with
  | declaration =>
      apply Parser.Follows.bind
        (follows_isolatedDeclaration hNext hCarried)
      intro content s'' t'' _ hLast
      exact Parser.follows_pure hLast _
  | block =>
      apply Parser.Follows.bind
        (follows_ruleOpening hNext hCarried)
      intro opening s'' t'' _ hLast
      exact Parser.follows_pure hLast _

theorem follows_itemHead
    (hFollows : TokenSource.Follows longer f s t) :
    Parser.Follows longer f id itemHead itemHead s t := by
  apply Parser.follows_bind_current hFollows
  simp only [Token.kind_moved, Token.raw_moved]
  cases hKind : (TokenSource.current s).kind with
  | comment text =>
      have hEof : (TokenSource.current s).isEof = false := by
        simp [Token.isEof, hKind]
      apply Parser.follows_bind_advance hEof
      exact Parser.follows_pure (hFollows.advance hEof) _
  | atKeyword name =>
      have hEof : (TokenSource.current s).isEof = false := by
        simp [Token.isEof, hKind]
      exact follows_atRule hFollows hEof
  | _ => exact follows_ruleOrDeclaration hFollows

/-
  A block follows when its items do.  The items of a block
  come before those after it, so this is stated for items
  that are known to follow.
-/
theorem follows_blockNode_of_items
    (opening : Opening)
    (start : Location)
    (hItems :
      Parser.Follows longer f (Block.moved f)
        (items true "") (items true "") s t) :
    Parser.Follows longer f (Node.moved f)
      (blockNode .full opening start)
      (blockNode .full opening (f start)) s t := by
  apply Parser.Follows.bind
    (Parser.Follows.of_eq (ruleList_eq true)
      (ruleList_eq true) (Parser.follows_bind_enter hItems))
  intro block s' t' _ hNext
  apply Parser.follows_bind_current hNext
  apply Parser.follows_ite
  · intro hRight
    have hEof := isEof_of_test hRight fun _ _ => rfl
    apply Parser.follows_bind_advance hEof
    rw [← Block.moved_toNode]
    exact Parser.follows_pure (hNext.advance hEof) _
  · intro _
    exact Parser.follows_fail hNext _ _

theorem follows_finishItem_of_items
    (head : Head)
    (start : Location)
    (hFollows : TokenSource.Follows longer f s t)
    (hItems :
      Parser.Follows longer f (Block.moved f)
        (items true "") (items true "") s t) :
    Parser.Follows longer f (Node.moved f)
      (finishItem .full head start)
      (finishItem .full head (f start)) s t := by
  cases head with
  | leaf content =>
      exact Parser.follows_pure (g := Node.moved f) hFollows
        (.leaf content start "")
  | opening opening =>
      exact follows_blockNode_of_items opening start hItems

theorem follows_items
    (nested : Bool)
    (before : String)
    (hFollows : TokenSource.Follows longer f s t) :
    Parser.Follows longer f (Block.moved f)
      (items nested before) (items nested before) s t := by
  -- The items inside of a block and those after it start
  -- at places that have less left than the block itself.
  induction s using TokenSource.remaining_induction
    generalizing nested before t with
  | step s ih =>
      apply Parser.Follows.of_eq (items_eq nested before)
        (items_eq nested before)
      apply Parser.follows_bind_current hFollows
      apply Parser.follows_ite
      · intro _
        exact Parser.follows_pure (g := Block.moved f)
          hFollows ⟨[], before⟩
      · intro hGoesOn
        have hEof :
            (TokenSource.current s).isEof = false := by
          simp only [endsItems, Bool.or_eq_true, not_or]
            at hGoesOn
          simpa using hGoesOn.1
        apply Parser.follows_ite
        · intro _
          apply Parser.follows_bind_advance hEof
          exact ih _
            (TokenSource.remaining_advance_lt s hEof) _ _
            (hFollows.advance hEof)
        · intro _
          apply Parser.Follows.bind
            (follows_itemHead hFollows)
          intro head s₁ t₁ hHead hFollows₁
          have hLt₁ :=
            (consumes_itemHead hEof).lt_of_yields hHead
          apply Parser.Follows.bind
            (follows_finishItem_of_items head _ hFollows₁
              (ih _ hLt₁ true "" hFollows₁))
          intro node s₂ t₂ hNode hFollows₂
          have hLt₂ :=
            Nat.lt_of_le_of_lt hNode.remaining_le hLt₁
          apply Parser.Follows.bind
            (ih _ hLt₂ nested "" hFollows₂)
          intro tail s₃ t₃ _ hLast
          rw [← Node.moved_withBefore, ← Block.moved_cons]
          exact Parser.follows_pure hLast _

end Grammar

end LosslessCss

------------------------------------------------------------
-- Documents
------------------------------------------------------------

namespace LosslessCss

namespace Grammar

variable {σ τ : Type} [TokenSource σ] [TokenSource τ]
variable {longer : Bool} {f : Location → Location}
variable {s : σ} {t : τ}

theorem follows_blockNode
    (opening : Opening)
    (start : Location)
    (hFollows : TokenSource.Follows longer f s t) :
    Parser.Follows longer f (Node.moved f)
      (blockNode .full opening start)
      (blockNode .full opening (f start)) s t :=
  follows_blockNode_of_items opening start
    (follows_items true "" hFollows)

theorem follows_finishItem
    (head : Head)
    (start : Location)
    (hFollows : TokenSource.Follows longer f s t) :
    Parser.Follows longer f (Node.moved f)
      (finishItem .full head start)
      (finishItem .full head (f start)) s t :=
  follows_finishItem_of_items head start hFollows
    (follows_items true "" hFollows)

theorem follows_styleSheet
    (hFollows : TokenSource.Follows longer f s t) :
    Parser.Follows longer f (Node.moved f)
      (styleSheet .full) (styleSheet .full) s t := by
  apply Parser.follows_bind_enter
  apply Parser.follows_bind_location hFollows
  apply Parser.Follows.bind
    (Parser.Follows.of_eq (ruleList_eq false)
      (ruleList_eq false)
      (Parser.follows_bind_enter
        (follows_items false "" hFollows)))
  intro block s' t' _ hNext
  rw [← Block.moved_toNode]
  exact Parser.follows_pure hNext _

theorem follows_singleRule
    (hFollows : TokenSource.Follows longer f s t) :
    Parser.Follows longer f (Node.moved f)
      (singleRule .full) (singleRule .full) s t := by
  apply Parser.follows_bind_enter
  apply Parser.follows_bind_current hFollows
  apply Parser.follows_ite
  · intro _
    exact Parser.follows_fail hFollows _ _
  · intro _
    apply Parser.follows_bind_location hFollows
    apply Parser.Follows.bind (follows_ambiguousSpan hFollows)
    rintro ⟨tokens, ending⟩ s' t' hSpan hNext
    have hCarried :=
      carried_of_yields_ambiguousSpan hFollows hSpan
    cases ending with
    | block =>
        apply Parser.Follows.bind
          (follows_ruleOpening hNext hCarried)
        intro opening s'' t'' _ hLast
        exact follows_blockNode opening _ hLast
    | declaration => exact Parser.follows_fail hNext _ _

theorem follows_singleAtRule
    (hFollows : TokenSource.Follows longer f s t) :
    Parser.Follows longer f (Node.moved f)
      (singleAtRule .full) (singleAtRule .full) s t := by
  apply Parser.follows_bind_enter
  apply Parser.follows_bind_current hFollows
  apply Parser.follows_ite
  · intro hKeyword
    have hEof := isEof_of_test hKeyword fun _ _ => rfl
    apply Parser.Follows.bind (follows_atRule hFollows hEof)
    intro head s' t' _ hNext
    exact follows_finishItem head _ hNext
  · intro _
    exact Parser.follows_fail hFollows _ _

theorem follows_singleDeclaration
    (hFollows : TokenSource.Follows longer f s t) :
    Parser.Follows longer f (Node.moved f) singleDeclaration
      singleDeclaration s t := by
  apply Parser.follows_bind_enter
  apply Parser.follows_bind_location hFollows
  apply Parser.Follows.bind (follows_ambiguousSpan hFollows)
  rintro ⟨tokens, ending⟩ s' t' hSpan hNext
  have hCarried :=
    carried_of_yields_ambiguousSpan hFollows hSpan
  cases ending with
  | declaration =>
      apply Parser.Follows.bind
        (follows_isolatedDeclaration hNext hCarried)
      intro content s'' t'' _ hLast
      exact Parser.follows_pure (g := Node.moved f) hLast
        (.leaf content _ "")
  | block => exact Parser.follows_fail hNext _ _

/- Formatting around an item follows when the item does. -/
theorem follows_single
    {p : Parser σ Node}
    {q : Parser τ Node}
    (kind : ErrorKind)
    (hItem :
      ∀ {s' : σ} {t' : τ},
        TokenSource.Follows longer f s' t' →
          Parser.Follows longer f (Node.moved f) p q s' t')
    (hFollows : TokenSource.Follows longer f s t) :
    Parser.Follows longer f (Node.moved f) (single p kind)
      (single q kind) s t := by
  apply Parser.follows_bind_enter
  apply Parser.follows_bind_location hFollows
  apply Parser.Follows.bind (follows_filler hFollows)
  intro before s₁ t₁ _ hBefore
  apply Parser.Follows.bind (hItem hBefore)
  intro node s₂ t₂ _ hNode
  apply Parser.Follows.bind (follows_filler hNode)
  intro after s₃ t₃ _ hAfter
  apply Parser.follows_bind_current hAfter
  apply Parser.follows_ite
  · intro _
    have hRoot :=
      Parser.follows_pure (g := Node.moved f) hAfter
        (Block.toNode ⟨[node.withBefore before], after⟩
          .styleSheet (TokenSource.location s) "")
    simpa [Block.moved, Node.movedAll] using hRoot
  · intro _
    exact Parser.follows_fail hAfter _ _

/-
  A source that follows another is parsed alike, at the other
  places.
-/
theorem follows_document
    (context : Context)
    (hFollows : TokenSource.Follows longer f s t) :
    Parser.Follows longer f (Node.moved f)
      (document .full context) (document .full context)
      s t := by
  cases context with
  | styleSheet => exact follows_styleSheet hFollows
  | rule => exact follows_single _ follows_singleRule hFollows
  | atRule =>
      exact follows_single _ follows_singleAtRule hFollows
  | declaration =>
      exact
        follows_single _ follows_singleDeclaration hFollows

end Grammar

end LosslessCss
