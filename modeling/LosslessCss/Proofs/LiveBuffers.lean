import LosslessCss.Parse
import LosslessCss.Proofs.Failing
import LosslessCss.Proofs.Sessions
import LosslessCss.Proofs.TokenBuffers

/-
  Parses over a buffer of slots.

  A buffer that is intact is a source of tokens: none of its
  accesses fails, and its cursor is on a slot that still has
  its token.  When a parser moves over tokens, some of them
  are taken out of their slots and others are left there.  It
  does not matter which, because a parse never goes back.

  So every parse over a buffer is a run of its operations,
  none of which fails, and its outcome is that of the parse
  over the list of tokens.

  Key definitions include:
    * `TokenBuffer.Intact.after`
    * `LiveBuffer`
    * `LiveBuffer.ofTokens`

  Key theorems include:
    * `LiveBuffer.getElem?_position`
    * `LiveBuffer.alike_tokenList`
    * `LiveBuffer.exists_run_of_parse`
    * `Parse.session_liveBuffer`
    * `Parse.tokens_liveBuffer`
-/

------------------------------------------------------------
-- Accesses That Cannot Fail
------------------------------------------------------------

namespace LosslessCss

namespace TokenBuffer

variable {ts : List Token} {s : TokenBuffer}

/- The token at the cursor of an intact buffer. -/
def Intact.token (h : Intact ts s) : Token :=
  s.current?.get
    (Option.isSome_iff_exists.mpr h.exists_current?)

theorem Intact.current?_eq_token
    (h : Intact ts s) :
    s.current? = some h.token :=
  (Option.some_get _).symm

theorem Intact.isSome_step?
    (h : Intact ts s)
    (step : Step) :
    (s.step? step).isSome = true := by
  rcases h.step step with ⟨s', hStep, _⟩
  rw [hStep]
  rfl

/- An intact buffer after a step. -/
def Intact.after
    (h : Intact ts s)
    (step : Step) : TokenBuffer :=
  (s.step? step).get (h.isSome_step? step)

theorem Intact.step?_eq_after
    (h : Intact ts s)
    (step : Step) :
    s.step? step = some (h.after step) :=
  (Option.some_get _).symm

theorem Intact.intact_after
    (h : Intact ts s)
    (step : Step) :
    Intact ts (h.after step) := by
  rcases h.step step with ⟨s', hStep, hNext, _⟩
  rw [h.step?_eq_after, Option.some.injEq] at hStep
  rwa [hStep]

theorem Intact.position_after
    (h : Intact ts s)
    (step : Step) :
    (h.after step).position =
      min (s.position + step.moves.toNat)
        (Token.endIndex ts) := by
  rcases h.step step with ⟨s', hStep, _, hPlace⟩
  rw [h.step?_eq_after, Option.some.injEq] at hStep
  rw [hStep, hPlace]

/- The cursor stops where the first end mark is. -/
theorem Intact.isEof_token_iff
    (h : Intact ts s) :
    h.token.isEof = true ↔ s.position = Token.endIndex ts := by
  have hToken : ts[s.position]? = some h.token := by
    rw [← h.current?_eq, h.current?_eq_token]
  exact Token.isEof_getElem?_iff hToken h.position_le

end TokenBuffer

end LosslessCss

------------------------------------------------------------
-- Live Buffers
------------------------------------------------------------

namespace LosslessCss

/-
  An intact buffer of a list of tokens, and which slots are
  vacated when the cursor moves on from them.
-/
structure LiveBuffer (ts : List Token) where
  buffer : TokenBuffer
  intact : TokenBuffer.Intact ts buffer
  takes : Nat → Bool

namespace LiveBuffer

variable {ts : List Token}

/- A buffer of a list of tokens, with an end mark. -/
def ofTokens
    (list : List Token)
    (takes : Nat → Bool) :
    LiveBuffer (Token.withEnd list) :=
  ⟨TokenBuffer.ofTokens list,
    TokenBuffer.intact_ofTokens list, takes⟩

/- How the cursor moves on from its slot. -/
def move (s : LiveBuffer ts) : TokenBuffer.Step :=
  if s.takes s.buffer.position then .take else .advance

theorem moves_move
    (s : LiveBuffer ts) :
    s.move.moves = true := by
  unfold move
  split
  · rfl
  · rfl

/- The buffer after the cursor has moved on. -/
def advance (s : LiveBuffer ts) : LiveBuffer ts :=
  { buffer := s.intact.after s.move
    intact := s.intact.intact_after s.move
    takes := s.takes }

/- The slots from the cursor to the first end mark. -/
def remaining (s : LiveBuffer ts) : Nat :=
  Token.endIndex ts - s.buffer.position

theorem position_advance
    (s : LiveBuffer ts) :
    s.advance.buffer.position =
      min (s.buffer.position + 1) (Token.endIndex ts) := by
  have hPlace := s.intact.position_after s.move
  rwa [s.moves_move] at hPlace

theorem remaining_advance_le
    (s : LiveBuffer ts) :
    s.advance.remaining ≤ s.remaining := by
  have hFront := s.intact.position_le
  rw [remaining, remaining, position_advance]
  omega

theorem remaining_advance_lt
    (s : LiveBuffer ts)
    (hEof : s.intact.token.isEof = false) :
    s.advance.remaining < s.remaining := by
  have hFront := s.intact.position_le
  have hOther : s.buffer.position ≠ Token.endIndex ts := by
    rw [Ne, ← s.intact.isEof_token_iff, hEof]
    nofun
  rw [remaining, remaining, position_advance]
  omega

instance : TokenSource (LiveBuffer ts) where
  current s := s.intact.token
  advance := advance
  remaining := remaining
  traced := false
  remaining_advance_le := remaining_advance_le
  remaining_advance_lt := remaining_advance_lt

/-
  What a parser gets to see is a token of the list.  Vacant
  slots are behind the cursor.
-/
theorem getElem?_position
    (s : LiveBuffer ts) :
    ts[s.buffer.position]? =
      some (TokenSource.current s) := by
  rw [← s.intact.current?_eq]
  exact s.intact.current?_eq_token

end LiveBuffer

end LosslessCss

------------------------------------------------------------
-- Buffers and Lists
------------------------------------------------------------

namespace LosslessCss

namespace LiveBuffer

variable {ts : List Token}

theorem position_iterate_advance
    (s : LiveBuffer ts)
    (n : Nat) :
    (TokenSource.advance^[n] s).buffer.position =
      min (s.buffer.position + n) (Token.endIndex ts) := by
  induction n generalizing s with
  | zero =>
      exact (Nat.min_eq_left s.intact.position_le).symm
  | succ n ih =>
      have hPlace := s.position_advance
      rw [Function.iterate_succ_apply, ih]
      change min (s.advance.buffer.position + n) _ = _
      omega

/- A buffer shows what the list shows, move by move. -/
theorem alike_tokenList
    (list : List Token)
    (takes : Nat → Bool) :
    TokenSource.Alike (ofTokens list takes)
      (TokenList.ofTokens list) := by
  apply TokenSource.alike_of_current
  intro n
  have hBuffer :=
    getElem?_position
      (TokenSource.advance^[n] (ofTokens list takes))
  have hList := TokenList.getElem?_withEnd n list
  have hStart : (ofTokens list takes).buffer.position = 0 :=
    rfl
  rw [position_iterate_advance, hStart, Nat.zero_add, hList,
    Option.some.injEq] at hBuffer
  exact hBuffer.symm

/- Passing tokens is a run of the buffer that works. -/
theorem exists_run_of_passes
    {s s' : LiveBuffer ts}
    {us : List Token}
    (hPasses : TokenSource.Passes s us s') :
    ∃ steps, s.buffer.run? steps = some s'.buffer := by
  induction us generalizing s with
  | nil =>
      cases hPasses
      exact ⟨[], rfl⟩
  | cons u us ih =>
      rcases hPasses with ⟨_, _, hTail⟩
      rcases ih hTail with ⟨steps, hRun⟩
      refine ⟨s.move :: steps, ?_⟩
      rw [TokenBuffer.run?, List.foldlM_cons,
        s.intact.step?_eq_after s.move]
      exact hRun

/-
  Whatever is parsed, the buffer that is left is where a run
  of its operations leads, none of which fails.
-/
theorem exists_run_of_parse
    (s : LiveBuffer ts)
    (context : Context) :
    ∃ steps,
      s.buffer.run? steps =
        some
          ((Session.ofSource s).parse
            context).source.buffer := by
  rcases (Grammar.follows_document context
      (TokenSource.follows_self s)).1 with
    ⟨visited, hPasses⟩
  exact exists_run_of_passes hPasses

end LiveBuffer

namespace Parse

/- Parses over a buffer have the outcomes of the list. -/
theorem session_liveBuffer
    (list : List Token)
    (takes : Nat → Bool)
    (contexts : List Context) :
    session (LiveBuffer.ofTokens list takes) contexts =
      session (TokenList.ofTokens list) contexts :=
  session_eq_of_alike
    (LiveBuffer.alike_tokenList list takes) contexts

/-
  A list of tokens can be parsed in a buffer, whichever of
  its slots are vacated on the way.
-/
theorem tokens_liveBuffer
    (list : List Token)
    (takes : Nat → Bool)
    (settings : Settings) :
    ((Session.ofSource (LiveBuffer.ofTokens list takes)).parse
        settings.context).outcome =
      tokens list settings := by
  have hAlike := LiveBuffer.alike_tokenList list takes
  exact (Grammar.agree_document settings.context hAlike).1

end Parse

end LosslessCss
