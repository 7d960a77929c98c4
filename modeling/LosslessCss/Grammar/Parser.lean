import LosslessCss.Source.TokenSlice
import LosslessCss.SyntaxError
import LosslessCss.Trace

/-
  Parsers over token sources.

  A parser replies with a result or an error, with the
  source as it was left behind, and with a trace.  It comes
  with the proof that it never leaves more tokens than there
  were, which bounds every recursion of the grammar.

  What is parsed in a session also depends on the scope of
  the session.  An isolated run of tokens is a fragment, and
  a fragment has no lists of items.

  Key definitions include:
    * `Reply`
    * `Parser`
    * `Scope`
    * `Session`
    * `Parser.Consumes`
    * `Parser.isolated`

  Key theorems include:
    * `Parser.run_bind_of_ok`
    * `Parser.run_bind_of_error`
    * `Parser.Consumes.bind`
-/

------------------------------------------------------------
-- Replies
------------------------------------------------------------

namespace LosslessCss

/- The reply of a parser. -/
structure Reply (σ α : Type) where
  outcome : Except SyntaxError α
  source : σ
  trace : List Event

namespace Reply

variable {σ α β : Type}

/- A result without a trace. -/
def ok
    (value : α)
    (s : σ) : Reply σ α :=
  ⟨.ok value, s, []⟩

/- An error without a trace. -/
def error
    (e : SyntaxError)
    (s : σ) : Reply σ α :=
  ⟨.error e, s, []⟩

/- Change the result. -/
def map
    (f : α → β)
    (r : Reply σ α) : Reply σ β :=
  ⟨r.outcome.map f, r.source, r.trace⟩

/- Put earlier events in front of the trace. -/
def after
    (events : List Event)
    (r : Reply σ α) : Reply σ α :=
  { r with trace := events ++ r.trace }

end Reply

end LosslessCss

------------------------------------------------------------
-- Parsers
------------------------------------------------------------

namespace LosslessCss

open TokenSource (remaining)

/- A function from sources to replies that leave no more. -/
structure Parser
    (σ : Type)
    [TokenSource σ]
    (α : Type) where
  run : σ → Reply σ α
  remaining_run_le (s : σ) :
    remaining (run s).source ≤ remaining s

namespace Parser

variable {σ : Type} [TokenSource σ] {α β : Type}

/- Parse nothing. -/
def succeed (value : α) : Parser σ α :=
  ⟨fun s => .ok value s, fun _ => Nat.le_refl _⟩

/- Go on with the result of a reply, unless it failed. -/
def continueWith
    (r : Reply σ α)
    (f : α → Parser σ β) : Reply σ β :=
  match r.outcome with
  | .ok value => ((f value).run r.source).after r.trace
  | .error e => ⟨.error e, r.source, r.trace⟩

/- Going on with a reply leaves no more than it left. -/
theorem remaining_continueWith_le
    (r : Reply σ α)
    (f : α → Parser σ β) :
    remaining (continueWith r f).source ≤
      remaining r.source := by
  unfold continueWith
  split
  · rename_i value _
    exact (f value).remaining_run_le r.source
  · exact Nat.le_refl _

/- Parse with one parser and then with the next. -/
def andThen
    (p : Parser σ α)
    (f : α → Parser σ β) : Parser σ β :=
  ⟨fun s => continueWith (p.run s) f, fun s =>
    Nat.le_trans (remaining_continueWith_le (p.run s) f)
      (p.remaining_run_le s)⟩

instance : Monad (Parser σ) where
  pure := succeed
  bind := andThen

/- A parser that succeeds goes on with its result. -/
theorem run_bind_of_ok
    (p : Parser σ α)
    (f : α → Parser σ β)
    (s : σ)
    {value : α}
    (h : (p.run s).outcome = .ok value) :
    (p >>= f).run s =
      ((f value).run (p.run s).source).after
        (p.run s).trace := by
  simp only [bind, andThen, continueWith, h]

/- A parser that fails ends the parse. -/
theorem run_bind_of_error
    (p : Parser σ α)
    (f : α → Parser σ β)
    (s : σ)
    {e : SyntaxError}
    (h : (p.run s).outcome = .error e) :
    (p >>= f).run s =
      ⟨.error e, (p.run s).source, (p.run s).trace⟩ := by
  simp only [bind, andThen, continueWith, h]

end Parser

end LosslessCss

------------------------------------------------------------
-- Sessions
------------------------------------------------------------

namespace LosslessCss

/-
  The grammar that a session provides: all of it, or only
  that of an isolated run of tokens.
-/
inductive Scope where
  | full
  | fragment
deriving DecidableEq

namespace Scope

/- The name of a scope. -/
def name : Scope → String
| .full => "Stylesheet"
| .fragment => "Fragment"

end Scope

/- A source that is parsed, and the scope of its grammar. -/
structure Session (σ : Type) where
  source : σ
  scope : Scope

namespace Session

variable {σ : Type} [TokenSource σ] {α : Type}

/- A session over a source has the full grammar. -/
def ofSource (s : σ) : Session σ :=
  ⟨s, .full⟩

/- A session over an isolated run of tokens. -/
def ofFragment
    (tokens : List Token)
    (fallback : Location) : Session TokenSlice :=
  ⟨TokenSlice.ofTokens tokens fallback, .fragment⟩

/- Parse in a session what its scope makes of a grammar. -/
def reply
    (session : Session σ)
    (p : Scope → Parser σ α) : Reply σ α :=
  (p session.scope).run session.source

end Session

end LosslessCss

------------------------------------------------------------
-- Single Steps
------------------------------------------------------------

namespace LosslessCss

open TokenSource (remaining)

/-
  The trace of having moved to the given place: the token
  there, if the source reads its tokens while it moves.
-/
def TokenSource.arrival
    {σ : Type}
    [TokenSource σ]
    (s : σ) : List Event :=
  if TokenSource.traced σ then
    [.token (TokenSource.current s)]
  else
    []

namespace Parser

variable {σ : Type} [TokenSource σ] {α : Type}

/- Look at the token at the cursor. -/
def current : Parser σ Token :=
  ⟨fun s => .ok (TokenSource.current s) s,
    fun _ => Nat.le_refl _⟩

/- Look at the location of the token at the cursor. -/
def location : Parser σ Location :=
  ⟨fun s => .ok (TokenSource.location s) s,
    fun _ => Nat.le_refl _⟩

/- Move over the token at the cursor. -/
def advance : Parser σ Unit :=
  ⟨fun s =>
      let next := TokenSource.advance s
      ⟨.ok (), next, TokenSource.arrival next⟩,
    TokenSource.remaining_advance_le⟩

/- Note that a routine is entered. -/
def enter (routine : Routine) : Parser σ Unit :=
  ⟨fun s => ⟨.ok (), s, [.enter routine]⟩,
    fun _ => Nat.le_refl _⟩

/- Fail at the token at the cursor. -/
def fail
    (kind : ErrorKind)
    (detail : String) : Parser σ α :=
  ⟨fun s =>
      .error ⟨kind, detail, TokenSource.location s⟩ s,
    fun _ => Nat.le_refl _⟩

/-
  Parse an isolated run of tokens in a session of its own.
  The cursor of the source itself does not move.
-/
def isolated
    (tokens : List Token)
    (fallback : Location)
    (p : Scope → Parser TokenSlice α) : Parser σ α :=
  ⟨fun s =>
      let r := (Session.ofFragment tokens fallback).reply p
      ⟨r.outcome, s, r.trace⟩,
    fun _ => Nat.le_refl _⟩

end Parser

end LosslessCss

------------------------------------------------------------
-- Parsers That Consume
------------------------------------------------------------

namespace LosslessCss

open TokenSource (remaining)

namespace Parser

variable {σ : Type} [TokenSource σ] {α β : Type}

/- On success the parser leaves less than there was. -/
def Consumes
    (p : Parser σ α)
    (s : σ) : Prop :=
  ∀ value,
    (p.run s).outcome = .ok value →
      remaining (p.run s).source < remaining s

/- What consumes still does with more after it. -/
theorem Consumes.bind
    {p : Parser σ α}
    {s : σ}
    (h : p.Consumes s)
    (f : α → Parser σ β) :
    (p >>= f).Consumes s := by
  intro value hvalue
  cases hp : (p.run s).outcome with
  | error e =>
      rw [run_bind_of_error p f s hp] at hvalue
      cases hvalue
  | ok a =>
      rw [run_bind_of_ok p f s hp]
      exact Nat.lt_of_le_of_lt
        ((f a).remaining_run_le (p.run s).source)
        (h a hp)

/- What follows may do the consuming. -/
theorem Consumes.after
    {p : Parser σ α}
    {f : α → Parser σ β}
    {s : σ}
    (hsource : (p.run s).source = s)
    (h :
      ∀ a, (p.run s).outcome = .ok a →
        (f a).Consumes s) :
    (p >>= f).Consumes s := by
  intro value hvalue
  cases hp : (p.run s).outcome with
  | error e =>
      rw [run_bind_of_error p f s hp] at hvalue
      cases hvalue
  | ok a =>
      rw [run_bind_of_ok p f s hp] at hvalue ⊢
      rw [hsource] at hvalue ⊢
      exact h a hp value hvalue

/- Moving over a token before the end consumes it. -/
theorem consumes_advance
    {s : σ}
    (h : (TokenSource.current s).isEof = false) :
    (advance : Parser σ Unit).Consumes s :=
  fun _ _ => TokenSource.remaining_advance_lt s h

/- A failure never succeeds. -/
theorem consumes_fail
    (kind : ErrorKind)
    (detail : String)
    (s : σ) :
    (fail kind detail : Parser σ α).Consumes s := by
  intro value hvalue
  cases hvalue

/- Looking at the token leaves the source as it is. -/
theorem Consumes.current
    {f : Token → Parser σ β}
    {s : σ}
    (h : (f (TokenSource.current s)).Consumes s) :
    (Parser.current >>= f).Consumes s := by
  apply Consumes.after rfl
  intro a ha
  cases ha
  exact h

/- Looking at the location leaves the source as it is. -/
theorem Consumes.location
    {f : Location → Parser σ β}
    {s : σ}
    (h : (f (TokenSource.location s)).Consumes s) :
    (Parser.location >>= f).Consumes s := by
  apply Consumes.after rfl
  intro a ha
  cases ha
  exact h

/- Entering a routine leaves the source as it is. -/
theorem Consumes.enter
    {routine : Routine}
    {f : Unit → Parser σ β}
    {s : σ}
    (h : (f ()).Consumes s) :
    (Parser.enter routine >>= f).Consumes s := by
  apply Consumes.after rfl
  intro a _
  exact h

end Parser

end LosslessCss
