import LosslessCss.Grammar.Run

/-
  Spans: an opening token with everything up to the closer
  that belongs to it.

  Functions, parentheses and brackets open spans, and spans
  nest.  A closer that does not belong to the innermost span
  is plain text, and so are braces and semicolons.

  Key definitions include:
    * `Closer`
    * `Grammar.opens?`
    * `Grammar.takeSpan`
    * `Chunk`
    * `Grammar.chunk`
    * `Grammar.chunksWhile`
-/

------------------------------------------------------------
-- Openers and Closers
------------------------------------------------------------

namespace LosslessCss

/- The two tokens that close spans. -/
inductive Closer where
  | paren
  | bracket
deriving DecidableEq

namespace Closer

/- Whether a token is the closer. -/
def closes
    (closer : Closer)
    (t : Token) : Bool :=
  match closer, t.kind with
  | .paren, .rightParen => true
  | .bracket, .rightBracket => true
  | _, _ => false

end Closer

/- What a token opens, and the routine that reads it. -/
structure Opener where
  routine : Routine
  closer : Closer
deriving DecidableEq

namespace Grammar

/- What a function token opens. -/
def opensFunction? (t : Token) : Option Opener :=
  match t.kind with
  | .function _ => some ⟨.functionSpan, .paren⟩
  | _ => none

/- What a function, a parenthesis or a bracket opens. -/
def opens? (t : Token) : Option Opener :=
  match t.kind with
  | .function _ => some ⟨.functionSpan, .paren⟩
  | .leftParen => some ⟨.bracketSpan, .paren⟩
  | .leftBracket => some ⟨.bracketSpan, .bracket⟩
  | _ => none

end Grammar

end LosslessCss

------------------------------------------------------------
-- Spans
------------------------------------------------------------

namespace LosslessCss

open TokenSource (remaining)

namespace Grammar

variable {σ : Type} [TokenSource σ]

/- The error of a span that reaches the end of the input. -/
def unclosedSpan (s : σ) : SyntaxError :=
  ⟨.unclosedBlock, "expected a closing bracket",
    TokenSource.location s⟩

/-
  Take everything up to and including the closer, with the
  cursor after the opening token.
-/
def takeSpan
    (closer : Closer)
    (s : σ) : Within s String :=
  let t := TokenSource.current s
  let next := TokenSource.advance s
  if closer.closes t then
    ⟨⟨.ok t.raw, next, TokenSource.arrival next⟩,
      TokenSource.remaining_advance_le s⟩
  else if hend : t.isEof then
    ⟨.error (unclosedSpan s) s, Nat.le_refl _⟩
  else
    have hnext : remaining next < remaining s :=
      TokenSource.remaining_advance_lt s (by simpa using hend)
    match opens? t with
    | none =>
        let tail := takeSpan closer next
        ⟨(tail.val.map (t.raw ++ ·)).after
            (TokenSource.arrival next),
          Nat.le_trans tail.property (Nat.le_of_lt hnext)⟩
    | some opener =>
        let body := takeSpan opener.closer next
        let events :=
          .enter opener.routine ::
            (TokenSource.arrival next ++ body.val.trace)
        have hbody : remaining body.val.source < remaining s :=
          Nat.lt_of_le_of_lt body.property hnext
        match body.val.outcome with
        | .error e =>
            ⟨⟨.error e, body.val.source, events⟩,
              Nat.le_of_lt hbody⟩
        | .ok text =>
            let tail := takeSpan closer body.val.source
            ⟨(tail.val.map (t.raw ++ text ++ ·)).after
                events,
              Nat.le_trans tail.property
                (Nat.le_of_lt hbody)⟩
termination_by remaining s

/- Parse the rest of a span. -/
def span (closer : Closer) : Parser σ String :=
  ⟨fun s => (takeSpan closer s).val,
    fun s => (takeSpan closer s).property⟩

end Grammar

end LosslessCss

------------------------------------------------------------
-- Chunks
------------------------------------------------------------

namespace LosslessCss

open TokenSource (remaining)

/- A single token, or a whole span with its first token. -/
structure Chunk where
  head : Token
  raw : String
deriving DecidableEq

namespace Chunk

/- Whether a chunk is formatting. -/
def isFiller (chunk : Chunk) : Bool :=
  chunk.head.isFiller

/- The source text of a list of chunks. -/
def rawText : List Chunk → String
| [] => ""
| chunk :: chunks => chunk.raw ++ rawText chunks

end Chunk

namespace Grammar

variable {σ : Type} [TokenSource σ]

/- Parse one chunk, where `opens` says what opens a span. -/
def chunk
    (opens : Token → Option Opener) : Parser σ Chunk := do
  let t ← Parser.current
  match opens t with
  | none =>
      Parser.advance
      pure ⟨t, t.raw⟩
  | some opener =>
      Parser.enter opener.routine
      Parser.advance
      let body ← span opener.closer
      pure ⟨t, t.raw ++ body⟩

/- A chunk before the end of the input consumes tokens. -/
theorem consumes_chunk
    (opens : Token → Option Opener)
    {s : σ}
    (h : (TokenSource.current s).isEof = false) :
    (chunk opens).Consumes s := by
  unfold chunk
  apply Parser.Consumes.current
  split
  · exact (Parser.consumes_advance h).bind _
  · apply Parser.Consumes.enter
    exact (Parser.consumes_advance h).bind _

/- Take chunks while their first tokens satisfy `p`. -/
def takeChunks
    (opens : Token → Option Opener)
    (p : Token → Bool)
    (s : σ) : Within s (List Chunk) :=
  if h : goesOn p s then
    let first := (chunk opens).run s
    match hfirst : first.outcome with
    | .error e =>
        ⟨⟨.error e, first.source, first.trace⟩,
          (chunk opens).remaining_run_le s⟩
    | .ok c =>
        have hnext : remaining first.source < remaining s :=
          consumes_chunk opens (isEof_of_goesOn h) c hfirst
        let tail := takeChunks opens p first.source
        ⟨(tail.val.map (c :: ·)).after first.trace,
          Nat.le_trans tail.property (Nat.le_of_lt hnext)⟩
  else
    ⟨.ok [] s, Nat.le_refl _⟩
termination_by remaining s

/- Take chunks while they satisfy `p`, up to the end. -/
def chunksWhile
    (opens : Token → Option Opener)
    (p : Token → Bool) : Parser σ (List Chunk) :=
  ⟨fun s => (takeChunks opens p s).val,
    fun s => (takeChunks opens p s).property⟩

end Grammar

end LosslessCss
