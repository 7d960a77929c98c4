import LosslessCss.Grammar.Item

/-
  Lists of items: comments, at-rules, declarations and rules
  with formatting between them.

  A list inside a block ends at a right brace, which is left
  for the block.  A list outside of all blocks runs to the
  end of the input.  Every list asks for the full grammar,
  also one inside of another.

  Key definitions include:
    * `Grammar.inScope`
    * `Grammar.takeItems`
    * `Grammar.ruleList`
    * `Grammar.blockNode`
-/

------------------------------------------------------------
-- Items
------------------------------------------------------------

namespace LosslessCss

namespace Block

/- A block with one more child in front. -/
def cons
    (node : Node)
    (block : Block) : Block :=
  { block with children := node :: block.children }

end Block

namespace Opening

/- What is missing when a block has no right brace. -/
def unclosedDetail : Opening → String
| .atRule _ _ => "when consuming an at-rule"
| _ => "when consuming a rule"

end Opening

namespace Grammar

/- Whether a token is a right brace. -/
def isRightCurly (t : Token) : Bool :=
  match t.kind with
  | .rightCurly => true
  | _ => false

/- Whether a token is formatting between items. -/
def isSeparator (t : Token) : Bool :=
  match t.kind with
  | .whitespace => true
  | .cdo => true
  | .cdc => true
  | _ => false

/- Whether a list of items ends at a token. -/
def endsItems
    (nested : Bool)
    (t : Token) : Bool :=
  t.isEof || (nested && isRightCurly t)

end Grammar

end LosslessCss

------------------------------------------------------------
-- Lists of Items
------------------------------------------------------------

namespace LosslessCss

open TokenSource (remaining)

namespace Grammar

variable {σ : Type} [TokenSource σ]

/- The error of a block without its right brace. -/
def unclosedBlock
    (opening : Opening)
    (s : σ) : SyntaxError :=
  ⟨.unclosedBlock, opening.unclosedDetail,
    TokenSource.location s⟩

/- The error of a list of items in a fragment. -/
def unavailableList (s : σ) : SyntaxError :=
  ⟨.unimplemented,
    "rule lists are not available in a fragment",
    TokenSource.location s⟩

/- The reply of a list of items, if the scope has such. -/
def inScope
    (scope : Scope)
    (s : σ)
    (list : Within s Block) : Within s Block :=
  match scope with
  | .full => list
  | .fragment =>
      ⟨.error (unavailableList s) s, Nat.le_refl _⟩

/-
  Take items up to the end of their list.  The formatting in
  front of the next item is passed along.
-/
def takeItems
    (scope : Scope)
    (nested : Bool)
    (before : String)
    (s : σ) : Within s Block :=
  let t := TokenSource.current s
  if hend : endsItems nested t then
    ⟨.ok ⟨[], before⟩ s, Nat.le_refl _⟩
  else
    have heof : (TokenSource.current s).isEof = false := by
      simp only [endsItems, Bool.or_eq_true, not_or] at hend
      simpa using hend.1
    if isSeparator t then
      let next := TokenSource.advance s
      have hnext : remaining next < remaining s :=
        TokenSource.remaining_advance_lt s heof
      let tail := takeItems scope nested (before ++ t.raw) next
      ⟨tail.val.after (TokenSource.arrival next),
        Nat.le_trans tail.property (Nat.le_of_lt hnext)⟩
    else
      let head := itemHead.run s
      match hhead : head.outcome with
      | .error e =>
          ⟨⟨.error e, head.source, head.trace⟩,
            itemHead.remaining_run_le s⟩
      | .ok (.leaf content) =>
          have hnext : remaining head.source < remaining s :=
            consumes_itemHead heof _ hhead
          let node := Node.leaf content t.location before
          let tail := takeItems scope nested "" head.source
          ⟨(tail.val.map (Block.cons node)).after head.trace,
            Nat.le_trans tail.property (Nat.le_of_lt hnext)⟩
      | .ok (.opening opening) =>
          have hnext : remaining head.source < remaining s :=
            consumes_itemHead heof _ hhead
          let body :=
            inScope scope head.source
              (takeItems scope true "" head.source)
          let events :=
            head.trace ++ .enter .ruleList :: body.val.trace
          have hbody :
              remaining body.val.source < remaining s :=
            Nat.lt_of_le_of_lt body.property hnext
          match body.val.outcome with
          | .error e =>
              ⟨⟨.error e, body.val.source, events⟩,
                Nat.le_of_lt hbody⟩
          | .ok block =>
              let last := TokenSource.current body.val.source
              if isRightCurly last then
                let next :=
                  TokenSource.advance body.val.source
                have hrest : remaining next < remaining s :=
                  Nat.lt_of_le_of_lt
                    (TokenSource.remaining_advance_le _)
                    hbody
                let node :=
                  block.toNode opening t.location before
                let tail := takeItems scope nested "" next
                ⟨(tail.val.map (Block.cons node)).after
                    (events ++ TokenSource.arrival next),
                  Nat.le_trans tail.property
                    (Nat.le_of_lt hrest)⟩
              else
                ⟨⟨.error
                      (unclosedBlock opening body.val.source),
                    body.val.source, events⟩,
                  Nat.le_of_lt hbody⟩
termination_by remaining s

/- Parse a list of items. -/
def ruleList
    (scope : Scope)
    (nested : Bool) : Parser σ Block := do
  Parser.enter .ruleList
  let list (s : σ) : Within s Block :=
    inScope scope s (takeItems scope nested "" s)
  ⟨fun s => (list s).val, fun s => (list s).property⟩

/- Parse the block of an item up to its right brace. -/
def blockNode
    (scope : Scope)
    (opening : Opening)
    (start : Location) : Parser σ Node := do
  let block ← ruleList scope true
  let t ← Parser.current
  if isRightCurly t then
    Parser.advance
    pure (block.toNode opening start "")
  else
    Parser.fail .unclosedBlock opening.unclosedDetail

end Grammar

end LosslessCss
