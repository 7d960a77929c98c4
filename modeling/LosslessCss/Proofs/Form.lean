import LosslessCss.Grammar.Document
import LosslessCss.Proofs.Passing

/-
  The forms of a style sheet: which runs of tokens are which
  parts of a tree.

  The relations of this file say nothing about how a run is
  read.  Where the form of a run depends on what comes after
  it, the tokens after it are the argument `rest`.

  Key definitions include:
    * `Form.SpanRest`
    * `Form.Chunks`
    * `Form.Statement`
    * `Form.Declaration`
    * `Form.Flat`
    * `Form.Opens`
    * `Form.Items`
    * `Form.Item`
-/

------------------------------------------------------------
-- Spans and Chunks
------------------------------------------------------------

namespace LosslessCss

open Grammar

namespace Form

/-
  What follows the opening token of a span, up to and with
  its closer.  Inner spans are closed as well.
-/
inductive SpanRest : Closer → List Token → Prop where
  | close
      {closer : Closer}
      {t : Token}
      (hCloses : closer.closes t = true) :
      SpanRest closer [t]
  | plain
      {closer : Closer}
      {t : Token}
      {ts : List Token}
      (hCloses : closer.closes t = false)
      (hOpens : opens? t = none)
      (hRest : SpanRest closer ts) :
      SpanRest closer (t :: ts)
  | nested
      {closer : Closer}
      {t : Token}
      {opener : Opener}
      {body ts : List Token}
      (hOpens : opens? t = some opener)
      (hBody : SpanRest opener.closer body)
      (hRest : SpanRest closer ts) :
      SpanRest closer (t :: (body ++ ts))

/-
  A run that can be cut into chunks.  The first token of each
  chunk satisfies `p`, and `opens` says what opens a span.
-/
inductive Chunks
    (opens : Token → Option Opener)
    (p : Token → Bool) :
    List Token → List Chunk → Prop where
  | nil : Chunks opens p [] []
  | token
      {t : Token}
      {ts : List Token}
      {chunks : List Chunk}
      (hOpens : opens t = none)
      (hFirst : p t = true)
      (hRest : Chunks opens p ts chunks) :
      Chunks opens p (t :: ts) (⟨t, t.raw⟩ :: chunks)
  | span
      {t : Token}
      {opener : Opener}
      {body ts : List Token}
      {chunks : List Chunk}
      (hOpens : opens t = some opener)
      (hFirst : p t = true)
      (hBody : SpanRest opener.closer body)
      (hRest : Chunks opens p ts chunks) :
      Chunks opens p (t :: (body ++ ts))
        (⟨t, t.raw ++ Token.rawText body⟩ :: chunks)

/- A run of formatting. -/
def Fillers (ts : List Token) : Prop :=
  ∀ t ∈ ts, t.isFiller = true

/-
  A fragment up to a token that ends it: formatting and then
  chunks, of which the first is not formatting.
-/
def Fragment
    (ends : Token → Bool)
    (ts rest : List Token)
    (pieces : List Piece) : Prop :=
  ∃ leading body chunks,
    ts = leading ++ body ∧ Fillers leading ∧
      Token.Stops Token.isFiller (body ++ rest) ∧
      Chunks opens? (fun t => !ends t) body chunks ∧
      Token.Stops (fun t => !ends t) rest ∧
      pieces = arrangeFragment (Token.rawText leading) chunks

/- Of what follows a fragment, only the first token counts. -/
theorem fragment_congr_rest
    {ends : Token → Bool}
    {ts rest : List Token}
    {t : Token}
    {pieces : List Piece} :
    Fragment ends ts (t :: rest) pieces ↔
      Fragment ends ts [t] pieces := by
  unfold Fragment Token.Stops
  simp only [List.head?_append, List.head?_cons]

end Form

end LosslessCss

------------------------------------------------------------
-- Statements and Declarations
------------------------------------------------------------

namespace LosslessCss

open Grammar

namespace Form

/- An address: one token, or a call of `url`. -/
inductive Address : List Token → Piece → Prop where
  | token
      {t : Token}
      (hPlain : isPlainAddress t = true) :
      Address [t] (.value t.raw)
  | call
      {t : Token}
      {body : List Token}
      (hUrl : isUrlFunction t = true)
      (hBody : SpanRest .paren body) :
      Address (t :: body)
        (.function (t.raw ++ Token.rawText body))

/-
  The end of a statement or a declaration: a semicolon, or
  nothing in front of a right brace or the end of the input.
-/
inductive End : List Token → List Token → Prop where
  | semicolon
      {t : Token}
      {rest : List Token}
      (hKind : t.kind = .semicolon) :
      End [t] rest
  | nothing
      {rest : List Token}
      (hRest : ∀ t ∈ rest.head?, isRightCurly t = true) :
      End [] rest

/- The optional name in front of an address. -/
inductive Alias : List Token → List Piece → Prop where
  | absent
      {blank : List Token}
      (hBlank : Fillers blank) :
      Alias blank
        (Piece.pushFiller [] (Token.rawText blank))
  | present
      {blank inner : List Token}
      {t : Token}
      (hBlank : Fillers blank)
      (hIdent : t.isIdent = true)
      (hInner : Fillers inner) :
      Alias (blank ++ t :: inner)
        (Piece.pushFiller
          (Piece.pushFiller [] (Token.rawText blank) ++
            [.value t.raw])
          (Token.rawText inner))

/- What follows the keyword of a statement. -/
inductive Statement :
    StatementRule → List Token → List Token →
      List Piece → Prop where
  | charsetRule
      {blank inner mark rest : List Token}
      {t : Token}
      (hBlank : Fillers blank)
      (hQuoted : isDoubleQuoted t = true)
      (hInner : Fillers inner)
      (hEnd : End mark rest) :
      Statement .charsetRule
        (blank ++ t :: (inner ++ mark)) rest
        (Piece.pushFiller
          (Piece.pushFiller
            (Piece.pushFiller [] (Token.rawText blank) ++
              [.value t.raw])
            (Token.rawText inner))
          (Token.rawText mark))
  | importRule
      {blank url conditions mark rest : List Token}
      {address : Piece}
      {pieces : List Piece}
      (hBlank : Fillers blank)
      (hUrl : Address url address)
      (hConditions :
        Fragment endsImport conditions (mark ++ rest) pieces)
      (hEnd : End mark rest) :
      Statement .importRule
        (blank ++ (url ++ (conditions ++ mark))) rest
        (Piece.pushFiller
          (pieces.foldl Piece.push
            (Piece.pushFiller [] (Token.rawText blank) ++
              [address]))
          (Token.rawText mark))
  | namespaceRule
      {name url inner mark rest : List Token}
      {pieces : List Piece}
      {address : Piece}
      (hName : Alias name pieces)
      (hUrl : Address url address)
      (hInner : Fillers inner)
      (hEnd : End mark rest) :
      Statement .namespaceRule
        (name ++ (url ++ (inner ++ mark))) rest
        (Piece.pushFiller
          (Piece.pushFiller (pieces ++ [address])
            (Token.rawText inner))
          (Token.rawText mark))

/- A declaration with its terminator, if it has one. -/
inductive Declaration : List Token → Leaf → Prop where
  | intro
      {property colon : Token}
      {between value : List Token}
      {chunks : List Chunk}
      (hProperty : property.isIdent = true)
      (hBetween : ∀ t ∈ between, beforeColon t = true)
      (hColon : colon.kind = .colon)
      (hValue :
        Chunks opensFunction? (fun _ => true) value chunks) :
      Declaration
        (property :: (between ++ colon :: value))
        (.declaration property.raw (Token.rawText between)
          (Importance.foldAll (arrangeValue chunks)).1
          (Importance.foldAll (arrangeValue chunks)).2)

/- A declaration starts with the name of its property. -/
theorem Declaration.exists_head
    {ts : List Token}
    {leaf : Leaf}
    (hForm : Declaration ts leaf) :
    ∃ t, ts.head? = some t ∧ t.isIdent = true := by
  cases hForm with
  | intro hProperty _ _ _ => exact ⟨_, rfl, hProperty⟩

end Form

end LosslessCss

------------------------------------------------------------
-- Items
------------------------------------------------------------

namespace LosslessCss

open Grammar

namespace Form

/- A token is the keyword of an at-rule. -/
def IsKeyword
    (t : Token)
    (word : String) : Prop :=
  isAtKeyword t = true ∧ t.raw = "@" ++ word

/- Whether a token starts an item that is not a rule. -/
def startsOther (t : Token) : Bool :=
  t.isComment || isAtKeyword t

/- An item without children. -/
inductive Flat :
    List Token → List Token → Leaf → Prop where
  | comment
      {t : Token}
      {rest : List Token}
      (hComment : t.isComment = true) :
      Flat [t] rest (.comment t.raw)
  | statement
      {t : Token}
      {name : StatementRule}
      {ts rest : List Token}
      {pieces : List Piece}
      (hKeyword : IsKeyword t name.keyword)
      (hValue : Statement name ts rest pieces) :
      Flat (t :: ts) rest (.statement name pieces)
  | declaration
      {ts mark rest : List Token}
      {leaf : Leaf}
      (hRun : ∀ t ∈ ts, isAmbiguous t = true)
      (hEnd : End mark rest)
      (hContent : Declaration (ts ++ mark) leaf) :
      Flat (ts ++ mark) rest leaf

/- What stands in front of the children of an item. -/
inductive Opens : List Token → Opening → Prop where
  | rule
      {ts : List Token}
      {left : Token}
      {chunks : List Chunk}
      (hRun : ∀ t ∈ ts, isAmbiguous t = true)
      (hStart : Token.Stops startsOther ts)
      (hSelectors : Chunks opens? (fun _ => true) ts chunks)
      (hLeft : isLeftCurly left = true) :
      Opens (ts ++ [left]) (.rule (arrangeSelectors chunks))
  | atRule
      {t left : Token}
      {name : BlockRule}
      {ts : List Token}
      {pieces : List Piece}
      (hKeyword : IsKeyword t name.keyword)
      (hParameters : Fragment isLeftCurly ts [left] pieces)
      (hLeft : isLeftCurly left = true) :
      Opens (t :: (ts ++ [left])) (.atRule name pieces)

/- The location of the first of some tokens. -/
def startOf (ts : List Token) : Location :=
  (ts.head?.map Token.location).getD Location.start

/-
  A list of items.  The formatting `before` is in front of
  the first one, and no item starts with formatting.
-/
inductive Items :
    String → List Token → List Token → Block → Prop where
  | done
      {before : String}
      {rest : List Token} :
      Items before [] rest ⟨[], before⟩
  | separator
      {before : String}
      {t : Token}
      {ts rest : List Token}
      {block : Block}
      (hSeparator : isSeparator t = true)
      (hTail : Items (before ++ t.raw) ts rest block) :
      Items before (t :: ts) rest block
  | flat
      {before : String}
      {item ts rest : List Token}
      {leaf : Leaf}
      {block : Block}
      (hItem : Flat item (ts ++ rest) leaf)
      (hTail : Items "" ts rest block) :
      Items before (item ++ ts) rest
        (block.cons (.leaf leaf (startOf item) before))
  | block
      {before : String}
      {head body ts rest : List Token}
      {right : Token}
      {opening : Opening}
      {inner block : Block}
      (hHead : Opens head opening)
      (hSeparator : Token.Stops isSeparator head)
      (hBody : Items "" body (right :: (ts ++ rest)) inner)
      (hRight : isRightCurly right = true)
      (hTail : Items "" ts rest block) :
      Items before (head ++ (body ++ right :: ts)) rest
        (block.cons
          (inner.toNode opening (startOf head) before))

/- One item without formatting in front of it. -/
inductive Item :
    List Token → List Token → Node → Prop where
  | flat
      {ts rest : List Token}
      {leaf : Leaf}
      (hItem : Flat ts rest leaf) :
      Item ts rest (.leaf leaf (startOf ts) "")
  | block
      {head body rest : List Token}
      {right : Token}
      {opening : Opening}
      {inner : Block}
      (hHead : Opens head opening)
      (hBody : Items "" body (right :: rest) inner)
      (hRight : isRightCurly right = true) :
      Item (head ++ (body ++ [right])) rest
        (inner.toNode opening (startOf head) "")

/-
  A whole input: a list of items, or one item with formatting
  around it.
-/
inductive Whole : List Token → Block → Prop where
  | items
      {ts : List Token}
      {block : Block}
      (hItems : Items "" ts [] block) :
      Whole ts block
  | single
      {before item after : List Token}
      {node : Node}
      (hBefore : Fillers before)
      (hItem : Item item after node)
      (hAfter : Fillers after) :
      Whole (before ++ (item ++ after))
        ⟨[node.withBefore (Token.rawText before)],
          Token.rawText after⟩

end Form

end LosslessCss
