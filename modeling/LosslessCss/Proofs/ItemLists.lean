import LosslessCss.Proofs.FormText
import LosslessCss.Proofs.ItemRecognition

/-
  Lists of items, child by child.

  A list of items is a row of children, each of which has
  the formatting in front of it.  What follows a child does
  not count for its form, as long as it does not start with
  another token, or there is nothing left at all.

  Key definitions include:
    * `Token.StartsLike`
    * `Form.Child`
    * `Form.Sealed`

  Key theorems include:
    * `Form.Items.congr_rest`
    * `Form.Items.exists_child`
    * `Form.Child.items_cons`
    * `Form.Child.exists_body`
    * `Form.Child.sealed`
-/

------------------------------------------------------------
-- What Follows a Form
------------------------------------------------------------

namespace LosslessCss

open Grammar

namespace Token

/- There is nothing, or the same first token. -/
def StartsLike (ts us : List Token) : Prop :=
  ∀ t ∈ ts.head?, t ∈ us.head?

theorem startsLike_nil
    {ts : List Token} :
    StartsLike [] ts := by
  simp [StartsLike]

theorem startsLike_cons
    {t : Token}
    {ts us : List Token} :
    StartsLike (t :: ts) (t :: us) := by
  simp [StartsLike]

/- The same tokens may come before what is compared. -/
theorem StartsLike.append
    {ts us : List Token}
    (hLike : StartsLike ts us)
    (front : List Token) :
    StartsLike (front ++ ts) (front ++ us) := by
  cases front with
  | nil => exact hLike
  | cons t front => exact startsLike_cons

theorem Stops.of_startsLike
    {p : Token → Bool}
    {ts us : List Token}
    (hStops : Stops p us)
    (hLike : StartsLike ts us) :
    Stops p ts :=
  fun t hMem => hStops t (hLike t hMem)

end Token

namespace Form

theorem End.congr_rest
    {mark rest other : List Token}
    (hForm : End mark rest)
    (hLike : Token.StartsLike other rest) :
    End mark other := by
  cases hForm with
  | semicolon hKind => exact .semicolon hKind
  | nothing hRest =>
      exact .nothing fun t hMem => hRest t (hLike t hMem)

theorem Fragment.congr_rest
    {ends : Token → Bool}
    {ts rest other : List Token}
    {pieces : List Piece}
    (hForm : Fragment ends ts rest pieces)
    (hLike : Token.StartsLike other rest) :
    Fragment ends ts other pieces := by
  rcases hForm with
    ⟨leading, body, chunks, hParts, hLeading, hStart, hBody,
      hEnds, hPieces⟩
  exact
    ⟨leading, body, chunks, hParts, hLeading,
      hStart.of_startsLike (hLike.append body), hBody,
      hEnds.of_startsLike hLike, hPieces⟩

theorem Statement.congr_rest
    {name : StatementRule}
    {ts rest other : List Token}
    {pieces : List Piece}
    (hForm : Statement name ts rest pieces)
    (hLike : Token.StartsLike other rest) :
    Statement name ts other pieces := by
  cases hForm with
  | charsetRule hBlank hQuoted hInner hEnd =>
      exact
        .charsetRule hBlank hQuoted hInner
          (hEnd.congr_rest hLike)
  | importRule hBlank hUrl hConditions hEnd =>
      exact
        .importRule hBlank hUrl
          (hConditions.congr_rest (hLike.append _))
          (hEnd.congr_rest hLike)
  | namespaceRule hName hUrl hInner hEnd =>
      exact
        .namespaceRule hName hUrl hInner
          (hEnd.congr_rest hLike)

theorem Flat.congr_rest
    {ts rest other : List Token}
    {leaf : Leaf}
    (hForm : Flat ts rest leaf)
    (hLike : Token.StartsLike other rest) :
    Flat ts other leaf := by
  cases hForm with
  | comment hComment => exact .comment hComment
  | statement hKeyword hValue =>
      exact .statement hKeyword (hValue.congr_rest hLike)
  | declaration hRun hEnd hContent =>
      exact
        .declaration hRun (hEnd.congr_rest hLike) hContent

/- Items only look at the first token after them. -/
theorem Items.congr_rest
    {before : String}
    {ts rest other : List Token}
    {block : Block}
    (hForm : Items before ts rest block)
    (hLike : Token.StartsLike other rest) :
    Items before ts other block := by
  induction hForm generalizing other with
  | done => exact .done
  | separator hSeparator _ ih =>
      exact .separator hSeparator (ih hLike)
  | flat hItem _ ih =>
      exact
        .flat (hItem.congr_rest (hLike.append _)) (ih hLike)
  | block hHead hSeparator _ hRight _ ihBody ihTail =>
      exact
        .block hHead hSeparator
          (ihBody Token.startsLike_cons) hRight
          (ihTail hLike)

theorem Item.congr_rest
    {ts rest other : List Token}
    {node : Node}
    (hForm : Item ts rest node)
    (hLike : Token.StartsLike other rest) :
    Item ts other node := by
  cases hForm with
  | flat hItem => exact .flat (hItem.congr_rest hLike)
  | block hHead hBody hRight =>
      exact
        .block hHead (hBody.congr_rest Token.startsLike_cons)
          hRight

end Form

end LosslessCss

------------------------------------------------------------
-- Children
------------------------------------------------------------

namespace LosslessCss

open Grammar

namespace Form

/-
  One item with the separators in front of it.  The text
  `before` is in front of these.
-/
inductive Child :
    String → List Token → List Token → Node → Prop where
  | intro
      {before : String}
      {front item rest : List Token}
      {node : Node}
      (hFront : ∀ t ∈ front, isSeparator t = true)
      (hStart : Token.Stops isSeparator item)
      (hItem : Item item rest node) :
      Child before (front ++ item) rest
        (node.withBefore (before ++ Token.rawText front))

theorem Child.congr_rest
    {before : String}
    {ts rest other : List Token}
    {node : Node}
    (hForm : Child before ts rest node)
    (hLike : Token.StartsLike other rest) :
    Child before ts other node := by
  cases hForm with
  | intro hFront hStart hItem =>
      exact .intro hFront hStart (hItem.congr_rest hLike)

/- An item may come without a separator. -/
theorem Child.of_item
    {before : String}
    {item rest : List Token}
    {node : Node}
    (hStart : Token.Stops isSeparator item)
    (hItem : Item item rest node) :
    Child before item rest (node.withBefore before) := by
  have hNone : ∀ t ∈ ([] : List Token), isSeparator t = true :=
    by simp
  have hChild : Child before ([] ++ item) rest _ :=
    .intro hNone hStart hItem
  rw [Token.rawText, String.append_empty] at hChild
  exact hChild

/- A separator goes to the formatting of the first child. -/
theorem Child.separator
    {before : String}
    {t : Token}
    {ts rest : List Token}
    {node : Node}
    (hForm : Child (before ++ t.raw) ts rest node)
    (hSeparator : isSeparator t = true) :
    Child before (t :: ts) rest node := by
  cases hForm with
  | @intro front item _ bare hFront hStart hItem =>
      have hAll : ∀ u ∈ t :: front, isSeparator u = true :=
        List.forall_mem_cons.mpr ⟨hSeparator, hFront⟩
      rw [String.append_assoc]
      exact .intro hAll hStart hItem

/- Separators in front of a list of items. -/
theorem Items.of_separators
    {before : String}
    {front ts rest : List Token}
    {block : Block}
    (hFront : ∀ t ∈ front, isSeparator t = true)
    (hForm :
      Items (before ++ Token.rawText front) ts rest block) :
    Items before (front ++ ts) rest block := by
  induction front generalizing before with
  | nil => simpa [Token.rawText] using hForm
  | cons t front ih =>
      rcases List.forall_mem_cons.mp hFront with
        ⟨hFirst, hOthers⟩
      rw [Token.rawText, ← String.append_assoc] at hForm
      exact .separator hFirst (ih hOthers hForm)

/- An item in front of a list of items. -/
theorem Item.items_cons
    {before : String}
    {item ts rest : List Token}
    {node : Node}
    {block : Block}
    (hForm : Item item (ts ++ rest) node)
    (hStart : Token.Stops isSeparator item)
    (hTail : Items "" ts rest block) :
    Items before (item ++ ts) rest
      (block.cons (node.withBefore before)) := by
  cases hForm with
  | flat hItem => exact .flat hItem hTail
  | @block head body _ right opening inner
      hHead hBody hRight =>
      have hHeadStart : Token.Stops isSeparator head := by
        rcases hHead.exists_head with ⟨t, hFirst, _⟩
        intro u hMem
        apply hStart u
        rw [List.head?_append, hMem]
        rfl
      rw [List.append_assoc, List.append_assoc]
      exact .block hHead hHeadStart hBody hRight hTail

/- A child in front of a list of items. -/
theorem Child.items_cons
    {before : String}
    {first ts rest : List Token}
    {node : Node}
    {block : Block}
    (hForm : Child before first (ts ++ rest) node)
    (hTail : Items "" ts rest block) :
    Items before (first ++ ts) rest (block.cons node) := by
  cases hForm with
  | intro hFront hStart hItem =>
      rw [List.append_assoc]
      exact
        .of_separators hFront (hItem.items_cons hStart hTail)

/- The first child of a list of items can be split off. -/
theorem Items.exists_child
    {before : String}
    {ts rest : List Token}
    {block : Block}
    {node : Node}
    {others : List Node}
    (hForm : Items before ts rest block)
    (hChildren : block.children = node :: others) :
    ∃ first tail,
      ts = first ++ tail ∧
        Child before first (tail ++ rest) node ∧
        Items "" tail rest ⟨others, block.after⟩ := by
  induction hForm with
  | done => cases hChildren
  | separator hSeparator _ ih =>
      rcases ih hChildren with
        ⟨first, tail, rfl, hChild, hTail⟩
      exact
        ⟨_, tail, rfl, hChild.separator hSeparator, hTail⟩
  | @flat before item ts rest leaf block hItem hTail _ =>
      cases hChildren
      rcases hItem.exists_head with ⟨t, hFirst, hPlain, _⟩
      have hStart : Token.Stops isSeparator item := by
        intro u hMem
        rw [hFirst] at hMem
        cases hMem
        exact hPlain
      exact
        ⟨item, ts, rfl, .of_item hStart (.flat hItem),
          hTail⟩
  | @block before head body ts rest right opening inner block
      hHead hSeparator hBody hRight hTail _ _ =>
      cases hChildren
      rcases hHead.exists_head with ⟨t, hFirst, _⟩
      have hStart :
          Token.Stops isSeparator
            (head ++ (body ++ [right])) := by
        intro u hMem
        rw [List.head?_append, hFirst] at hMem
        exact hSeparator u (hFirst.trans hMem)
      exact
        ⟨head ++ (body ++ [right]), ts, by simp,
          .of_item hStart (.block hHead hBody hRight),
          hTail⟩

end Form

end LosslessCss

------------------------------------------------------------
-- Texts and Bodies of Children
------------------------------------------------------------

namespace LosslessCss

open Grammar

namespace Form

/- A child is written as its tokens. -/
theorem Child.render_eq
    {before : String}
    {ts rest : List Token}
    {node : Node}
    (hForm : Child before ts rest node)
    (hSpelled : ∀ t ∈ ts, t.Spelled) :
    node.render = before ++ Token.rawText ts := by
  cases hForm with
  | intro _ _ hItem =>
      have hText :=
        hItem.render_eq fun t hMem =>
          hSpelled t (by simp [hMem])
      rw [Node.render_withBefore _ _ hItem.before_eq, hText,
        Token.rawText_append, String.append_assoc]

/- Inside of a child with a block there is a list of items. -/
theorem Child.exists_body
    {before bare after : String}
    {ts rest : List Token}
    {opening : Opening}
    {children : List Node}
    {location : Location}
    (hForm :
      Child bare ts rest
        (.block opening children after location before)) :
    ∃ front head body right,
      ts = front ++ (head ++ (body ++ [right])) ∧
        before = bare ++ Token.rawText front ∧
        Opens head opening ∧
        Items "" body (right :: rest) ⟨children, after⟩ ∧
        isRightCurly right = true := by
  generalize hNode :
    Node.block opening children after location before = node
    at hForm
  cases hForm with
  | @intro front _ _ _ _ _ hItem =>
      cases hItem with
      | flat _ => cases hNode
      | @block head body _ right _ inner hHead hBody hRight =>
          cases hNode
          exact
            ⟨front, head, body, right, rfl, rfl, hHead,
              hBody, hRight⟩

end Form

end LosslessCss

------------------------------------------------------------
-- The Ends of Children
------------------------------------------------------------

namespace LosslessCss

open Grammar

namespace Form

/- A token that ends an item, whatever follows it. -/
def isSeal (t : Token) : Bool :=
  match t.kind with
  | .semicolon => true
  | .rightCurly => true
  | .comment _ => true
  | _ => false

/-
  A run that ends with a seal, or that has only a right brace
  or nothing after it.
-/
inductive Sealed : List Token → List Token → Prop where
  | token
      {ts rest : List Token}
      {t : Token}
      (hSeal : isSeal t = true) :
      Sealed (ts ++ [t]) rest
  | brace
      {ts rest : List Token}
      (hRest : ∀ t ∈ rest.head?, isRightCurly t = true) :
      Sealed ts rest

theorem End.sealed
    {mark rest : List Token}
    (hForm : End mark rest)
    (ts : List Token) :
    Sealed (ts ++ mark) rest := by
  cases hForm with
  | semicolon hKind => exact .token (by simp [isSeal, hKind])
  | nothing hRest => exact .brace hRest

theorem Sealed.append_left
    {ts rest : List Token}
    (hSealed : Sealed ts rest)
    (front : List Token) :
    Sealed (front ++ ts) rest := by
  cases hSealed with
  | token hSeal =>
      rw [← List.append_assoc]
      exact .token hSeal
  | brace hRest => exact .brace hRest

theorem Statement.sealed
    {name : StatementRule}
    {ts rest : List Token}
    {pieces : List Piece}
    (hForm : Statement name ts rest pieces) :
    Sealed ts rest := by
  cases hForm with
  | @charsetRule blank inner _ _ t _ _ _ hEnd =>
      simpa using hEnd.sealed (blank ++ t :: inner)
  | @importRule blank url conditions _ _ _ _ _ _ _ hEnd =>
      simpa using hEnd.sealed (blank ++ (url ++ conditions))
  | @namespaceRule name url inner _ _ _ _ _ _ _ hEnd =>
      simpa using hEnd.sealed (name ++ (url ++ inner))

theorem Flat.sealed
    {ts rest : List Token}
    {leaf : Leaf}
    (hForm : Flat ts rest leaf) :
    Sealed ts rest := by
  cases hForm with
  | comment hComment =>
      rcases isComment_iff_kind.mp hComment with ⟨text, hKind⟩
      exact
        @Sealed.token [] rest _ (by simp [isSeal, hKind])
  | @statement t _ _ _ _ _ hValue =>
      exact hValue.sealed.append_left [t]
  | declaration _ hEnd _ => exact hEnd.sealed _

/- No child can be continued by what follows it. -/
theorem Child.sealed
    {before : String}
    {ts rest : List Token}
    {node : Node}
    (hForm : Child before ts rest node) :
    Sealed ts rest := by
  cases hForm with
  | @intro front _ _ _ _ _ hItem =>
      apply Sealed.append_left
      cases hItem with
      | flat hItem => exact hItem.sealed
      | @block head body _ right _ _ _ _ hRight =>
          have hKind := isRightCurly_iff_kind.mp hRight
          rw [← List.append_assoc]
          exact .token (by simp [isSeal, hKind])

end Form

end LosslessCss
