import LosslessCss.Proofs.ItemLists
import LosslessCss.Proofs.Partition
import LosslessCss.Proofs.SingleRecognition

/-
  A single item and a style sheet of one item.

  The contexts of a single item and that of a style sheet
  are read in different ways.  A single item takes comments
  around it as formatting, and knows no other separators
  than blanks.  A style sheet has comments as children.  For
  the item itself it makes no difference.

  Key definitions include:
    * `Block.ofFiller`
    * `Node.Encloses`

  Key theorems include:
    * `Form.Item.items_of_fillers`
    * `Form.Items.exists_item`
    * `Parse.single_agrees_with_sheet`
-/

------------------------------------------------------------
-- From a Single Item to a Style Sheet
------------------------------------------------------------

namespace LosslessCss

open Grammar

/-
  The block that a run of formatting forms.  Its children
  are the comments, each with the blanks in front of it.
-/
def Block.ofFiller
    (before : String) : List Token → Block
| [] => ⟨[], before⟩
| t :: ts =>
    if t.isComment then
      (ofFiller "" ts).cons
        (.leaf (.comment t.raw) t.location before)
    else
      ofFiller (before ++ t.raw) ts

/- Without comments a run of formatting has no children. -/
theorem Block.ofFiller_of_no_comments
    {before : String}
    {ts : List Token}
    (hNone : ∀ t ∈ ts, t.isComment = false) :
    ofFiller before ts = ⟨[], before ++ Token.rawText ts⟩ := by
  induction ts generalizing before with
  | nil => simp [ofFiller, Token.rawText]
  | cons t ts ih =>
      rcases List.forall_mem_cons.mp hNone with
        ⟨hFirst, hOthers⟩
      rw [ofFiller, if_neg (by simp [hFirst]), ih hOthers,
        Token.rawText, String.append_assoc]

namespace Form

/- Formatting is a separator or a comment. -/
theorem isSeparator_of_isFiller
    {t : Token}
    (hFiller : t.isFiller = true)
    (hComment : t.isComment = false) :
    isSeparator t = true := by
  unfold Token.isFiller Token.isWhitespace at hFiller
  unfold isSeparator
  split at hFiller <;> simp_all

/- In a list of items, formatting is a list of comments. -/
theorem Items.of_fillers
    {before : String}
    {front ts rest : List Token}
    {block : Block}
    (hFront : Fillers front)
    (hForm :
      Items (Block.ofFiller before front).after ts rest
        block) :
    Items before (front ++ ts) rest
      ⟨(Block.ofFiller before front).children ++
          block.children,
        block.after⟩ := by
  induction front generalizing before with
  | nil => exact hForm
  | cons t front ih =>
      rcases List.forall_mem_cons.mp hFront with
        ⟨hFirst, hOthers⟩
      rw [Block.ofFiller] at hForm ⊢
      by_cases hComment : t.isComment = true
      · simp only [hComment, if_true] at hForm ⊢
        exact .flat (.comment hComment) (ih hOthers hForm)
      · simp only [hComment] at hForm ⊢
        exact
          .separator
            (isSeparator_of_isFiller hFirst
              (by simpa using hComment))
            (ih hOthers hForm)

/- An item starts with a separator only if it is a rule. -/
theorem Item.stops_isSeparator
    {item rest : List Token}
    {node : Node}
    (hForm : Item item rest node)
    (hRule :
      node.isRule = true → Token.Stops isSeparator item) :
    Token.Stops isSeparator item := by
  cases hForm with
  | flat hItem =>
      rcases hItem.exists_head with ⟨t, hFirst, hPlain, _⟩
      intro u hMem
      cases hFirst.symm.trans hMem
      exact hPlain
  | block hHead _ _ =>
      cases hHead with
      | rule _ _ _ _ => exact hRule rfl
      | atRule hKeyword _ _ =>
          rcases isAtKeyword_iff_kind.mp hKeyword.1 with
            ⟨word, hKind⟩
          simp [isSeparator, hKind]

/-
  An item with formatting around it is a list of items, in
  which the comments are children of their own.
-/
theorem Item.items_of_fillers
    {before item after : List Token}
    {node : Node}
    (hBefore : Fillers before)
    (hItem : Item item after node)
    (hStart : Token.Stops isSeparator item)
    (hAfter : Fillers after) :
    Items "" (before ++ (item ++ after)) []
      ⟨(Block.ofFiller "" before).children ++
          node.withBefore (Block.ofFiller "" before).after ::
            (Block.ofFiller "" after).children,
        (Block.ofFiller "" after).after⟩ := by
  have hTail : Items "" after [] (Block.ofFiller "" after) := by
    simpa using Items.of_fillers hAfter .done
  rw [← List.append_nil after] at hItem
  exact .of_fillers hBefore (hItem.items_cons hStart hTail)

end Form

end LosslessCss

------------------------------------------------------------
-- From a Style Sheet to a Single Item
------------------------------------------------------------

namespace LosslessCss

open Grammar

namespace Form

/- A token between items, or a comment. -/
def isLoose (t : Token) : Bool :=
  isSeparator t || t.isComment

/- A loose token is formatting, unless it is a mark. -/
theorem isFiller_of_isLoose
    {t : Token}
    (hLoose : isLoose t = true)
    (hMark : ¬ (t.kind = .cdo ∨ t.kind = .cdc)) :
    t.isFiller = true := by
  unfold isLoose isSeparator at hLoose
  unfold Token.isFiller Token.isWhitespace
  split at hLoose <;> simp_all

/- A comment is the only token of its item. -/
theorem Flat.isLoose_of_isComment
    {ts rest : List Token}
    {leaf : Leaf}
    {here : Location}
    {before : String}
    (hForm : Flat ts rest leaf)
    (hComment :
      (Node.leaf leaf here before).isComment = true) :
    ∀ t ∈ ts, isLoose t = true := by
  cases hForm with
  | comment hToken => simp [isLoose, hToken]
  | statement _ _ => cases hComment
  | declaration _ _ hContent =>
      rcases hContent.leaf_eq with ⟨_, _, _, _, rfl⟩
      cases hComment

/- Where all children are comments, all tokens are loose. -/
theorem Items.isLoose_of_comments
    {before : String}
    {ts rest : List Token}
    {block : Block}
    (hForm : Items before ts rest block)
    (hComments :
      ∀ node ∈ block.children, node.isComment = true) :
    ∀ t ∈ ts, isLoose t = true := by
  induction hForm with
  | done => simp
  | separator hSeparator _ ih =>
      have hFirst := ih hComments
      simpa [isLoose, hSeparator] using hFirst
  | flat hItem _ ih =>
      rcases List.forall_mem_cons.mp hComments with
        ⟨hFirst, hOthers⟩
      rw [List.forall_mem_append]
      exact
        ⟨hItem.isLoose_of_isComment hFirst, ih hOthers⟩
  | block _ _ _ _ _ _ _ =>
      cases (List.forall_mem_cons.mp hComments).1

/- The tokens of a comment with separators are loose. -/
theorem Child.isLoose_of_isComment
    {before : String}
    {ts rest : List Token}
    {node : Node}
    (hForm : Child before ts rest node)
    (hComment : node.isComment = true) :
    ∀ t ∈ ts, isLoose t = true := by
  cases hForm with
  | intro hFront _ hItem =>
      rw [List.forall_mem_append]
      refine ⟨fun t hMem => by simp [isLoose, hFront t hMem], ?_⟩
      cases hItem with
      | flat hFlat => exact hFlat.isLoose_of_isComment hComment
      | block _ _ _ => cases hComment

/- The first child that is no comment, with its tokens. -/
theorem Items.exists_item
    {before : String}
    {ts rest : List Token}
    {block : Block}
    {left right : List Node}
    {node : Node}
    (hForm : Items before ts rest block)
    (hChildren : block.children = left ++ node :: right)
    (hLeft : ∀ other ∈ left, other.isComment = true) :
    ∃ front item tail bare text,
      ts = front ++ (item ++ tail) ∧
        (∀ t ∈ front, isLoose t = true) ∧
        Token.Stops isSeparator item ∧
        Item item (tail ++ rest) bare ∧
        node = bare.withBefore text ∧
        Items "" tail rest ⟨right, block.after⟩ := by
  induction left generalizing before ts block with
  | nil =>
      rcases hForm.exists_child hChildren with
        ⟨first, tail, rfl, hChild, hTail⟩
      cases hChild with
      | @intro front item _ bare hFront hStart hItem =>
          exact
            ⟨front, item, tail, bare, _, by simp,
              fun t hMem => by simp [isLoose, hFront t hMem],
              hStart, hItem, rfl, hTail⟩
  | cons other left ih =>
      rcases List.forall_mem_cons.mp hLeft with
        ⟨hFirst, hOthers⟩
      rcases hForm.exists_child hChildren with
        ⟨first, rest', rfl, hChild, hTail⟩
      have hLoose := hChild.isLoose_of_isComment hFirst
      rcases ih hTail rfl hOthers with
        ⟨front, item, tail, bare, text, rfl, hFront, hStart,
          hItem, hNode, hRest⟩
      refine
        ⟨first ++ front, item, tail, bare, text, by simp,
          ?_, hStart, hItem, hNode, hRest⟩
      rw [List.forall_mem_append]
      exact ⟨hLoose, hFront⟩

/- Only a comment starts with a comment. -/
theorem Item.exists_head
    {item rest : List Token}
    {node : Node}
    (hForm : Item item rest node)
    (hNode : node.isComment = false) :
    ∃ t, item.head? = some t ∧ t.isComment = false := by
  have hKeyword :
      ∀ {t word}, IsKeyword t word → t.isComment = false := by
    intro t word hKeyword
    rcases isAtKeyword_iff_kind.mp hKeyword.1 with ⟨_, hKind⟩
    simp [Token.isComment, hKind]
  cases hForm with
  | flat hItem =>
      cases hItem with
      | comment _ => cases hNode
      | statement hWord _ => exact ⟨_, rfl, hKeyword hWord⟩
      | declaration _ _ hContent =>
          rcases hContent.exists_head with ⟨t, hFirst, hIdent⟩
          rcases isIdent_iff_kind.mp hIdent with ⟨_, hKind⟩
          exact
            ⟨t, hFirst, by simp [Token.isComment, hKind]⟩
  | block hHead _ _ =>
      cases hHead with
      | atRule hWord _ _ => exact ⟨_, rfl, hKeyword hWord⟩
      | @rule run left _ _ hStart _ hLeft =>
          cases run with
          | nil =>
              have hKind := isLeftCurly_iff_kind.mp hLeft
              exact
                ⟨left, rfl, by simp [Token.isComment, hKind]⟩
          | cons t run =>
              have hOther : startsOther t = false := by
                simpa using hStart
              simp only [startsOther,
                Bool.or_eq_false_iff] at hOther
              exact ⟨t, rfl, hOther.1⟩

/- No formatting can be split off in front of an item. -/
theorem Item.stops_isFiller
    {item rest : List Token}
    {node : Node}
    (hForm : Item item rest node)
    (hStart : Token.Stops isSeparator item)
    (hNode : node.isComment = false)
    (tail : List Token) :
    Token.Stops Token.isFiller (item ++ tail) := by
  rcases hForm.exists_head hNode with ⟨t, hFirst, hComment⟩
  intro u hMem
  rw [List.head?_append, hFirst] at hMem
  cases hMem
  by_contra hFiller
  have hSeparator :=
    isSeparator_of_isFiller (by simpa using hFiller) hComment
  rw [hStart t hFirst] at hSeparator
  cases hSeparator

end Form

end LosslessCss

------------------------------------------------------------
-- Tokens Outside of an Item
------------------------------------------------------------

namespace LosslessCss

open Grammar

/- The location directly after a text, in bytes. -/
theorem Location.offset_advanceBy
    (here : Location)
    (text : String) :
    (here.advanceBy text).offset =
      here.offset + text.utf8ByteSize := by
  rw [advanceBy, offset_advanceOver, Text.byteLength_toList]

namespace Node

/- Where the own text of a node ends. -/
def endLocation (node : Node) : Location :=
  node.location.advanceBy (node.withBefore "").render

/- The token lies in the own text of the node. -/
def Encloses
    (node : Node)
    (t : Token) : Prop :=
  node.location.offset ≤ t.location.offset ∧
    t.endLocation.offset ≤ node.endLocation.offset

instance
    (node : Node)
    (t : Token) :
    Decidable (node.Encloses t) := by
  unfold Encloses
  infer_instance

@[simp] theorem location_withBefore
    (node : Node)
    (before : String) :
    (node.withBefore before).location = node.location := by
  cases node <;> rfl

@[simp] theorem withBefore_withBefore
    (node : Node)
    (first second : String) :
    (node.withBefore first).withBefore second =
      node.withBefore second := by
  cases node <;> rfl

theorem withBefore_before
    (node : Node) :
    node.withBefore node.before = node := by
  cases node <;> rfl

end Node

namespace Token

/- A token with a text ends after its start. -/
theorem offset_lt_endLocation
    {t : Token}
    (hRaw : t.raw ≠ "") :
    t.location.offset < t.endLocation.offset := by
  have hSize : t.raw.utf8ByteSize ≠ 0 :=
    fun hZero => hRaw (String.utf8ByteSize_eq_zero_iff.mp hZero)
  rw [endLocation, Location.offset_advanceBy]
  omega

/- All tokens of a run lie between its two ends. -/
theorem Located.offset_bounds
    {here : Location}
    {ts : List Token}
    {t : Token}
    (hLocated : Located here ts)
    (hMem : t ∈ ts) :
    here.offset ≤ t.location.offset ∧
      t.endLocation.offset ≤
        (here.advanceBy (rawText ts)).offset := by
  induction ts generalizing here with
  | nil => cases hMem
  | cons u ts ih =>
      rcases hLocated with ⟨rfl, hTail⟩
      simp only [endLocation, Location.offset_advanceBy,
        rawText, String.utf8ByteSize_append] at ih ⊢
      rcases List.mem_cons.mp hMem with rfl | hOther
      · omega
      · have hBounds := ih hTail hOther
        rw [endLocation, Location.offset_advanceBy] at hBounds
        omega

end Token

namespace Form

/- An item is located at its first token. -/
theorem Item.location_eq
    {here : Location}
    {item rest : List Token}
    {node : Node}
    (hForm : Item item rest node)
    (hLocated : Token.Located here item)
    (hSpelled : ∀ t ∈ item, t.Spelled) :
    node.location = here := by
  have hPlaced := hForm.placed hLocated hSpelled
  rw [hPlaced.location_eq, hForm.before_eq]
  rfl

/- No other token lies in the own text of an item. -/
theorem Item.not_encloses
    {here : Location}
    {front item tail rest : List Token}
    {node : Node}
    {before : String}
    {t : Token}
    (hForm : Item item rest node)
    (hLocated :
      Token.Located here (front ++ (item ++ tail)))
    (hSpelled : ∀ t ∈ item, t.Spelled)
    (hRaw : t.raw ≠ "")
    (hOutside : t ∈ front ∨ t ∈ tail) :
    ¬ (node.withBefore before).Encloses t := by
  rcases Token.located_append.mp hLocated with
    ⟨hFront, hAfter⟩
  rcases Token.located_append.mp hAfter with
    ⟨hInside, hTail⟩
  have hStart := hForm.location_eq hInside hSpelled
  have hText : (node.withBefore "").render =
      Token.rawText item := by
    rw [← hForm.before_eq, node.withBefore_before,
      hForm.render_eq hSpelled]
  have hLonger := Token.offset_lt_endLocation hRaw
  intro hEncloses
  simp only [Node.Encloses, Node.endLocation,
    Node.location_withBefore, Node.withBefore_withBefore,
    hStart, hText] at hEncloses
  rcases hOutside with hMem | hMem
  · have hBounds := hFront.offset_bounds hMem
    omega
  · have hBounds := hTail.offset_bounds hMem
    omega

end Form

end LosslessCss

------------------------------------------------------------
-- The Two Ways Agree
------------------------------------------------------------

namespace LosslessCss

open TokenSource (upcoming ending)

namespace Form

/-
  What follows the formatting starts with a separator only
  if that is one of the marks `<!--` and `-->`.
-/
theorem stops_isSeparator_of_find
    {before item after tail : List Token}
    (hBefore : Fillers before)
    (hStart : Token.Stops Token.isFiller (item ++ after))
    (hMark :
      ∀ t ∈ (before ++ (item ++ tail)).find?
          fun t => !t.isFiller,
        t.kind ≠ .cdo ∧ t.kind ≠ .cdc) :
    Token.Stops Grammar.isSeparator item := by
  cases item with
  | nil => exact Token.stops_nil
  | cons t item =>
      have hFiller : t.isFiller = false := by
        simpa using hStart
      have hNone :
          (before.find? fun t => !t.isFiller) = none := by
        rw [List.find?_eq_none]
        intro u hMem
        simp [hBefore u hMem]
      have hFirst :
          ((before ++ (t :: item ++ tail)).find?
            fun t => !t.isFiller) = some t := by
        simp [hNone, hFiller]
      have hKind := hMark t hFirst
      rw [Token.stops_cons]
      unfold Token.isFiller Token.isWhitespace at hFiller
      unfold Grammar.isSeparator
      split <;> simp_all

end Form

namespace PulledText

/-
  Where no mark lies outside of an item of a text, the loose
  tokens around the item are formatting.
-/
theorem isFiller_of_outside
    {css before : String}
    {here : Location}
    {front item tail rest : List Token}
    {node : Node}
    (hShown :
      upcoming (ofText css here) = front ++ (item ++ tail))
    (hItem : Form.Item item rest node)
    (hMarks :
      ∀ t ∈ Lexer.tokenize css here,
        t.kind = .cdo ∨ t.kind = .cdc →
          (node.withBefore before).Encloses t)
    {t : Token}
    (hMem : t ∈ front ∨ t ∈ tail)
    (hLoose : Form.isLoose t = true) :
    t.isFiller = true := by
  have hUpcoming : t ∈ upcoming (ofText css here) := by
    rw [hShown]
    rcases hMem with hMem | hMem <;> simp [hMem]
  have hToken : t ∈ Lexer.tokenize css here := by
    rw [tokenize_eq]
    exact List.mem_append_left _ hUpcoming
  have hRaw :=
    Lexer.raw_ne_empty_of_mem_upcoming _ t hUpcoming
  have hLocated := located_upcoming css here
  have hSpelled := spelled_of_mem_upcoming css here
  rw [hShown] at hLocated hSpelled
  have hNot : ¬ (node.withBefore before).Encloses t :=
    hItem.not_encloses hLocated
      (fun u hInside => hSpelled u (by simp [hInside]))
      hRaw hMem
  exact
    Form.isFiller_of_isLoose hLoose fun hMark =>
      hNot (hMarks t hToken hMark)

end PulledText

namespace Parse

/-
  A single item is also read as a style sheet, in which the
  comments around it are children of their own.  A style
  sheet of comments and one item, in which no mark `<!--` or
  `-->` lies outside of the item, is also read as a single
  item.  In both cases the item is the same, except for the
  formatting in front of it.
-/
theorem single_agrees_with_sheet :
    (∀ {css : String} {here : Location}
        {source : Option String} {context : Context}
        {root : Node},
      context ≠ .styleSheet →
      (context = .rule →
        ∀ t ∈ (Lexer.tokenize css here).find?
            fun t => !t.isFiller,
          t.kind ≠ .cdo ∧ t.kind ≠ .cdc) →
      text css ⟨context, here, source⟩ = .ok root →
      ∃ before item after node sheet,
        Lexer.tokenize css here =
            before ++ (item ++ (after ++
              [Token.endOfInput (here.advanceBy css)])) ∧
          Form.Fillers before ∧ Form.Fillers after ∧
          node.render = Token.rawText item ∧
          context.fits node = true ∧
          root.block? =
            some
              ⟨[node.withBefore (Token.rawText before)],
                Token.rawText after⟩ ∧
          text css ⟨.styleSheet, here, source⟩ =
            .ok sheet ∧
          sheet.block? =
            some
              ⟨(Block.ofFiller "" before).children ++
                  node.withBefore
                      (Block.ofFiller "" before).after ::
                    (Block.ofFiller "" after).children,
                (Block.ofFiller "" after).after⟩ ∧
          ((∀ t ∈ before ++ after, t.isComment = false) →
            sheet = root)) ∧
    (∀ {css : String} {here : Location}
        {source : Option String} {context : Context}
        {root node : Node} {left right : List Node}
        {after : String},
      text css ⟨.styleSheet, here, source⟩ = .ok root →
      root.block? = some ⟨left ++ node :: right, after⟩ →
      (∀ other ∈ left ++ right, other.isComment = true) →
      context.fits node = true →
      (∀ t ∈ Lexer.tokenize css here,
        t.kind = .cdo ∨ t.kind = .cdc → node.Encloses t) →
      ∃ single item tail,
        text css ⟨context, here, source⟩ = .ok single ∧
          single.block? = some ⟨[item], tail⟩ ∧
          item.withBefore "" = node.withBefore "") := by
  constructor
  · intro css here source context root hContext hMark hParse
    rcases (text_single_iff hContext).mp hParse with
      ⟨block, hSingle, rfl⟩
    have hTokens := PulledText.tokenize_eq css here
    have hSpelled :=
      PulledText.spelled_of_mem_upcoming css here
    rw [PulledText.ending_ofText] at hTokens
    generalize hShown :
      upcoming (PulledText.ofText css here) = ts
      at hSingle hTokens hSpelled
    cases hSingle with
    | @intro before item after node hBefore hStart hItem
        hFits hAfter =>
        have hSeparator :
            Token.Stops Grammar.isSeparator item := by
          apply hItem.stops_isSeparator
          intro hRule
          have hFind :=
            hMark (Context.eq_rule_of_fits hFits hRule)
          rw [hTokens, List.append_assoc,
            List.append_assoc] at hFind
          exact
            Form.stops_isSeparator_of_find hBefore hStart
              hFind
        have hItems :=
          hItem.items_of_fillers hBefore hSeparator hAfter
        rw [← hShown] at hItems
        refine
          ⟨before, item, after, node, _, ?_, hBefore, hAfter,
            ?_, hFits, rfl,
            text_styleSheet_iff.mpr ⟨_, hItems, rfl⟩, rfl,
            ?_⟩
        · simpa using hTokens
        · exact
            hItem.render_eq fun t hMem =>
              hSpelled t (by simp [hMem])
        · intro hNone
          rw [List.forall_mem_append] at hNone
          rw [Block.ofFiller_of_no_comments hNone.1,
            Block.ofFiller_of_no_comments hNone.2]
          simp
  · intro css here source context root node left right after
      hParse hRoot hComments hFits hMarks
    rw [List.forall_mem_append] at hComments
    rcases text_styleSheet_iff.mp hParse with
      ⟨block, hItems, rfl⟩
    have hBlock : block = ⟨left ++ node :: right, after⟩ :=
      Option.some.inj hRoot
    subst hBlock
    rcases hItems.exists_item rfl hComments.1 with
      ⟨front, item, tail, bare, before, hShown, hFront,
        hStart, hItem, rfl, hTail⟩
    have hLoose := hTail.isLoose_of_comments hComments.2
    have hOutside :
        ∀ t, t ∈ front ∨ t ∈ tail →
          Form.isLoose t = true → t.isFiller = true :=
      fun t hMem =>
        PulledText.isFiller_of_outside hShown hItem hMarks
          hMem
    rw [Context.fits_withBefore] at hFits
    rw [List.append_nil] at hItem
    have hSingle :
        Form.Single context (front ++ (item ++ tail)) _ :=
      .intro (fun t hMem => hOutside t (.inl hMem)
          (hFront t hMem))
        (hItem.stops_isFiller hStart
          (Context.isComment_of_fits hFits) tail)
        hItem hFits
        (fun t hMem => hOutside t (.inr hMem)
          (hLoose t hMem))
    rw [← hShown] at hSingle
    exact
      ⟨_, _, _,
        (text_single_iff
          (Context.ne_styleSheet_of_fits hFits)).mpr
          ⟨_, hSingle, rfl⟩,
        rfl, by simp⟩

/-
  A rule between two comments, and a rule with a mark inside
  of its block.
-/
theorem single_agrees_with_sheet_rules :
    (∃ root sheet,
      text "/*a*/ p\x7b\x7d /*b*/"
          ⟨.rule, ⟨3, 7, 40⟩, none⟩ =
        .ok root ∧
      text "/*a*/ p\x7b\x7d /*b*/"
          ⟨.styleSheet, ⟨3, 7, 40⟩, none⟩ =
        .ok sheet) ∧
    (∃ sheet single,
      text "/*a*/ p\x7b<!--q:r\x7d"
          ⟨.styleSheet, Location.start, none⟩ =
        .ok sheet ∧
      text "/*a*/ p\x7b<!--q:r\x7d"
          ⟨.rule, Location.start, none⟩ =
        .ok single) := by
  constructor
  · rcases Option.isSome_iff_exists.mp
        (show (text "/*a*/ p\x7b\x7d /*b*/"
            ⟨.rule, ⟨3, 7, 40⟩, none⟩).toOption.isSome
          by decide +kernel) with
      ⟨root, hSome⟩
    have hParse := eq_ok_of_toOption hSome
    rcases single_agrees_with_sheet.1 (by decide)
        (fun _ => by decide +kernel) hParse with
      ⟨_, _, _, _, sheet, _, _, _, _, _, _, hSheet, _⟩
    exact ⟨root, sheet, hParse, hSheet⟩
  · let comment : Node :=
      .leaf (.comment "/*a*/") Location.start ""
    let declaration : Node :=
      .leaf (.declaration "q" "" [.value "r"] false)
        ⟨1, 13, 12⟩ "<!--"
    let rule : Node :=
      .block (.rule [.filler "", .value "p", .filler ""])
        [declaration] "" ⟨1, 7, 6⟩ " "
    let sheet : Node :=
      .block .styleSheet ([comment] ++ rule :: []) ""
        Location.start ""
    have hParse :
        text "/*a*/ p\x7b<!--q:r\x7d"
            ⟨.styleSheet, Location.start, none⟩ =
          .ok sheet :=
      eq_ok_of_toOption (by decide +kernel)
    have hComments :
        ∀ other ∈ [comment] ++ [], other.isComment = true := by
      simp [comment, Node.isComment]
    have hFits : Context.rule.fits rule = true := rfl
    rcases single_agrees_with_sheet.2 hParse rfl hComments
        hFits (by decide +kernel) with
      ⟨single, _, _, hSingle, _⟩
    exact ⟨sheet, single, hParse, hSingle⟩

end Parse

end LosslessCss
