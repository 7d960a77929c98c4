import LosslessCss.Proofs.CoveredForms
import LosslessCss.Proofs.Nesting
import LosslessCss.Proofs.Structure
import Mathlib.Data.List.Chain

/-
  The value of a declaration, and its marks of importance.

  The tokens after the colon are cut into items: functions as
  a whole, and all other tokens one by one.  Blank items are
  formatting, and every other one is a piece.  Marks at the
  end of the value are no pieces of their own.  They become
  formatting, together with the blank items around them.

  The pieces are first arranged item by item, where a run of
  blank items is one piece.  Then one mark after the other is
  folded into the last piece, which always stands for the
  last items of the value.

  Key definitions include:
    * `Value.items`
    * `Value.Pairs`
    * `Value.Reads`
    * `Value.Arranged`

  Key theorems include:
    * `Value.arranged_arrangeValue`
    * `Importance.foldReversed_cases`
    * `Grammar.declaration_reads`
-/

------------------------------------------------------------
-- The Reference
------------------------------------------------------------

namespace LosslessCss

open Grammar

namespace Value

/- The tokens of a value, with each function as a whole. -/
def items (ts : List Token) : List (List Token) :=
  Nesting.items opensFunction? [] ts

/- Whether an item is formatting. -/
def isBlank : List Token → Bool
| [t] => t.isFiller || t.kind = .semicolon
| _ => false

/- The items that are not formatting. -/
def solid (its : List (List Token)) : List (List Token) :=
  its.filter fun item => !isBlank item

/- The piece of an item that is not formatting. -/
def piece : List Token → Piece
| [t] => .value t.raw
| ts => .function (Token.rawText ts)

/- Whether an item is a single exclamation mark. -/
def isBang : List Token → Bool
| [t] => t.raw = "!"
| _ => false

/- Whether an item is the word after the mark. -/
def isWord : List Token → Bool
| [t] => Text.sameLetters t.raw "important"
| _ => false

/- A list of pairs, each with a mark and its word. -/
inductive Pairs
    {α : Type}
    (bang word : α → Bool) : List α → Prop where
  | nil : Pairs bang word []
  | more
      {front : List α}
      {a b : α}
      (hFront : Pairs bang word front)
      (hBang : bang a = true)
      (hWord : word b = true) :
      Pairs bang word (front ++ [a, b])

/- A list that ends with such a pair. -/
def EndsPaired
    {α : Type}
    (bang word : α → Bool)
    (list : List α) : Prop :=
  ∃ front a b,
    list = front ++ [a, b] ∧ bang a = true ∧ word b = true

/- No two pieces of formatting stand side by side. -/
def Separated (pieces : List Piece) : Prop :=
  pieces.IsChain fun p q =>
    p.isFiller = false ∨ q.isFiller = false

/-
  How a value is read, where `kept` and `marks` are its items
  without formatting.  The marks are all pairs at its end.
  They are in the last piece, with everything after the last
  item in front of them.
-/
structure Reads
    (value : List Token)
    (pieces : List Piece)
    (important : Bool)
    (kept marks : List (List Token)) : Prop where
  solid_eq : solid (items value) = kept ++ marks
  marks_paired : Pairs isBang isWord marks
  kept_unpaired : ¬ EndsPaired isBang isWord kept
  important_iff :
    important = true ↔
      EndsPaired isBang isWord (solid (items value))
  solids_eq : Piece.solids pieces = kept.map piece
  separated : Separated pieces
  filler_ne_empty : .filler "" ∉ pieces
  exists_last :
    important = true →
      ∃ front gap bang rest,
        items value = front ++ (gap ++ bang :: rest) ∧
          solid front = kept ∧
          (∀ item ∈ front.getLast?, isBlank item = false) ∧
          (∀ item ∈ gap, isBlank item = true) ∧
          isBlank bang = false ∧
          solid (bang :: rest) = marks ∧
          pieces.getLast? =
            some
              (.filler
                (Token.rawText
                  (gap ++ bang :: rest).flatten))
  joined_eq : Piece.joined pieces = Token.rawText value

end Value

end LosslessCss

------------------------------------------------------------
-- Items
------------------------------------------------------------

namespace LosslessCss

open Grammar

namespace Value

@[simp] theorem isBang_piece
    (item : List Token) :
    Importance.isBang (piece item) = isBang item := by
  unfold piece isBang
  split
  · rfl
  · rfl

@[simp] theorem isWord_piece
    (item : List Token) :
    Importance.isWord (piece item) = isWord item := by
  unfold piece isWord
  split
  · rfl
  · rfl

@[simp] theorem isFiller_piece
    (item : List Token) :
    (piece item).isFiller = false := by
  unfold piece
  split
  · rfl
  · rfl

theorem text_piece
    (item : List Token) :
    (piece item).text = Token.rawText item := by
  unfold piece
  split
  · simp [Piece.text, Token.rawText]
  · rfl

@[simp] theorem solid_append
    (its others : List (List Token)) :
    solid (its ++ others) = solid its ++ solid others :=
  List.filter_append its others

theorem solid_of_blank
    {its : List (List Token)}
    (hBlank : ∀ item ∈ its, isBlank item = true) :
    solid its = [] := by
  rw [solid, List.filter_eq_nil_iff]
  intro item hMem
  simp [hBlank item hMem]

/- A blank item is one token. -/
theorem exists_of_isBlank
    {item : List Token}
    (hBlank : isBlank item = true) :
    ∃ t, item = [t] := by
  unfold isBlank at hBlank
  split at hBlank
  · exact ⟨_, rfl⟩
  · cases hBlank

end Value

end LosslessCss

------------------------------------------------------------
-- Pairs
------------------------------------------------------------

namespace LosslessCss

namespace Value

variable {α β : Type} {bang word : β → Bool}

/- The pairs of the images are pairs of the items. -/
theorem Pairs.of_map
    {f : α → β}
    {list : List β}
    (hPairs : Pairs bang word list)
    {its : List α}
    (hMap : its.map f = list) :
    Pairs (bang ∘ f) (word ∘ f) its := by
  induction hPairs generalizing its with
  | nil =>
      rw [List.map_eq_nil_iff.mp hMap]
      exact .nil
  | more _ hBang hWord ih =>
      rcases List.map_eq_append_iff.mp hMap with
        ⟨front, last, rfl, hFront, hLast⟩
      rcases List.map_eq_cons_iff.mp hLast with
        ⟨a, others, rfl, rfl, hOthers⟩
      rcases List.map_eq_singleton_iff.mp hOthers with
        ⟨b, rfl, rfl⟩
      exact .more (ih hFront) hBang hWord

theorem endsPaired_map
    {f : α → β}
    {its : List α} :
    EndsPaired bang word (its.map f) ↔
      EndsPaired (bang ∘ f) (word ∘ f) its := by
  constructor
  · intro h
    rcases h with ⟨front, a, b, hMap, hBang, hWord⟩
    rcases List.map_eq_append_iff.mp hMap with
      ⟨others, last, rfl, -, hLast⟩
    rcases List.map_eq_cons_iff.mp hLast with
      ⟨a, tail, rfl, rfl, hTail⟩
    rcases List.map_eq_singleton_iff.mp hTail with
      ⟨b, rfl, rfl⟩
    exact ⟨others, a, b, rfl, hBang, hWord⟩
  · intro h
    rcases h with ⟨front, a, b, rfl, hBang, hWord⟩
    exact ⟨front.map f, f a, f b, by simp, hBang, hWord⟩

theorem Pairs.endsPaired
    {list : List β}
    (hPairs : Pairs bang word list)
    (hSome : list ≠ [])
    (front : List β) :
    EndsPaired bang word (front ++ list) := by
  cases hPairs with
  | nil => exact absurd rfl hSome
  | @more others a b _ hBang hWord =>
      exact
        ⟨front ++ others, a, b,
          (List.append_assoc _ _ _).symm, hBang, hWord⟩

end Value

end LosslessCss

------------------------------------------------------------
-- Arranged Items
------------------------------------------------------------

namespace LosslessCss

open Grammar

namespace Value

/- The items that one piece stands for. -/
inductive Renders : List (List Token) → Piece → Prop where
  | solid
      {item : List Token}
      (hSolid : isBlank item = false) :
      Renders [item] (piece item)
  | blank
      {its : List (List Token)}
      (hSome : its ≠ [])
      (hBlank : ∀ item ∈ its, isBlank item = true) :
      Renders its (.filler (Token.rawText its.flatten))

/- The items that a list of pieces stands for. -/
inductive Arranged :
    List (List Token) → List Piece → Prop where
  | nil : Arranged [] []
  | cons
      {first its : List (List Token)}
      {p : Piece}
      {pieces : List Piece}
      (hFirst : Renders first p)
      (hRest : Arranged its pieces) :
      Arranged (first ++ its) (p :: pieces)

/- Formatting stands for blank items. -/
theorem Renders.of_isFiller
    {its : List (List Token)}
    {p : Piece}
    (hPiece : Renders its p)
    (hFiller : p.isFiller = true) :
    its ≠ [] ∧ (∀ item ∈ its, isBlank item = true) ∧
      p = .filler (Token.rawText its.flatten) := by
  cases hPiece with
  | solid _ => simp at hFiller
  | blank hSome hBlank => exact ⟨hSome, hBlank, rfl⟩

theorem Renders.arranged
    {its : List (List Token)}
    {p : Piece}
    (hPiece : Renders its p) :
    Arranged its [p] := by
  rw [← List.append_nil its]
  exact .cons hPiece .nil

theorem Arranged.renders
    {its : List (List Token)}
    {p : Piece}
    (hAll : Arranged its [p]) :
    Renders its p := by
  cases hAll with
  | cons hFirst hRest =>
      cases hRest
      simpa using hFirst

theorem Arranged.append
    {its others : List (List Token)}
    {ps qs : List Piece}
    (hFirst : Arranged its ps)
    (hSecond : Arranged others qs) :
    Arranged (its ++ others) (ps ++ qs) := by
  induction hFirst with
  | nil => exact hSecond
  | cons hPiece _ ih =>
      rw [List.append_assoc]
      exact .cons hPiece ih

theorem Arranged.exists_append
    {its : List (List Token)}
    {ps qs : List Piece}
    (hAll : Arranged its (ps ++ qs)) :
    ∃ front back,
      its = front ++ back ∧
        Arranged front ps ∧ Arranged back qs := by
  induction ps generalizing its with
  | nil => exact ⟨[], its, rfl, .nil, hAll⟩
  | cons p ps ih =>
      cases hAll with
      | @cons first others _ _ hFirst hRest =>
          rcases ih hRest with
            ⟨front, back, rfl, hFront, hBack⟩
          exact
            ⟨first ++ front, back,
              (List.append_assoc _ _ _).symm,
              .cons hFirst hFront, hBack⟩

/- The solid pieces are those of the solid items. -/
theorem Arranged.solids_eq
    {its : List (List Token)}
    {pieces : List Piece}
    (hAll : Arranged its pieces) :
    Piece.solids pieces = (solid its).map piece := by
  induction hAll with
  | nil => rfl
  | @cons first its p pieces hFirst _ ih =>
      rw [solid_append, List.map_append, ← ih]
      cases hFirst with
      | @solid item hSolid =>
          simp [Piece.solids, solid, hSolid]
      | blank _ hBlank => simp [solid_of_blank hBlank]

theorem Arranged.joined_eq
    {its : List (List Token)}
    {pieces : List Piece}
    (hAll : Arranged its pieces) :
    Piece.joined pieces = Token.rawText its.flatten := by
  induction hAll with
  | nil => rfl
  | cons hFirst _ ih =>
      rw [List.flatten_append, Token.rawText_append,
        Piece.joined, ih]
      cases hFirst with
      | solid _ => simp [text_piece]
      | blank _ _ => rfl

/- Formatting has a text, as its tokens have. -/
theorem Renders.ne_empty
    {its : List (List Token)}
    {p : Piece}
    (hPiece : Renders its p)
    (hRaw : ∀ t ∈ its.flatten, t.raw ≠ "") :
    .filler "" ≠ p := by
  intro hSame
  cases hPiece with
  | @solid item hSolid =>
      have hFiller := isFiller_piece item
      rw [← hSame] at hFiller
      cases hFiller
  | blank hSome hBlank =>
      have hText := (Piece.filler.inj hSame).symm
      have hNone := Token.eq_nil_of_rawText hRaw hText
      cases its with
      | nil => exact hSome rfl
      | cons item its =>
          rcases exists_of_isBlank (hBlank item (by simp))
            with ⟨t, rfl⟩
          simp at hNone

theorem Arranged.filler_ne_empty
    {its : List (List Token)}
    {pieces : List Piece}
    (hAll : Arranged its pieces)
    (hRaw : ∀ t ∈ its.flatten, t.raw ≠ "") :
    .filler "" ∉ pieces := by
  induction hAll with
  | nil => simp
  | @cons first its p pieces hFirst _ ih =>
      rw [List.flatten_append, List.forall_mem_append] at hRaw
      rw [List.mem_cons, not_or]
      exact ⟨hFirst.ne_empty hRaw.1, ih hRaw.2⟩

/- Where the last piece is solid, the last item is. -/
theorem Arranged.isBlank_getLast?
    {its : List (List Token)}
    {pieces : List Piece}
    (hAll : Arranged its pieces)
    (hLast :
      ∀ p ∈ pieces.getLast?, p.isFiller = false) :
    ∀ item ∈ its.getLast?, isBlank item = false := by
  rcases List.eq_nil_or_concat' pieces with
    rfl | ⟨front, last, rfl⟩
  · cases hAll
    simp
  · rcases hAll.exists_append with
      ⟨before, after, rfl, -, hAfter⟩
    have hSolid : last.isFiller = false :=
      hLast last (by simp)
    cases hAfter.renders with
    | solid hItem => simpa using hItem
    | blank _ _ => cases hSolid

end Value

end LosslessCss

------------------------------------------------------------
-- Arranging a Value
------------------------------------------------------------

namespace LosslessCss

open Grammar

namespace Value

theorem separated_concat
    {pieces : List Piece}
    {p : Piece}
    (hPieces : Separated pieces)
    (hLast :
      ∀ q ∈ pieces.getLast?,
        q.isFiller = false ∨ p.isFiller = false) :
    Separated (pieces ++ [p]) := by
  refine List.isChain_append.mpr
    ⟨hPieces, List.isChain_singleton p, ?_⟩
  intro q hq r hr
  obtain rfl : r = p := by simpa using hr.symm
  exact hLast q hq

/- A solid item is one more piece. -/
theorem Arranged.concat_piece
    {its : List (List Token)}
    {pieces : List Piece}
    {item : List Token}
    (hAll : Arranged its pieces)
    (hPieces : Separated pieces)
    (hSolid : isBlank item = false) :
    Arranged (its ++ [item]) (pieces ++ [piece item]) ∧
      Separated (pieces ++ [piece item]) := by
  refine
    ⟨hAll.append (Renders.solid hSolid).arranged,
      separated_concat hPieces ?_⟩
  intro q _
  exact .inr (isFiller_piece item)

/- A blank item joins the formatting in front of it. -/
theorem Arranged.pushFiller
    {its : List (List Token)}
    {pieces : List Piece}
    {t : Token}
    (hAll : Arranged its pieces)
    (hPieces : Separated pieces)
    (hBlank : isBlank [t] = true)
    (hRaw : t.raw ≠ "") :
    Arranged (its ++ [[t]])
        (Piece.pushFiller pieces t.raw) ∧
      Separated (Piece.pushFiller pieces t.raw) := by
  have hText : Token.rawText [[t]].flatten = t.raw := by
    simp [Token.rawText]
  rw [Piece.pushFiller, if_neg hRaw]
  split
  · rename_i last hLast
    obtain ⟨front, rfl⟩ :
        ∃ front, pieces = front ++ [.filler last] :=
      ⟨pieces.dropLast,
        (List.dropLast_append_getLast? _ hLast).symm⟩
    rw [List.dropLast_concat]
    rcases hAll.exists_append with
      ⟨before, gap, rfl, hBefore, hGap⟩
    rcases hGap.renders.of_isFiller rfl with
      ⟨-, hAllBlank, hSame⟩
    have hMore :
        Renders (gap ++ [[t]]) (.filler (last ++ t.raw)) := by
      rw [Piece.filler.inj hSame, ← hText,
        ← Token.rawText_append, ← List.flatten_append]
      refine .blank (by simp) ?_
      simpa [or_imp, forall_and] using ⟨hAllBlank, hBlank⟩
    rw [List.append_assoc]
    refine ⟨hBefore.append hMore.arranged, ?_⟩
    rcases List.isChain_append.mp hPieces with
      ⟨hFront, -, hEnd⟩
    exact separated_concat hFront fun q hq =>
      hEnd q hq (.filler last) rfl
  · rename_i hLast
    have hNew : Renders [[t]] (.filler t.raw) := by
      rw [← hText]
      exact .blank (by simp) (by simpa using hBlank)
    refine
      ⟨hAll.append hNew.arranged,
        separated_concat hPieces ?_⟩
    intro q hq
    cases q with
    | filler text => exact absurd hq (hLast text)
    | value text => exact .inl rfl
    | function text => exact .inl rfl

/- What a chunk of one token adds to a value. -/
theorem addToValue_token
    {pieces : List Piece}
    {t : Token}
    (hOpens : opensFunction? t = none) :
    addToValue pieces ⟨t, t.raw⟩ =
      if isBlank [t] then Piece.pushFiller pieces t.raw
      else pieces ++ [piece [t]] := by
  unfold opensFunction? at hOpens
  unfold addToValue
  split <;>
    simp_all [isBlank, piece, Token.isFiller,
      Token.isWhitespace, Token.isComment]

/- A function is one more piece. -/
theorem addToValue_span
    {pieces : List Piece}
    {t : Token}
    {opener : Opener}
    {body : List Token}
    (hOpens : opensFunction? t = some opener)
    (hSome : body ≠ []) :
    addToValue pieces ⟨t, t.raw ++ Token.rawText body⟩ =
      pieces ++ [piece (t :: body)] := by
  have hPiece :
      piece (t :: body) =
        .function (Token.rawText (t :: body)) := by
    cases body with
    | nil => exact absurd rfl hSome
    | cons u us => rfl
  rw [hPiece]
  unfold opensFunction? at hOpens
  unfold addToValue
  split at hOpens <;> simp_all [Token.rawText]

theorem Arranged.foldl_addToValue
    {p : Token → Bool}
    {ts : List Token}
    {chunks : List Chunk}
    (hChunks : Form.Chunks opensFunction? p ts chunks)
    (hRaw : ∀ t ∈ ts, t.raw ≠ "")
    {its : List (List Token)}
    {pieces : List Piece}
    (hAll : Arranged its pieces)
    (hPieces : Separated pieces) :
    Arranged (its ++ items ts)
        (chunks.foldl addToValue pieces) ∧
      Separated (chunks.foldl addToValue pieces) := by
  induction hChunks generalizing its pieces with
  | nil => simpa [items, Nesting.items] using ⟨hAll, hPieces⟩
  | @token t ts chunks hOpens _ _ ih =>
      have hTail : ∀ u ∈ ts, u.raw ≠ "" :=
        fun u hMem => hRaw u (by simp [hMem])
      have hItems : items (t :: ts) = [[t]] ++ items ts :=
        Nesting.items_token hOpens
      rw [List.foldl_cons, addToValue_token hOpens, hItems,
        ← List.append_assoc]
      cases hBlank : isBlank [t] with
      | true =>
          rcases hAll.pushFiller hPieces hBlank
              (hRaw t (by simp)) with
            ⟨hNext, hSeparated⟩
          exact ih hTail hNext hSeparated
      | false =>
          rcases hAll.concat_piece hPieces hBlank with
            ⟨hNext, hSeparated⟩
          exact ih hTail hNext hSeparated
  | @span t opener body ts chunks hOpens _ hBody _ ih =>
      have hTail : ∀ u ∈ ts, u.raw ≠ "" :=
        fun u hMem => hRaw u (by simp [hMem])
      have hItems :
          items (t :: (body ++ ts)) =
            [t :: body] ++ items ts :=
        Nesting.items_span hOpens hBody
      have hSome : body ≠ [] := by
        rcases hBody.exists_last with ⟨front, last, rfl, -⟩
        simp
      have hSolid : isBlank (t :: body) = false := by
        cases body with
        | nil => exact absurd rfl hSome
        | cons u us => rfl
      rw [List.foldl_cons, addToValue_span hOpens hSome,
        hItems, ← List.append_assoc]
      rcases hAll.concat_piece hPieces hSolid with
        ⟨hNext, hSeparated⟩
      exact ih hTail hNext hSeparated

/- The pieces of a value stand for its items. -/
theorem arranged_arrangeValue
    {p : Token → Bool}
    {ts : List Token}
    {chunks : List Chunk}
    (hChunks : Form.Chunks opensFunction? p ts chunks)
    (hRaw : ∀ t ∈ ts, t.raw ≠ "") :
    Arranged (items ts) (arrangeValue chunks) ∧
      Separated (arrangeValue chunks) :=
  Arranged.nil.foldl_addToValue hChunks hRaw .nil

end Value

end LosslessCss

------------------------------------------------------------
-- Folded Marks
------------------------------------------------------------

namespace LosslessCss

open Value (EndsPaired Pairs Separated)

namespace Importance

theorem solids_reverse
    (pieces : List Piece) :
    Piece.solids pieces.reverse =
      (Piece.solids pieces).reverse :=
  List.filter_reverse

/- Nothing is folded only if there is no mark at the end. -/
theorem not_endsPaired_of_foldLast?
    {reversed : List Piece}
    (hNone : foldLast? reversed = none) :
    ¬ EndsPaired isBang isWord
      (Piece.solids reversed.reverse) := by
  intro h
  rcases h with ⟨front, bang, word, hParts, hBang, hWord⟩
  have hSolids :
      Piece.solids reversed =
        word :: bang :: front.reverse := by
    rw [← List.reverse_reverse reversed, solids_reverse,
      hParts]
    simp
  rcases exists_foldLast? hWord hBang hSolids with
    ⟨folded, hSome⟩
  rw [hNone] at hSome
  cases hSome

/- Only one piece of formatting can stand in front. -/
theorem isFiller_head?_takeFiller
    {pieces : List Piece}
    (hPieces : Separated pieces) :
    ∀ p ∈ (takeFiller pieces).2.head?,
      p.isFiller = false := by
  unfold takeFiller
  split
  · rename_i text others
    intro p hp
    rcases (List.isChain_cons.mp hPieces).1 p hp with
      hFirst | hNext
    · cases hFirst
    · exact hNext
  · rename_i hOther
    cases pieces with
    | nil => simp
    | cons q others =>
        intro p hp
        obtain rfl : p = q := by simpa using hp.symm
        cases p with
        | filler text => exact absurd rfl (hOther _ _)
        | value text => rfl
        | function text => rfl

theorem isFiller_head?_of_foldLast?
    {reversed rest : List Piece}
    {p : Piece}
    (hFold : foldLast? reversed = some (p :: rest))
    (hPieces : Separated reversed) :
    ∀ q ∈ rest.head?, q.isFiller = false := by
  unfold foldLast? at hFold
  simp only at hFold
  split at hFold
  · cases hFold
  rename_i word beforeWord hWord
  split at hFold
  · cases hFold
  rename_i bang beforeBang hBang
  split at hFold
  case isFalse => cases hFold
  cases hFold
  have hFirst : word :: beforeWord <:+ reversed :=
    hWord ▸ List.dropWhile_suffix _
  have hSecond : bang :: beforeBang <:+ beforeWord :=
    hBang ▸ List.dropWhile_suffix _
  have hSuffix : beforeBang <:+ reversed :=
    (List.suffix_cons _ _).trans
      (hSecond.trans ((List.suffix_cons _ _).trans hFirst))
  exact isFiller_head?_takeFiller (hPieces.suffix hSuffix)

/- The last mark is folded with the formatting around it. -/
theorem foldLast?_cases
    {reversed folded : List Piece}
    (hFold : foldLast? reversed = some folded)
    (hPieces : Separated reversed) :
    ∃ taken rest bang word,
      reversed = taken ++ rest ∧
        folded =
          .filler (Piece.joined taken.reverse) :: rest ∧
        Piece.solids taken.reverse = [bang, word] ∧
        isBang bang = true ∧ isWord word = true ∧
        ∀ p ∈ rest.head?, p.isFiller = false := by
  rcases exists_of_foldLast? hFold with
    ⟨taken, rest, rfl, -, -, rfl⟩
  rcases solids_of_foldLast? hFold with
    ⟨word, bang, hWord, hBang, hSolids⟩
  have hTaken : Piece.solids taken = [word, bang] := by
    rw [Piece.solids_append, Piece.solids_filler] at hSolids
    exact List.append_cancel_right hSolids
  refine
    ⟨taken, rest, bang, word, rfl, rfl, ?_, hBang, hWord,
      isFiller_head?_of_foldLast? hFold hPieces⟩
  rw [solids_reverse, hTaken]
  rfl

/-
  All marks at the end are folded into one piece.  Each fold
  takes the piece that the last one has left, and so one more
  mark and the formatting in front of that.
-/
theorem foldReversed_cases
    {reversed : List Piece}
    (hPieces : Separated reversed) :
    (foldReversed reversed = (reversed, false) ∧
        ¬ EndsPaired isBang isWord
          (Piece.solids reversed.reverse)) ∨
      ∃ taken rest,
        reversed = taken ++ rest ∧
          foldReversed reversed =
            (.filler (Piece.joined taken.reverse) :: rest,
              true) ∧
          Piece.solids taken.reverse ≠ [] ∧
          Pairs isBang isWord
            (Piece.solids taken.reverse) ∧
          ¬ EndsPaired isBang isWord
            (Piece.solids rest.reverse) ∧
          ∀ p ∈ rest.head?, p.isFiller = false := by
  fun_induction foldReversed reversed with
  | case1 reversed hNone =>
      exact .inl ⟨rfl, not_endsPaired_of_foldLast? hNone⟩
  | case2 reversed folded hFold _ ih =>
      rcases foldLast?_cases hFold hPieces with
        ⟨taken, rest, bang, word, rfl, rfl, hMark, hBang,
          hWord, hRest⟩
      have hNext :
          Separated
            (.filler (Piece.joined taken.reverse) ::
              rest) :=
        List.isChain_cons.mpr
          ⟨fun p hp => .inr (hRest p hp),
            hPieces.right_of_append⟩
      refine .inr ?_
      rcases ih hNext with
        ⟨hSame, hEnd⟩ |
          ⟨others, last, hParts, hSame, hSome, hPairs, hEnd,
            hLast⟩
      · refine ⟨taken, rest, rfl, by rw [hSame], ?_, ?_, ?_,
          hRest⟩
        · simp [hMark]
        · rw [hMark]
          exact Pairs.more .nil hBang hWord
        · simpa using hEnd
      · -- The piece that was folded is folded once more.
        cases others with
        | nil => exact absurd rfl hSome
        | cons other others =>
            rcases List.cons.inj hParts with ⟨rfl, rfl⟩
            have hMore :
                Piece.solids (taken ++ others).reverse =
                  Piece.solids others.reverse ++
                    [bang, word] := by
              rw [List.reverse_append, Piece.solids_append,
                hMark]
            have hFront :
                Pairs isBang isWord
                  (Piece.solids others.reverse) := by
              simpa using hPairs
            refine
              ⟨taken ++ others, last, by simp, ?_, ?_, ?_,
                hEnd, hLast⟩
            · rw [hSame]
              simp [Piece.text]
            · rw [hMore]
              simp
            · rw [hMore]
              exact .more hFront hBang hWord

theorem foldAll_cases
    {pieces : List Piece}
    (hPieces : Separated pieces) :
    (foldAll pieces = (pieces, false) ∧
        ¬ EndsPaired isBang isWord (Piece.solids pieces)) ∨
      ∃ rest taken,
        pieces = rest ++ taken ∧
          foldAll pieces =
            (rest ++ [.filler (Piece.joined taken)],
              true) ∧
          Piece.solids taken ≠ [] ∧
          Pairs isBang isWord (Piece.solids taken) ∧
          ¬ EndsPaired isBang isWord (Piece.solids rest) ∧
          ∀ p ∈ rest.getLast?, p.isFiller = false := by
  have hReversed : Separated pieces.reverse := by
    rw [Separated, List.isChain_reverse]
    exact hPieces.imp fun _ _ hPair => hPair.symm
  rcases foldReversed_cases hReversed with
    ⟨hSame, hEnd⟩ |
      ⟨taken, rest, hParts, hSame, hSome, hPairs, hEnd, hLast⟩
  · rw [List.reverse_reverse] at hEnd
    refine .inl ⟨?_, hEnd⟩
    simp [foldAll, hSame]
  · refine
      .inr ⟨rest.reverse, taken.reverse, ?_, ?_, hSome,
        hPairs, hEnd, ?_⟩
    · rw [← List.reverse_append, ← hParts,
        List.reverse_reverse]
    · simp [foldAll, hSame]
    · simpa using hLast

end Importance

end LosslessCss

------------------------------------------------------------
-- Reading Declarations
------------------------------------------------------------

namespace LosslessCss

open Grammar

namespace Value

theorem endsPaired_piece
    {its : List (List Token)} :
    EndsPaired Importance.isBang Importance.isWord
        (its.map piece) ↔
      EndsPaired isBang isWord its := by
  rw [endsPaired_map]
  simp only [Function.comp_def, isBang_piece, isWord_piece]

theorem Pairs.of_piece
    {its : List (List Token)}
    (hPairs :
      Pairs Importance.isBang Importance.isWord
        (its.map piece)) :
    Pairs isBang isWord its := by
  have hItems := hPairs.of_map rfl
  simpa only [Function.comp_def, isBang_piece, isWord_piece]
    using hItems

/- The text of marks is not empty. -/
theorem flatten_ne_nil
    {its : List (List Token)}
    (hEnds : EndsPaired isBang isWord (solid its)) :
    its.flatten ≠ [] := by
  rcases hEnds with ⟨front, a, b, hParts, -, hWord⟩
  have hMem : b ∈ its := by
    have hSolid : b ∈ solid its := by simp [hParts]
    exact List.mem_of_mem_filter hSolid
  intro hNone
  have hNil := List.flatten_eq_nil_iff.mp hNone b hMem
  rw [hNil] at hWord
  cases hWord

/-
  The marks are the last items.  In front of the first one
  there may be blank items, which stand in the same piece.
-/
theorem exists_first_mark
    {its : List (List Token)}
    (hSome : solid its ≠ []) :
    ∃ gap bang rest,
      its = gap ++ bang :: rest ∧
        (∀ item ∈ gap, isBlank item = true) ∧
        isBlank bang = false ∧
        solid (bang :: rest) = solid its := by
  have hParts :=
    List.takeWhile_append_dropWhile (p := isBlank) (l := its)
  have hGap :
      ∀ item ∈ its.takeWhile isBlank,
        isBlank item = true :=
    fun _ hMem => List.mem_takeWhile_imp hMem
  have hSolid :
      solid (its.dropWhile isBlank) = solid its := by
    conv_rhs => rw [← hParts]
    rw [solid_append, solid_of_blank hGap, List.nil_append]
  have hFirst := List.head?_dropWhile_not isBlank its
  cases hRest : its.dropWhile isBlank with
  | nil =>
      rw [hRest] at hSolid
      exact absurd hSolid.symm hSome
  | cons bang rest =>
      rw [hRest] at hParts hSolid hFirst
      exact
        ⟨its.takeWhile isBlank, bang, rest, hParts.symm, hGap,
          by simpa using hFirst, hSolid⟩

/-
  Where the last pieces are marks, they are folded into one
  piece.  It stands for the last items of the value.
-/
theorem reads_of_marks
    {value : List Token}
    {front tail : List (List Token)}
    {rest taken : List Piece}
    (hItems : items value = front ++ tail)
    (hFront : Arranged front rest)
    (hTail : Arranged tail taken)
    (hRaw : ∀ t ∈ (front ++ tail).flatten, t.raw ≠ "")
    (hRest : Separated rest)
    (hLast : ∀ p ∈ rest.getLast?, p.isFiller = false)
    (hSome : solid tail ≠ [])
    (hMarks : Pairs isBang isWord (solid tail))
    (hKept : ¬ EndsPaired isBang isWord (solid front))
    (hJoined :
      Piece.joined
          (rest ++ [.filler (Piece.joined taken)]) =
        Token.rawText value) :
    Reads value (rest ++ [.filler (Piece.joined taken)])
      true (solid front) (solid tail) := by
  rw [List.flatten_append, List.forall_mem_append] at hRaw
  have hText : Piece.joined taken ≠ "" := by
    rw [hTail.joined_eq]
    intro hNone
    exact flatten_ne_nil (hMarks.endsPaired hSome [])
      (Token.eq_nil_of_rawText hRaw.2 hNone)
  exact
    { solid_eq := by rw [hItems, solid_append]
      marks_paired := hMarks
      kept_unpaired := hKept
      important_iff := by
        rw [hItems, solid_append]
        simpa using hMarks.endsPaired hSome (solid front)
      solids_eq := by simpa using hFront.solids_eq
      separated :=
        separated_concat hRest fun q hq =>
          .inl (hLast q hq)
      filler_ne_empty := by
        rw [List.mem_append, not_or]
        refine ⟨hFront.filler_ne_empty hRaw.1, ?_⟩
        simpa using hText.symm
      exists_last := by
        intro _
        rcases exists_first_mark hSome with
          ⟨gap, bang, others, rfl, hGap, hBang, hSame⟩
        refine
          ⟨front, gap, bang, others, hItems, rfl,
            hFront.isBlank_getLast? hLast, hGap, hBang,
            hSame, ?_⟩
        rw [hTail.joined_eq]
        simp
      joined_eq := hJoined }

/- The pieces of a value with its marks folded. -/
theorem exists_reads
    {value : List Token}
    {chunks : List Chunk}
    (hChunks :
      Form.Chunks opensFunction? (fun _ => true) value
        chunks)
    (hRaw : ∀ t ∈ value, t.raw ≠ "") :
    ∃ kept marks,
      Reads value
        (Importance.foldAll (arrangeValue chunks)).1
        (Importance.foldAll (arrangeValue chunks)).2
        kept marks := by
  have hJoined :
      Piece.joined
          (Importance.foldAll (arrangeValue chunks)).1 =
        Token.rawText value := by
    rw [Importance.joined_foldAll, joined_arrangeValue,
      hChunks.rawText_eq]
  have hTokens :
      ∀ t ∈ (items value).flatten, t.raw ≠ "" := by
    rw [items, Nesting.flatten_items hChunks]
    exact hRaw
  rcases arranged_arrangeValue hChunks hRaw with
    ⟨hAll, hPieces⟩
  rcases Importance.foldAll_cases hPieces with
    ⟨hFold, hEnd⟩ |
      ⟨rest, taken, hParts, hFold, hSome, hPairs, hEnd, hLast⟩
  · rw [hAll.solids_eq, endsPaired_piece] at hEnd
    refine ⟨solid (items value), [], ?_⟩
    rw [hFold] at hJoined ⊢
    exact
      { solid_eq := (List.append_nil _).symm
        marks_paired := .nil
        kept_unpaired := hEnd
        important_iff := by simpa using hEnd
        solids_eq := hAll.solids_eq
        separated := hPieces
        filler_ne_empty := hAll.filler_ne_empty hTokens
        exists_last := by simp
        joined_eq := hJoined }
  · rw [hParts] at hAll hPieces
    rcases hAll.exists_append with
      ⟨front, tail, hItems, hFront, hTail⟩
    rw [hTail.solids_eq] at hSome hPairs
    rw [hFront.solids_eq, endsPaired_piece] at hEnd
    refine ⟨solid front, solid tail, ?_⟩
    rw [hFold] at hJoined ⊢
    exact
      reads_of_marks hItems hFront hTail
        (by rwa [← hItems]) hPieces.left_of_append hLast
        (by simpa using hSome) hPairs.of_piece hEnd hJoined

end Value

namespace Grammar

open TokenSource (upcoming)

variable {σ : Type} [TokenSource σ]

/-
  A declaration that is read is a property, the tokens up to
  the first colon, and a value with its marks.
-/
theorem declaration_reads
    {s : σ}
    {ts : List Token}
    {leaf : Leaf}
    (hShown : upcoming s = ts)
    (hRaw : ∀ t ∈ ts, t.raw ≠ "")
    (hRead : (declaration.run s).outcome = .ok leaf) :
    ∃ property between colon value,
      ts = property :: (between ++ colon :: value) ∧
        (∀ t ∈ between, t.kind ≠ .colon) ∧
        colon.kind = .colon ∧
        ∃ pieces important kept marks,
          leaf =
            .declaration property.raw
              (Token.rawText between) pieces important ∧
          Value.Reads value pieces important kept marks := by
  subst hShown
  have hForm :=
    (outcome_eq_ok_iff yields_declaration).mp hRead
  generalize upcoming s = ts at hForm hRaw
  cases hForm with
  | @intro property colon between value chunks _ hBetween
      hColon hValue =>
      have hFirst : ∀ t ∈ between, t.kind ≠ .colon := by
        intro t hMem hKind
        have hBefore := hBetween t hMem
        simp [beforeColon, hKind] at hBefore
      rcases Value.exists_reads hValue fun t hMem =>
          hRaw t (by simp [hMem]) with
        ⟨kept, marks, hReads⟩
      exact
        ⟨property, between, colon, value, rfl, hFirst, hColon,
          _, _, kept, marks, rfl, hReads⟩

/-
  A mark inside of a function, which stays, and two marks at
  the end, the last one with a comment between its parts.
-/
theorem declaration_reads_twice_marked :
    ∃ ts value kept marks,
      (declaration.run
          (TokenSlice.ofTokens ts ⟨1, 33, 32⟩)).outcome =
        .ok
          (.declaration "p" ""
            [ .function "f(!)",
              .filler " !important!/**/IMPORTANT;" ]
            true) ∧
      Value.Reads value
        [ .function "f(!)",
          .filler " !important!/**/IMPORTANT;" ]
        true kept marks := by
  let ts : List Token :=
    [ ⟨.ident "p", "p", ⟨1, 1, 0⟩⟩,
      ⟨.colon, ":", ⟨1, 2, 1⟩⟩,
      ⟨.function "f", "f(", ⟨1, 3, 2⟩⟩,
      ⟨.delim '!', "!", ⟨1, 5, 4⟩⟩,
      ⟨.rightParen, ")", ⟨1, 6, 5⟩⟩,
      ⟨.whitespace, " ", ⟨1, 7, 6⟩⟩,
      ⟨.delim '!', "!", ⟨1, 8, 7⟩⟩,
      ⟨.ident "important", "important", ⟨1, 9, 8⟩⟩,
      ⟨.delim '!', "!", ⟨1, 18, 17⟩⟩,
      ⟨.comment "", "/**/", ⟨1, 19, 18⟩⟩,
      ⟨.ident "IMPORTANT", "IMPORTANT", ⟨1, 23, 22⟩⟩,
      ⟨.semicolon, ";", ⟨1, 32, 31⟩⟩ ]
  have hShown :
      upcoming (TokenSlice.ofTokens ts ⟨1, 33, 32⟩) = ts := by
    rw [TokenSlice.upcoming_ofTokens]
    exact Token.untilEof_eq_self (by decide)
  have hRead :
      (declaration.run
          (TokenSlice.ofTokens ts ⟨1, 33, 32⟩)).outcome =
        .ok
          (.declaration "p" ""
            [ .function "f(!)",
              .filler " !important!/**/IMPORTANT;" ]
            true) := by
    decide +kernel
  rcases declaration_reads hShown (by decide) hRead with
    ⟨_, _, _, value, -, -, -, pieces, important, kept, marks,
      hLeaf, hReads⟩
  rcases Leaf.declaration.inj hLeaf with ⟨-, -, rfl, rfl⟩
  exact ⟨ts, value, kept, marks, hRead, hReads⟩

end Grammar

end LosslessCss
