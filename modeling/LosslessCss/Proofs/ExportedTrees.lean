import LosslessCss.Proofs.JsonTexts
import LosslessCss.Tree.Export

/-
  A tree can be told from its exported text.

  Every part of a node is a field of a record, and the name
  of its kind tells which fields these are.  So the JSON of
  two nodes only agrees where their parts do, and no value
  shares its text with another one.

  Key theorems include:
    * `Leaf.json_inj`
    * `Opening.json_inj`
    * `Node.toJson_inj`
    * `Node.json_eq_iff`
-/

------------------------------------------------------------
-- Parts of Nodes
------------------------------------------------------------

namespace LosslessCss

theorem Location.toJson_inj
    {here there : Location}
    (h : here.toJson = there.toJson) :
    here = there := by
  cases here
  cases there
  simpa [Location.toJson] using h

/- The kind and the text of a piece are the whole piece. -/
theorem Piece.toJson_inj
    {p q : Piece}
    (h : p.toJson = q.toJson) :
    p = q := by
  simp only [Piece.toJson, Json.record.injEq,
    List.cons.injEq, Prod.mk.injEq, Json.text.injEq,
    true_and, and_true] at h
  rcases h with ⟨hLabel, hText⟩
  cases p with
  | value text =>
      cases q with
      | value other => exact congrArg Piece.value hText
      | _ => simp [Piece.label] at hLabel
  | function text =>
      cases q with
      | function other => exact congrArg Piece.function hText
      | _ => simp [Piece.label] at hLabel
  | filler text =>
      cases q with
      | filler other => exact congrArg Piece.filler hText
      | _ => simp [Piece.label] at hLabel

theorem Piece.listJson_inj
    {ps qs : List Piece}
    (h : Piece.listJson ps = Piece.listJson qs) :
    ps = qs := by
  have hMap : ps.map Piece.toJson = qs.map Piece.toJson :=
    Json.list.inj h
  exact List.map_inj_right
    (fun _ _ hSame => Piece.toJson_inj hSame) |>.mp hMap

theorem StatementRule.label_inj
    {a b : StatementRule}
    (h : a.label = b.label) :
    a = b := by
  cases a with
  | _ =>
      cases b with
      | _ => first | rfl | exact absurd h (by decide)

theorem BlockRule.label_inj
    {a b : BlockRule}
    (h : a.label = b.label) :
    a = b := by
  cases a with
  | _ =>
      cases b with
      | _ => first | rfl | exact absurd h (by decide)

end LosslessCss

------------------------------------------------------------
-- Leaves and Openings
------------------------------------------------------------

namespace LosslessCss

/- The name of the kind of a leaf tells its fields. -/
theorem Leaf.json_inj
    {a b : Leaf}
    (hLabel : a.label = b.label)
    (hFields : a.jsonFields = b.jsonFields) :
    a = b := by
  cases a with
  | declaration property beforeColon value important =>
      cases b with
      | declaration property' beforeColon' value' important' =>
          simp only [Leaf.jsonFields, List.cons.injEq,
            Prod.mk.injEq, Json.text.injEq, Json.flag.injEq,
            true_and, and_true] at hFields
          rcases hFields with ⟨rfl, rfl, hValue, rfl⟩
          rw [Piece.listJson_inj hValue]
      | _ => simp [Leaf.label] at hLabel
  | comment text =>
      cases b with
      | comment text' =>
          simpa [Leaf.jsonFields] using hFields
      | _ => simp [Leaf.label] at hLabel
  | statement name value =>
      cases b with
      | statement name' value' =>
          simp only [Leaf.jsonFields, List.cons.injEq,
            Prod.mk.injEq, Json.text.injEq, true_and,
            and_true] at hFields
          rcases hFields with ⟨hName, hValue⟩
          rw [StatementRule.label_inj hName,
            Piece.listJson_inj hValue]
      | _ => simp [Leaf.label] at hLabel

/- The same for a block, where the children come last. -/
theorem Opening.json_inj
    {a b : Opening}
    {v w : String × Json}
    (hLabel : a.label = b.label)
    (hFields : a.jsonFields ++ [v] = b.jsonFields ++ [w]) :
    a = b ∧ v = w := by
  rcases List.append_inj' hFields rfl with ⟨hFields, hLast⟩
  refine ⟨?_, List.singleton_inj.mp hLast⟩
  cases a with
  | styleSheet =>
      cases b with
      | styleSheet => rfl
      | _ => simp [Opening.label] at hLabel
  | rule selectors =>
      cases b with
      | rule selectors' =>
          simp only [Opening.jsonFields, List.cons.injEq,
            Prod.mk.injEq, true_and, and_true] at hFields
          rw [Piece.listJson_inj hFields]
      | _ => simp [Opening.label] at hLabel
  | atRule name parameters =>
      cases b with
      | atRule name' parameters' =>
          simp only [Opening.jsonFields, List.cons.injEq,
            Prod.mk.injEq, Json.text.injEq, true_and,
            and_true] at hFields
          rcases hFields with ⟨hName, hParameters⟩
          rw [BlockRule.label_inj hName,
            Piece.listJson_inj hParameters]
      | _ => simp [Opening.label] at hLabel

/- No name stands for a leaf and for a block. -/
theorem Leaf.label_ne
    (content : Leaf)
    (opening : Opening) :
    content.label ≠ opening.label := by
  cases content with
  | _ =>
      cases opening with
      | _ => simp [Leaf.label, Opening.label]

end LosslessCss

------------------------------------------------------------
-- Nodes
------------------------------------------------------------

namespace LosslessCss

namespace Node

theorem jsonRecord_inj
    {label label' : String}
    {fields fields' : List (String × Json)}
    {location location' : Location}
    {before before' : String}
    (h :
      jsonRecord label fields location before =
        jsonRecord label' fields' location' before') :
    label = label' ∧ fields = fields' ∧
      location = location' ∧ before = before' := by
  simp only [jsonRecord, Json.record.injEq, List.cons.injEq,
    Prod.mk.injEq, Json.text.injEq, true_and,
    and_true] at h
  rcases h with ⟨⟨hLabel, hFields⟩, hLocation, hBefore⟩
  exact
    ⟨hLabel, hFields, Location.toJson_inj hLocation, hBefore⟩

mutual

/- The JSON of a node has all parts of all nodes in it. -/
theorem toJson_inj :
    ∀ (a b : Node), a.toJson = b.toJson → a = b
| .leaf content location before,
    .leaf content' location' before', h => by
    simp only [toJson] at h
    rcases jsonRecord_inj h with
      ⟨hLabel, hFields, rfl, rfl⟩
    rw [Leaf.json_inj hLabel hFields]
| .leaf content _ _, .block opening _ _ _ _, h => by
    simp only [toJson] at h
    exact absurd (jsonRecord_inj h).1
      (Leaf.label_ne content opening)
| .block opening _ _ _ _, .leaf content _ _, h => by
    simp only [toJson] at h
    exact absurd (jsonRecord_inj h).1.symm
      (Leaf.label_ne content opening)
| .block opening children after location before,
    .block opening' children' after' location' before',
    h => by
    simp only [toJson] at h
    rcases jsonRecord_inj h with
      ⟨hLabel, hFields, rfl, rfl⟩
    rcases Opening.json_inj hLabel hFields with
      ⟨rfl, hBlock⟩
    simp only [Prod.mk.injEq, Json.record.injEq,
      List.cons.injEq, Json.list.injEq, Json.text.injEq,
      true_and, and_true] at hBlock
    rcases hBlock with ⟨hChildren, rfl⟩
    rw [toJsonAll_inj children children' hChildren]

theorem toJsonAll_inj :
    ∀ (as bs : List Node),
      toJsonAll as = toJsonAll bs → as = bs
| [], [], _ => rfl
| [], _ :: _, h => by simp [toJsonAll] at h
| _ :: _, [], h => by simp [toJsonAll] at h
| a :: as, b :: bs, h => by
    simp only [toJsonAll, List.cons.injEq] at h
    rw [toJson_inj a b h.1, toJsonAll_inj as bs h.2]

end

/-
  The export loses nothing.  Two trees have the same text
  only if they are the same tree, whether they were parsed
  or put together by hand.
-/
theorem json_eq_iff
    (A B : Node) :
    A.json = B.json ↔ A = B := by
  constructor
  · intro h
    exact toJson_inj A B (Json.pretty_inj h)
  · intro h
    rw [h]

end Node

end LosslessCss
