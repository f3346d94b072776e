import TreeSeq.Proofs.Tree.Inverse
import Mathlib.Data.List.Basic

/-!
# Counting the objects of a document

The tree that is read from a document has a node for each object in it. No child is lost
on the way: the fields of an object have distinct names, so the trees in a field are never
put in the place of others, and a name that is listed gets a slot only if it has none.

* `Node.Draft.children_take`: the trees in a field come after the children so far;
* `Node.children_of_ofJson`: the children of a node;
* `Node.count_of_ofJson`: the nodes of a tree.
-/

namespace TreeSeq.Node

open Json (Value)

/-! ## The children in order -/

/-- The trees in a field, which become children. -/
def fieldTrees (field : String × Value) : List Node :=
  if Reserved field.1 then [] else field.2.trees

namespace Draft

/-- A field under a new name adds its trees to the children. -/
theorem children_take (draft : Draft) {field : String × Value}
    (hn : field.1 ∉ Fields.names draft.node.slots) :
    (draft.take field).node.children = draft.node.children ++ fieldTrees field := by
  obtain ⟨name, value⟩ := field
  rw [fieldTrees]
  split
  · rename_i hr
    rw [children, (draft.take_of_reserved hr value).2, List.append_nil]
    rfl
  · rename_i hr
    rw [draft.take_of_plain hr, children, absorb]
    simp only [Value.slot?]
    split
    · rename_i ht
      rw [List.isEmpty_iff.mp ht, List.append_nil]
      rfl
    · rw [Option.elim_some, Fields.put_of_not_mem hn, List.flatMap_append]
      simp [children]

/-- Only the name of the field may become that of a slot. -/
theorem names_take_sublist (draft : Draft) (field : String × Value) :
    (Fields.names (draft.take field).node.slots).Sublist
      (Fields.names draft.node.slots ++ [field.1]) := by
  obtain ⟨name, value⟩ := field
  by_cases hr : Reserved name
  · rw [(draft.take_of_reserved hr value).2]
    exact List.sublist_append_left _ _
  · rw [draft.take_of_plain hr, absorb]
    cases value.slot? with
    | none => exact List.sublist_append_left _ _
    | some trees => exact Fields.names_put_sublist _ _ _

theorem children_foldl_take {fields : List (String × Value)} {draft : Draft}
    (hd : (Fields.names draft.node.slots ++ Fields.names fields).Nodup) :
    (fields.foldl take draft).node.children = draft.node.children ++ fields.flatMap fieldTrees := by
  induction fields generalizing draft with
  | nil => rw [List.foldl_nil, List.flatMap_nil, List.append_nil]
  | cons field rest ih =>
    rw [show Fields.names (field :: rest) = field.1 :: Fields.names rest from rfl,
      List.append_cons] at hd
    -- the names of the slots so far are among those of the fields before
    have hn : field.1 ∉ Fields.names draft.node.slots := fun hm =>
      (List.nodup_append.mp (List.nodup_append.mp hd).1).2.2 _ hm _ (List.mem_singleton_self _) rfl
    have hrest := hd.sublist ((draft.names_take_sublist field).append_right _)
    rw [List.foldl_cons, ih hrest, draft.children_take hn, List.flatMap_cons, List.append_assoc]

/-- Emptying slots leaves the children as they are. -/
theorem children_foldl_emptySlot (names : List String) (node : Node) :
    (names.foldl emptySlot node).children = node.children := by
  induction names generalizing node with
  | nil => rfl
  | cons name rest ih =>
    rw [List.foldl_cons, ih, children, slots_emptySlot]
    split
    · rfl
    · simp [children]

end Draft

/-- The children of a node are the trees in the fields of its object, in order. -/
theorem children_of_ofJson {fields : List (String × Value)} (hd : Fields.Distinct fields)
    {tree : Node} (h : ofJson (.object fields) = .ok tree) :
    tree.children = fields.flatMap fieldTrees := by
  obtain ⟨nodeType, -, -, rfl⟩ := ofJson_object_eq_ok_iff.mp h
  rw [Draft.finish, Draft.children_foldl_emptySlot, Draft.children_foldl_take]
  · rfl
  · exact hd

/-! ## Counting -/

/-- Lists that are joined have as many nodes as objects if each two of them have. -/
theorem countNodes_flatMap {α β : Type} {f : α → List Node} {g : α → List β} {l : List α}
    (h : ∀ a ∈ l, countNodes (f a) = (g a).length) :
    countNodes (l.flatMap f) = (l.flatMap g).length := by
  induction l with
  | nil => rfl
  | cons a rest ih =>
    obtain ⟨ha, hrest⟩ := List.forall_mem_cons.mp h
    rw [List.flatMap_cons, List.flatMap_cons, countNodes_append, List.length_append, ha, ih hrest]

/-- A field has as many nodes as objects if each tree in it has. -/
theorem countNodes_trees {value : Value} (h : value.Readable)
    (hc : ∀ item ∈ value.items, ∀ tree, ofJson item = .ok tree →
      tree.count = item.objects.length) : countNodes value.trees = value.objects.length := by
  rw [Value.trees, List.filterMap_eq_flatMap_toList, Value.objects_eq]
  refine countNodes_flatMap fun item hi => ?_
  obtain ⟨scalar, hs⟩ | ⟨tree, ht⟩ := h item hi
  · have ho := Value.isObject_of_not_isContainer (Value.isContainer_of_scalar hs)
    rw [Value.ofJson_of_not_isObject ho, Value.objects_of_scalar hs]
    rfl
  · rw [ht, ← hc item hi tree ht]
    simp [Except.toOption, countNodes]

/-- A tree has a node for each object of the document. -/
theorem count_of_ofJson (value : Value) (hd : ∀ fields ∈ value.objects, Fields.Distinct fields)
    {tree : Node} (h : ofJson value = .ok tree) : tree.count = value.objects.length := by
  induction value using Value.induction_on_items generalizing tree with
  | other value ho =>
    rw [Value.ofJson_of_not_isObject ho] at h
    cases h
  | object fields ih =>
    rw [Value.forall_objects] at hd
    obtain ⟨hr, -⟩ := reads_of_ofJson hd.1 h
    obtain ⟨-, -, ha, -⟩ := ofJson_object_eq_ok_iff.mp h
    rw [count_eq, children_of_ofJson hd.1 h, Value.objects, Value.objectsOfFields_eq,
      List.length_cons, Nat.add_comm 1, countNodes_flatMap fun field hf => ?_]
    rw [fieldTrees]
    split
    · rename_i hres
      have hs := exists_scalar_of_reserved hr hd.1 hres hf (ha field hf)
      have ho : field.2.objects = [] := by
        rw [Value.objects_eq, List.flatMap_eq_nil_iff]
        intro item hi
        obtain ⟨scalar, hl⟩ := hs item hi
        exact Value.objects_of_scalar hl
      rw [ho]
      rfl
    · rename_i hres
      refine countNodes_trees ((accepts_of_plain hres).mp (ha field hf)) fun item hi child hc => ?_
      exact ih field hf item hi (hd.2 field hf item hi) hc

end TreeSeq.Node
