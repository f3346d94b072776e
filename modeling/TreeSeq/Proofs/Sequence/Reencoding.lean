import TreeSeq.Proofs.Sequence.Congruence
import TreeSeq.Proofs.Tree.File
import TreeSeq.Proofs.Tree.Reimport

/-!
# Encoding a tree that was written to a file

Reading back what a tree is written as puts its empty slots behind the others, but
the slots that hold a child keep their order: they stand in the object in the order
of the node (`names_slots_sublist_exported`), and are read in the order of the object
(`filledSlots_sublist_of_ofJson`). So the tree that is read is congruent to the tree
that was written (`exists_congruent`), and encoding numbers its nodes the same.
-/

namespace TreeSeq.Node

open Json (Value)

namespace Draft

/-- A field adds a slot of its name, if any, behind the others. -/
theorem names_slots_take (draft : Draft) (field : String × Value) :
    (Fields.names (draft.take field).node.slots).Sublist
      (Fields.names draft.node.slots ++ [field.1]) := by
  obtain ⟨name, value⟩ := field
  by_cases hr : Reserved name
  · rw [(draft.take_of_reserved hr value).2]
    exact List.sublist_append_left _ _
  · rw [take_of_plain draft hr, absorb]
    cases value.slot? with
    | none => exact List.sublist_append_left _ _
    | some children => exact Fields.names_put_sublist _ _ _

theorem names_slots_foldl_take (fields : List (String × Value)) (draft : Draft) :
    (Fields.names (fields.foldl take draft).node.slots).Sublist
      (Fields.names draft.node.slots ++ Fields.names fields) := by
  induction fields generalizing draft with
  | nil => simp
  | cons field rest ih =>
    have h := (ih (draft.take field)).trans ((names_slots_take draft field).append_right _)
    rw [List.append_assoc] at h
    exact h

theorem filledSlots_emptySlot (node : Node) (slot : String) :
    (emptySlot node slot).filledSlots = node.filledSlots := by
  rw [filledSlots, filledSlots, slots_emptySlot]
  split
  · rfl
  · rw [Fields.filled, List.filter_append]
    simp [Fields.filled]

theorem filledSlots_finish (draft : Draft) : draft.finish.filledSlots = draft.node.filledSlots := by
  rw [finish]
  generalize draft.node = node
  induction draft.emptySlots generalizing node with
  | nil => rfl
  | cons name rest ih => rw [List.foldl_cons, ih, filledSlots_emptySlot]

end Draft

theorem filledSlots_sublist (node : Node) : node.filledSlots.Sublist (Fields.names node.slots) :=
  List.filter_sublist.map _

theorem mem_filledSlots {node : Node} (hn : node.NamesDistinct) {name : String} :
    name ∈ node.filledSlots ↔
      ∃ children, Fields.get? node.slots name = some children ∧ children ≠ [] := by
  rw [filledSlots, Fields.names, List.mem_map]
  constructor
  · rintro ⟨⟨slot, children⟩, hm, rfl⟩
    exact ⟨children, (Fields.mem_filled_iff_get? hn.slots).mp hm⟩
  · rintro ⟨children, h⟩
    exact ⟨(name, children), (Fields.mem_filled_iff_get? hn.slots).mpr h, rfl⟩

theorem exists_ne_nil_iff {α β : Type} {r : α → β → Prop} {x : Option (List α)}
    {y : Option (List β)} (h : Option.Rel (List.Forall₂ r) x y) :
    (∃ a, x = some a ∧ a ≠ []) ↔ ∃ b, y = some b ∧ b ≠ [] := by
  cases h with
  | none => simp
  | some h => cases h <;> simp

/-- Slots are read in the order of the fields. -/
theorem filledSlots_sublist_of_ofJson {fields : List (String × Value)} {tree : Node}
    (h : ofJson (.object fields) = .ok tree) : tree.filledSlots.Sublist (Fields.names fields) := by
  obtain ⟨nodeType, -, -, rfl⟩ := ofJson_object_eq_ok_iff.mp h
  rw [Draft.filledSlots_finish]
  exact (filledSlots_sublist _).trans (Draft.names_slots_foldl_take fields _)

section

variable {node again : Node}

/-- Slots are written in order. -/
theorem Portable.names_slots_sublist_exported (h : node.Portable) (hn : node.NamesDistinct) :
    (Fields.names node.slots).Sublist (Fields.names node.exported) := by
  have hd : Fields.Distinct
      (node.slots.map fun field => (field.1, node.slotJson field.1 field.2)) := hn.slots.map _
  have hnames : Fields.names node.slots =
      Fields.names (node.slots.map fun field => (field.1, node.slotJson field.1 field.2)) := by
    rw [Fields.names, Fields.names, List.map_map]
    rfl
  rw [exported, slotsJson_eq, jsonFields, hnames]
  simp only [List.append_assoc]
  rw [← List.cons_append, ← List.append_assoc]
  refine Fields.names_sublist_ofPairs hd ?_ _
  -- neither the type nor an attribute in front has the name of a slot
  rw [← hnames, Fields.names_cons, List.forall_mem_cons]
  refine ⟨h.nodeTypeSlot, fun name hm hs => ?_⟩
  obtain ⟨field, hf, rfl⟩ := List.mem_map.mp hm
  obtain ⟨attr, ha, rfl⟩ := List.mem_map.mp hf
  have hhas := (List.mem_filter.mp ha).2
  rw [Bool.not_eq_true', ← Bool.not_eq_true, Fields.has_iff] at hhas
  exact hhas hs

/-- A portable node is read back with the slots that hold a child in order. -/
theorem Portable.filledSlots_of_ofJson (h : node.Portable) (hn : node.NamesDistinct)
    (ha : again.NamesDistinct) (hj : ofJson (.object node.exported) = .ok again)
    {r : Node → Node → Prop}
    (hs : ∀ name, Option.Rel (List.Forall₂ r) (Fields.get? again.slots name)
      (Fields.get? node.slots name)) : again.filledSlots = node.filledSlots := by
  have hsub := (filledSlots_sublist node).trans (h.names_slots_sublist_exported hn)
  have hsub' := filledSlots_sublist_of_ofJson hj
  refine ((node.distinct_exported).perm_iff_eq_of_sublist hsub' hsub).mp ?_
  refine (List.perm_ext_iff_of_nodup (hsub'.nodup node.distinct_exported)
    (hsub.nodup node.distinct_exported)).mpr fun name => ?_
  rw [mem_filledSlots ha, mem_filledSlots hn]
  exact exists_ne_nil_iff (hs name)

/-- A portable node is read back congruent to itself if its children are. -/
theorem Portable.congruent_of_ofJson (h : node.Portable) (hn : node.NamesDistinct)
    (hj : ofJson (.object node.exported) = .ok again)
    (hc : ∀ child ∈ node.children,
      ∃ again, ofJson child.toJson = .ok again ∧ again.Congruent child) : again.Congruent node := by
  obtain ⟨hr, ha⟩ := reads_of_ofJson node.distinct_exported hj
  have hsame := h.same_of_reads hn hr ha fun child hm => (hc child hm).imp fun _ h => ⟨h.1, h.2.1⟩
  obtain ⟨htype, hspan, hscalars, -⟩ := (same_iff ha hn).mp hsame
  have hslots := h.get?_slots_of_reads hn hr hc
  exact (congruent_iff ha hn).mpr
    ⟨htype, hspan, hscalars, hslots, h.filledSlots_of_ofJson hn ha hj hslots⟩

end

/-- A tree of portable nodes is read back congruent to itself. -/
theorem exists_congruent (tree : Node)
    (h : ∀ node ∈ tree.preorder, node.NamesDistinct ∧ node.Portable) :
    ∃ again, ofJson tree.toJson = .ok again ∧ again.Congruent tree ∧
      ∀ node ∈ again.preorder, node.NamesDistinct ∧ node.nodeType ≠ "" := by
  induction tree using induction_on_children with
  | step tree ih =>
    rw [forall_preorder] at h
    obtain ⟨⟨hn, hp⟩, hbelow⟩ := h
    have hchildren : ∀ child ∈ tree.children, ∃ again, ofJson child.toJson = .ok again ∧
        again.Congruent child ∧ ∀ node ∈ again.preorder, node.NamesDistinct ∧ node.nodeType ≠ "" :=
      fun child hm => ih child hm (hbelow child hm)
    obtain ⟨again, hj⟩ := hp.exists_ofJson hn fun child hm =>
      (hchildren child hm).imp fun _ h => h.1
    rw [toJson_eq] at hj ⊢
    refine ⟨again, hj, hp.congruent_of_ofJson hn hj fun child hm =>
      (hchildren child hm).imp fun _ h => ⟨h.1, h.2.1⟩, ?_⟩
    obtain ⟨hr, ha⟩ := reads_of_ofJson tree.distinct_exported hj
    rw [forall_preorder]
    refine ⟨⟨ha, hr.typed⟩, fun child hm => ?_⟩
    -- each child that is read comes from a child that was written
    obtain ⟨slot, children, hs, hm⟩ := ha.mem_children_iff.mp hm
    have hslots := hp.get?_slots_of_reads hn hr hchildren slot
    rw [hs] at hslots
    obtain ⟨others, ho⟩ : ∃ others, Fields.get? tree.slots slot = some others := by
      revert hslots
      cases Fields.get? tree.slots slot <;> simp
    rw [ho, Option.rel_some_some] at hslots
    obtain ⟨-, -, -, hwf⟩ := exists_of_forall₂ hslots.flip child hm
    exact hwf

/-- Writing a tree to a file and loading it again does not change how it is
encoded. -/
theorem encode_load_save (tree : Node) (base : Nat)
    (h : ∀ node ∈ tree.preorder, node.NamesDistinct ∧ node.Portable) :
    ∃ again s t, load tree.save.toUTF8 = .ok again ∧ again.encode base = .ok s ∧
      tree.encode base = .ok t ∧ Sequence.same s t := by
  obtain ⟨again, hj, hc, hwf⟩ := exists_congruent tree h
  have hload : load tree.save.toUTF8 = .ok again := by
    rw [load_save, hj]
    rfl
  obtain ⟨s, hs, -, -⟩ := encode_eq_ok (fun node hm => (hwf node hm).2) base
  obtain ⟨t, ht, -, -⟩ := encode_eq_ok (fun node hm => (h node hm).2.typed) base
  exact ⟨again, s, t, hload, hs, ht, hc.same_encode (fun node hm => (hwf node hm).1)
    (fun node hm => (h node hm).1) hs ht⟩

/-- A loop whose first slot is empty, and is read back behind the other. -/
theorem encode_load_save_loop :
    (∀ node ∈ (((((ofType "For").withSlot "init" []).withScalar "body" (.many [.int 1])).withSlot
      "body" [ofType "Break"]).withSpan "1:2").preorder, node.NamesDistinct ∧ node.Portable) ∧
    ∃ again s t,
      load (((((ofType "For").withSlot "init" []).withScalar "body" (.many [.int 1])).withSlot
        "body" [ofType "Break"]).withSpan "1:2").save.toUTF8 = .ok again ∧
      again.encode 3 = .ok s ∧
      (((((ofType "For").withSlot "init" []).withScalar "body" (.many [.int 1])).withSlot
        "body" [ofType "Break"]).withSpan "1:2").encode 3 = .ok t ∧ Sequence.same s t :=
  ⟨by decide, encode_load_save _ 3 (by decide)⟩

end TreeSeq.Node
