import TreeSeq.Proofs.Tree.Reads
import TreeSeq.Proofs.Tree.Inverse

/-!
# Trees that were read

Whatever a tree was read from, names are distinct in each of its nodes: fields that share
a name are taken one after the other, and the last stays (`namesDistinct_of_ofJson`,
`namesDistinct_of_load`).
-/

namespace TreeSeq.Node

open Json (Value)

variable {tree child : Node} {value : Value} {bytes : ByteArray}

namespace Draft

/-- The children under a name after fields are taken were there before, or are the trees of
one of the fields. -/
theorem slot_of_foldl_take {fields : List (String × Value)} {draft : Draft} {name : String}
    {children : List Node}
    (h : Fields.get? (fields.foldl take draft).node.slots name = some children) :
    Fields.get? draft.node.slots name = some children ∨
      ∃ field ∈ fields, field.2.trees = children := by
  induction fields generalizing draft with
  | nil => exact .inl h
  | cons field rest ih =>
    obtain ⟨key, value⟩ := field
    rw [List.exists_mem_cons_iff]
    rcases ih h with hbefore | hrest
    · rw [get?_slots_take] at hbefore
      split at hbefore
      · rcases Option.or_eq_some_iff.mp hbefore with hslot | ⟨-, hkept⟩
        · split at hslot
          · cases hslot
          · rw [Value.slot?] at hslot
            split at hslot
            · cases hslot
            · exact .inr (.inl (Option.some.inj hslot))
        · exact .inl hkept
      · exact .inl hbefore
    · exact .inr (.inr hrest)

end Draft

/-- A tree that was read has distinct names, and its children were read. -/
theorem root_of_ofJson (h : ofJson value = .ok tree) :
    tree.NamesDistinct ∧ ∀ child ∈ tree.children, ∃ item, ofJson item = .ok child := by
  cases value with
  | object fields =>
    obtain ⟨nodeType, -, -, rfl⟩ := ofJson_object_eq_ok_iff.mp h
    have hstart : (⟨.ofType nodeType, []⟩ : Draft).node.NamesDistinct :=
      ⟨Fields.distinct_nil, Fields.distinct_nil⟩
    have hfields := (Draft.foldl_take_frame fields hstart).2
    have hnames := (Draft.foldl_emptySlot_frame
      (fields.foldl Draft.take ⟨.ofType nodeType, []⟩).emptySlots hfields).2.2
    refine ⟨hnames, fun child hm => ?_⟩
    obtain ⟨name, children, hc, hm⟩ := hnames.mem_children_iff.mp hm
    rw [Draft.get?_slots_foldl_emptySlot, Option.or_eq_some_iff] at hc
    rcases hc with hc | ⟨-, hempty⟩
    · rcases Draft.slot_of_foldl_take hc with hnone | ⟨field, -, rfl⟩
      · cases hnone
      · obtain ⟨item, -, hi⟩ := mem_trees.mp hm
        exact ⟨item, hi⟩
    · split at hempty
      · cases hempty
        cases hm
      · cases hempty
  | _ =>
    rw [Value.ofJson_of_not_isObject rfl] at h
    cases h

/-- Names are distinct in each node of a tree that was read. -/
theorem namesDistinct_of_ofJson (h : ofJson value = .ok tree) :
    ∀ node ∈ tree.preorder, node.NamesDistinct := by
  induction tree using induction_on_children generalizing value with
  | step tree ih =>
    obtain ⟨hnames, hchildren⟩ := root_of_ofJson h
    refine (forall_preorder tree).mpr ⟨hnames, fun child hm => ?_⟩
    obtain ⟨item, hi⟩ := hchildren child hm
    exact ih child hm hi

/-- A tree file is read as the tree that its text describes. -/
theorem exists_ofJson_of_load (h : load bytes = .ok tree) : ∃ value, ofJson value = .ok tree := by
  rw [load] at h
  split at h
  · cases h
  · split at h
    · cases h
    · split at h
      · cases h
      · cases h
        exact ⟨_, ‹_›⟩

theorem namesDistinct_of_load (h : load bytes = .ok tree) :
    ∀ node ∈ tree.preorder, node.NamesDistinct := by
  obtain ⟨value, hv⟩ := exists_ofJson_of_load h
  exact namesDistinct_of_ofJson hv

end TreeSeq.Node
