import TreeSeq.Proofs.Sequence.RoundTrip
import TreeSeq.Proofs.Tree.SlotOrder

/-!
# When two trees are encoded alike

The records of an encoded tree are numbered in pre-order, so the references of
each ascend. With ascending references the order of the slots that hold one can be
read off the references, and no other order shows.

* `Record.same_iff`, `Record.congruent_node_iff`: records are the same, and their
  nodes are congruent, under conditions that differ in the numbers only;
* `Unfolds.congruent_of_same`, `Unfolds.same_of_congruent`: one from the other for
  all records of a tree;
* `Node.same_encode_iff`: two trees are encoded alike just if they are the same,
  with slots that hold a child in the same order at every place.
-/

namespace TreeSeq

namespace Record

/-- No name stands twice in the record, and its references ascend. -/
structure Ordered (record : Record) : Prop where
  scalars : Fields.Distinct record.scalars
  slotRefs : Fields.Distinct record.slotRefs
  ascending : record.children.Pairwise (· < ·)

/-- The records agree in all but their numbers: attributes and slots name by name,
and the slots that hold a reference in order. -/
structure Alike (a b : Record) : Prop where
  nodeType : a.nodeType = b.nodeType
  span : a.span = b.span
  scalars : ∀ name, Fields.get? a.scalars name = Fields.get? b.scalars name
  slots : ∀ name, name ∈ Fields.names a.slotRefs ↔ name ∈ Fields.names b.slotRefs
  sizes : Fields.sizes (Fields.filled a.slotRefs) = Fields.sizes (Fields.filled b.slotRefs)

theorem names_deal {slots : Fields (List Nat)} {nodes : List Node}
    (h : (slots.flatMap (·.2)).length = nodes.length) :
    Fields.names (deal slots nodes) = Fields.names slots := by
  rw [← Fields.names_sizes, sizes_deal h, Fields.names_sizes]

theorem Ordered.namesDistinct_node {record : Record} (h : record.Ordered) {children : List Node}
    (hl : record.children.length = children.length) : (record.node children).NamesDistinct := by
  refine ⟨h.scalars, ?_⟩
  have hn := names_deal hl
  rw [Fields.Distinct, node, hn]
  exact h.slotRefs

/-- Records are the same if they are alike and have the same numbers. -/
theorem same_iff {a b : Record} (ha : a.Ordered) (hb : b.Ordered) :
    a.same b ↔ a.index = b.index ∧ a.children = b.children ∧ a.Alike b := by
  have hrefs : (∀ name, Fields.get? a.slotRefs name = Fields.get? b.slotRefs name) ↔
      (∀ name, name ∈ Fields.names a.slotRefs ↔ name ∈ Fields.names b.slotRefs) ∧
      Fields.sizes (Fields.filled a.slotRefs) = Fields.sizes (Fields.filled b.slotRefs) ∧
      a.children = b.children := by
    constructor
    · intro h
      have hf := Fields.filled_eq_of_ascending ha.slotRefs hb.slotRefs ha.ascending hb.ascending h
      refine ⟨fun name => ?_, congrArg _ hf, ?_⟩
      · rw [Fields.mem_names_iff, Fields.mem_names_iff, h name]
      · rw [children, children, ← Fields.flatMap_filled, hf, Fields.flatMap_filled]
    · rintro ⟨hn, hz, hc⟩ name
      have hf : Fields.filled a.slotRefs = Fields.filled b.slotRefs :=
        Fields.eq_of_sizes hz (by rw [Fields.flatMap_filled, Fields.flatMap_filled]; exact hc)
      have hr := ((Fields.slotwise_filled_iff ha.slotRefs hb.slotRefs).mp
        ⟨hn, Fields.slotwise_eq_iff.mpr hf⟩).1 name
      rw [List.forall₂_eq_eq_eq] at hr
      cases hr' : Fields.get? a.slotRefs name <;> cases ho : Fields.get? b.slotRefs name <;>
        simp_all
  simp only [same, Bool.and_eq_true, beq_iff_eq, Fields.same_iff ha.scalars hb.scalars,
    Fields.same_iff ha.slotRefs hb.slotRefs, hrefs]
  constructor
  · rintro ⟨⟨⟨⟨hi, ht⟩, hs⟩, hn, hz, hc⟩, hp⟩
    exact ⟨hi, hc, ht, hp, hs, hn, hz⟩
  · rintro ⟨hi, hc, ht, hp, hs, hn, hz⟩
    exact ⟨⟨⟨⟨hi, ht⟩, hs⟩, hn, hz, hc⟩, hp⟩

/-- Nodes are congruent if their records are alike and their children are
congruent. -/
theorem congruent_node_iff {a b : Record} (ha : a.Ordered) (hb : b.Ordered)
    {nodes others : List Node} (hn : a.children.length = nodes.length)
    (ho : b.children.length = others.length) :
    (a.node nodes).Congruent (b.node others) ↔
      a.Alike b ∧ List.Forall₂ Node.Congruent nodes others := by
  have hda := ha.namesDistinct_node hn
  have hdb := hb.namesDistinct_node ho
  rw [Node.congruent_iff hda hdb, Node.filledSlots, Node.filledSlots,
    ← Fields.slotwise_filled_iff hda.slots hdb.slots, Fields.slotwise_iff, Fields.flatMap_filled,
    Fields.flatMap_filled, Fields.sizes_filled, Fields.sizes_filled]
  simp only [node]
  rw [names_deal hn, names_deal ho, sizes_deal hn, sizes_deal ho, flatMap_deal _ hn,
    flatMap_deal _ ho, ← Fields.sizes_filled, ← Fields.sizes_filled]
  constructor
  · rintro ⟨ht, hp, hs, hnames, hz, hc⟩
    exact ⟨⟨ht, hp, hs, hnames, hz⟩, hc⟩
  · rintro ⟨⟨ht, hp, hs, hnames, hz⟩, hc⟩
    exact ⟨ht, hp, hs, hnames, hz, hc⟩

end Record

namespace Sequence.Unfolds

variable {refs refs' : List Nat} {nodes nodes' : List Node} {records records' : List Record}

/-- The references come in the order of the records. -/
theorem refs_sublist (h : Unfolds refs nodes records) :
    refs.Sublist (records.map (·.index)) := by
  induction h with
  | nil => exact .slnil
  | @cons record children nodes below after refs _ _ _ iha =>
    rw [List.map_cons, List.map_append]
    exact (iha.trans (List.sublist_append_right _ _)).cons_cons _

/-- The records of trees are ordered if their indices ascend. -/
theorem ordered (h : Unfolds refs nodes records)
    (hn : ∀ node ∈ nodes.flatMap Node.preorder, node.NamesDistinct)
    (ha : (records.map (·.index)).Pairwise (· < ·)) : ∀ record ∈ records, record.Ordered := by
  induction h with
  | nil => simp
  | @cons record children nodes below after refs hb _ ihb iha =>
    rw [List.flatMap_cons, Node.preorder_eq, Record.children_node record hb.length_eq,
      List.cons_append, List.forall_mem_cons, List.forall_mem_append] at hn
    obtain ⟨hrecord, hbelow, hafter⟩ := hn
    rw [List.map_cons, List.map_append, List.pairwise_cons, List.pairwise_append] at ha
    obtain ⟨-, hab, haa, -⟩ := ha
    rw [List.forall_mem_cons, List.forall_mem_append]
    refine ⟨⟨hrecord.scalars, ?_, hab.sublist hb.refs_sublist⟩, ihb hbelow hab, iha hafter haa⟩
    rw [Fields.Distinct, ← Record.names_deal hb.length_eq]
    exact hrecord.slots

/-- Records that are the same unfold into congruent trees. Whatever comes after them
is the same too. -/
theorem congruent_of_same (h : Unfolds refs nodes records) (h' : Unfolds refs nodes' records')
    (ho : ∀ record ∈ records, record.Ordered) (ho' : ∀ record ∈ records', record.Ordered)
    {rest rest' : List Record}
    (hs : List.Forall₂ (fun a b : Record => a.same b) (records ++ rest) (records' ++ rest')) :
    List.Forall₂ Node.Congruent nodes nodes' ∧
      List.Forall₂ (fun a b : Record => a.same b) rest rest' := by
  induction h generalizing nodes' records' rest rest' with
  | nil =>
    cases h'
    exact ⟨.nil, hs⟩
  | @cons record children nodes below after refs hb _ ihb iha =>
    obtain ⟨record', children', nodes', below', after', -, rfl, rfl, hb', ha'⟩ := h'.uncons_ref
    rw [List.forall_mem_cons, List.forall_mem_append] at ho ho'
    obtain ⟨hor, hob, hoa⟩ := ho
    obtain ⟨hor', hob', hoa'⟩ := ho'
    rw [List.cons_append, List.cons_append, List.forall₂_cons, List.append_assoc,
      List.append_assoc] at hs
    obtain ⟨hr, hs⟩ := hs
    obtain ⟨-, hc, halike⟩ := (Record.same_iff hor hor').mp hr
    -- the same references unfold below the two records
    rw [← hc] at hb'
    obtain ⟨hchildren, hs⟩ := ihb hb' hob hob' hs
    obtain ⟨hnodes, hs⟩ := iha ha' hoa hoa' hs
    refine ⟨.cons ?_ hnodes, hs⟩
    exact (Record.congruent_node_iff hor hor' hb.length_eq (hc ▸ hb'.length_eq)).mpr
      ⟨halike, hchildren⟩

/-- Congruent trees unfold from the same records, if these are numbered consecutively
from the same index on. So is whatever comes after them. -/
theorem same_of_congruent (h : Unfolds refs nodes records) (h' : Unfolds refs' nodes' records')
    (ho : ∀ record ∈ records, record.Ordered) (ho' : ∀ record ∈ records', record.Ordered)
    (hc : List.Forall₂ Node.Congruent nodes nodes') {rest rest' : List Record} {i n n' : Nat}
    (hi : (records ++ rest).map (·.index) = List.range' i n)
    (hi' : (records' ++ rest').map (·.index) = List.range' i n') :
    refs = refs' ∧ List.Forall₂ (fun a b : Record => a.same b) records records' ∧
      ∃ j m m', rest.map (·.index) = List.range' j m ∧ rest'.map (·.index) = List.range' j m' := by
  induction h generalizing refs' nodes' records' rest rest' i n n' with
  | nil =>
    cases hc
    cases h'
    exact ⟨rfl, .nil, i, n, n', hi, hi'⟩
  | @cons record children nodes below after refs hb _ ihb iha =>
    obtain _ | ⟨hnode, hnodes⟩ := hc
    obtain ⟨record', refs', children', below', after', rfl, rfl, rfl, hb', ha'⟩ := h'.uncons_node
    rw [List.forall_mem_cons, List.forall_mem_append] at ho ho'
    obtain ⟨hor, hob, hoa⟩ := ho
    obtain ⟨hor', hob', hoa'⟩ := ho'
    obtain ⟨halike, hchildren⟩ :=
      (Record.congruent_node_iff hor hor' hb.length_eq hb'.length_eq).mp hnode
    rw [List.cons_append, List.map_cons, List.append_assoc, eq_comm,
      List.range'_eq_cons_iff] at hi hi'
    obtain ⟨rfl, -, hi⟩ := hi
    obtain ⟨hindex, -, hi'⟩ := hi'
    rw [← hindex] at hi'
    obtain ⟨hrefs, hbelow, j, m, m', hj, hj'⟩ := ihb hb' hob hob' hchildren hi hi'
    obtain ⟨rfl, hafter, hrest⟩ := iha ha' hoa hoa' hnodes hj hj'
    have hrecord := (Record.same_iff hor hor').mpr ⟨hindex, hrefs, halike⟩
    exact ⟨by rw [hindex], .cons hrecord (List.rel_append hbelow hafter), hrest⟩

end Sequence.Unfolds

theorem Sequence.same_iff {a b : Sequence} :
    Sequence.same a b ↔ List.Forall₂ (fun a b : Record => a.same b) a b := by
  induction a generalizing b with
  | nil => cases b <;> simp [Sequence.same]
  | cons record rest ih => cases b <;> simp [Sequence.same, ih]

namespace Node

open Sequence (Unfolds)

/-- The records of an encoded tree are ordered. -/
theorem ordered_of_encode {tree : Node} {base : Nat} {sequence : Sequence}
    (h : tree.encode base = .ok sequence) (hn : ∀ node ∈ tree.preorder, node.NamesDistinct) :
    ∀ record ∈ sequence, record.Ordered := by
  obtain ⟨hu, hi⟩ := unfolds_of_encode h
  refine hu.ordered ?_ (hi ▸ List.pairwise_lt_range')
  rwa [List.flatMap_cons, List.flatMap_nil, List.append_nil]

/-- Congruent trees are encoded alike. -/
theorem Congruent.same_encode {a b : Node} (hc : a.Congruent b)
    (ha : ∀ node ∈ a.preorder, node.NamesDistinct) (hb : ∀ node ∈ b.preorder, node.NamesDistinct)
    {base : Nat} {s t : Sequence} (hs : a.encode base = .ok s) (ht : b.encode base = .ok t) :
    Sequence.same s t := by
  obtain ⟨hus, his⟩ := unfolds_of_encode hs
  obtain ⟨hut, hit⟩ := unfolds_of_encode ht
  have hi : (s ++ [] : List Record).map (·.index) = List.range' base a.count := by
    rw [List.append_nil, his]
  have hi' : (t ++ [] : List Record).map (·.index) = List.range' base b.count := by
    rw [List.append_nil, hit]
  obtain ⟨-, h, -⟩ := hus.same_of_congruent hut (ordered_of_encode hs ha) (ordered_of_encode ht hb)
    (.cons hc .nil) hi hi'
  exact Sequence.same_iff.mpr h

/-- Trees that are encoded alike are congruent. -/
theorem congruent_of_same_encode {a b : Node} (ha : ∀ node ∈ a.preorder, node.NamesDistinct)
    (hb : ∀ node ∈ b.preorder, node.NamesDistinct) {base : Nat} {s t : Sequence}
    (hs : a.encode base = .ok s) (ht : b.encode base = .ok t) (h : Sequence.same s t) :
    a.Congruent b := by
  have hall : List.Forall₂ (fun a b : Record => a.same b) (s ++ []) (t ++ []) := by
    rw [List.append_nil, List.append_nil]
    exact Sequence.same_iff.mp h
  obtain ⟨hc, -⟩ := (unfolds_of_encode hs).1.congruent_of_same (unfolds_of_encode ht).1
    (ordered_of_encode hs ha) (ordered_of_encode ht hb) hall
  exact (List.forall₂_cons.mp hc).1

/-- Two trees in which every node has a type are encoded alike, the order of names
in a record aside, just if they are the same and the slots that hold a child stand in
the same order at every place. -/
theorem same_encode_iff (a b : Node) (base : Nat)
    (ha : ∀ node ∈ a.preorder, node.NamesDistinct ∧ node.nodeType ≠ "")
    (hb : ∀ node ∈ b.preorder, node.NamesDistinct ∧ node.nodeType ≠ "") :
    ∃ s t, a.encode base = .ok s ∧ b.encode base = .ok t ∧
      (Sequence.same s t ↔ a.same b ∧ ∀ path x y, a.at? path = some x → b.at? path = some y →
        x.filledSlots = y.filledSlots) := by
  have hda : ∀ node ∈ a.preorder, node.NamesDistinct := fun node hm => (ha node hm).1
  have hdb : ∀ node ∈ b.preorder, node.NamesDistinct := fun node hm => (hb node hm).1
  obtain ⟨s, hs, -, -⟩ := encode_eq_ok (fun node hm => (ha node hm).2) base
  obtain ⟨t, ht, -, -⟩ := encode_eq_ok (fun node hm => (hb node hm).2) base
  exact ⟨s, t, hs, ht, congruent_of_same_encode hda hdb hs ht,
    fun hc => Congruent.same_encode hc hda hdb hs ht⟩

/-- Two slots, only one of which holds a child, in either order. -/
theorem same_encode_iff_loop :
    (∀ node ∈ ((((ofType "For").withSlot "init" []).withSlot "body" [ofType "Break"])).preorder,
      node.NamesDistinct ∧ node.nodeType ≠ "") ∧
    (∀ node ∈ ((((ofType "For").withSlot "body" [ofType "Break"]).withSlot "init" [])).preorder,
      node.NamesDistinct ∧ node.nodeType ≠ "") ∧
    ∃ s t, (((ofType "For").withSlot "init" []).withSlot "body" [ofType "Break"]).encode 4 = .ok s ∧
      (((ofType "For").withSlot "body" [ofType "Break"]).withSlot "init" []).encode 4 = .ok t ∧
      (Sequence.same s t ↔
        (((ofType "For").withSlot "init" []).withSlot "body" [ofType "Break"]).same
          (((ofType "For").withSlot "body" [ofType "Break"]).withSlot "init" []) ∧
        ∀ path x y,
          (((ofType "For").withSlot "init" []).withSlot "body" [ofType "Break"]).at? path = some x →
          (((ofType "For").withSlot "body" [ofType "Break"]).withSlot "init" []).at? path = some y →
          x.filledSlots = y.filledSlots) :=
  ⟨by decide, by decide, same_encode_iff _ _ 4 (by decide) (by decide)⟩

end Node

end TreeSeq
