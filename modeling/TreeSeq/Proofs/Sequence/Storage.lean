import TreeSeq.Batch.Conversion
import TreeSeq.Proofs.Sequence.File
import TreeSeq.Proofs.Sequence.RoundTrip
import TreeSeq.Proofs.Tree.Loading

/-!
# Trees kept as sequence files

The records of a tree can be stored if names are distinct in each of its nodes and the
nodes can be numbered with 64 bits (`storable_of_encode`), and names are distinct in a tree
that was read. So a tree file that is encoded is decoded into the same tree again
(`Conversion.decode_of_encode`).
-/

namespace TreeSeq

/-- A record has the attributes of the node that it is unfolded into, and slots of the
names. -/
theorem Sequence.Unfolds.exists_node {refs : List Nat} {nodes : List Node} {records : List Record}
    {record : Record} (h : Unfolds refs nodes records) (hr : record ∈ records) :
    ∃ node ∈ nodes.flatMap Node.preorder, node.scalars = record.scalars ∧
      Fields.names node.slots = Fields.names record.slotRefs := by
  have hbuilds := h.builds_preorder (List.Subset.refl records)
  obtain ⟨node, hn, children, below, hb, -, rfl⟩ := exists_of_forall₂ hbuilds.flip record hr
  refine ⟨record.node children, hn, rfl, ?_⟩
  have hsizes := congrArg Fields.names (Record.sizes_deal hb.length_eq)
  rwa [Fields.names_sizes, Fields.names_sizes] at hsizes

namespace Node

variable {tree : Node} {base : Nat} {sequence : Sequence}

/-- The records of a tree can be stored. -/
theorem storable_of_encode (h : tree.encode base = .ok sequence)
    (hn : ∀ node ∈ tree.preorder, node.NamesDistinct) (hc : base + tree.count ≤ UInt64.size) :
    ∀ record ∈ sequence, record.Storable := by
  intro record hr
  obtain ⟨hu, hi⟩ := unfolds_of_encode h
  obtain ⟨node, hnode, hscalars, hslots⟩ := hu.exists_node hr
  rw [List.flatMap_singleton] at hnode
  have hindex : ∀ i ∈ sequence.map (·.index), i < UInt64.size := by
    intro i hm
    rw [hi, List.mem_range'_1] at hm
    omega
  constructor
  case index => exact hindex _ (List.mem_map_of_mem hr)
  case scalars => exact hscalars ▸ (hn node hnode).scalars
  case slots =>
    rw [Fields.Distinct, ← hslots]
    exact (hn node hnode).slots
  case children => exact fun i hm => hindex i (hu.children_subset hr hm)

/-- A sequence file that holds an encoded tree is decoded into the tree. -/
theorem decode_of_encode (h : tree.encode base = .ok sequence)
    (hn : ∀ node ∈ tree.preorder, node.NamesDistinct) (hc : base + tree.count ≤ UInt64.size) :
    Sequence.load sequence.save.toUTF8 = .ok sequence ∧ sequence.decode = .ok tree := by
  have hreads : Json.Reader.Reads (Json.Reader.list Record.reader)
      ((Sequence.toJson sequence).symbols 0) sequence := by
    refine Json.Reader.reads_array Record.toJson fun record hr => ?_
    exact Record.reads_toJson (storable_of_encode h hn hc record hr) 1
  obtain ⟨hu, hi⟩ := unfolds_of_encode h
  constructor
  · rw [Sequence.load, Document.ofBytes_toUTF8, Sequence.save, Json.Value.ofText_pretty,
      hreads.document]
  · refine Sequence.decode_of_unfolds hu (hi ▸ List.nodup_range') fun i hm => ?_
    rw [hi, List.mem_range'_1] at hm
    exact hm.1

end Node

namespace Batch.Conversion

/-- What is encoded from a tree file is decoded into the tree of the file. -/
theorem decode_of_encode {bytes : ByteArray} {product : Product} (h : encode bytes = .ok product)
    (hc : ∀ tree, Node.load bytes = .ok tree → tree.count ≤ UInt64.size) :
    ∃ tree, Node.load bytes = .ok tree ∧
      decode product.text.toUTF8 = .ok ⟨tree.save, tree.count⟩ := by
  obtain ⟨tree, hl, h⟩ := Node.bind_eq_ok_iff.mp h
  obtain ⟨sequence, he, h⟩ := Node.bind_eq_ok_iff.mp h
  cases h
  obtain ⟨hload, hdecode⟩ := Node.decode_of_encode he (Node.namesDistinct_of_load hl)
    (by rw [Nat.zero_add]; exact hc tree hl)
  refine ⟨tree, hl, Node.bind_eq_ok_iff.mpr ⟨sequence, hload, ?_⟩⟩
  exact Node.bind_eq_ok_iff.mpr ⟨tree, hdecode, rfl⟩

end Batch.Conversion

end TreeSeq
