import TreeSeq.Proofs.Sequence.Forest
import TreeSeq.Proofs.Sequence.Walk

/-!
# Decoding an encoded tree

Encoding numbers the nodes of a tree consecutively in pre-order, so its records
are what a reference to the first index unfolds with, and decoding finds the
tree again.

* `Node.encode_eq_ok`: encoding a tree whose nodes all have types gives records
  with consecutive indices, into which the base unfolds;
* `Node.decode_encode`: decoding them gives the tree back, with every slot and
  child in its place.
-/

namespace TreeSeq.Node

open Sequence (Unfolds)

/-- Encoding a tree in which every node has a type gives records with
consecutive indices, and the first index unfolds into the tree. -/
theorem encode_eq_ok {tree : Node} (h : ∀ node ∈ tree.preorder, node.nodeType ≠ "") (base : Nat) :
    ∃ sequence, tree.encode base = .ok sequence ∧ Unfolds [base] [tree] sequence ∧
      sequence.map (·.index) = List.range' base tree.count :=
  ⟨_, encode_eq_records h base, unfolds_records tree base, index_records tree base⟩

/-- Encoding a tree in which every node has a type succeeds, from any base on,
and decoding the records gives the same tree back. -/
theorem decode_encode (tree : Node) (base : Nat) (h : ∀ node ∈ tree.preorder, node.nodeType ≠ "") :
    ∃ sequence, tree.encode base = .ok sequence ∧ Sequence.decode sequence = .ok tree := by
  obtain ⟨sequence, he, hu, hi⟩ := encode_eq_ok h base
  refine ⟨sequence, he, Sequence.decode_of_unfolds hu (by rw [hi]; exact List.nodup_range') fun i hm => ?_⟩
  rw [hi, List.mem_range'_1] at hm
  exact hm.1

/-- A tree with an empty slot, and with two nodes in one slot of which the first
has a child. -/
theorem decode_encode_loop :
    (∀ node ∈ (((ofType "For").withSlot "init" []).withSlot "body"
        [(ofType "If").withSlot "cond" [ofType "ID"], (ofType "Break").withSpan "a.c:3"]).preorder,
      node.nodeType ≠ "") ∧
    ∃ sequence, (((ofType "For").withSlot "init" []).withSlot "body"
        [(ofType "If").withSlot "cond" [ofType "ID"],
          (ofType "Break").withSpan "a.c:3"]).encode 7 = .ok sequence ∧
      Sequence.decode sequence = .ok (((ofType "For").withSlot "init" []).withSlot "body"
        [(ofType "If").withSlot "cond" [ofType "ID"], (ofType "Break").withSpan "a.c:3"]) :=
  ⟨by decide, decode_encode _ 7 (by decide)⟩

end TreeSeq.Node
