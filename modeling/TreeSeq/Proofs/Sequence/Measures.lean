import TreeSeq.Proofs.Sequence.Preorder
import TreeSeq.Proofs.Sequence.Stats
import Mathlib.Data.String.Basic

/-!
# Measures of an encoded tree

The measures of the records of a tree are those of the tree, whatever the order of the
records is. What is counted does not depend on the order in which records are visited
(`Counted`); the depth does, and is that of the forest of the records, which is the tree.

* `nodeTypes_measure`, `ordered_nodeTypes`: the types of any sequence, and their order;
* `leaves_measure`, `slotRefs_measure`: the other counts of any sequence;
* `maxDepth_of_perm_records`: the depth of the records of a tree;
* `describes_of_encode`: all measures of the records of a tree.
-/

namespace TreeSeq.Stats

variable {sequence : Sequence} {visited ordered : List Record} {tally : Tally} {tree : Node}
  {base : Nat}

/-! ## How often names occur -/

/-- Each of the names is listed once, with the number of times that it occurs. -/
structure Counts (names : List String) (counts : Fields Nat) : Prop where
  distinct : Fields.Distinct counts
  get? : ∀ name, Fields.get? counts name = if name ∈ names then some (names.count name) else none

theorem counts_nil : Counts [] [] :=
  ⟨Fields.distinct_nil, fun _ => rfl⟩

namespace Counts

variable {names : List String} {counts : Fields Nat}

theorem getD (h : Counts names counts) (name : String) :
    (Fields.get? counts name).getD 0 = names.count name := by
  rw [h.get?]
  split
  · rfl
  · rename_i hn
    exact (List.count_eq_zero.mpr hn).symm

/-- One more occurrence of a name is counted. -/
theorem concat (h : Counts names counts) (name : String) :
    Counts (names ++ [name])
      (Fields.put counts name ((Fields.get? counts name).getD 0 + 1)) := by
  refine ⟨h.distinct.put _ _, fun key => ?_⟩
  rw [Fields.get?_put, h.getD, h.get?, List.count_append, List.count_singleton]
  by_cases hk : key = name
  · simp [hk]
  · simp [hk, Ne.symm hk]

theorem perm {others : List String} (h : Counts names counts) (hp : names.Perm others) :
    Counts others counts :=
  ⟨h.distinct, fun name => by simp only [h.get?, hp.mem_iff, hp.count_eq]⟩

theorem of_perm {other : Fields Nat} (h : Counts names counts) (hp : counts.Perm other) :
    Counts names other :=
  ⟨h.distinct.perm hp, fun name => by rw [← h.get?, Fields.get?_of_perm h.distinct hp]⟩

end Counts

theorem before_trans (a b c : String × Nat) (hab : before a b) (hbc : before b c) : before a c := by
  simp only [before, Bool.or_eq_true, Bool.and_eq_true, decide_eq_true_eq, beq_iff_eq] at *
  obtain hab | ⟨hab, hle⟩ := hab <;> obtain hbc | ⟨hbc, hle'⟩ := hbc
  · omega
  · omega
  · omega
  · exact .inr ⟨hab.trans hbc, le_trans hle hle'⟩

theorem before_total (a b : String × Nat) : before a b || before b a := by
  simp only [before, Bool.or_eq_true, Bool.and_eq_true, decide_eq_true_eq, beq_iff_eq]
  obtain h | h | h := Nat.lt_trichotomy a.2 b.2
  · exact .inr (.inl h)
  · exact (le_total a.1 b.1).imp (fun hle => .inr ⟨h, hle⟩) fun hle => .inr ⟨h.symm, hle⟩
  · exact .inl (.inl h)

/-- Sorted counts descend, and equal ones are in ascending order of their names. -/
theorem ordered_mergeSort {counts : Fields Nat} (hd : Fields.Distinct counts) :
    (counts.mergeSort before).Pairwise fun a b => b.2 < a.2 ∨ a.2 = b.2 ∧ a.1 < b.1 := by
  have hb := List.pairwise_mergeSort before_trans before_total counts
  have hn : (counts.mergeSort before).Pairwise (·.1 ≠ ·.1) :=
    List.pairwise_map.mp (hd.perm (List.mergeSort_perm _ _).symm)
  refine (hb.and hn).imp fun {a b} h => ?_
  obtain ⟨hab, hne⟩ := h
  simp only [before, Bool.or_eq_true, Bool.and_eq_true, decide_eq_true_eq, beq_iff_eq] at hab
  exact hab.imp_right fun ⟨he, hle⟩ => ⟨he, lt_of_le_of_ne hle hne⟩

/-! ## Counting records -/

/-- What the counts are when these records have been visited, whatever their indices. -/
structure Counted (visited : List Record) (tally : Tally) : Prop where
  leaves : tally.leaves = visited.countP (·.children.isEmpty)
  slotRefs : tally.slotRefs = (visited.flatMap Record.children).length
  nodeTypes : Counts (visited.map (·.nodeType)) tally.nodeTypes

theorem counted_empty : Counted [] .empty :=
  ⟨rfl, rfl, counts_nil⟩

theorem Counted.add (h : Counted visited tally) (record : Record) :
    Counted (visited ++ [record]) (tally.add record) where
  leaves := by
    rw [List.countP_append, List.countP_singleton, ← h.leaves]
    show (if record.children.isEmpty then tally.leaves + 1 else tally.leaves) = _
    split <;> rfl
  slotRefs := by
    rw [Tally.add, List.flatMap_append, List.length_append, ← h.slotRefs]
    simp
  nodeTypes := by
    rw [List.map_append]
    exact h.nodeTypes.concat record.nodeType

theorem Counted.foldl (h : Counted visited tally) :
    Counted (visited ++ ordered) (ordered.foldl Tally.add tally) := by
  induction ordered generalizing visited tally with
  | nil => rwa [List.append_nil]
  | cons record rest ih =>
    rw [List.append_cons, List.foldl_cons]
    exact ih (h.add record)

/-- Any sequence is visited as a whole. -/
theorem exists_counted (sequence : Sequence) : ∃ ordered tally, ordered.Perm sequence ∧
    Counted ordered tally ∧ (measure sequence).leaves = tally.leaves ∧
    (measure sequence).slotRefs = tally.slotRefs ∧
    (measure sequence).nodeTypes = tally.nodeTypes.mergeSort before :=
  ⟨_, _, List.mergeSort_perm sequence _, counted_empty.foldl, rfl, rfl, rfl⟩

theorem leaves_measure (sequence : Sequence) :
    (measure sequence).leaves = sequence.countP (·.children.isEmpty) := by
  obtain ⟨ordered, tally, hp, h, hl, -, -⟩ := exists_counted sequence
  rw [hl, h.leaves, hp.countP_eq]

theorem slotRefs_measure (sequence : Sequence) :
    (measure sequence).slotRefs = sequence.references.length := by
  obtain ⟨ordered, tally, hp, h, -, hs, -⟩ := exists_counted sequence
  rw [hs, h.slotRefs]
  exact (hp.flatMap_right _).length_eq

theorem nodeTypes_measure (sequence : Sequence) :
    Counts (sequence.map (·.nodeType)) (measure sequence).nodeTypes := by
  obtain ⟨ordered, tally, hp, h, -, -, ht⟩ := exists_counted sequence
  rw [ht]
  exact (h.nodeTypes.perm (hp.map _)).of_perm (List.mergeSort_perm _ _).symm

theorem ordered_nodeTypes (sequence : Sequence) : (measure sequence).nodeTypes.Pairwise
    fun a b => b.2 < a.2 ∨ a.2 = b.2 ∧ a.1 < b.1 := by
  obtain ⟨ordered, tally, hp, h, -, -, ht⟩ := exists_counted sequence
  rw [ht]
  exact ordered_mergeSort h.nodeTypes.distinct

/-! ## The records of a tree -/

/-- What a record tells of its node alone is the same wherever the node stands. -/
theorem map_records {α : Type} {f : Record → α} {g : Node → α}
    (h : ∀ i node, f (Node.recordAt i node) = g node) (tree : Node) (base : Nat) :
    (tree.records base).map f = tree.preorder.map g := by
  refine List.ext_getElem (by simp [Node.records]) fun k hk hk' => ?_
  simp [Node.records, h]

/-- A record has children just if its node has. -/
theorem countP_records (tree : Node) (base : Nat) :
    (tree.records base).countP (·.children.isEmpty) = tree.preorder.countP (·.children.isEmpty) := by
  have hc : ∀ i node, (Node.recordAt i node).children.isEmpty = node.children.isEmpty := by
    intro i node
    rw [Node.children_recordAt, Bool.eq_iff_iff, List.isEmpty_iff_length_eq_zero,
      List.isEmpty_iff_length_eq_zero, Node.length_starts]
  have hm := map_records (f := (·.children.isEmpty)) (g := (·.children.isEmpty)) hc tree base
  have hcount := congrArg (List.countP id) hm
  rwa [List.countP_map, List.countP_map] at hcount

section

variable (ht : ∀ node ∈ tree.preorder, node.nodeType ≠ "") (hp : sequence.Perm (tree.records base))

include hp

theorem descents_of_perm_records : sequence.descents = [] := by
  rw [List.eq_nil_iff_forall_not_mem]
  intro i hi
  obtain ⟨parent, ⟨record, hr, hindex, hchild⟩, hle⟩ := Sequence.mem_descents.mp hi
  have hlt := Node.lt_of_transGen_refers (.single ⟨record, hp.subset hr, hindex, hchild⟩)
  omega

include ht

theorem forest_of_perm_records : sequence.forest = .ok [tree] := by
  obtain ⟨hu, hi⟩ := Node.unfolds_of_encode (Node.encode_eq_records ht base)
  have hm : (sequence.map (·.index)).Perm (List.range' base tree.count) := hi ▸ hp.map _
  refine Sequence.decode_eq_ok_iff.mp (Sequence.decode_of_unfolds_perm hu hp.symm
    (hm.nodup_iff.mpr List.nodup_range') fun i hi => ?_)
  exact (List.mem_range'_1.mp (hm.subset hi)).1

theorem references_of_perm_records : sequence.references.length + 1 = tree.count := by
  obtain ⟨hu, -⟩ := Node.unfolds_of_encode (Node.encode_eq_records ht base)
  have hl := (Sequence.perm_roots_references hu hp.symm).length_eq
  rw [List.length_map, hp.length_eq, Node.length_records, List.length_append,
    List.length_singleton] at hl
  omega

theorem maxDepth_of_perm_records : (measure sequence).maxDepth = tree.height := by
  obtain ⟨hw, records, hu, hr⟩ := Sequence.forest_eq_ok_iff.mp (forest_of_perm_records ht hp)
  -- children have greater indices than their parents, so each depth is known when it is asked for
  have hrises : sequence.Rises = sequence.Refers := by
    funext parent i
    exact propext (Sequence.rises_iff_refers (descents_of_perm_records hp))
  have hdeepest : Node.deepest [tree] = tree.height := Nat.zero_max _
  refine eq_of_forall_ge_iff fun n => ?_
  rw [maxDepth_measure_le_iff hw.linked, ← hdeepest, hw.linked.deepest_le_iff hu hr, hrises]

end

/-- The measures are those of the tree. -/
structure Describes (stats : Stats) (tree : Node) : Prop where
  records : stats.records = tree.count
  roots : stats.roots = 1
  /-- Slots without children make no difference. -/
  leaves : stats.leaves = tree.preorder.countP (·.children.isEmpty)
  maxDepth : stats.maxDepth = tree.height
  /-- All nodes but the root are referenced. -/
  slotRefs : stats.slotRefs + 1 = tree.count
  nodeTypes : Counts (tree.preorder.map (·.nodeType)) stats.nodeTypes
  ordered : stats.nodeTypes.Pairwise fun a b => b.2 < a.2 ∨ a.2 = b.2 ∧ a.1 < b.1

/-- A tree in which every node has a type is encoded from any base on, and whatever the
order of the records is, their measures are those of the tree. -/
theorem describes_of_encode (tree : Node) (base : Nat)
    (h : ∀ node ∈ tree.preorder, node.nodeType ≠ "") :
    ∃ records, tree.encode base = .ok records ∧
      ∀ sequence : Sequence, sequence.Perm records → (measure sequence).Describes tree := by
  refine ⟨_, Node.encode_eq_records h base, fun sequence hp => ?_⟩
  refine ⟨?_, ?_, ?_, maxDepth_of_perm_records h hp, ?_, ?_, ordered_nodeTypes sequence⟩
  · exact hp.length_eq.trans (Node.length_records tree base)
  · rw [roots_measure_of_forest (forest_of_perm_records h hp), descents_of_perm_records hp]
    rfl
  · rw [leaves_measure, hp.countP_eq, countP_records]
  · rw [slotRefs_measure, references_of_perm_records h hp]
  · have hm := map_records (f := Record.nodeType) (g := Node.nodeType) (fun _ _ => rfl) tree base
    exact hm ▸ (nodeTypes_measure sequence).perm (hp.map _)

/-- A tree with an empty slot, two nodes of one type and a leaf at depth 2, the records of
which stand the wrong way round. -/
theorem describes_of_encode_loop : ∃ tree records,
    tree = ((Node.ofType "For").withSlot "init" []).withSlot "body"
      [(Node.ofType "If").withSlot "cond" [Node.ofType "ID"], Node.ofType "ID"] ∧
    tree.encode 7 = .ok records ∧ (measure records.reverse).Describes tree := by
  obtain ⟨records, he, hd⟩ := describes_of_encode (((Node.ofType "For").withSlot "init" []).withSlot
    "body" [(Node.ofType "If").withSlot "cond" [Node.ofType "ID"], Node.ofType "ID"]) 7 (by decide)
  exact ⟨_, records, rfl, he, hd _ records.reverse_perm⟩

end TreeSeq.Stats
