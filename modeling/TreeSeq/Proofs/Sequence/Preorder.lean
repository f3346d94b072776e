import TreeSeq.Proofs.Sequence.RoundTrip

/-!
# Where the nodes of a tree stand in its sequence

Encoding lists the nodes of a tree in pre-order and numbers them consecutively, so
a subtree takes up an interval of indices: its root has the first, and the subtrees
of the children follow, slot by slot.

* `Node.exists_preorder_eq`: a subtree stands together in the listing of a tree;
* `Node.enumerates_records`: the records of a tree say where its nodes stand;
* `Node.encode_enumerates`: what a sequence says of each node of the tree, and
  which node is named if one has no type.
-/

namespace TreeSeq

namespace Node

open Relation (TransGen)

variable {tree node : Node} {base k : Nat}

/-! ## Listings in pre-order -/

/-- An entry of lists that are joined is an entry of one of them. -/
theorem exists_of_getElem?_flatMap {α β : Type} {f : α → List β} {l : List α} {k : Nat} {b : β}
    (h : (l.flatMap f)[k]? = some b) :
    ∃ before a after j, l = before ++ a :: after ∧ (f a)[j]? = some b ∧
      (before.flatMap f).length + j = k := by
  induction l generalizing k with
  | nil => cases h
  | cons a rest ih =>
    rw [List.flatMap_cons] at h
    rcases Nat.lt_or_ge k (f a).length with hk | hk
    · rw [List.getElem?_append_left hk] at h
      exact ⟨[], a, rest, k, rfl, h, by simp⟩
    · rw [List.getElem?_append_right hk] at h
      obtain ⟨before, a', after, j, rfl, hj, he⟩ := ih h
      refine ⟨a :: before, a', after, j, rfl, hj, ?_⟩
      rw [List.flatMap_cons, List.length_append]
      omega

/-- A subtree stands together in the listing of a tree, from its root on. -/
theorem exists_preorder_eq (tree : Node) {node : Node} {k : Nat}
    (h : tree.preorder[k]? = some node) :
    ∃ before after, tree.preorder = before ++ node.preorder ++ after ∧ before.length = k := by
  induction tree using induction_on_children generalizing k with
  | step tree ih =>
    cases k with
    | zero =>
      rw [preorder_eq, List.getElem?_cons_zero, Option.some.injEq] at h
      exact ⟨[], [], by simp [h], rfl⟩
    | succ k =>
      rw [preorder_eq, List.getElem?_cons_succ] at h
      obtain ⟨earlier, child, later, j, hc, hj, hk⟩ := exists_of_getElem?_flatMap h
      obtain ⟨before, after, he, hl⟩ := ih child (by simp [hc]) hj
      refine ⟨tree :: (earlier.flatMap preorder ++ before), after ++ later.flatMap preorder, ?_, ?_⟩
      · rw [preorder_eq, hc, List.flatMap_append, List.flatMap_cons, he]
        simp
      · rw [List.length_cons, List.length_append, hl, hk]

/-- Trees that stand in a listing one after the other start at the numbers of their
roots. -/
theorem forall₂_starts (base : Nat) {listing before after nodes : List Node}
    (h : listing = before ++ nodes.flatMap preorder ++ after) :
    List.Forall₂ (fun node i => ∃ k, i = base + k ∧ listing[k]? = some node) nodes
      (starts (base + before.length) nodes) := by
  induction nodes generalizing before with
  | nil => exact .nil
  | cons node rest ih =>
    rw [starts]
    refine .cons ⟨before.length, rfl, ?_⟩ ?_
    · rw [h, List.flatMap_cons, preorder_eq node]
      simp
    · have hr : listing = (before ++ node.preorder) ++ rest.flatMap preorder ++ after := by
        rw [h, List.flatMap_cons]
        simp
      have hs := ih hr
      rwa [List.length_append, length_preorder, ← Nat.add_assoc] at hs

/-! ## Records -/

theorem getElem?_records (h : tree.preorder[k]? = some node) (base : Nat) :
    (tree.records base)[k]? = some (node.recordAt (base + k)) := by
  rw [records, List.getElem?_mapIdx, h, Option.map_some]

theorem exists_of_getElem?_records {record : Record} (h : (tree.records base)[k]? = some record) :
    ∃ node, tree.preorder[k]? = some node ∧ node.recordAt (base + k) = record := by
  rw [records, List.getElem?_mapIdx] at h
  exact Option.map_eq_some_iff.mp h

/-- Each child of a node has the number that the record of the node refers to it by. -/
theorem slotwise_records (h : tree.preorder[k]? = some node) (base : Nat) :
    Fields.Slotwise (fun child i => ∃ j, i = base + j ∧ tree.preorder[j]? = some child) node.slots
      (node.recordAt (base + k)).slotRefs := by
  obtain ⟨before, after, he, rfl⟩ := exists_preorder_eq tree h
  have hc : tree.preorder = (before ++ [node]) ++ node.children.flatMap preorder ++ after := by
    rw [he, preorder_eq node]
    simp
  have hs := forall₂_starts base hc
  rw [List.length_append, List.length_singleton, ← Nat.add_assoc] at hs
  refine Fields.slotwise_iff.mpr ⟨(sizes_slotStarts _ _).symm, ?_⟩
  rw [recordAt, flatMap_slotStarts]
  exact hs

/-- The records from the number of a node on are those of its subtree. -/
theorem take_drop_records (h : tree.preorder[k]? = some node) (base : Nat) :
    ((tree.records base).drop k).take node.count = node.records (base + k) := by
  obtain ⟨before, after, he, rfl⟩ := exists_preorder_eq tree h
  rw [records, he, List.mapIdx_append, List.mapIdx_append, List.append_assoc,
    List.drop_left' (by rw [List.length_mapIdx]),
    List.take_left' (by rw [List.length_mapIdx, length_preorder])]
  rw [records]
  congr 1
  funext j other
  congr 1
  omega

/-- A node comes before its descendants. -/
theorem lt_of_transGen_refers {i j : Nat} (h : TransGen (tree.records base).Refers i j) :
    i < j := by
  have hstep : ∀ {i j : Nat}, (tree.records base).Refers i j → i < j := by
    rintro i j ⟨record, hr, rfl, hj⟩
    obtain ⟨k, hk⟩ := List.getElem?_of_mem hr
    obtain ⟨node, -, rfl⟩ := exists_of_getElem?_records hk
    rw [children_recordAt] at hj
    exact le_of_mem_starts hj
  induction h with
  | single h => exact hstep h
  | tail _ h ih => exact Nat.lt_trans ih (hstep h)

theorem typed_of_getElem? (ht : ∀ other ∈ tree.preorder, other.nodeType ≠ "")
    (h : tree.preorder[k]? = some node) : ∀ other ∈ node.preorder, other.nodeType ≠ "" := by
  obtain ⟨before, after, he, -⟩ := exists_preorder_eq tree h
  exact fun other hm => ht other (by rw [he]; simp [hm])

/-- The indices that are reached from the number of a node are those of its subtree, an
interval. -/
theorem reaches_records_iff (ht : ∀ other ∈ tree.preorder, other.nodeType ≠ "")
    (h : tree.preorder[k]? = some node) (i : Nat) :
    (tree.records base).Reaches (base + k) i ↔ base + k ≤ i ∧ i < base + k + node.count := by
  obtain ⟨hu, -⟩ := unfolds_of_encode (encode_eq_records (typed_of_getElem? ht h) (base + k))
  have hs : node.records (base + k) ⊆ tree.records base := by
    rw [← take_drop_records h]
    exact ((List.take_sublist _ _).trans (List.drop_sublist _ _)).subset
  have hd : ((tree.records base).map (·.index)).Nodup := by
    rw [index_records]
    exact List.nodup_range'
  rw [← List.mem_range'_1, ← index_records]
  constructor
  · exact hu.closed hs hd (hu.refs_subset List.mem_cons_self)
  · intro hi
    obtain ⟨record, hm, rfl⟩ := List.mem_map.mp hi
    obtain ⟨j, hj, hr⟩ := hu.reached hs record hm
    rwa [List.mem_singleton.mp hj] at hr

/-- The sequence lists the nodes of the tree in pre-order, numbered from `base` on. -/
structure Enumerates (sequence : Sequence) (tree : Node) (base : Nat) : Prop where
  length : sequence.length = tree.count
  /-- The position of a record tells its index. -/
  index : ∀ (k : Nat) (record : Record), sequence[k]? = some record → record.index = base + k
  record : ∀ (k : Nat) (node : Node), tree.preorder[k]? = some node →
    sequence[k]? = some (node.recordAt (base + k))
  /-- The references of a record are the numbers of the children, slot by slot. -/
  slots : ∀ (k : Nat) (node : Node), tree.preorder[k]? = some node →
    Fields.Slotwise (fun child i => ∃ j, i = base + j ∧ tree.preorder[j]? = some child) node.slots
      (node.recordAt (base + k)).slotRefs
  /-- A subtree is encoded into the records from its root on, as many as it has nodes. -/
  subtree : ∀ (k : Nat) (node : Node), tree.preorder[k]? = some node →
    node.encode (base + k) = .ok ((sequence.drop k).take node.count)
  interval : ∀ (k : Nat) (node : Node), tree.preorder[k]? = some node → ∀ i,
    sequence.Reaches (base + k) i ↔ base + k ≤ i ∧ i < base + k + node.count
  descends : ∀ i j, TransGen sequence.Refers i j → i < j

theorem enumerates_records (h : ∀ node ∈ tree.preorder, node.nodeType ≠ "") (base : Nat) :
    Enumerates (tree.records base) tree base where
  length := length_records tree base
  index k record hk := by
    obtain ⟨node, -, rfl⟩ := exists_of_getElem?_records hk
    rfl
  record k node hk := getElem?_records hk base
  slots k node hk := slotwise_records hk base
  subtree k node hk := by
    rw [take_drop_records hk, encode_eq_records (typed_of_getElem? h hk)]
  interval k node hk := reaches_records_iff h hk
  descends i j := lt_of_transGen_refers

/-- If a node has no type, encoding names the number of the first such node. -/
theorem encode_untyped (base : Nat) (h : ∃ node ∈ tree.preorder, node.nodeType = "") :
    ∃ k node, tree.preorder[k]? = some node ∧ node.nodeType = "" ∧
      (∀ other ∈ tree.preorder.take k, other.nodeType ≠ "") ∧
      tree.encode base = .error (.tree (.untypedNode (base + k))) := by
  rw [encode_eq]
  cases hf : tree.preorder.findIdx? (·.nodeType.isEmpty) with
  | none =>
    obtain ⟨node, hm, he⟩ := h
    have := List.findIdx?_eq_none_iff.mp hf node hm
    simp [he] at this
  | some k =>
    obtain ⟨hk, he, hlt⟩ := List.findIdx?_eq_some_iff_getElem.mp hf
    refine ⟨k, tree.preorder[k], List.getElem?_eq_getElem hk, by simpa using he,
      fun other hm => ?_, rfl⟩
    obtain ⟨j, hj, rfl⟩ := List.mem_take_iff_getElem.mp hm
    simpa using hlt j (by omega)

/-- Encoding a tree lists its nodes in pre-order, with consecutive numbers from the base
on: if every node has a type there is one record for each, with the contents of the node
and the numbers of its children, and every subtree takes up an interval. Otherwise the
first node without a type is named by the number that it would get. -/
theorem encode_enumerates (tree : Node) (base : Nat) :
    ((∀ node ∈ tree.preorder, node.nodeType ≠ "") →
      ∃ sequence, tree.encode base = .ok sequence ∧ Enumerates sequence tree base) ∧
    ((∃ node ∈ tree.preorder, node.nodeType = "") →
      ∃ k node, tree.preorder[k]? = some node ∧ node.nodeType = "" ∧
        (∀ other ∈ tree.preorder.take k, other.nodeType ≠ "") ∧
        tree.encode base = .error (.tree (.untypedNode (base + k)))) :=
  ⟨fun h => ⟨_, encode_eq_records h base, enumerates_records h base⟩, encode_untyped base⟩

/-- A tree with an empty slot and a child that has a child; and one in which the node
with the number 12 is the first without a type. -/
theorem encode_enumerates_loop :
    (∃ sequence, (((ofType "For").withSlot "init" []).withSlot "body"
        [(ofType "If").withSlot "cond" [ofType "ID"], ofType "Break"]).encode 7 = .ok sequence ∧
      Enumerates sequence (((ofType "For").withSlot "init" []).withSlot "body"
        [(ofType "If").withSlot "cond" [ofType "ID"], ofType "Break"]) 7) ∧
    ∃ k node, ((ofType "If").withSlot "cond"
        [(ofType "Or").withSlot "left" [ofType ""], ofType ""]).preorder[k]? = some node ∧
      node.nodeType = "" ∧
      (∀ other ∈ ((ofType "If").withSlot "cond"
        [(ofType "Or").withSlot "left" [ofType ""], ofType ""]).preorder.take k,
          other.nodeType ≠ "") ∧
      ((ofType "If").withSlot "cond"
        [(ofType "Or").withSlot "left" [ofType ""], ofType ""]).encode 10 =
          .error (.tree (.untypedNode (10 + k))) :=
  ⟨(encode_enumerates _ 7).1 (by decide), (encode_enumerates _ 10).2 (by decide)⟩

end Node

end TreeSeq
