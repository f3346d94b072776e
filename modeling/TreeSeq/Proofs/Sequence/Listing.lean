import TreeSeq.Proofs.Sequence.Unfolding

/-!
# The records of the nodes of a tree

The nodes of a tree in pre-order, numbered consecutively, have records that are told by the
tree alone: a subtree takes up as many numbers as it has nodes, so the numbers of the children
of a node follow from its own and from their sizes. The number of the root unfolds into the
tree, with these records.

* `Node.recordAt`: the record of a node, from its index and its subtree alone;
* `Node.records`: the records of all nodes in pre-order;
* `Node.unfolds_records`: what they unfold into.
-/

namespace TreeSeq.Node

/-- The indices of trees that are numbered one after the other from `first` on, each
of them taking up as many as it has nodes. -/
def starts (first : Nat) : List Node → List Nat
  | [] => []
  | node :: rest => first :: starts (first + node.count) rest

/-- The indices of the trees in slots, numbered slot by slot from `first` on. -/
def slotStarts (first : Nat) : List (String × List Node) → Fields (List Nat)
  | [] => []
  | (slot, children) :: rest =>
    (slot, starts first children) :: slotStarts (first + countNodes children) rest

/-- The record of a node with the index `i`, after which its descendants are
numbered. -/
def recordAt (i : Nat) (node : Node) : Record :=
  ⟨i, node.nodeType, node.scalars, slotStarts (i + 1) node.slots, node.span⟩

/-- The records of nodes, listed with what is below them and numbered from `first` on. -/
def recordsFrom (first : Nat) (nodes : List Node) : List Record :=
  (nodes.flatMap preorder).mapIdx fun k node => node.recordAt (first + k)

/-- The records of the nodes of a tree in pre-order, numbered from `base` on. -/
def records (tree : Node) (base : Nat) : Sequence :=
  tree.preorder.mapIdx fun k node => node.recordAt (base + k)

theorem starts_append (first : Nat) (a b : List Node) :
    starts first (a ++ b) = starts first a ++ starts (first + countNodes a) b := by
  induction a generalizing first with
  | nil => rfl
  | cons node rest ih => simp only [List.cons_append, starts, ih, countNodes, Nat.add_assoc]

theorem length_starts (first : Nat) (nodes : List Node) :
    (starts first nodes).length = nodes.length := by
  induction nodes generalizing first with
  | nil => rfl
  | cons node rest ih => simp only [starts, List.length_cons, ih]

theorem le_of_mem_starts {first i : Nat} {nodes : List Node} (h : i ∈ starts first nodes) :
    first ≤ i := by
  induction nodes generalizing first with
  | nil => cases h
  | cons node rest ih =>
    rcases List.mem_cons.mp h with rfl | h
    · exact Nat.le_refl _
    · have := ih h
      omega

theorem flatMap_slotStarts (first : Nat) (slots : List (String × List Node)) :
    (slotStarts first slots).flatMap (·.2) = starts first (slots.flatMap (·.2)) := by
  induction slots generalizing first with
  | nil => rfl
  | cons slot rest ih => simp only [slotStarts, List.flatMap_cons, ih, starts_append]

theorem sizes_slotStarts (first : Nat) (slots : List (String × List Node)) :
    Fields.sizes (slotStarts first slots) = Fields.sizes slots := by
  induction slots generalizing first with
  | nil => rfl
  | cons slot rest ih =>
    obtain ⟨name, children⟩ := slot
    rw [slotStarts, Fields.sizes_cons, Fields.sizes_cons, ih, length_starts]

theorem children_recordAt (i : Nat) (node : Node) :
    (node.recordAt i).children = starts (i + 1) node.children :=
  flatMap_slotStarts (i + 1) node.slots

/-! ## How many there are -/

theorem length_flatMap_of_forall {nodes : List Node}
    (h : ∀ node ∈ nodes, node.preorder.length = node.count) :
    (nodes.flatMap preorder).length = countNodes nodes := by
  induction nodes with
  | nil => rfl
  | cons node rest ih =>
    obtain ⟨hnode, hrest⟩ := List.forall_mem_cons.mp h
    rw [List.flatMap_cons, List.length_append, hnode, ih hrest, countNodes]

theorem length_preorder (node : Node) : node.preorder.length = node.count := by
  induction node using induction_on_children with
  | step node ih =>
    rw [preorder_eq, List.length_cons, length_flatMap_of_forall ih, count_eq, Nat.add_comm]

theorem length_flatMap_preorder (nodes : List Node) :
    (nodes.flatMap preorder).length = countNodes nodes :=
  length_flatMap_of_forall fun node _ => node.length_preorder

/-- The records of a node, of what is below it and of the nodes after it. -/
theorem recordsFrom_cons (first : Nat) (node : Node) (rest : List Node) :
    recordsFrom first (node :: rest) = node.recordAt first ::
      (recordsFrom (first + 1) node.children ++ recordsFrom (first + node.count) rest) := by
  have hc := length_flatMap_preorder node.children
  rw [recordsFrom, List.flatMap_cons, preorder_eq, List.cons_append, List.mapIdx_cons,
    List.mapIdx_append, recordsFrom, recordsFrom, count_eq]
  simp only [hc, Nat.add_zero]
  congr 3 <;> funext k node <;> congr 1 <;> omega

theorem records_eq (tree : Node) (base : Nat) : tree.records base = recordsFrom base [tree] := by
  rw [recordsFrom, List.flatMap_cons, List.flatMap_nil, List.append_nil, records]

theorem length_records (tree : Node) (base : Nat) : (tree.records base).length = tree.count := by
  rw [records, List.length_mapIdx, length_preorder]

theorem index_records (tree : Node) (base : Nat) :
    (tree.records base).map (·.index) = List.range' base tree.count := by
  refine List.ext_getElem (by simp [length_records]) fun k hk hk' => ?_
  simp [records, recordAt]

/-! ## What they unfold into -/

/-- The children, dealt out by the numbers in the slots, are in their slots again. -/
theorem deal_slotStarts (first : Nat) (slots : List (String × List Node)) :
    Record.deal (slotStarts first slots) (slots.flatMap (·.2)) = slots := by
  induction slots generalizing first with
  | nil => rfl
  | cons slot rest ih =>
    obtain ⟨name, children⟩ := slot
    simp only [slotStarts, Record.deal, List.flatMap_cons, length_starts, List.take_left,
      List.drop_left, ih]

theorem node_recordAt (i : Nat) (node : Node) : (node.recordAt i).node node.children = node := by
  obtain ⟨nodeType, scalars, slots, span⟩ := node
  rw [Record.node, recordAt, children, deal_slotStarts]

/-- Nodes are what their numbers unfold into, with their records. -/
theorem unfolds_recordsFrom (first : Nat) (nodes : List Node) :
    Sequence.Unfolds (starts first nodes) nodes (recordsFrom first nodes) := by
  cases nodes with
  | nil => exact .nil
  | cons node rest =>
    have hbelow := unfolds_recordsFrom (first + 1) node.children
    rw [← children_recordAt] at hbelow
    have hcons := hbelow.cons (node.recordAt first) (unfolds_recordsFrom (first + node.count) rest)
    rw [node_recordAt] at hcons
    rw [starts, recordsFrom_cons]
    exact hcons
termination_by countNodes nodes
decreasing_by
  all_goals
    have := count_eq node
    rw [countNodes]
    omega

/-- The number of the root unfolds into the tree. -/
theorem unfolds_records (tree : Node) (base : Nat) :
    Sequence.Unfolds [base] [tree] (tree.records base) := by
  rw [records_eq]
  exact unfolds_recordsFrom base [tree]

end TreeSeq.Node
