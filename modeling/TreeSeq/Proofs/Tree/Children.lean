import TreeSeq.Tree.Basic

/-!
# The children of a node

The definitions on trees go through slots and lists of nodes in turn. Seen from
a node they are recursions over its children alone: `count_eq` and
`preorder_eq` say which, and `induction_on_children` is the induction that goes
with them.
-/

namespace TreeSeq.Node

/-- The children of a node, slot by slot. -/
def children (node : Node) : List Node :=
  node.slots.flatMap (·.2)

theorem mem_children {child node : Node} :
    child ∈ node.children ↔ ∃ slot children, (slot, children) ∈ node.slots ∧ child ∈ children := by
  simp only [children, List.mem_flatMap, Prod.exists]

/-! ## The number of nodes -/

theorem countNodes_append (a b : List Node) : countNodes (a ++ b) = countNodes a + countNodes b := by
  induction a with
  | nil => simp [countNodes]
  | cons node rest ih => simp [countNodes, ih, Nat.add_assoc]

theorem countSlots_eq (slots : List (String × List Node)) :
    countSlots slots = countNodes (slots.flatMap (·.2)) := by
  induction slots with
  | nil => rfl
  | cons slot rest ih => simp [countSlots, countNodes_append, ih]

theorem count_eq (node : Node) : node.count = 1 + countNodes node.children := by
  obtain ⟨nodeType, scalars, slots, span⟩ := node
  rw [count, countSlots_eq, children]

theorem count_le_countNodes {node : Node} {nodes : List Node} (h : node ∈ nodes) :
    node.count ≤ countNodes nodes := by
  induction nodes with
  | nil => cases h
  | cons other rest ih =>
    rw [countNodes]
    rcases List.mem_cons.mp h with rfl | h
    · omega
    · have := ih h
      omega

theorem count_lt_of_mem_children {child node : Node} (h : child ∈ node.children) :
    child.count < node.count := by
  have := count_le_countNodes h
  rw [count_eq node]
  omega

/-- What holds of a node whenever it holds of its children holds of every
node. -/
@[elab_as_elim]
theorem induction_on_children {motive : Node → Prop} (node : Node)
    (step : ∀ node, (∀ child ∈ node.children, motive child) → motive node) : motive node :=
  step node fun child _ => induction_on_children child step
termination_by node.count
decreasing_by exact count_lt_of_mem_children ‹_›

/-! ## Pre-order -/

mutual

theorem outlineOnto_eq (depth : Nat) (slot : Option String) (rest : List Place) :
    ∀ node : Node, (outlineOnto depth slot rest node).map (·.node) =
      node.preorder ++ rest.map (·.node)
  | ⟨nodeType, scalars, slots, span⟩ => by
    rw [preorder, outline, outlineOnto, outlineOnto, List.map_cons, List.map_cons,
      outlineSlots_eq _ rest, outlineSlots_eq _ []]
    simp

theorem outlineSlots_eq (depth : Nat) (rest : List Place) :
    ∀ slots : List (String × List Node), (outlineSlots depth rest slots).map (·.node) =
      (slots.flatMap (·.2)).flatMap preorder ++ rest.map (·.node)
  | [] => by simp [outlineSlots]
  | (slot, nodes) :: slots => by
    rw [outlineSlots, outlineNodes_eq, outlineSlots_eq]
    simp

theorem outlineNodes_eq (depth : Nat) (slot : String) (rest : List Place) :
    ∀ nodes : List Node, (outlineNodes depth slot rest nodes).map (·.node) =
      nodes.flatMap preorder ++ rest.map (·.node)
  | [] => by simp [outlineNodes]
  | node :: nodes => by
    rw [outlineNodes, outlineOnto_eq, outlineNodes_eq]
    simp

end

/-- A node comes before the nodes of its children. -/
theorem preorder_eq (node : Node) : node.preorder = node :: node.children.flatMap preorder := by
  obtain ⟨nodeType, scalars, slots, span⟩ := node
  rw [preorder, outline, outlineOnto, List.map_cons, outlineSlots_eq]
  simp [children]

/-- What holds of every node of a tree holds of the root and of every node of
its children. -/
theorem forall_preorder {p : Node → Prop} (node : Node) :
    (∀ other ∈ node.preorder, p other) ↔
      p node ∧ ∀ child ∈ node.children, ∀ other ∈ child.preorder, p other := by
  rw [preorder_eq]
  simp only [List.forall_mem_cons, List.forall_mem_flatMap]

end TreeSeq.Node
