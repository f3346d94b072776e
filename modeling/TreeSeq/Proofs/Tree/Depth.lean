import TreeSeq.Proofs.Tree.Children

/-!
# The depths of nodes

The depths of the nodes of a tree, in pre-order, are a recursion over the children of a
node (`depthsFrom_eq`). `deepest` is the greatest of them in some trees
(`deepest_le_iff`).
-/

namespace TreeSeq.Node

variable {trees : List Node} {n : Nat}

/-- The depths of the nodes of a tree in pre-order, its root being at `depth`. -/
def depthsFrom (depth : Nat) (node : Node) : List Nat :=
  (outlineOnto depth none [] node).map (·.depth)

mutual

/-- The slot that a node hangs in has no part in its depth. -/
theorem map_depth_outlineOnto (depth : Nat) (slot : Option String) (rest : List Place) :
    ∀ node : Node, (outlineOnto depth slot rest node).map (·.depth) =
      depthsFrom depth node ++ rest.map (·.depth)
  | ⟨nodeType, scalars, slots, span⟩ => by
    rw [depthsFrom, outlineOnto, outlineOnto, List.map_cons, List.map_cons,
      map_depth_outlineSlots _ rest, map_depth_outlineSlots _ []]
    simp

theorem map_depth_outlineSlots (depth : Nat) (rest : List Place) :
    ∀ slots : List (String × List Node), (outlineSlots depth rest slots).map (·.depth) =
      (slots.flatMap (·.2)).flatMap (depthsFrom depth) ++ rest.map (·.depth)
  | [] => by simp [outlineSlots]
  | (slot, nodes) :: slots => by
    rw [outlineSlots, map_depth_outlineNodes, map_depth_outlineSlots]
    simp

theorem map_depth_outlineNodes (depth : Nat) (slot : String) (rest : List Place) :
    ∀ nodes : List Node, (outlineNodes depth slot rest nodes).map (·.depth) =
      nodes.flatMap (depthsFrom depth) ++ rest.map (·.depth)
  | [] => by simp [outlineNodes]
  | node :: nodes => by
    rw [outlineNodes, map_depth_outlineOnto, map_depth_outlineNodes]
    simp

end

/-- The children of a node are one deeper than the node. -/
theorem depthsFrom_eq (depth : Nat) (node : Node) :
    node.depthsFrom depth = depth :: node.children.flatMap (depthsFrom (depth + 1)) := by
  obtain ⟨nodeType, scalars, slots, span⟩ := node
  rw [depthsFrom, outlineOnto, List.map_cons, map_depth_outlineSlots]
  simp [children]

/-! ## The greatest depth -/

/-- The greatest depth of a node of some trees; 0 if there is none. -/
def deepest (trees : List Node) : Nat :=
  trees.foldl (fun deepest tree => max deepest tree.height) 0

theorem foldl_max_le_iff {α : Type} (f : α → Nat) (start : Nat) (l : List α) :
    l.foldl (fun greatest a => max greatest (f a)) start ≤ n ↔ start ≤ n ∧ ∀ a ∈ l, f a ≤ n := by
  induction l generalizing start with
  | nil => simp
  | cons a rest ih => rw [List.foldl_cons, ih, Nat.max_le, List.forall_mem_cons, and_assoc]

theorem height_le_iff (tree : Node) : tree.height ≤ n ↔ ∀ depth ∈ tree.depthsFrom 0, depth ≤ n := by
  rw [height, foldl_max_le_iff, outline, depthsFrom, List.forall_mem_map]
  exact and_iff_right (Nat.zero_le n)

theorem deepest_le_iff :
    deepest trees ≤ n ↔ ∀ depth ∈ trees.flatMap (depthsFrom 0), depth ≤ n := by
  rw [deepest, foldl_max_le_iff, List.forall_mem_flatMap]
  simp only [height_le_iff, Nat.zero_le, true_and]

end TreeSeq.Node
