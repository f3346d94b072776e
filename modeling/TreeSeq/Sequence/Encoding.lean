import TreeSeq.Error
import TreeSeq.Sequence.Basic

/-!
# From trees to sequences

Encoding numbers the nodes of a tree in pre-order, from a base on, so that
every subtree takes up an interval of indices: a node comes first, then the
subtrees of its children, slot by slot.

The tree is walked on an explicit stack of frames, one for each node between
the root and the node at hand, so its depth is bounded by memory alone. A frame
knows the highest number in its part of the tree so far; a child gets the next
one, and hands its own highest number on when its subtree is complete. Only
then is the record of a node known, so the records come out after those of the
descendants, and they are sorted in the end.
-/

namespace TreeSeq.Node

/-- A node whose descendants are being numbered. -/
structure WalkFrame where
  node : Node
  index : Nat
  /-- The highest number in use in the subtree. -/
  last : Nat
  /-- The references in the complete slots, latest first. -/
  complete : Fields (List Nat)
  /-- The references in the slot at hand, latest first. -/
  refs : List Nat
  /-- The slot at hand and those after it, with the children left in each. -/
  pending : List (String × List Node)

namespace WalkFrame

/-- The frame of a node that has got its number. -/
def enter (node : Node) (index : Nat) : WalkFrame :=
  ⟨node, index, index, [], [], node.slots⟩

/-- The frame with its first slot at hand complete. -/
def closeSlot (frame : WalkFrame) (slot : String) (rest : List (String × List Node)) : WalkFrame :=
  { frame with
    complete := (slot, frame.refs.reverse) :: frame.complete, refs := [], pending := rest }

/-- The frame with a reference to the next child, which is about to be numbered. -/
def descend (frame : WalkFrame) (slot : String) (children : List Node)
    (rest : List (String × List Node)) : WalkFrame :=
  { frame with refs := (frame.last + 1) :: frame.refs, pending := (slot, children) :: rest }

/-- The frame with the highest number of a child that is complete. -/
def withLast (frame : WalkFrame) (last : Nat) : WalkFrame :=
  { frame with last := last }

/-- The record of a frame in which every slot is complete. -/
def record (frame : WalkFrame) : Record :=
  ⟨frame.index, frame.node.nodeType, frame.node.scalars, frame.complete.reverse, frame.node.span⟩

end WalkFrame

/-- A tree that is being numbered. -/
structure Walk where
  /-- The frames from the node at hand up to the root. -/
  frames : List WalkFrame
  /-- The records that are known, latest first. -/
  emitted : List Record

namespace Walk

/-- Hands the highest number on to the frame below, if there is one. -/
def handOn (last : Nat) : List WalkFrame → List WalkFrame
  | [] => []
  | parent :: above => parent.withLast last :: above

/-- One step of numbering a tree, if there is a frame left. -/
def step (walk : Walk) : Except Error (Option Walk) :=
  match walk.frames with
  | [] => .ok none
  | frame :: above =>
    match frame.pending with
    | [] => .ok (some ⟨handOn frame.last above, frame.record :: walk.emitted⟩)
    | (slot, []) :: rest => .ok (some ⟨frame.closeSlot slot rest :: above, walk.emitted⟩)
    | (slot, child :: children) :: rest =>
      if child.nodeType.isEmpty then .error (.tree (.untypedNode (frame.last + 1)))
      else .ok (some ⟨.enter child (frame.last + 1) :: frame.descend slot children rest :: above,
        walk.emitted⟩)

/-- How much a walk has left to do: nodes first, then frames and slots. -/
def left (walk : Walk) : Nat × Nat :=
  ((walk.frames.map fun frame => countSlots frame.pending).foldr (· + ·) 0,
    (walk.frames.map fun frame => 1 + frame.pending.length).foldr (· + ·) 0)

theorem map_handOn {α : Type} (f : List (String × List Node) → α) (last : Nat)
    (frames : List WalkFrame) :
    ((handOn last frames).map fun frame => f frame.pending) =
      frames.map fun frame => f frame.pending := by
  cases frames <;> rfl

/-- Each step leaves less to do. -/
theorem step_lt {walk next : Walk} (h : walk.step = .ok (some next)) :
    Prod.Lex (· < ·) (· < ·) next.left walk.left := by
  obtain ⟨frames, emitted⟩ := walk
  unfold step at h
  split at h
  · cases h
  rename_i frame above hf
  cases hf
  split at h
  · rename_i hp
    cases h
    simp only [left, map_handOn countSlots, map_handOn fun pending => 1 + pending.length,
      List.map_cons, List.foldr_cons, hp]
    exact Prod.Lex.right' _ (Nat.le_add_left _ _) (by simp)
  · rename_i slot rest hp
    cases h
    simp only [left, List.map_cons, List.foldr_cons, hp, WalkFrame.closeSlot, countSlots,
      countNodes]
    exact Prod.Lex.right' _ (by omega) (by simp)
  · rename_i slot child children rest hp
    split at h
    · cases h
    · cases h
      refine Prod.Lex.left _ _ ?_
      simp only [List.map_cons, List.foldr_cons, hp, WalkFrame.enter, WalkFrame.descend,
        countSlots, countNodes]
      have hc : child.count = 1 + countSlots child.slots := by
        cases child
        rw [count]
      omega

/-- Carries a walk through to its end. -/
def run (walk : Walk) : Except Error (List Record) :=
  match _h : walk.step with
  | .error e => .error e
  | .ok none => .ok walk.emitted
  | .ok (some next) => run next
termination_by walk.left
decreasing_by exact step_lt (by assumption)

end Walk

/-- The sequence of a tree, numbered from `base` on. Every node must have a
type; the first in pre-order that has none is named by the index it would
get. -/
def encode (tree : Node) (base : Nat) : Except Error Sequence :=
  if tree.nodeType.isEmpty then .error (.tree (.untypedNode base))
  else
    match Walk.run ⟨[.enter tree base], []⟩ with
    | .error e => .error e
    | .ok records => .ok (records.mergeSort fun a b => a.index ≤ b.index)

end TreeSeq.Node
