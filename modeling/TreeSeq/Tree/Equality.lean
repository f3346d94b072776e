import TreeSeq.Tree.Basic

/-!
# Equality of trees up to the order of names

Two nodes are the same when they agree in type and place, hold the same
attributes under the same names, and have the same slots with the same
children in the same order. The order of the names does not count.
-/

namespace TreeSeq.Node

mutual

/-- Are two trees the same, the order of attributes and of slots aside? -/
def same : Node → Node → Bool
  | ⟨nodeType, scalars, slots, span⟩, other =>
    nodeType == other.nodeType && Fields.same scalars other.scalars &&
      slots.length == other.slots.length && sameSlots slots other.slots && span == other.span

/-- Is every slot also there among `others`, with the same children? -/
def sameSlots : List (String × List Node) → List (String × List Node) → Bool
  | [], _ => true
  | (slot, children) :: rest, others =>
    (match Fields.get? others slot with
      | some found => sameNodes children found
      | none => false) && sameSlots rest others

/-- Are two lists of trees the same, tree by tree? -/
def sameNodes : List Node → List Node → Bool
  | [], [] => true
  | node :: rest, other :: others => same node other && sameNodes rest others
  | _, _ => false

end

end TreeSeq.Node
