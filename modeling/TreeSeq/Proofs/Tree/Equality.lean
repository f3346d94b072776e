import TreeSeq.Tree.Equality
import TreeSeq.Proofs.Fields
import TreeSeq.Proofs.Tree.Children
import Mathlib.Data.List.Forall2

/-!
# Equality of trees, name by name

`same` compares trees by walking over fields. With distinct names it is equality
of maps: `same_iff` says so for one node, in terms of its children.
-/

namespace TreeSeq.Node

/-- No attribute of the node has its name twice, and no slot. -/
structure NamesDistinct (node : Node) : Prop where
  scalars : Fields.Distinct node.scalars
  slots : Fields.Distinct node.slots

instance (node : Node) : Decidable node.NamesDistinct :=
  decidable_of_iff (Fields.Distinct node.scalars ∧ Fields.Distinct node.slots)
    ⟨fun ⟨h, h'⟩ => ⟨h, h'⟩, fun ⟨h, h'⟩ => ⟨h, h'⟩⟩

theorem mem_children_of_get? {node child : Node} {slot : String} {children : List Node}
    (hc : Fields.get? node.slots slot = some children) (hm : child ∈ children) :
    child ∈ node.children :=
  mem_children.mpr ⟨slot, children, Fields.mem_of_get? hc, hm⟩

theorem NamesDistinct.mem_children_iff {node child : Node} (h : node.NamesDistinct) :
    child ∈ node.children ↔
      ∃ slot children, Fields.get? node.slots slot = some children ∧ child ∈ children := by
  refine ⟨fun hm => ?_, fun ⟨slot, children, hc, hm⟩ => mem_children_of_get? hc hm⟩
  obtain ⟨slot, children, hc, hm⟩ := mem_children.mp hm
  exact ⟨slot, children, Fields.get?_of_mem h.slots hc, hm⟩

theorem sameNodes_iff {a b : List Node} :
    sameNodes a b ↔ List.Forall₂ (fun x y : Node => x.same y) a b := by
  induction a generalizing b with
  | nil => cases b <;> simp [sameNodes]
  | cons x xs ih => cases b <;> simp [sameNodes, ih]

theorem sameSlots_iff {slots others : List (String × List Node)} :
    sameSlots slots others ↔ ∀ field ∈ slots, ∃ found, Fields.get? others field.1 = some found ∧
      List.Forall₂ (fun x y : Node => x.same y) field.2 found := by
  induction slots with
  | nil => simp [sameSlots]
  | cons field rest ih =>
    obtain ⟨slot, children⟩ := field
    rw [sameSlots, Bool.and_eq_true, ih, List.forall_mem_cons]
    cases Fields.get? others slot <;> simp [sameNodes_iff]

/-- Two nodes are the same if they agree in type and place, in the attribute
under every name, and in the children under every name, up to sameness. -/
theorem same_iff {a b : Node} (ha : a.NamesDistinct) (hb : b.NamesDistinct) :
    a.same b ↔ a.nodeType = b.nodeType ∧ a.span = b.span ∧
      (∀ name, Fields.get? a.scalars name = Fields.get? b.scalars name) ∧
      ∀ name, Option.Rel (List.Forall₂ fun x y : Node => x.same y) (Fields.get? a.slots name)
        (Fields.get? b.slots name) := by
  obtain ⟨nodeType, scalars, slots, span⟩ := a
  rw [← Fields.same_iff ha.scalars hb.scalars, ← Fields.rel_get?_iff ha.slots hb.slots]
  simp only [same, Bool.and_eq_true, beq_iff_eq, sameSlots_iff]
  tauto

end TreeSeq.Node
