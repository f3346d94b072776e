import TreeSeq.Proofs.Slots
import TreeSeq.Proofs.Tree.Equality

/-!
# The order of slots

Sameness of trees leaves the order of slots out. `SlotsAligned` is what it leaves
out, as far as an encoding shows it: at every place of two trees the slots that
hold a child stand in the same order.

* `Congruent`: the same, with slots aligned;
* `congruent_iff`: congruence of two nodes, in terms of their children.
-/

namespace TreeSeq.Node

/-- The names of the slots that hold a child, in order. -/
def filledSlots (node : Node) : List String :=
  Fields.names (Fields.filled node.slots)

/-- The child at a position in a slot. -/
def child? (node : Node) (slot : String) (position : Nat) : Option Node :=
  (Fields.get? node.slots slot).bind (·[position]?)

/-- The node at the end of a path of slots and positions. -/
def at? (node : Node) : List (String × Nat) → Option Node
  | [] => some node
  | (slot, position) :: path => (node.child? slot position).bind (at? · path)

/-- At every path that leads to a node in both trees, the slots that hold a child
stand in the same order. -/
def SlotsAligned (a b : Node) : Prop :=
  ∀ path x y, a.at? path = some x → b.at? path = some y → x.filledSlots = y.filledSlots

/-- The trees are the same, and their slots are aligned. -/
def Congruent (a b : Node) : Prop :=
  a.same b ∧ SlotsAligned a b

theorem slotsAligned_iff {a b : Node} :
    SlotsAligned a b ↔ a.filledSlots = b.filledSlots ∧ ∀ slot position x y,
      a.child? slot position = some x → b.child? slot position = some y → SlotsAligned x y := by
  constructor
  · intro h
    refine ⟨h [] a b rfl rfl, fun slot position x y hx hy path x' y' hx' hy' => ?_⟩
    refine h ((slot, position) :: path) x' y' ?_ ?_
    · rw [at?, hx, Option.bind_some, hx']
    · rw [at?, hy, Option.bind_some, hy']
  · rintro ⟨hf, hc⟩ path x y hx hy
    cases path with
    | nil =>
      cases hx
      cases hy
      exact hf
    | cons step path =>
      obtain ⟨slot, position⟩ := step
      obtain ⟨x', hx', hx⟩ := Option.bind_eq_some_iff.mp hx
      obtain ⟨y', hy', hy⟩ := Option.bind_eq_some_iff.mp hy
      exact hc slot position x' y' hx' hy' path x y hx hy

theorem child?_of_get? {node : Node} {slot : String} {children : List Node}
    (h : Fields.get? node.slots slot = some children) (position : Nat) :
    node.child? slot position = children[position]? := by
  rw [child?, h, Option.bind_some]

/-- Children in one slot are congruent if they are the same one by one, and their
slots are aligned position by position. -/
theorem forall₂_congruent_iff {a b : List Node} :
    List.Forall₂ Congruent a b ↔ List.Forall₂ (fun x y : Node => x.same y) a b ∧
      ∀ (position : Nat) x y, a[position]? = some x → b[position]? = some y → SlotsAligned x y := by
  constructor
  · intro h
    refine ⟨h.imp fun _ _ h => h.1, fun position x y hx hy => ?_⟩
    obtain ⟨hxl, rfl⟩ := List.getElem?_eq_some_iff.mp hx
    obtain ⟨hyl, rfl⟩ := List.getElem?_eq_some_iff.mp hy
    exact (h.get hxl hyl).2
  · rintro ⟨hs, ha⟩
    refine List.forall₂_iff_get.mpr ⟨hs.length_eq, fun position hx hy => ⟨hs.get hx hy, ?_⟩⟩
    exact ha position _ _ (List.getElem?_eq_getElem hx) (List.getElem?_eq_getElem hy)

theorem rel_imp {α β : Type} {r s : α → β → Prop} (h : ∀ x y, r x y → s x y) {x : Option α}
    {y : Option β} (hr : Option.Rel r x y) : Option.Rel s x y := by
  cases hr with
  | none => exact .none
  | some hxy => exact .some (h _ _ hxy)

/-- Two nodes are congruent if they agree in type, place and attributes, their
children are congruent slot by slot, and the slots that hold a child stand in the
same order. -/
theorem congruent_iff {a b : Node} (ha : a.NamesDistinct) (hb : b.NamesDistinct) :
    a.Congruent b ↔ a.nodeType = b.nodeType ∧ a.span = b.span ∧
      (∀ name, Fields.get? a.scalars name = Fields.get? b.scalars name) ∧
      (∀ name, Option.Rel (List.Forall₂ Congruent) (Fields.get? a.slots name)
        (Fields.get? b.slots name)) ∧ a.filledSlots = b.filledSlots := by
  rw [Congruent, same_iff ha hb, slotsAligned_iff]
  constructor
  · rintro ⟨⟨htype, hspan, hscalars, hslots⟩, hfilled, hchildren⟩
    refine ⟨htype, hspan, hscalars, fun name => ?_, hfilled⟩
    have h := hslots name
    cases hc : Fields.get? a.slots name with
    | none =>
      cases hc' : Fields.get? b.slots name with
      | none => exact .none
      | some others => simp [hc, hc'] at h
    | some children =>
      cases hc' : Fields.get? b.slots name with
      | none => simp [hc, hc'] at h
      | some others =>
        rw [hc, hc', Option.rel_some_some] at h
        refine .some (forall₂_congruent_iff.mpr ⟨h, fun position x y hx hy => ?_⟩)
        refine hchildren name position x y ?_ ?_
        · rw [child?_of_get? hc, hx]
        · rw [child?_of_get? hc', hy]
  · rintro ⟨htype, hspan, hscalars, hslots, hfilled⟩
    refine ⟨⟨htype, hspan, hscalars, fun name => ?_⟩, hfilled, fun name position x y hx hy => ?_⟩
    · exact rel_imp (fun _ _ h => (forall₂_congruent_iff.mp h).1) (hslots name)
    · obtain ⟨children, hc, hx⟩ := Option.bind_eq_some_iff.mp hx
      obtain ⟨others, hc', hy⟩ := Option.bind_eq_some_iff.mp hy
      have h := hslots name
      rw [hc, hc', Option.rel_some_some] at h
      exact (forall₂_congruent_iff.mp h).2 position x y hx hy

end TreeSeq.Node
