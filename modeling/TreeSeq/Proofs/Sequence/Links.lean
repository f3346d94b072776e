import TreeSeq.Proofs.Sequence.Unfolding
import Mathlib.Logic.Relation
import Mathlib.Order.WellFoundedSet
import Mathlib.Data.Set.Finite.List

/-!
# The references between the records of a sequence

The records of a sequence with their references are a graph. `WellLinked` says
when it is a forest that decoding can find: indices are distinct, references
are to records, no index is referenced twice, there is no cycle, and a root
has the least index of its tree. `Linked` leaves out the last condition, which is
about the numbers alone.

* `wellLinked_of_unfolds`: roots with the least indices of their trees that
  unfold into all records make a well-linked sequence, and are its roots;
* `Linked.exists_unfolds`: the roots of a linked sequence unfold, with every record
  used once.
-/

namespace TreeSeq.Sequence

open Relation (ReflTransGen TransGen)

/-- The record with index `i` has a reference to `j`. -/
def Refers (sequence : Sequence) (i j : Nat) : Prop :=
  ∃ record ∈ sequence, record.index = i ∧ j ∈ record.children

/-- From `i` one comes to `j` by following references, perhaps none. -/
abbrev Reaches (sequence : Sequence) : Nat → Nat → Prop :=
  ReflTransGen (Refers sequence)

/-- The references of all records, in order. -/
def references (sequence : Sequence) : List Nat :=
  sequence.flatMap Record.children

/-- The indices that no record references, in ascending order. -/
def roots (sequence : Sequence) : List Nat :=
  ((sequence.map (·.index)).filter (· ∉ sequence.references)).mergeSort (· ≤ ·)

/-- The records make up a forest in which every root has the least index of its
tree. -/
structure WellLinked (sequence : Sequence) : Prop where
  distinct : (sequence.map (·.index)).Nodup
  /-- Every reference is to a record. -/
  resolved : ∀ i ∈ sequence.references, i ∈ sequence.map (·.index)
  /-- No index is referenced twice. -/
  unshared : sequence.references.Nodup
  acyclic : ∀ i, ¬ TransGen sequence.Refers i i
  rootsFirst : ∀ i ∈ sequence.roots, ∀ j, sequence.Reaches i j → j ≠ i → i < j

/-- The records make up a forest, whatever their numbers are. -/
structure Linked (sequence : Sequence) : Prop where
  distinct : (sequence.map (·.index)).Nodup
  /-- Every reference is to a record. -/
  resolved : ∀ i ∈ sequence.references, i ∈ sequence.map (·.index)
  /-- No index is referenced twice. -/
  unshared : sequence.references.Nodup
  acyclic : ∀ i, ¬ TransGen sequence.Refers i i

variable {sequence : Sequence}

theorem WellLinked.linked (h : sequence.WellLinked) : sequence.Linked :=
  ⟨h.distinct, h.resolved, h.unshared, h.acyclic⟩

/-- A linked sequence is well linked just if its roots have the least indices of their
trees. -/
theorem Linked.wellLinked_iff (h : sequence.Linked) :
    sequence.WellLinked ↔ ∀ i ∈ sequence.roots, ∀ j, sequence.Reaches i j → i ≤ j := by
  constructor
  · intro hw i hi j hij
    by_cases he : j = i
    · exact Nat.le_of_eq he.symm
    · exact Nat.le_of_lt (hw.rootsFirst i hi j hij he)
  · intro hl
    exact ⟨h.distinct, h.resolved, h.unshared, h.acyclic,
      fun i hi j hij hne => Nat.lt_of_le_of_ne (hl i hi j hij) hne.symm⟩

theorem index_mem_of_refers {i j : Nat} (h : sequence.Refers i j) : i ∈ sequence.map (·.index) := by
  obtain ⟨record, hr, rfl, -⟩ := h
  exact List.mem_map_of_mem hr

theorem mem_references {j : Nat} : j ∈ sequence.references ↔ ∃ i, sequence.Refers i j := by
  simp only [references, Refers, List.mem_flatMap]
  constructor
  · intro ⟨record, hr, hj⟩
    exact ⟨_, record, hr, rfl, hj⟩
  · intro ⟨_, record, hr, _, hj⟩
    exact ⟨record, hr, hj⟩

theorem mem_roots {i : Nat} :
    i ∈ sequence.roots ↔ i ∈ sequence.map (·.index) ∧ i ∉ sequence.references := by
  simp [roots, List.mem_mergeSort]

theorem sortedLE_mergeSort (l : List Nat) : (l.mergeSort (· ≤ ·)).Pairwise (· ≤ ·) :=
  (List.pairwise_mergeSort (by simp; omega) (by simp; omega) _).imp (by simp)

theorem pairwise_mergeSort_index (records : Sequence) :
    (records.mergeSort fun a b => a.index ≤ b.index).Pairwise (·.index ≤ ·.index) :=
  (List.pairwise_mergeSort (by simp; omega) (by simp; omega) _).imp (by simp)

/-- Records with distinct indices are sorted in one way. -/
theorem mergeSort_eq_of_perm {records sorted : Sequence} (hd : (sorted.map (·.index)).Nodup)
    (hp : records.Perm sorted) (hs : sorted.Pairwise (·.index ≤ ·.index)) :
    (records.mergeSort fun a b => a.index ≤ b.index) = sorted := by
  have hm := (List.mergeSort_perm records fun a b => decide (a.index ≤ b.index)).trans hp
  refine hm.eq_of_pairwise (fun a b ha hb hab hba => ?_) (pairwise_mergeSort_index records) hs
  exact List.inj_on_of_nodup_map hd (hm.subset ha) hb (Nat.le_antisymm hab hba)

theorem nodup_roots (hd : (sequence.map (·.index)).Nodup) : sequence.roots.Nodup :=
  (List.mergeSort_perm _ _).nodup_iff.mpr (hd.filter _)

theorem ascending_roots (hd : (sequence.map (·.index)).Nodup) :
    sequence.roots.Pairwise (· < ·) :=
  ((sortedLE_mergeSort _).and (nodup_roots hd)).imp (by omega)

/-- The record of an index holds all references from there. -/
theorem mem_children_of_refers (hd : (sequence.map (·.index)).Nodup) {record : Record}
    (hr : record ∈ sequence) {j : Nat} (h : sequence.Refers record.index j) :
    j ∈ record.children := by
  obtain ⟨other, ho, he, hj⟩ := h
  rwa [← List.inj_on_of_nodup_map hd ho hr he]

/-! ## What unfolding says about references -/

namespace Unfolds

variable {refs : List Nat} {nodes : List Node} {records : List Record}

/-- Every record is reached from a reference that is unfolded. -/
theorem reached (h : Unfolds refs nodes records) (hs : records ⊆ sequence) :
    ∀ record ∈ records, ∃ i ∈ refs, sequence.Reaches i record.index := by
  induction h with
  | nil => simp
  | @cons record children nodes below after refs _ _ ihb iha =>
    obtain ⟨hrs, hs⟩ := List.cons_subset.mp hs
    obtain ⟨hbs, has⟩ := List.append_subset.mp hs
    simp only [List.mem_cons, List.mem_append]
    rintro r (rfl | hr | hr)
    · exact ⟨_, .inl rfl, .refl⟩
    · obtain ⟨j, hj, hjr⟩ := ihb hbs r hr
      exact ⟨_, .inl rfl, hjr.head ⟨record, hrs, rfl, hj⟩⟩
    · obtain ⟨i, hi, hir⟩ := iha has r hr
      exact ⟨i, .inr hi, hir⟩

/-- Following references from a record one stays among the records. -/
theorem closed (h : Unfolds refs nodes records) (hs : records ⊆ sequence)
    (hd : (sequence.map (·.index)).Nodup) {i j : Nat} (hi : i ∈ records.map (·.index))
    (hr : sequence.Reaches i j) : j ∈ records.map (·.index) := by
  induction hr with
  | refl => exact hi
  | tail _ hjk ih =>
    obtain ⟨record, hr, rfl⟩ := List.mem_map.mp ih
    exact h.children_subset hr (mem_children_of_refers hd (hs hr) hjk)

/-- No endless path of references starts from a record. -/
theorem acc (h : Unfolds refs nodes records) (hs : records ⊆ sequence)
    (hd : (sequence.map (·.index)).Nodup) :
    ∀ i ∈ records.map (·.index), Acc (fun j i => sequence.Refers i j) i := by
  induction h with
  | nil => simp
  | @cons record children nodes below after refs hb _ ihb iha =>
    obtain ⟨hrs, hs⟩ := List.cons_subset.mp hs
    obtain ⟨hbs, has⟩ := List.append_subset.mp hs
    simp only [List.map_cons, List.map_append, List.mem_cons, List.mem_append]
    rintro i (rfl | hi | hi)
    · exact ⟨_, fun j hj => ihb hbs j (hb.refs_subset (mem_children_of_refers hd hrs hj))⟩
    · exact ihb hbs i hi
    · exact iha has i hi

end Unfolds

theorem not_rel_of_acc {α : Type} {r : α → α → Prop} {a : α} (h : Acc r a) : ¬ r a a := by
  induction h with
  | intro a _ ih => exact fun ha => ih a ha ha

/-- The indices are those of the roots and the references. -/
theorem perm_roots_references {roots : List Nat} {trees : List Node} {records : List Record}
    (h : Unfolds roots trees records) (hp : records.Perm sequence) :
    (sequence.map (·.index)).Perm (roots ++ sequence.references) :=
  (hp.map _).symm.trans (h.perm.trans ((hp.flatMap_right _).append_left _))

theorem wellLinked_of_unfolds {roots : List Nat} {trees : List Node} {records : List Record}
    (hd : (sequence.map (·.index)).Nodup) (h : Unfolds roots trees records)
    (hp : records.Perm sequence) (ha : roots.Pairwise (· < ·))
    (hl : ∀ i ∈ roots, ∀ j, sequence.Reaches i j → i ≤ j) :
    sequence.WellLinked ∧ sequence.roots = roots := by
  have hperm := perm_roots_references h hp
  obtain ⟨_, hu, hdis⟩ := List.nodup_append.mp (hperm.nodup_iff.mp hd)
  have hmem : ∀ i, i ∈ sequence.roots ↔ i ∈ roots := by
    intro i
    rw [mem_roots, hperm.mem_iff, List.mem_append]
    constructor
    · rintro ⟨hi | hi, hn⟩
      · exact hi
      · exact absurd hi hn
    · exact fun hi => ⟨.inl hi, fun hr => hdis i hi i hr rfl⟩
  refine ⟨⟨hd, fun i hi => hperm.symm.subset (List.mem_append_right _ hi), hu, fun i hi => ?_,
    fun i hi j hij hne => ?_⟩, ?_⟩
  · -- a cycle is an endless path from a record
    obtain ⟨j, hij, -⟩ := Relation.TransGen.head'_iff.mp hi
    have hacc := h.acc hp.subset hd _ ((hp.map _).symm.subset (index_mem_of_refers hij))
    exact not_rel_of_acc hacc.transGen (Relation.transGen_swap.mpr hi)
  · have := hl i ((hmem i).mp hi) j hij
    omega
  · refine List.Perm.eq_of_pairwise (fun a b _ _ => Nat.le_antisymm) (sortedLE_mergeSort _)
      (ha.imp Nat.le_of_lt) ?_
    exact (List.perm_ext_iff_of_nodup (nodup_roots hd) ha.nodup).mpr hmem

/-! ## Unfolding the roots of a linked sequence -/

/-- Induction along a relation without cycles on the members of a list. -/
theorem induction_of_acyclic {α : Type} {r : α → α → Prop} {l : List α}
    (hr : ∀ a, ¬ TransGen r a a) {P : α → Prop}
    (hP : ∀ a ∈ l, (∀ b ∈ l, r b a → P b) → P a) : ∀ a ∈ l, P a := by
  have : IsStrictOrder α (TransGen r) := { irrefl := hr, trans := fun _ _ _ => .trans }
  intro a ha
  refine Set.WellFoundedOn.induction (r := TransGen r) (s := {a | a ∈ l})
    (List.finite_toSet l).wellFoundedOn ha fun b hb ih => hP b hb fun c hc hcb => ih c hc (.single hcb)

/-- Nothing is reached both from `i` and from `j`. -/
def Apart (sequence : Sequence) (i j : Nat) : Prop :=
  ∀ k, sequence.Reaches i k → ¬ sequence.Reaches j k

/-- Lists of references unfold if each reference does. -/
theorem exists_unfolds_of_forall (refs : List Nat)
    (h : ∀ i ∈ refs, ∃ tree records, Unfolds [i] [tree] records ∧ records ⊆ sequence) :
    ∃ trees records, Unfolds refs trees records ∧ records ⊆ sequence := by
  induction refs with
  | nil => exact ⟨[], [], .nil, by simp⟩
  | cons i refs ih =>
    obtain ⟨tree, below, hb, hbs⟩ := h i (by simp)
    obtain ⟨trees, after, ha, has⟩ := ih fun j hj => h j (by simp [hj])
    exact ⟨tree :: trees, below ++ after, hb.append ha, List.append_subset.mpr ⟨hbs, has⟩⟩

namespace Linked

variable (h : sequence.Linked)

include h

theorem nodup_children {record : Record} (hr : record ∈ sequence) : record.children.Nodup :=
  (List.nodup_flatMap.mp h.unshared).1 record hr

/-- At most one record references an index. -/
theorem refers_unique {i j k : Nat} (hi : sequence.Refers i k) (hj : sequence.Refers j k) : i = j := by
  obtain ⟨a, ha, rfl, hak⟩ := hi
  obtain ⟨b, hb, rfl, hbk⟩ := hj
  have : Std.Symm (Function.onFun List.Disjoint Record.children) := ⟨fun _ _ => List.Disjoint.symm⟩
  by_contra hne
  have hdis := (List.nodup_flatMap.mp h.unshared).2
  exact hdis.forall ha hb (fun he => hne (he ▸ rfl)) hak hbk

/-- Of two indices from which a third is reached one reaches the other. -/
theorem reaches_total {i j k : Nat} (hi : sequence.Reaches i k) (hj : sequence.Reaches j k) :
    sequence.Reaches i j ∨ sequence.Reaches j i := by
  have := ReflTransGen.total_of_right_unique (r := Function.swap sequence.Refers)
    (fun _ _ _ => h.refers_unique) (Relation.reflTransGen_swap.mpr hi)
    (Relation.reflTransGen_swap.mpr hj)
  exact this.symm.imp Relation.reflTransGen_swap.mp Relation.reflTransGen_swap.mp

/-- Two indices are apart if neither reaches a record that references the
other. -/
theorem apart {i j : Nat} (hne : i ≠ j) (hij : ∀ p, sequence.Refers p j → ¬ sequence.Reaches i p)
    (hji : ∀ p, sequence.Refers p i → ¬ sequence.Reaches j p) : sequence.Apart i j := by
  intro k hik hjk
  rcases h.reaches_total hik hjk with hr | hr
  · obtain rfl | ⟨p, hp, hpj⟩ := hr.cases_tail
    · exact hne rfl
    · exact hij p hpj hp
  · obtain rfl | ⟨p, hp, hpi⟩ := hr.cases_tail
    · exact hne rfl
    · exact hji p hpi hp

theorem apart_roots : sequence.roots.Pairwise sequence.Apart := by
  refine (nodup_roots h.distinct).pairwise_of_forall_ne fun i hi j hj hne => h.apart hne ?_ ?_
  · exact fun p hp _ => (mem_roots.mp hj).2 (mem_references.mpr ⟨p, hp⟩)
  · exact fun p hp _ => (mem_roots.mp hi).2 (mem_references.mpr ⟨p, hp⟩)

theorem apart_children {record : Record} (hr : record ∈ sequence) :
    record.children.Pairwise sequence.Apart := by
  -- a child that reaches the record lies on a cycle
  have hc : ∀ i ∈ record.children, ∀ j ∈ record.children, ∀ p, sequence.Refers p j →
      ¬ sequence.Reaches i p := by
    intro i hi j hj p hp hip
    rw [h.refers_unique hp ⟨record, hr, rfl, hj⟩] at hip
    exact h.acyclic record.index (.head' ⟨record, hr, rfl, hi⟩ hip)
  exact (h.nodup_children hr).pairwise_of_forall_ne fun i hi j hj hne =>
    h.apart hne (hc i hi j hj) (hc j hj i hi)

/-- References apart from each other unfold without using a record twice. -/
theorem nodup_of_unfolds {refs : List Nat} {nodes : List Node} {records : List Record}
    (hu : Unfolds refs nodes records) (hs : records ⊆ sequence) (ha : refs.Pairwise sequence.Apart) :
    (records.map (·.index)).Nodup := by
  induction hu with
  | nil => simp
  | @cons record children nodes below after refs hb hn ihb iha =>
    obtain ⟨hrs, hs⟩ := List.cons_subset.mp hs
    obtain ⟨hbs, has⟩ := List.append_subset.mp hs
    obtain ⟨hra, ha⟩ := List.pairwise_cons.mp ha
    have hbelow : ∀ r ∈ below, TransGen sequence.Refers record.index r.index := by
      intro r hr
      obtain ⟨i, hi, hir⟩ := hb.reached hbs r hr
      exact .head' ⟨record, hrs, rfl, hi⟩ hir
    have hafter : ∀ r ∈ after, ¬ sequence.Reaches record.index r.index := by
      intro r hr hrr
      obtain ⟨i, hi, hir⟩ := hn.reached has r hr
      exact hra i hi _ hrr hir
    simp only [List.map_cons, List.map_append, List.nodup_cons, List.mem_append, List.mem_map, not_or,
      not_exists, not_and]
    refine ⟨⟨fun r hr he => h.acyclic record.index (he ▸ hbelow r hr), fun r hr he =>
      hafter r hr (he ▸ .refl)⟩, List.nodup_append.mpr ⟨ihb hbs (h.apart_children hrs), iha has ha,
      fun i hi j hj he => ?_⟩⟩
    obtain ⟨a, ha, rfl⟩ := List.mem_map.mp hi
    obtain ⟨b, hb, rfl⟩ := List.mem_map.mp hj
    exact hafter b hb (he ▸ (hbelow a ha).to_reflTransGen)

/-- Every index unfolds into a tree. -/
theorem exists_unfolds_index : ∀ i ∈ sequence.map (·.index),
    ∃ tree records, Unfolds [i] [tree] records ∧ records ⊆ sequence := by
  refine induction_of_acyclic (r := Function.swap sequence.Refers) (fun i hi =>
    h.acyclic i (Relation.transGen_swap.mp hi)) fun i hi ih => ?_
  obtain ⟨record, hr, rfl⟩ := List.mem_map.mp hi
  obtain ⟨children, below, hb, hbs⟩ := exists_unfolds_of_forall record.children
    fun j hj => ih j (h.resolved j (mem_references.mpr ⟨_, record, hr, rfl, hj⟩)) ⟨record, hr, rfl, hj⟩
  exact ⟨_, _, .single record hb, List.cons_subset.mpr ⟨hr, hbs⟩⟩

/-- Every index is reached from a root. -/
theorem reached_from_root : ∀ i ∈ sequence.map (·.index),
    ∃ root ∈ sequence.roots, sequence.Reaches root i := by
  refine induction_of_acyclic h.acyclic fun i hi ih => ?_
  by_cases hr : i ∈ sequence.references
  · obtain ⟨j, hj⟩ := mem_references.mp hr
    obtain ⟨root, hroot, hrj⟩ := ih j (index_mem_of_refers hj) hj
    exact ⟨root, hroot, hrj.tail hj⟩
  · exact ⟨i, mem_roots.mpr ⟨hi, hr⟩, .refl⟩

/-- The roots of a linked sequence unfold into trees in which every record is used
once. -/
theorem exists_unfolds : ∃ trees records, Unfolds sequence.roots trees records ∧
    records.Perm sequence := by
  obtain ⟨trees, records, hu, hs⟩ := exists_unfolds_of_forall sequence.roots
    fun i hi => h.exists_unfolds_index i (mem_roots.mp hi).1
  have hd := h.nodup_of_unfolds hu hs h.apart_roots
  refine ⟨trees, records, hu, (List.perm_ext_iff_of_nodup hd.of_map h.distinct.of_map).mpr
    fun record => ⟨fun hr => hs hr, fun hr => ?_⟩⟩
  obtain ⟨root, hroot, hreach⟩ := h.reached_from_root _ (List.mem_map_of_mem hr)
  obtain ⟨other, ho, he⟩ := List.mem_map.mp
    (hu.closed hs h.distinct (hu.refs_subset hroot) hreach)
  exact List.inj_on_of_nodup_map h.distinct (hs ho) hr he ▸ ho

end Linked

theorem WellLinked.exists_unfolds (h : sequence.WellLinked) :
    ∃ trees records, Unfolds sequence.roots trees records ∧ records.Perm sequence :=
  h.linked.exists_unfolds

end TreeSeq.Sequence
