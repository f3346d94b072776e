import TreeSeq.Proofs.Sequence.Links
import TreeSeq.Proofs.Tree.Depth

/-!
# How deep records lie

`AtDepth refers n i` counts the references on the way up from `i`, for any relation that
tells which index refers to which. With all references of a sequence it is the depth of
the node that a record stands for (`Unfolds.forall₂_depths`). With those alone that lead to
a greater index (`Rises`) it may be less (`AtDepth.le_of_rises`); it is the same if no
reference leads down (`rises_iff_refers`).
-/

namespace TreeSeq.Sequence

variable {sequence : Sequence} {refers : Nat → Nat → Prop} {m n i : Nat}

/-- There are `n` references on the way up from `i` to an index that nothing refers to. -/
inductive AtDepth (refers : Nat → Nat → Prop) : Nat → Nat → Prop where
  | top {i : Nat} (h : ∀ parent, ¬ refers parent i) : AtDepth refers 0 i
  | under {n parent i : Nat} (h : AtDepth refers n parent) (hr : refers parent i) :
    AtDepth refers (n + 1) i

/-- The record with index `i` has a reference to the greater index `j`. -/
def Rises (sequence : Sequence) (i j : Nat) : Prop :=
  sequence.Refers i j ∧ i < j

/-- The references to a greater index than that of the record. -/
def ascents (sequence : Sequence) : List Nat :=
  sequence.flatMap fun record => record.children.filter (record.index < ·)

/-- The references to an index that is no greater than that of the record. -/
def descents (sequence : Sequence) : List Nat :=
  sequence.flatMap fun record => record.children.filter (· ≤ record.index)

theorem mem_ascents : i ∈ sequence.ascents ↔ ∃ parent, sequence.Rises parent i := by
  simp only [ascents, Rises, Refers, List.mem_flatMap, List.mem_filter, decide_eq_true_eq]
  constructor
  · rintro ⟨record, hr, hi, hlt⟩
    exact ⟨_, ⟨record, hr, rfl, hi⟩, hlt⟩
  · rintro ⟨_, ⟨record, hr, rfl, hi⟩, hlt⟩
    exact ⟨record, hr, hi, hlt⟩

theorem mem_descents : i ∈ sequence.descents ↔ ∃ parent, sequence.Refers parent i ∧ i ≤ parent := by
  simp only [descents, Refers, List.mem_flatMap, List.mem_filter, decide_eq_true_eq]
  constructor
  · rintro ⟨record, hr, hi, hle⟩
    exact ⟨_, ⟨record, hr, rfl, hi⟩, hle⟩
  · rintro ⟨_, ⟨record, hr, rfl, hi⟩, hle⟩
    exact ⟨record, hr, hi, hle⟩

/-- Without references that lead down, every reference leads up. -/
theorem rises_iff_refers (h : sequence.descents = []) {parent : Nat} :
    sequence.Rises parent i ↔ sequence.Refers parent i := by
  refine ⟨And.left, fun hr => ⟨hr, ?_⟩⟩
  by_contra hlt
  exact List.not_mem_nil (h ▸ mem_descents.mpr ⟨parent, hr, Nat.not_lt.mp hlt⟩)

/-! ## Counting on the way up -/

namespace AtDepth

theorem unique (h : AtDepth refers m i) (h' : AtDepth refers n i)
    (hu : ∀ {p q i}, refers p i → refers q i → p = q) : m = n := by
  induction h generalizing n with
  | top h =>
    cases h' with
    | top => rfl
    | under _ hr => exact absurd hr (h _)
  | under _ hr ih =>
    cases h' with
    | top h => exact absurd hr (h _)
    | under h hr' =>
      obtain rfl := hu hr hr'
      rw [ih h]

/-- Every index lies at some depth, as far as references lead up. -/
theorem exists_rises (sequence : Sequence) (i : Nat) : ∃ n, AtDepth sequence.Rises n i := by
  induction i using Nat.strong_induction_on with
  | h i ih =>
    by_cases h : ∃ parent, sequence.Rises parent i
    · obtain ⟨parent, hr⟩ := h
      obtain ⟨n, hn⟩ := ih parent hr.2
      exact ⟨n + 1, hn.under hr⟩
    · exact ⟨0, .top fun parent hr => h ⟨parent, hr⟩⟩

/-- There are no fewer references on the way up if those count that lead down. -/
theorem le_of_rises (hl : sequence.Linked) (h : AtDepth sequence.Rises m i)
    (h' : AtDepth sequence.Refers n i) : m ≤ n := by
  induction h generalizing n with
  | top => exact Nat.zero_le n
  | under _ hr ih =>
    cases h' with
    | top h => exact absurd hr.1 (h _)
    | under h hr' =>
      obtain rfl := hl.refers_unique hr.1 hr'
      exact Nat.succ_le_succ (ih h)

end AtDepth

/-! ## The depths of nodes -/

/-- Records lie as deep as the nodes that they stand for. -/
theorem Unfolds.forall₂_depths {refs : List Nat} {nodes : List Node} {records : List Record}
    (h : Unfolds refs nodes records) (hs : records ⊆ sequence) {depth : Nat}
    (hd : ∀ i ∈ refs, AtDepth sequence.Refers depth i) :
    List.Forall₂ (fun record depth => AtDepth sequence.Refers depth record.index) records
      (nodes.flatMap (Node.depthsFrom depth)) := by
  induction h generalizing depth with
  | nil => exact .nil
  | @cons record children nodes below after refs hb _ ihb iha =>
    obtain ⟨hrs, hs⟩ := List.cons_subset.mp hs
    obtain ⟨hbs, has⟩ := List.append_subset.mp hs
    obtain ⟨hrecord, hrefs⟩ := List.forall_mem_cons.mp hd
    have hchildren : ∀ i ∈ record.children, AtDepth sequence.Refers (depth + 1) i :=
      fun i hi => hrecord.under ⟨record, hrs, rfl, hi⟩
    rw [List.flatMap_cons, Node.depthsFrom_eq, Record.children_node record hb.length_eq,
      List.cons_append]
    exact .cons hrecord (List.rel_append (ihb hbs hchildren) (iha has hrefs))

theorem atDepth_root (hi : i ∈ sequence.roots) : AtDepth sequence.Refers 0 i :=
  .top fun parent hr => (mem_roots.mp hi).2 (mem_references.mpr ⟨parent, hr⟩)

/-- Every record of a linked sequence lies at some depth. -/
theorem Linked.exists_atDepth (hl : sequence.Linked) (hi : i ∈ sequence.map (·.index)) :
    ∃ depth, AtDepth sequence.Refers depth i := by
  obtain ⟨root, hroot, hr⟩ := hl.reached_from_root i hi
  clear hi
  induction hr with
  | refl => exact ⟨0, atDepth_root hroot⟩
  | tail _ hr ih =>
    obtain ⟨depth, hd⟩ := ih
    exact ⟨depth + 1, hd.under hr⟩

/-- The greatest depth of a node in the trees of a linked sequence is that of a record. -/
theorem Linked.deepest_le_iff (hl : sequence.Linked) {trees : List Node} {records : List Record}
    (hu : Unfolds sequence.roots trees records) (hp : records.Perm sequence) :
    Node.deepest trees ≤ n ↔
      ∀ record ∈ sequence, ∀ depth, AtDepth sequence.Refers depth record.index → depth ≤ n := by
  have hdepths := hu.forall₂_depths hp.subset fun i hi => atDepth_root hi
  rw [Node.deepest_le_iff]
  constructor
  · intro h record hr depth hd
    obtain ⟨found, hf, hrecord⟩ := exists_of_forall₂ hdepths.flip record (hp.symm.subset hr)
    rw [hd.unique hrecord hl.refers_unique]
    exact h found hf
  · intro h depth hd
    obtain ⟨record, hr, hrecord⟩ := exists_of_forall₂ hdepths depth hd
    exact h record (hp.subset hr) depth hrecord

end TreeSeq.Sequence
