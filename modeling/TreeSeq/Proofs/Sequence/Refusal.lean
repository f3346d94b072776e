import TreeSeq.Proofs.Sequence.Forest

/-!
# Linked sequences that are not decoded

In a linked sequence every tree could be built: its roots unfold, with every record
used once. The scan knows a root only by its being in no tree yet, so a record with a
smaller index than the one that references it is built first, as a tree of its own.
When the record above it is reached, the reference is refused as a repeated one,
though there is no other.

* `grow_or_refused`: references grow into their trees, or the first one to a record
  that was placed before is refused;
* `Linked.treesFrom_or_refused`: the same for the scan, with what it took for a root.

A linked sequence is decoded into the trees of its roots just if each root has the
least index of its tree.
-/

namespace TreeSeq.Sequence

open Relation (ReflTransGen TransGen)

variable {sequence : Sequence} {table unplaced : Table} {placed order : List Nat}

theorem Holds.get?_eq_none (h : Holds unplaced sequence placed) {i : Nat} (hi : i ∈ placed) :
    unplaced[i]? = none := by
  cases hr : unplaced[i]? with
  | none => rfl
  | some record => exact absurd hi ((h i record).mp hr).2.2

/-- References that unfold, with no record used twice, grow into the same trees unless
one of the records has been placed before, among those of `old`. Then the reference to
the first such record is refused. -/
theorem grow_or_refused {refs : List Nat} {nodes : List Node} {records : List Record}
    (h : Unfolds refs nodes records) (table : Table) {parent : Nat} {old new : List Nat}
    (hr : ∀ i ∈ refs, i ∈ old → parent ∉ old ∧ sequence.Refers parent i)
    (hf : Fresh sequence new records) (hu : Holds unplaced sequence (new ++ old)) :
    (∃ rest, grow table parent unplaced refs = .ok (nodes, rest) ∧
      Holds rest.1 sequence (records.map (·.index) ++ new ++ old)) ∨
    ∃ p c, grow table parent unplaced refs = .error (refusal table p c) ∧
      c ∈ old ∧ p ∉ old ∧ sequence.Refers p c := by
  induction h generalizing parent unplaced new with
  | nil => exact .inl ⟨⟨unplaced, Nat.le_refl _⟩, by rw [grow], hu⟩
  | @cons record children nodes below after refs _ _ ihb iha =>
    obtain ⟨⟨hrs, hrn⟩, hbf, haf⟩ := fresh_cons_append.mp hf
    by_cases hro : record.index ∈ old
    · have hnone := hu.get?_eq_none (List.mem_append_right new hro)
      obtain ⟨hp, hrefers⟩ := hr _ List.mem_cons_self hro
      exact .inr ⟨parent, record.index, grow_refused hnone refs, hro, hp, hrefers⟩
    have hc : unplaced[record.index]? = some record :=
      hu.get? hrs (by rw [List.mem_append, not_or]; exact ⟨hrn, hro⟩)
    have hbr : ∀ i ∈ record.children, i ∈ old →
        record.index ∉ old ∧ sequence.Refers record.index i :=
      fun i hi _ => ⟨hro, record, hrs, rfl, hi⟩
    rcases ihb hbr hbf (hu.erase record.index) with ⟨inner, hi, hiu⟩ | ⟨p, c, he, hrefused⟩
    · rcases iha (fun i hi => hr i (List.mem_cons_of_mem _ hi)) haf hiu with
        ⟨rest, hg, hru⟩ | ⟨p, c, he, hrefused⟩
      · refine .inl ⟨_, by rw [grow_descend hc, hi]; simp only [hg]; rfl, hru.congr fun i => ?_⟩
        simp only [List.mem_append, List.map_cons, List.map_append, List.mem_cons, List.cons_append]
        tauto
      · exact .inr ⟨p, c, by rw [grow_descend hc, hi]; simp only [he], hrefused⟩
    · exact .inr ⟨p, c, by rw [grow_descend hc, he], hrefused⟩

theorem index_mem_of_reaches {i j : Nat} (h : sequence.Reaches i j)
    (hj : j ∈ sequence.map (·.index)) : i ∈ sequence.map (·.index) := by
  obtain rfl | ⟨k, hk, -⟩ := h.cases_head
  · exact hj
  · exact index_mem_of_refers hk

namespace Linked

variable (h : sequence.Linked)

include h

/-- Whatever reaches a record, other than the record itself, reaches the one that
references it. -/
theorem reaches_of_refers {i p c : Nat} (hr : sequence.Reaches i c) (hp : sequence.Refers p c) :
    i = c ∨ sequence.Reaches i p := by
  obtain rfl | ⟨q, hq, hqc⟩ := hr.cases_tail
  · exact .inl rfl
  · exact .inr (h.refers_unique hqc hp ▸ hq)

/-- An index unfolds into a tree with the records that it reaches. -/
theorem exists_unfolds_reached {i : Nat} (hi : i ∈ sequence.map (·.index)) :
    ∃ tree records, Unfolds [i] [tree] records ∧ Fresh sequence [] records ∧
      ∀ j, j ∈ records.map (·.index) ↔ sequence.Reaches i j := by
  obtain ⟨tree, records, hu, hs⟩ := h.exists_unfolds_index i hi
  have hd := h.nodup_of_unfolds hu hs (List.pairwise_singleton _ _)
  refine ⟨tree, records, hu, ⟨hs, hd, by simp⟩, fun j => ⟨fun hj => ?_, fun hj => ?_⟩⟩
  · obtain ⟨record, hr, rfl⟩ := List.mem_map.mp hj
    obtain ⟨k, hk, hreach⟩ := hu.reached hs record hr
    rwa [List.mem_singleton.mp hk] at hreach
  · exact hu.closed hs h.distinct (hu.refs_subset (List.mem_singleton_self i)) hj

/-- The scan of a linked sequence goes through, or it is refused a record that it took
for a root: none that reaches it has a smaller index. `placed` are the indices that are
reached from those before `order`. -/
theorem treesFrom_or_refused (table : Table) (found : List Node) {before : List Nat}
    (hu : Holds unplaced sequence placed)
    (hp : ∀ j, j ∈ placed ↔ ∃ i ∈ before, sequence.Reaches i j)
    (ha : (before ++ order).Pairwise (· < ·))
    (hm : ∀ i, i ∈ before ++ order ↔ i ∈ sequence.map (·.index)) :
    (∃ trees, treesFrom table unplaced found order = .ok trees) ∨
    ∃ child parent, treesFrom table unplaced found order = .error (refusal table parent child) ∧
      sequence.Refers parent child ∧ ∀ i, sequence.Reaches i child → child ≤ i := by
  induction order generalizing unplaced placed found before with
  | nil => exact .inl ⟨_, rfl⟩
  | cons root rest ih =>
    have hroot : root ∈ sequence.map (·.index) := (hm root).mp (by simp)
    rw [List.append_cons] at ha hm
    rw [treesFrom]
    by_cases hip : root ∈ placed
    · rw [if_neg fun hc => ((hu.contains_iff root).mp hc).2 hip]
      refine ih _ hu (fun j => ?_) ha hm
      obtain ⟨k, hk, hkr⟩ := (hp root).mp hip
      rw [hp j]
      constructor
      · rintro ⟨i, hi, hij⟩
        exact ⟨i, List.mem_append_left _ hi, hij⟩
      · rintro ⟨i, hi, hij⟩
        rcases List.mem_append.mp hi with hi | hi
        · exact ⟨i, hi, hij⟩
        · rw [List.mem_singleton.mp hi] at hij
          exact ⟨k, hk, hkr.trans hij⟩
    rw [if_pos ((hu.contains_iff root).mpr ⟨hroot, hip⟩)]
    obtain ⟨tree, records, ht, hf, hreach⟩ := h.exists_unfolds_reached hroot
    obtain ⟨record, hr, hri⟩ := List.mem_map.mp hroot
    have hget : unplaced[root]? = some record := (hu root record).mpr ⟨hr, hri, hip⟩
    have hold : ∀ i ∈ [root], i ∈ placed → (0 : Nat) ∉ placed ∧ sequence.Refers 0 i := by
      rintro i hi hip'
      rw [List.mem_singleton.mp hi] at hip'
      exact absurd hip' hip
    rw [grow_root hget 0]
    rcases grow_or_refused ht table hold hf hu with ⟨inner, hg, hiu⟩ | ⟨p, c, he, hc, hpo, hrefers⟩
    · rw [hg]
      refine ih _ hiu (fun j => ?_) ha hm
      rw [List.append_nil, List.mem_append, hreach, hp j]
      simp only [List.mem_append, List.mem_singleton, or_and_right, exists_or, exists_eq_left]
      exact or_comm
    · rw [he]
      refine .inr ⟨c, p, rfl, hrefers, fun i hic => ?_⟩
      -- no index before the root reaches `p`, so `c` is one of them, and `i` is not
      have hnp : ∀ k ∈ before, ¬ sequence.Reaches k p := fun k hk hkp => hpo ((hp p).mpr ⟨k, hk, hkp⟩)
      obtain ⟨k, hk, hkc⟩ := (hp c).mp hc
      obtain rfl := (h.reaches_of_refers hkc hrefers).resolve_right (hnp k hk)
      rcases h.reaches_of_refers hic hrefers with rfl | hip'
      · exact Nat.le_refl _
      · have hi := (hm i).mpr (index_mem_of_reaches hip' (index_mem_of_refers hrefers))
        rw [List.append_assoc, List.mem_append] at hi
        rw [List.append_assoc, List.pairwise_append] at ha
        exact Nat.le_of_lt (ha.2.2 k hk i (hi.resolve_left fun hb => hnp i hb hip'))

/-- The roots of a linked sequence unfold into trees in which every record is used
once. Decoding finds these trees if each root has the least index of its tree.
Otherwise a reference is refused as a repeated one; it is the only one to its record,
and nothing that reaches the record has a smaller index. -/
theorem forest_eq_or_refused : ∃ trees records, Unfolds sequence.roots trees records ∧
    records.Perm sequence ∧
    ((∀ i ∈ sequence.roots, ∀ j, sequence.Reaches i j → i ≤ j) → sequence.forest = .ok trees) ∧
    (¬ (∀ i ∈ sequence.roots, ∀ j, sequence.Reaches i j → i ≤ j) →
      ∃ child parent, sequence.forest = .error (.sequence (.repeatedReference child parent)) ∧
        sequence.Refers parent child ∧ sequence.references.count child = 1 ∧
        ∀ i, sequence.Reaches i child → child ≤ i) := by
  obtain ⟨trees, records, hu, hp⟩ := h.exists_unfolds
  refine ⟨trees, records, hu, hp, fun hl => ?_, fun hn => ?_⟩
  · exact forest_eq_ok_iff.mpr ⟨h.wellLinked_iff.mpr hl, records, hu, hp⟩
  · obtain ⟨full, hfull, hf⟩ := forest_eq_treesFrom h.distinct
    have hm : ∀ i, i ∈ [] ++ (sequence.map (·.index)).mergeSort (· ≤ ·) ↔
        i ∈ sequence.map (·.index) := fun i => (List.mergeSort_perm _ _).mem_iff
    rcases h.treesFrom_or_refused full [] hfull (by simp)
      (ascending_indices h.distinct) hm with ⟨found, hok⟩ | ⟨child, parent, he, hr, hle⟩
    · exact absurd (h.wellLinked_iff.mp (forest_eq_ok_iff.mp (hf.trans hok)).1) hn
    · have hmem : child ∈ sequence.references := mem_references.mpr ⟨parent, hr⟩
      have hc : full.contains child = true :=
        (hfull.contains_iff child).mpr ⟨h.resolved child hmem, by simp⟩
      refine ⟨child, parent, ?_, hr, List.count_eq_one_of_mem h.unshared hmem, hle⟩
      rw [hf, he, refusal, if_pos hc]

end Linked

/-! ## A child in front of its parent -/

/-- Two records, of which the one with the greater index references the other. -/
def childFirst : Sequence :=
  [⟨0, "ID", [], [], none⟩, ⟨1, "Return", [], [("expr", [0])], none⟩]

theorem refers_childFirst {i j : Nat} (h : childFirst.Refers i j) : i = 1 ∧ j = 0 := by
  obtain ⟨record, hr, rfl, hj⟩ := h
  simp only [childFirst, List.mem_cons, List.not_mem_nil, or_false] at hr
  rcases hr with rfl | rfl
  · cases hj
  · exact ⟨rfl, List.mem_singleton.mp hj⟩

theorem linked_childFirst : childFirst.Linked := by
  refine ⟨by decide, by decide, by decide, fun i hi => ?_⟩
  -- the first reference of a cycle starts from 1, the last one ends at 0
  obtain ⟨j, hj, -⟩ := Relation.TransGen.head'_iff.mp hi
  obtain ⟨k, -, hk⟩ := Relation.TransGen.tail'_iff.mp hi
  have h1 := (refers_childFirst hj).1
  have h0 := (refers_childFirst hk).2
  omega

theorem not_rootsFirst_childFirst :
    ¬ ∀ i ∈ childFirst.roots, ∀ j, childFirst.Reaches i j → i ≤ j := by
  intro h
  have hroot : 1 ∈ childFirst.roots := mem_roots.mpr ⟨by decide, by decide⟩
  have hreach : childFirst.Reaches 1 0 := .single ⟨_, List.mem_of_getLast? rfl, rfl, by decide⟩
  have := h 1 hroot 0 hreach
  omega

/-- The two records are linked, and their one reference is refused as a repeated one. -/
theorem forest_eq_or_refused_childFirst :
    childFirst.Linked ∧
      childFirst.forest = .error (.sequence (.repeatedReference 0 1)) := by
  obtain ⟨-, -, -, -, -, hrefused⟩ := linked_childFirst.forest_eq_or_refused
  obtain ⟨child, parent, he, hr, -⟩ := hrefused not_rootsFirst_childFirst
  obtain ⟨rfl, rfl⟩ := refers_childFirst hr
  exact ⟨linked_childFirst, he⟩

/-- Linked records need not be decoded into the trees of their roots. -/
theorem not_forest_childFirst :
    childFirst.Linked ∧ childFirst.roots = [1] ∧ ∀ trees, childFirst.forest ≠ .ok trees := by
  refine ⟨linked_childFirst, by simp [roots, references, Record.children, childFirst],
    fun trees h => ?_⟩
  exact not_rootsFirst_childFirst (linked_childFirst.wellLinked_iff.mp (forest_eq_ok_iff.mp h).1)

end TreeSeq.Sequence
