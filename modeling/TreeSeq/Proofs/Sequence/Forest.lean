import TreeSeq.Proofs.Sequence.Links

/-!
# Decoding finds the forest of a sequence

The scan in ascending order of index takes the first record that is in no tree
yet for a root. It ends without an error just for well-linked sequences, and
then its trees are what the roots unfold into.

* `forest_eq_ok_iff`: decoding succeeds with these trees just if the sequence
  is well linked and its roots unfold into them, with every record used once;
* `forest_ok_iff_wellLinked`: when decoding succeeds, and what it returns.
-/

namespace TreeSeq.Sequence

variable {sequence : Sequence} {table unplaced : Table} {placed order : List Nat}

theorem Holds.insert {record : Record} (h : Holds table sequence [])
    (hr : record.index ∉ sequence.map (·.index)) :
    Holds (table.insert record.index record) (sequence ++ [record]) [] := by
  intro i other
  rw [Std.HashMap.getElem?_insert]
  simp only [List.mem_append, List.mem_singleton, List.not_mem_nil, not_false_eq_true, and_true,
    beq_iff_eq]
  split
  · rename_i hi
    subst hi
    constructor
    · rintro ⟨⟩
      exact ⟨.inr rfl, rfl⟩
    · rintro ⟨ho | rfl, he⟩
      · exact absurd (he ▸ List.mem_map_of_mem ho) hr
      · rfl
  · rename_i hi
    rw [h i other]
    constructor
    · rintro ⟨ho, he, -⟩
      exact ⟨.inl ho, he⟩
    · rintro ⟨ho | rfl, he⟩
      · exact ⟨ho, he, by simp⟩
      · exact absurd he hi

/-- Records go into a table just if their indices are distinct. -/
theorem tableFrom_spec (rest : Sequence) (h : Holds table sequence [])
    (hd : (sequence.map (·.index)).Nodup) :
    (((sequence ++ rest).map (·.index)).Nodup ∧
      ∃ full, tableFrom table rest = .ok full ∧ Holds full (sequence ++ rest) []) ∨
    (¬ ((sequence ++ rest).map (·.index)).Nodup ∧
      ∃ i, tableFrom table rest = .error (.sequence (.duplicateIndex i))) := by
  induction rest generalizing table sequence with
  | nil => exact .inl ⟨by simpa using hd, table, rfl, by simpa using h⟩
  | cons record rest ih =>
    have hc : table.contains record.index ↔ record.index ∈ sequence.map (·.index) := by
      simpa using h.contains_iff record.index
    by_cases hr : record.index ∈ sequence.map (·.index)
    · refine .inr ⟨fun hn => ?_, record.index, by rw [tableFrom, if_pos (hc.mpr hr)]⟩
      rw [List.map_append, List.nodup_append] at hn
      exact hn.2.2 _ hr _ (by simp) rfl
    · rw [tableFrom, if_neg (fun h' => hr (hc.mp h')), List.append_cons]
      refine ih (h.insert hr) ?_
      rw [List.map_append, List.nodup_append]
      exact ⟨hd, by simp, fun i hi j hj he => hr (by simp_all)⟩

/-! ## The scan -/

/-- What the scan finds when the records with the indices `placed` are in trees:
the other records make up the trees of ascending roots, each the least index of
its tree. -/
structure Scan (sequence : Sequence) (placed roots : List Nat) (trees : List Node)
    (records : List Record) : Prop where
  unfolds : Unfolds roots trees records
  fresh : Fresh sequence placed records
  covers : ∀ record ∈ sequence, record.index ∈ placed ∨ record ∈ records
  ascending : roots.Pairwise (· < ·)
  least : ∀ i ∈ roots, ∀ j, sequence.Reaches i j → i ≤ j

namespace Scan

variable {roots : List Nat} {trees : List Node} {records : List Record} {i : Nat}

theorem index_mem (h : Scan sequence placed roots trees records) {i : Nat} (hi : i ∈ roots) :
    i ∈ sequence.map (·.index) ∧ i ∉ placed := by
  obtain ⟨record, hr, rfl⟩ := List.mem_map.mp (h.unfolds.refs_subset hi)
  exact ⟨List.mem_map_of_mem (h.fresh.subset hr), h.fresh.unplaced record hr⟩

/-- The tree of the least index that is not placed comes first. -/
theorem cons {tree : Node} {first : List Record} (hd : (sequence.map (·.index)).Nodup)
    (hmin : ∀ j ∈ sequence.map (·.index), j ∉ placed → i ≤ j) (hf : Unfolds [i] [tree] first)
    (hff : Fresh sequence placed first)
    (h : Scan sequence (first.map (·.index) ++ placed) roots trees records) :
    Scan sequence placed (i :: roots) (tree :: trees) (first ++ records) := by
  have hif : i ∈ first.map (·.index) := hf.refs_subset (by simp)
  refine ⟨hf.append h.unfolds, fresh_append.mpr ⟨hff, h.fresh⟩, fun r hr => ?_,
    List.pairwise_cons.mpr ⟨fun j hj => ?_, h.ascending⟩, fun j hj k hk => ?_⟩
  · rw [List.mem_append]
    rcases h.covers r hr with hp | hp
    · rcases List.mem_append.mp hp with hp | hp
      · obtain ⟨r', hr', he⟩ := List.mem_map.mp hp
        rw [List.inj_on_of_nodup_map hd (hff.subset hr') hr he] at hr'
        exact .inr (.inl hr')
      · exact .inl hp
    · exact .inr (.inr hp)
  · obtain ⟨hjs, hjp⟩ := h.index_mem hj
    rw [List.mem_append, not_or] at hjp
    have := hmin j hjs hjp.2
    have : i ≠ j := fun he => hjp.1 (he ▸ hif)
    omega
  · rcases List.mem_cons.mp hj with rfl | hj
    · obtain ⟨r, hr, rfl⟩ := List.mem_map.mp (hf.closed hff.subset hd hif hk)
      exact hmin _ (List.mem_map_of_mem (hff.subset hr)) (hff.unplaced r hr)
    · exact h.least j hj k hk

/-- The least index that is not placed is the first root. -/
theorem uncons (h : Scan sequence placed roots trees records) (hi : i ∈ sequence.map (·.index))
    (hip : i ∉ placed) (hmin : ∀ j ∈ sequence.map (·.index), j ∉ placed → i ≤ j) :
    ∃ roots' tree trees' first after, trees = tree :: trees' ∧ Unfolds [i] [tree] first ∧
      Fresh sequence placed first ∧
      Scan sequence (first.map (·.index) ++ placed) roots' trees' after := by
  obtain ⟨target, ht, rfl⟩ := List.mem_map.mp hi
  have htr : target ∈ records := (h.covers target ht).resolve_left hip
  obtain ⟨root, hroot, hreach⟩ := h.unfolds.reached h.fresh.subset target htr
  have hle := h.least root hroot _ hreach
  obtain ⟨hu, hf, hc, ha, hl⟩ := h
  cases hu with
  | nil => simp at htr
  | @cons record children nodes below after refs hb hn =>
    obtain ⟨hrs, hrp⟩ := (fresh_cons_append.mp hf).1
    -- the first root, the one that reaches the target, the target: none is greater
    have hge := hmin _ (List.mem_map_of_mem hrs) hrp
    have he : record.index = target.index := by
      rcases List.mem_cons.mp hroot with rfl | hroot
      · omega
      · have := (List.pairwise_cons.mp ha).1 root hroot
        omega
    rw [← List.cons_append] at hf hc
    obtain ⟨hff, haf⟩ := fresh_append.mp hf
    refine ⟨refs, _, nodes, record :: below, after, rfl, he ▸ .single record hb, hff, hn, haf, fun r hr => ?_,
      (List.pairwise_cons.mp ha).2, fun j hj => hl j (List.mem_cons_of_mem _ hj)⟩
    rw [List.mem_append]
    rcases hc r hr with hp | hp
    · exact .inl (.inr hp)
    · rcases List.mem_append.mp hp with hp | hp
      · exact .inl (.inl (List.mem_map_of_mem hp))
      · exact .inr hp

/-- Where every record is placed there is no tree. -/
theorem nil_iff (hp : ∀ i ∈ sequence.map (·.index), i ∈ placed) :
    Scan sequence placed roots trees records ↔ roots = [] ∧ trees = [] ∧ records = [] := by
  constructor
  · intro h
    have hr : roots = [] := List.eq_nil_iff_forall_not_mem.mpr fun i hi =>
      (h.index_mem hi).2 (hp i (h.index_mem hi).1)
    subst hr
    have hu := h.unfolds
    cases hu
    exact ⟨rfl, rfl, rfl⟩
  · rintro ⟨rfl, rfl, rfl⟩
    exact ⟨.nil, fresh_nil _ _, fun r hr => .inl (hp _ (List.mem_map_of_mem hr)), by simp, by simp⟩

end Scan

/-- With nothing placed, the scan finds the trees of the roots of a well-linked
sequence. -/
theorem exists_scan_iff {trees : List Node} (hd : (sequence.map (·.index)).Nodup) :
    (∃ roots records, Scan sequence [] roots trees records) ↔
      sequence.WellLinked ∧ ∃ records, Unfolds sequence.roots trees records ∧
        records.Perm sequence := by
  constructor
  · rintro ⟨roots, records, hu, ⟨hs, hn, _⟩, hc, ha, hl⟩
    have hp : records.Perm sequence := (List.perm_ext_iff_of_nodup hn.of_map hd.of_map).mpr
      fun record => ⟨fun hr => hs hr, fun hr => (hc record hr).resolve_left (by simp)⟩
    obtain ⟨hw, rfl⟩ := wellLinked_of_unfolds hd hu hp ha hl
    exact ⟨hw, records, hu, hp⟩
  · rintro ⟨hw, records, hu, hp⟩
    refine ⟨_, records, hu, ⟨hp.subset, (hp.map _).nodup_iff.mpr hd, by simp⟩,
      fun r hr => .inr (hp.symm.subset hr), ascending_roots hd, hw.linked.wellLinked_iff.mp hw⟩

/-- The scan succeeds just if the records that are not placed make up trees, and
these are added to the ones found before. -/
theorem treesFrom_eq_ok_iff {found trees : List Node} (hd : (sequence.map (·.index)).Nodup)
    (hu : Holds unplaced sequence placed) (ha : order.Pairwise (· < ·))
    (hs : order ⊆ sequence.map (·.index))
    (hc : ∀ i ∈ sequence.map (·.index), i ∈ placed ∨ i ∈ order) :
    treesFrom table unplaced found order = .ok trees ↔
      ∃ roots new records, trees = found.reverse ++ new ∧ Scan sequence placed roots new records := by
  induction order generalizing unplaced placed found with
  | nil =>
    have hp : ∀ i ∈ sequence.map (·.index), i ∈ placed := by simpa using hc
    simp [treesFrom, Scan.nil_iff hp, eq_comm]
  | cons i order ih =>
    obtain ⟨hi, hao⟩ := List.pairwise_cons.mp ha
    obtain ⟨his, hso⟩ := List.cons_subset.mp hs
    rw [treesFrom]
    by_cases hip : i ∈ placed
    · rw [if_neg fun hci => ((hu.contains_iff i).mp hci).2 hip]
      refine ih hu hao hso fun j hj => ?_
      rcases hc j hj with hj | hj
      · exact .inl hj
      · exact (List.mem_cons.mp hj).imp (fun he : j = i => he ▸ hip) id
    · rw [if_pos ((hu.contains_iff i).mpr ⟨his, hip⟩)]
      have hmin : ∀ j ∈ sequence.map (·.index), j ∉ placed → i ≤ j := fun j hj hjp => by
        rcases List.mem_cons.mp ((hc j hj).resolve_left hjp) with rfl | hj
        · exact Nat.le_refl _
        · exact Nat.le_of_lt (hi j hj)
      have hrest : ∀ {first : List Record} {tree : Node}, Unfolds [i] [tree] first →
          ∀ j ∈ sequence.map (·.index), j ∈ first.map (·.index) ++ placed ∨ j ∈ order :=
        fun hf j hj => by
          rw [List.mem_append]
          rcases hc j hj with hj | hj
          · exact .inl (.inr hj)
          · rcases List.mem_cons.mp hj with rfl | hj
            · exact .inl (.inl (hf.refs_subset (by simp)))
            · exact .inr hj
      obtain ⟨target, ht, rfl⟩ := List.mem_map.mp his
      rw [grow_root (hu.get? ht hip) 0]
      constructor
      · intro h
        cases hg : grow table 0 unplaced [target.index] with
        | error e => simp [hg] at h
        | ok grown =>
          obtain ⟨nodes, rest⟩ := grown
          simp only [hg] at h
          obtain ⟨first, hf, hff, hfu⟩ := unfolds_of_grow hg hu
          obtain ⟨tree, rfl⟩ := List.length_eq_one_iff.mp hf.length_eq.symm
          obtain ⟨roots, new, records, rfl, hn⟩ := (ih hfu hao hso (hrest hf)).mp h
          exact ⟨_, _, _, by simp, hn.cons hd hmin hf hff⟩
      · rintro ⟨roots, new, records, rfl, h⟩
        obtain ⟨roots', tree, trees', first, after, rfl, hf, hff, hn⟩ := h.uncons his hip hmin
        obtain ⟨rest, hg, hfu⟩ := grow_of_unfolds hf table 0 hff hu
        rw [hg]
        exact (ih hfu hao hso (hrest hf)).mpr ⟨_, _, _, by simp, hn⟩

/-! ## Decoding -/

theorem ascending_indices (hd : (sequence.map (·.index)).Nodup) :
    ((sequence.map (·.index)).mergeSort (· ≤ ·)).Pairwise (· < ·) :=
  ((sortedLE_mergeSort _).and ((List.mergeSort_perm _ _).nodup_iff.mpr hd)).imp (by omega)

/-- Records with distinct indices are scanned with all of them at hand. -/
theorem forest_eq_treesFrom (hd : (sequence.map (·.index)).Nodup) :
    ∃ full, Holds full sequence [] ∧ sequence.forest =
      treesFrom full full [] ((sequence.map (·.index)).mergeSort (· ≤ ·)) := by
  have h0 : Holds ∅ [] [] := fun i record => by simp
  rcases tableFrom_spec sequence h0 (by simp) with ⟨-, full, ht, hu⟩ | ⟨hn, -⟩
  · exact ⟨full, hu, by rw [forest, ht]⟩
  · exact absurd hd hn

/-- Two records with one index are an error. -/
theorem forest_of_not_nodup (hd : ¬ (sequence.map (·.index)).Nodup) :
    ∃ i, sequence.forest = .error (.sequence (.duplicateIndex i)) := by
  have h0 : Holds ∅ [] [] := fun i record => by simp
  rcases tableFrom_spec sequence h0 (by simp) with ⟨hn, -⟩ | ⟨-, i, ht⟩
  · exact absurd hn hd
  · exact ⟨i, by rw [forest, ht]⟩

/-- Decoding finds trees just if the sequence is well linked. They are what its
roots unfold into, with every record used once. -/
theorem forest_eq_ok_iff {trees : List Node} :
    sequence.forest = .ok trees ↔
      sequence.WellLinked ∧ ∃ records, Unfolds sequence.roots trees records ∧
        records.Perm sequence := by
  by_cases hd : (sequence.map (·.index)).Nodup
  · obtain ⟨full, hu, hf⟩ := forest_eq_treesFrom hd
    have hp := List.mergeSort_perm (sequence.map (·.index)) (· ≤ ·)
    rw [hf, treesFrom_eq_ok_iff hd hu (ascending_indices hd) hp.subset
      fun i hi => .inr (hp.symm.subset hi), ← exists_scan_iff hd]
    simp
  · obtain ⟨i, hf⟩ := forest_of_not_nodup hd
    rw [hf]
    simp only [reduceCtorEq, false_iff, not_and]
    exact fun h => absurd h.distinct hd

theorem decode_eq_ok_iff {tree : Node} : sequence.decode = .ok tree ↔ sequence.forest = .ok [tree] := by
  rw [decode]
  split
  · rename_i h
    simp [h]
  · rename_i other h
    simp [h]
  · rename_i h
    simp [h]
  · rename_i trees hne _ h
    rw [h]
    simp only [reduceCtorEq, false_iff, Except.ok.injEq]
    exact hne tree

/-- An index that unfolds into all records is the only root if it is the least of
them. -/
theorem wellLinked_of_unfolds_root {i : Nat} {tree : Node} {records : List Record}
    (h : Unfolds [i] [tree] records) (hp : records.Perm sequence)
    (hd : (sequence.map (·.index)).Nodup) (hl : ∀ j ∈ sequence.map (·.index), i ≤ j) :
    sequence.WellLinked ∧ sequence.roots = [i] :=
  wellLinked_of_unfolds hd h hp (by simp) fun k hk j hj => by
    rw [List.mem_singleton.mp hk] at hj ⊢
    exact hl j ((hp.map _).subset (h.closed hp.subset hd (h.refs_subset (by simp)) hj))

/-- The order of the records does not count. -/
theorem decode_of_unfolds_perm {i : Nat} {tree : Node} {records : List Record}
    (h : Unfolds [i] [tree] records) (hp : records.Perm sequence)
    (hd : (sequence.map (·.index)).Nodup) (hl : ∀ j ∈ sequence.map (·.index), i ≤ j) :
    sequence.decode = .ok tree := by
  obtain ⟨hw, hr⟩ := wellLinked_of_unfolds_root h hp hd hl
  exact decode_eq_ok_iff.mpr (forest_eq_ok_iff.mpr ⟨hw, records, hr ▸ h, hp⟩)

/-- An index that unfolds into all records is decoded into its tree if it is the
least of them. -/
theorem decode_of_unfolds {i : Nat} {tree : Node} (h : Unfolds [i] [tree] sequence)
    (hd : (sequence.map (·.index)).Nodup) (hl : ∀ j ∈ sequence.map (·.index), i ≤ j) :
    sequence.decode = .ok tree :=
  decode_of_unfolds_perm h (.refl _) hd hl

/-- Decoding finds a forest just if the sequence is well linked. There is one
tree for each root, in ascending order, and one node for each record. There is
a single tree just if there is, besides, a single root. -/
theorem forest_ok_iff_wellLinked (sequence : Sequence) :
    ((∃ trees, sequence.forest = .ok trees) ↔ sequence.WellLinked) ∧
    (∀ trees, sequence.forest = .ok trees →
      sequence.roots.Pairwise (· < ·) ∧ trees.length = sequence.roots.length ∧
      (∃ records, Unfolds sequence.roots trees records ∧ records.Perm sequence) ∧
      Node.countNodes trees = sequence.length) ∧
    ((∃ tree, sequence.decode = .ok tree) ↔ sequence.WellLinked ∧ sequence.roots.length = 1) := by
  refine ⟨⟨fun ⟨trees, h⟩ => (forest_eq_ok_iff.mp h).1, fun h => ?_⟩, fun trees h => ?_,
    ⟨fun ⟨tree, h⟩ => ?_, fun ⟨h, h1⟩ => ?_⟩⟩
  · obtain ⟨trees, records, hu, hp⟩ := h.exists_unfolds
    exact ⟨trees, forest_eq_ok_iff.mpr ⟨h, records, hu, hp⟩⟩
  · obtain ⟨hw, records, hu, hp⟩ := forest_eq_ok_iff.mp h
    exact ⟨ascending_roots hw.distinct, hu.length_eq.symm, ⟨records, hu, hp⟩,
      hu.countNodes_eq.trans hp.length_eq⟩
  · obtain ⟨hw, records, hu, hp⟩ := forest_eq_ok_iff.mp (decode_eq_ok_iff.mp h)
    exact ⟨hw, hu.length_eq⟩
  · obtain ⟨trees, records, hu, hp⟩ := h.exists_unfolds
    obtain ⟨tree, rfl⟩ := List.length_eq_one_iff.mp (hu.length_eq.symm.trans h1)
    exact ⟨tree, decode_eq_ok_iff.mpr (forest_eq_ok_iff.mpr ⟨h, records, hu, hp⟩)⟩

end TreeSeq.Sequence
