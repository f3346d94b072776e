import TreeSeq.Proofs.Sequence.Recursion
import TreeSeq.Proofs.Sequence.Renumbering
import Mathlib.Order.Monotone.Basic

/-!
# Decoding records with other numbers

The numbers of the records matter to decoding by their order alone, and the order in
which the records are listed does not matter. A function `ρ` that keeps the order of the
numbers in a sequence renumbers it; decoding then takes the same course on the records,
with the same marks (`Marks`).

* `find?_renumber`: a reference is looked up alike;
* `likewise_refs`: visiting takes the same course;
* `forest_map_renumber`: the same trees, or the same error about the new numbers.
-/

namespace TreeSeq

/-- The fault with other numbers for the records. -/
def SequenceFault.renumber (ρ : Nat → Nat) : SequenceFault → SequenceFault
  | noRecords => noRecords
  | unconnectedRoots count => unconnectedRoots count
  | duplicateIndex index => duplicateIndex (ρ index)
  | repeatedReference index parent => repeatedReference (ρ index) (ρ parent)
  | unknownRoot index => unknownRoot (ρ index)
  | unfinishedRoot index => unfinishedRoot (ρ index)

/-- The error with other numbers for the records of a sequence. -/
def Error.renumber (ρ : Nat → Nat) : Error → Error
  | danglingReference parent index => danglingReference (ρ parent) (ρ index)
  | sequence fault => sequence (fault.renumber ρ)
  | e => e

namespace Sequence

/-- The numbers in a sequence, as indices or as references. -/
def numbers (sequence : Sequence) : Set Nat :=
  {i | i ∈ sequence.map (·.index) ∨ i ∈ sequence.references}

variable {sequence other : Sequence} {ρ : Nat → Nat} {visited visited' : List Nat}

theorem index_mem_numbers {record : Record} (h : record ∈ sequence) :
    record.index ∈ sequence.numbers :=
  .inl (List.mem_map_of_mem h)

theorem child_mem_numbers {record : Record} (h : record ∈ sequence) :
    ∀ i ∈ record.children, i ∈ sequence.numbers :=
  fun _ hi => .inr (List.mem_flatMap.mpr ⟨record, h, hi⟩)

/-- The same records are visited, under their old and their new numbers. -/
def Marks (ρ : Nat → Nat) (sequence : Sequence) (visited visited' : List Nat) : Prop :=
  ∀ i ∈ sequence.numbers, ρ i ∈ visited' ↔ i ∈ visited

theorem Marks.cons (hρ : sequence.numbers.InjOn ρ) (h : Marks ρ sequence visited visited') {i : Nat}
    (hi : i ∈ sequence.numbers) : Marks ρ sequence (i :: visited) (ρ i :: visited') := by
  intro j hj
  rw [List.mem_cons, List.mem_cons, h j hj, hρ.eq_iff hj hi]

/-! ## Looking up -/

/-- Where indices are distinct, looking up finds the only record with an index. -/
theorem find?_eq_some_iff (hd : (sequence.map (·.index)).Nodup) {i : Nat} {record : Record} :
    sequence.find? (·.index == i) = some record ↔ record ∈ sequence ∧ record.index = i := by
  constructor
  · exact mem_of_find?
  · rintro ⟨hr, rfl⟩
    have hs : (sequence.find? (·.index == record.index)).isSome :=
      List.find?_isSome.mpr ⟨record, hr, by simp⟩
    obtain ⟨found, hf⟩ := Option.isSome_iff_exists.mp hs
    obtain ⟨hm, he⟩ := mem_of_find? hf
    rw [hf, List.inj_on_of_nodup_map hd hm hr he]

theorem nodup_renumber (hd : (sequence.map (·.index)).Nodup) (hp : other.Perm sequence)
    (hρ : sequence.numbers.InjOn ρ) :
    ((other.map (Record.renumber ρ)).map (·.index)).Nodup := by
  have hi : (other.map (Record.renumber ρ)).map (·.index) = (other.map (·.index)).map ρ := by
    rw [List.map_map, List.map_map]
    rfl
  rw [hi]
  refine List.Nodup.map_on (fun i hi j hj he => ?_) ((hp.map _).nodup_iff.mpr hd)
  exact hρ (.inl ((hp.map _).subset hi)) (.inl ((hp.map _).subset hj)) he

/-- The record of a new number is the one of the old number, renumbered. -/
theorem find?_renumber (hd : (sequence.map (·.index)).Nodup) (hp : other.Perm sequence)
    (hρ : sequence.numbers.InjOn ρ) {i : Nat} (hi : i ∈ sequence.numbers) :
    (other.map (Record.renumber ρ)).find? (·.index == ρ i) =
      (sequence.find? (·.index == i)).map (Record.renumber ρ) := by
  refine Option.ext fun found => ?_
  rw [find?_eq_some_iff (nodup_renumber hd hp hρ), Option.map_eq_some_iff]
  simp only [find?_eq_some_iff hd]
  constructor
  · rintro ⟨hm, he⟩
    obtain ⟨record, hr, rfl⟩ := List.mem_map.mp hm
    exact ⟨record, ⟨hp.subset hr, hρ (index_mem_numbers (hp.subset hr)) hi he⟩, rfl⟩
  · rintro ⟨record, ⟨hr, rfl⟩, rfl⟩
    exact ⟨List.mem_map_of_mem (hp.symm.subset hr), rfl⟩

/-! ## Visiting -/

/-- Two visits take the same course: both fail, with the same error but for the numbers,
or both build the same, with the same records visited after that. -/
def Likewise {α : Type} {start start' : List Nat} (ρ : Nat → Nat) (sequence : Sequence)
    (visit : Except Error (α × Visited start)) (visit' : Except Error (α × Visited start')) :
    Prop :=
  (∃ e, visit = .error e ∧ visit' = .error (e.renumber ρ)) ∨
  ∃ built after after', visit = .ok (built, after) ∧ visit' = .ok (built, after') ∧
    Marks ρ sequence after.1 after'.1

mutual

theorem likewise_node (hd : (sequence.map (·.index)).Nodup) (hp : other.Perm sequence)
    (hρ : sequence.numbers.InjOn ρ) (visited visited' : List Nat)
    (hm : Marks ρ sequence visited visited') (record : Record) (hr : record ∈ sequence) :
    Likewise ρ sequence (visitNode sequence visited record)
      (visitNode (other.map (Record.renumber ρ)) visited' (record.renumber ρ)) := by
  rw [visitNode, visitNode]
  rcases likewise_slots hd hp hρ record.index visited visited' hm record.slotRefs
      (child_mem_numbers hr) with ⟨e, hv, hv'⟩ | ⟨slots, after, after', hv, hv', ha⟩
  · exact .inl ⟨e, by rw [hv], by rw [Record.renumber, hv']⟩
  · exact .inr ⟨_, after, after', by rw [hv], by rw [Record.renumber, hv'], ha⟩
termination_by (sequence.unvisited visited, slotsWork record.slotRefs + 1)
decreasing_by exact Prod.Lex.right _ (Nat.lt_succ_self _)

theorem likewise_slots (hd : (sequence.map (·.index)).Nodup) (hp : other.Perm sequence)
    (hρ : sequence.numbers.InjOn ρ) (parent : Nat) (visited visited' : List Nat)
    (hm : Marks ρ sequence visited visited') (slots : Fields (List Nat))
    (hs : ∀ i ∈ slots.flatMap (·.2), i ∈ sequence.numbers) :
    Likewise ρ sequence (visitSlots sequence parent visited slots)
      (visitSlots (other.map (Record.renumber ρ)) (ρ parent) visited'
        (slots.map fun slot => (slot.1, slot.2.map ρ))) := by
  match slots with
  | [] =>
    rw [visitSlots, List.map_nil, visitSlots]
    exact .inr ⟨[], _, _, rfl, rfl, hm⟩
  | (slot, refs) :: rest =>
    rw [List.flatMap_cons, List.forall_mem_append] at hs
    rw [visitSlots, List.map_cons, visitSlots]
    rcases likewise_refs hd hp hρ parent visited visited' hm refs hs.1 with
      ⟨e, hv, hv'⟩ | ⟨children, own, own', hv, hv', ho⟩
    · exact .inl ⟨e, by rw [hv], by rw [hv']⟩
    rcases likewise_slots hd hp hρ parent own.1 own'.1 ho rest hs.2 with
      ⟨e, hw, hw'⟩ | ⟨later, after, after', hw, hw', ha⟩
    · exact .inl ⟨e, by simp only [hv, hw], by simp only [hv', hw']⟩
    · exact .inr ⟨_, _, _, by simp only [hv, hw]; rfl, by simp only [hv', hw']; rfl, ha⟩
termination_by (sequence.unvisited visited, slotsWork slots)
decreasing_by
  · exact Prod.Lex.right _ (by rw [slotsWork]; omega)
  · exact left_lt own.2 (by rw [slotsWork]; omega)

theorem likewise_refs (hd : (sequence.map (·.index)).Nodup) (hp : other.Perm sequence)
    (hρ : sequence.numbers.InjOn ρ) (parent : Nat) (visited visited' : List Nat)
    (hm : Marks ρ sequence visited visited') (refs : List Nat)
    (hs : ∀ i ∈ refs, i ∈ sequence.numbers) :
    Likewise ρ sequence (visitRefs sequence parent visited refs)
      (visitRefs (other.map (Record.renumber ρ)) (ρ parent) visited' (refs.map ρ)) := by
  match refs with
  | [] =>
    rw [visitRefs, List.map_nil, visitRefs]
    exact .inr ⟨[], _, _, rfl, rfl, hm⟩
  | child :: refs =>
    rw [List.forall_mem_cons] at hs
    have hfound := find?_renumber hd hp hρ hs.1
    rw [List.map_cons]
    match hf : sequence.find? (·.index == child) with
    | none =>
      rw [hf] at hfound
      exact .inl ⟨_, visitRefs_missing hf, visitRefs_missing hfound⟩
    | some record =>
      rw [hf] at hfound
      by_cases hc : child ∈ visited
      · exact .inl ⟨_, visitRefs_repeated hf hc,
          visitRefs_repeated hfound ((hm child hs.1).mpr hc)⟩
      rw [visitRefs_descend hf hc,
        visitRefs_descend hfound fun hc' => hc ((hm child hs.1).mp hc')]
      rcases likewise_node hd hp hρ (child :: visited) (ρ child :: visited') (hm.cons hρ hs.1)
          record (mem_of_find? hf).1 with ⟨e, hv, hv'⟩ | ⟨node, below, below', hv, hv', hb⟩
      · exact .inl ⟨e, by rw [hv], by rw [hv']⟩
      rcases likewise_refs hd hp hρ parent below.1 below'.1 hb refs hs.2 with
        ⟨e, hw, hw'⟩ | ⟨nodes, after, after', hw, hw', ha⟩
      · exact .inl ⟨e, by simp only [hv, hw], by simp only [hv', hw']⟩
      · exact .inr ⟨_, _, _, by simp only [hv, hw]; rfl, by simp only [hv', hw']; rfl, ha⟩
termination_by (sequence.unvisited visited, refs.length)
decreasing_by
  · exact Prod.Lex.left _ _ (unvisited_cons_lt hf hc)
  · exact Prod.Lex.left _ _
      (Nat.lt_of_le_of_lt (unvisited_le sequence below.2) (unvisited_cons_lt hf hc))

end

/-- The scan takes the same course. -/
theorem visitRoots_renumber (hd : (sequence.map (·.index)).Nodup) (hp : other.Perm sequence)
    (hρ : sequence.numbers.InjOn ρ) {records : List Record} (hs : records ⊆ sequence)
    (hm : Marks ρ sequence visited visited') :
    visitRoots (other.map (Record.renumber ρ)) visited' (records.map (Record.renumber ρ)) =
      (visitRoots sequence visited records).mapError (Error.renumber ρ) := by
  induction records generalizing visited visited' with
  | nil => rfl
  | cons record rest ih =>
    obtain ⟨hr, hs⟩ := List.cons_subset.mp hs
    have hi := index_mem_numbers hr
    have hv : (record.renumber ρ).index ∈ visited' ↔ record.index ∈ visited := hm _ hi
    rw [List.map_cons, visitRoots, visitRoots]
    by_cases hc : record.index ∈ visited
    · rw [if_pos hc, if_pos (hv.mpr hc)]
      exact ih hs hm
    · rw [if_neg hc, if_neg fun h => hc (hv.mp h)]
      have hmarks : Marks ρ sequence (record.index :: visited)
          ((record.renumber ρ).index :: visited') := hm.cons hρ hi
      rcases likewise_node hd hp hρ _ _ hmarks record hr with
        ⟨e, hn, hn'⟩ | ⟨tree, after, after', hn, hn', ha⟩
      · rw [hn, hn']
        rfl
      · simp only [hn, hn', ih hs ha]
        cases visitRoots sequence after.1 rest <;> rfl

/-! ## Decoding -/

/-- Sorting the records by index does the same on their new numbers. -/
theorem sorted_renumber (hd : (sequence.map (·.index)).Nodup) (hp : other.Perm sequence)
    (hρ : StrictMonoOn ρ sequence.numbers) :
    (other.map (Record.renumber ρ)).mergeSort (fun a b => a.index ≤ b.index) =
      (sequence.mergeSort fun a b => a.index ≤ b.index).map (Record.renumber ρ) := by
  have hs := List.mergeSort_perm sequence fun a b => decide (a.index ≤ b.index)
  refine mergeSort_eq_of_perm (nodup_renumber hd hs hρ.injOn) ((hp.trans hs.symm).map _) ?_
  rw [List.pairwise_map]
  refine (pairwise_mergeSort_index sequence).imp_of_mem fun ha hb hab => ?_
  exact (hρ.le_iff_le (index_mem_numbers (hs.subset ha)) (index_mem_numbers (hs.subset hb))).mpr hab

/-- Decoding records that are listed in another order and have other numbers, in the
same order, gives the same trees or the same error, about the new numbers. -/
theorem forest_map_renumber (hd : (sequence.map (·.index)).Nodup) (hp : other.Perm sequence)
    (hρ : StrictMonoOn ρ sequence.numbers) :
    forest (other.map (Record.renumber ρ)) = sequence.forest.mapError (Error.renumber ρ) := by
  have hn : repeatedIndex? [] sequence = none :=
    (repeatedIndex?_eq_none_iff [] sequence).mpr ⟨fun _ _ => List.not_mem_nil, hd⟩
  have hn' : repeatedIndex? [] (other.map (Record.renumber ρ)) = none :=
    (repeatedIndex?_eq_none_iff [] _).mpr
      ⟨fun _ _ => List.not_mem_nil, nodup_renumber hd hp hρ.injOn⟩
  rw [forest_eq_visitRoots hn, forest_eq_visitRoots hn', sorted_renumber hd hp hρ]
  exact visitRoots_renumber hd hp hρ.injOn (List.mergeSort_perm _ _).subset fun _ _ => by simp

/-- The reference of the record 1 to 0 is refused. With the records listed the other way
and with other numbers it is the one of the record 13 to 3. -/
theorem forest_map_renumber_childFirst :
    (childFirst.map (·.index)).Nodup ∧ childFirst.reverse.Perm childFirst ∧
    StrictMonoOn (10 * · + 3) childFirst.numbers ∧
    childFirst.forest = .error (.sequence (.repeatedReference 0 1)) ∧
    forest [⟨13, "Return", [], [("expr", [3])], none⟩, ⟨3, "ID", [], [], none⟩] =
      .error (.sequence (.repeatedReference 3 13)) := by
  have hd : (childFirst.map (·.index)).Nodup := by decide
  have hρ : StrictMonoOn (10 * · + 3) childFirst.numbers := fun i _ j _ hij => by
    show 10 * i + 3 < 10 * j + 3
    omega
  have hf : childFirst.forest = .error (.sequence (.repeatedReference 0 1)) := by
    have hs : childFirst.mergeSort (fun a b => a.index ≤ b.index) = childFirst := by
      simp [childFirst, List.mergeSort]
    have hr : visitRefs childFirst 1 [1, 0] [0] = .error (.sequence (.repeatedReference 0 1)) :=
      visitRefs_repeated rfl (by decide)
    rw [forest_eq_visitRoots (by decide), hs]
    rw [childFirst] at hr ⊢
    simp [visitRoots, visitNode, visitSlots, hr]
  have h := forest_map_renumber hd childFirst.reverse_perm hρ
  rw [hf] at h
  exact ⟨hd, childFirst.reverse_perm, hρ, hf, h⟩

end Sequence

end TreeSeq
