import TreeSeq.Proofs.Sequence.Refusal

/-!
# Decoding as a recursion

What decoding does, said without a stack and without a table: the records are taken in
ascending order of index, and each that is not visited yet is marked and its node is
built. Building goes through the slots and the references in order; a reference is
looked up in the sequence, its index is marked, and its node is completed before the
next reference is looked at (`visitNode`, `visitSlots`, `visitRefs`).

* `follows_refs`: references grow as they are visited, as long as the records that are
  in no tree yet are those that are not visited;
* `treesFrom_eq_visitRoots`: the same for the scan;
* `forest_eq_visitAll`: decoding and the recursion give the same trees or the same
  error.
-/

namespace TreeSeq.Sequence

/-- How many records are not visited. -/
def unvisited (sequence : Sequence) (visited : List Nat) : Nat :=
  (sequence.filter (·.index ∉ visited)).length

/-- The indices visited at the end, those at the start among them. -/
abbrev Visited (start : List Nat) :=
  { visited : List Nat // start ⊆ visited }

/-- How many steps slots take, apart from what is below their references. -/
def slotsWork : Fields (List Nat) → Nat
  | [] => 0
  | (_, refs) :: rest => 1 + refs.length + slotsWork rest

/-- Marks leave no more to visit. -/
theorem unvisited_le (sequence : Sequence) {start visited : List Nat} (h : start ⊆ visited) :
    sequence.unvisited visited ≤ sequence.unvisited start := by
  refine (List.monotone_filter_right sequence fun record hr => ?_).length_le
  rw [decide_eq_true_eq] at hr ⊢
  exact fun hm => hr (h hm)

theorem mem_of_find? {sequence : Sequence} {i : Nat} {record : Record}
    (h : sequence.find? (·.index == i) = some record) : record ∈ sequence ∧ record.index = i :=
  ⟨List.mem_of_find?_eq_some h, by simpa using List.find?_some h⟩

/-- The mark of a record leaves less to visit. -/
theorem unvisited_cons_lt {sequence : Sequence} {visited : List Nat} {i : Nat} {record : Record}
    (h : sequence.find? (·.index == i) = some record) (hi : i ∉ visited) :
    sequence.unvisited (i :: visited) < sequence.unvisited visited := by
  obtain ⟨hm, he⟩ := mem_of_find? h
  have hf : sequence.filter (·.index ∉ i :: visited) =
      (sequence.filter (·.index ∉ visited)).filter (·.index ≠ i) := by
    rw [List.filter_filter]
    refine List.filter_congr fun other _ => ?_
    simp
  rw [unvisited, unvisited, hf, List.length_filter_lt_length_iff_exists]
  exact ⟨record, by simp [hm, he, hi], by simp [he]⟩

/-- What is left to visit, then the steps at hand. -/
theorem left_lt {sequence : Sequence} {start visited : List Nat} (h : start ⊆ visited) {m n : Nat}
    (hm : m < n) : Prod.Lex (· < ·) (· < ·) (sequence.unvisited visited, m)
      (sequence.unvisited start, n) :=
  Prod.Lex.right' _ (unvisited_le sequence h) hm

mutual

/-- Builds the node of a record that is marked as visited. -/
def visitNode (sequence : Sequence) (visited : List Nat) (record : Record) :
    Except Error (Node × Visited visited) :=
  match visitSlots sequence record.index visited record.slotRefs with
  | .error e => .error e
  | .ok (slots, after) => .ok (⟨record.nodeType, record.scalars, slots, record.span⟩, after)
termination_by (sequence.unvisited visited, slotsWork record.slotRefs + 1)
decreasing_by exact Prod.Lex.right _ (Nat.lt_succ_self _)

/-- Builds the slots of the record `parent`, one after the other. -/
def visitSlots (sequence : Sequence) (parent : Nat) (visited : List Nat) :
    Fields (List Nat) → Except Error (List (String × List Node) × Visited visited)
  | [] => .ok ([], ⟨visited, List.Subset.refl _⟩)
  | (slot, refs) :: rest =>
    match visitRefs sequence parent visited refs with
    | .error e => .error e
    | .ok (children, own) =>
      match visitSlots sequence parent own.1 rest with
      | .error e => .error e
      | .ok (slots, after) =>
        .ok ((slot, children) :: slots, ⟨after.1, List.Subset.trans own.2 after.2⟩)
termination_by slots => (sequence.unvisited visited, slotsWork slots)
decreasing_by
  · exact Prod.Lex.right _ (by rw [slotsWork]; omega)
  · exact left_lt own.2 (by rw [slotsWork]; omega)

/-- Builds what the references in a slot of the record `parent` name. Each of them is
looked up and marked, and its node is complete before the next one has its turn. -/
def visitRefs (sequence : Sequence) (parent : Nat) (visited : List Nat) :
    List Nat → Except Error (List Node × Visited visited)
  | [] => .ok ([], ⟨visited, List.Subset.refl _⟩)
  | child :: refs =>
    match _h : sequence.find? (·.index == child) with
    | none => .error (.danglingReference parent child)
    | some record =>
      if _hc : child ∈ visited then .error (.sequence (.repeatedReference child parent))
      else
        match visitNode sequence (child :: visited) record with
        | .error e => .error e
        | .ok (node, below) =>
          match visitRefs sequence parent below.1 refs with
          | .error e => .error e
          | .ok (nodes, after) =>
            .ok (node :: nodes,
              ⟨after.1, List.Subset.trans (List.subset_of_cons_subset below.2) after.2⟩)
termination_by refs => (sequence.unvisited visited, refs.length)
decreasing_by
  · exact Prod.Lex.left _ _ (unvisited_cons_lt _h _hc)
  · exact Prod.Lex.left _ _
      (Nat.lt_of_le_of_lt (unvisited_le sequence below.2) (unvisited_cons_lt _h _hc))

end

/-- The trees of the records among these that are not visited when their turn comes. -/
def visitRoots (sequence : Sequence) (visited : List Nat) : List Record → Except Error (List Node)
  | [] => .ok []
  | record :: rest =>
    if record.index ∈ visited then visitRoots sequence visited rest
    else
      match visitNode sequence (record.index :: visited) record with
      | .error e => .error e
      | .ok (tree, after) =>
        match visitRoots sequence after.1 rest with
        | .error e => .error e
        | .ok trees => .ok (tree :: trees)

/-- The first index that is among those of `seen` or of an earlier record. -/
def repeatedIndex? (seen : List Nat) : Sequence → Option Nat
  | [] => none
  | record :: rest =>
    if record.index ∈ seen then some record.index else repeatedIndex? (record.index :: seen) rest

/-- The trees of a sequence, found by a recursion along the references. -/
def visitAll (sequence : Sequence) : Except Error (List Node) :=
  match sequence.repeatedIndex? [] with
  | some i => .error (.sequence (.duplicateIndex i))
  | none => visitRoots sequence [] (sequence.mergeSort fun a b => a.index ≤ b.index)

variable {sequence : Sequence} {table unplaced : Table} {visited : List Nat}

/-! ## Growing references as they are visited -/

/-- References that stand one after the other grow one after the other. -/
theorem grow_append (table : Table) (parent : Nat) (unplaced : Table) (a b : List Nat) :
    grow table parent unplaced (a ++ b) =
      match grow table parent unplaced a with
      | .error e => .error e
      | .ok (nodes, inner) =>
        match grow table parent inner.1 b with
        | .error e => .error e
        | .ok (nodes', rest) => .ok (nodes ++ nodes', ⟨rest.1, Nat.le_trans rest.2 inner.2⟩) := by
  induction a generalizing unplaced with
  | nil =>
    simp only [List.nil_append, grow]
    cases grow table parent unplaced b <;> rfl
  | cons child refs ih =>
    rw [List.cons_append]
    cases hc : unplaced[child]? with
    | none => rw [grow_refused hc, grow_refused hc]
    | some record =>
      rw [grow_descend hc, grow_descend hc]
      cases grow table record.index (unplaced.erase child) record.children with
      | error e => rfl
      | ok grown =>
        obtain ⟨children, inner⟩ := grown
        simp only [ih]
        cases grow table parent inner.1 refs with
        | error e => rfl
        | ok grown =>
          obtain ⟨nodes, mid⟩ := grown
          cases hb : grow table parent mid.1 b <;> simp [hb]

/-- Growing does what visiting does: it fails with the same error, or its nodes read as
what was built, and the records that are in no tree are those that are not visited. -/
def Follows {α : Type} {start : List Nat} {unplaced : Table} (sequence : Sequence)
    (read : List Node → α) (visit : Except Error (α × Visited start))
    (grown : Except Error (List Node × { rest : Table // rest.size ≤ unplaced.size })) : Prop :=
  (∃ e, visit = .error e ∧ grown = .error e) ∨
  ∃ nodes after rest, visit = .ok (read nodes, after) ∧ grown = .ok (nodes, rest) ∧
    Holds rest.1 sequence after.1

/-- The nodes of references read slot by slot. -/
theorem deal_append (slot : String) {refs : List Nat} (rest : Fields (List Nat)) {nodes : List Node}
    (h : refs.length = nodes.length) (later : List Node) :
    Record.deal ((slot, refs) :: rest) (nodes ++ later) =
      (slot, nodes) :: Record.deal rest later := by
  rw [Record.deal, h, List.take_left, List.drop_left]

/-- An index that is not visited is looked up in the sequence or in the table alike. -/
theorem Holds.get?_eq_find? (hu : Holds unplaced sequence visited) {i : Nat} (hi : i ∉ visited) :
    unplaced[i]? = sequence.find? (·.index == i) := by
  cases hf : sequence.find? (·.index == i) with
  | none =>
    rw [Option.eq_none_iff_forall_ne_some]
    intro record hr
    obtain ⟨hm, he, -⟩ := (hu i record).mp hr
    have := List.find?_eq_none.mp hf record hm
    simp [he] at this
  | some record =>
    obtain ⟨hm, he⟩ := mem_of_find? hf
    exact (hu i record).mpr ⟨hm, he, hi⟩

/-- A reference that finds no record, or one that is visited, is refused. -/
theorem refusal_eq (ht : Holds table sequence []) (parent child : Nat) :
    refusal table parent child = match sequence.find? (·.index == child) with
      | none => .danglingReference parent child
      | some _ => .sequence (.repeatedReference child parent) := by
  have hc := ht.contains_iff child
  cases hf : sequence.find? (·.index == child) with
  | none =>
    have hn : child ∉ sequence.map (·.index) := by
      simpa using hf
    rw [refusal, if_neg fun h => hn (hc.mp h).1]
  | some record =>
    have hm : child ∈ sequence.map (·.index) := List.mem_map.mpr ⟨record, mem_of_find? hf⟩
    rw [refusal, if_pos (hc.mpr ⟨hm, List.not_mem_nil⟩)]

section

variable {parent child : Nat} {record : Record} {refs : List Nat}

theorem visitRefs_missing (h : sequence.find? (·.index == child) = none) :
    visitRefs sequence parent visited (child :: refs) =
      .error (.danglingReference parent child) := by
  rw [visitRefs]
  split
  · rfl
  · rename_i hs
    exact absurd (h.symm.trans hs) (by simp)

theorem visitRefs_repeated (h : sequence.find? (·.index == child) = some record)
    (hc : child ∈ visited) : visitRefs sequence parent visited (child :: refs) =
      .error (.sequence (.repeatedReference child parent)) := by
  rw [visitRefs]
  split
  · rename_i hn
    exact absurd (h.symm.trans hn) (by simp)
  · rw [dif_pos hc]

theorem visitRefs_descend (h : sequence.find? (·.index == child) = some record)
    (hc : child ∉ visited) : visitRefs sequence parent visited (child :: refs) =
      match visitNode sequence (child :: visited) record with
      | .error e => .error e
      | .ok (node, below) =>
        match visitRefs sequence parent below.1 refs with
        | .error e => .error e
        | .ok (nodes, after) => .ok (node :: nodes,
            ⟨after.1, List.Subset.trans (List.subset_of_cons_subset below.2) after.2⟩) := by
  rw [visitRefs]
  split
  · rename_i hn
    exact absurd (h.symm.trans hn) (by simp)
  · rename_i hs
    cases h.symm.trans hs
    rw [dif_neg hc]

end

mutual

theorem follows_node (ht : Holds table sequence []) (visited : List Nat) (record : Record)
    {unplaced : Table} (hu : Holds unplaced sequence visited) :
    Follows sequence record.node (visitNode sequence visited record)
      (grow table record.index unplaced record.children) := by
  rw [visitNode]
  rcases follows_slots ht record.index visited record.slotRefs hu with
    ⟨e, hv, hg⟩ | ⟨nodes, after, rest, hv, hg, hr⟩
  · exact .inl ⟨e, by rw [hv], hg⟩
  · exact .inr ⟨nodes, after, rest, by rw [hv]; rfl, hg, hr⟩
termination_by (sequence.unvisited visited, slotsWork record.slotRefs + 1)
decreasing_by exact Prod.Lex.right _ (Nat.lt_succ_self _)

theorem follows_slots (ht : Holds table sequence []) (parent : Nat) (visited : List Nat)
    (slots : Fields (List Nat)) {unplaced : Table} (hu : Holds unplaced sequence visited) :
    Follows sequence (Record.deal slots) (visitSlots sequence parent visited slots)
      (grow table parent unplaced (slots.flatMap (·.2))) := by
  match slots with
  | [] =>
    rw [visitSlots, List.flatMap_nil, grow]
    exact .inr ⟨[], _, _, rfl, rfl, hu⟩
  | (slot, refs) :: rest =>
    rw [visitSlots, List.flatMap_cons, grow_append]
    rcases follows_refs ht parent visited refs hu with
      ⟨e, hv, hg⟩ | ⟨children, own, inner, hv, hg, hi⟩
    · exact .inl ⟨e, by rw [hv], by rw [hg]⟩
    have hl : refs.length = children.length := by
      obtain ⟨records, hc, -⟩ := unfolds_of_grow hg hu
      exact hc.length_eq
    rcases follows_slots ht parent own.1 rest hi with
      ⟨e, hv', hg'⟩ | ⟨nodes, after, last, hv', hg', hr⟩
    · exact .inl ⟨e, by simp only [hv, hv'], by simp only [hg, hg']⟩
    · refine .inr ⟨children ++ nodes, ⟨after.1, List.Subset.trans own.2 after.2⟩,
        ⟨last.1, Nat.le_trans last.2 inner.2⟩, ?_, by simp only [hg, hg'], hr⟩
      simp only [hv, hv', deal_append slot rest hl, id]
termination_by (sequence.unvisited visited, slotsWork slots)
decreasing_by
  · exact Prod.Lex.right _ (by rw [slotsWork]; omega)
  · exact left_lt own.2 (by rw [slotsWork]; omega)

theorem follows_refs (ht : Holds table sequence []) (parent : Nat) (visited : List Nat)
    (refs : List Nat) {unplaced : Table} (hu : Holds unplaced sequence visited) :
    Follows sequence id (visitRefs sequence parent visited refs)
      (grow table parent unplaced refs) := by
  match refs with
  | [] =>
    rw [visitRefs, grow]
    exact .inr ⟨[], _, _, rfl, rfl, hu⟩
  | child :: refs =>
    have hrefused := refusal_eq ht parent child
    match hf : sequence.find? (·.index == child) with
    | none =>
      rw [hf] at hrefused
      have hn : unplaced[child]? = none := by
        by_cases hc : child ∈ visited
        · exact hu.get?_eq_none hc
        · exact (hu.get?_eq_find? hc).trans hf
      exact .inl ⟨_, visitRefs_missing hf, by rw [grow_refused hn, hrefused]⟩
    | some record =>
      rw [hf] at hrefused
      by_cases hc : child ∈ visited
      · exact .inl ⟨_, visitRefs_repeated hf hc, by
          rw [grow_refused (hu.get?_eq_none hc), hrefused]⟩
      have hr := (hu.get?_eq_find? hc).trans hf
      obtain ⟨-, hi, -⟩ := (hu child record).mp hr
      subst hi
      rw [visitRefs_descend hf hc, grow_descend hr]
      rcases follows_node ht (record.index :: visited) record (hu.erase record.index) with
        ⟨e, hv, hg⟩ | ⟨children, below, inner, hv, hg, hi⟩
      · exact .inl ⟨e, by rw [hv], by rw [hg]⟩
      rcases follows_refs ht parent below.1 refs hi with
        ⟨e, hv', hg'⟩ | ⟨nodes, after, last, hv', hg', hl⟩
      · exact .inl ⟨e, by simp only [hv, hv'], by simp only [hg, hg']⟩
      · exact .inr ⟨record.node children :: nodes, _, _, by simp only [hv, hv']; rfl,
          by simp only [hg, hg']; rfl, hl⟩
termination_by (sequence.unvisited visited, refs.length)
decreasing_by
  · exact Prod.Lex.left _ _ (unvisited_cons_lt hf hc)
  · exact Prod.Lex.left _ _
      (Nat.lt_of_le_of_lt (unvisited_le sequence below.2) (unvisited_cons_lt hf hc))

end

/-! ## Scanning -/

theorem treeAt_eq_grow {record : Record} (h : unplaced[record.index]? = some record) :
    treeAt table unplaced record.index =
      match grow table record.index (unplaced.erase record.index) record.children with
      | .error e => .error e
      | .ok (children, rest) => .ok (record.node children, rest.1) := by
  simp only [treeAt, h]
  rw [Build.run_eq_grow, Frame.refs_ofRecord]
  simp only [Frame.record_ofRecord, Frame.fill_ofRecord, Build.resume]
  cases grow table record.index (unplaced.erase record.index) record.children <;> rfl

/-- The scan finds the trees of the records that are not visited. -/
theorem treesFrom_eq_visitRoots (ht : Holds table sequence []) {records : List Record}
    (hs : records ⊆ sequence) (hu : Holds unplaced sequence visited) (found : List Node) :
    treesFrom table unplaced found (records.map (·.index)) =
      (visitRoots sequence visited records).map (found.reverse ++ ·) := by
  induction records generalizing unplaced visited found with
  | nil => simp [treesFrom, visitRoots, Except.map]
  | cons record rest ih =>
    obtain ⟨hm, hs⟩ := List.cons_subset.mp hs
    rw [List.map_cons, treesFrom, visitRoots]
    by_cases hv : record.index ∈ visited
    · rw [if_pos hv, if_neg fun hc => ((hu.contains_iff _).mp hc).2 hv]
      exact ih hs hu found
    · rw [if_neg hv, if_pos ((hu.contains_iff _).mpr ⟨List.mem_map_of_mem hm, hv⟩),
        treeAt_eq_grow (hu.get? hm hv)]
      rcases follows_node ht (record.index :: visited) record (hu.erase record.index) with
        ⟨e, hn, hg⟩ | ⟨children, after, inner, hn, hg, hi⟩
      · rw [hn, hg]
        rfl
      · simp only [hn, hg, ih hs hi]
        cases visitRoots sequence after.1 rest <;> simp [Except.map]

/-- The table is filled unless an index repeats, and then the first such index is named. -/
theorem tableFrom_eq {before : Sequence} (rest : Sequence) (h : Holds table before [])
    {seen : List Nat} (hs : ∀ i, i ∈ seen ↔ i ∈ before.map (·.index)) :
    (∃ i, repeatedIndex? seen rest = some i ∧
      tableFrom table rest = .error (.sequence (.duplicateIndex i))) ∨
    ∃ full, repeatedIndex? seen rest = none ∧ tableFrom table rest = .ok full ∧
      Holds full (before ++ rest) [] := by
  induction rest generalizing table before seen with
  | nil => exact .inr ⟨table, rfl, rfl, by rwa [List.append_nil]⟩
  | cons record rest ih =>
    have hc : table.contains record.index ↔ record.index ∈ before.map (·.index) := by
      simpa using h.contains_iff record.index
    rw [repeatedIndex?, tableFrom]
    by_cases hr : record.index ∈ before.map (·.index)
    · exact .inl ⟨record.index, by rw [if_pos ((hs _).mpr hr)], by rw [if_pos (hc.mpr hr)]⟩
    · rw [if_neg (fun hm => hr ((hs _).mp hm)), if_neg (fun hm => hr (hc.mp hm)), List.append_cons]
      exact ih (h.insert hr) fun i => by simp [hs, or_comm, eq_comm]

theorem repeatedIndex?_eq_none_iff (seen : List Nat) (sequence : Sequence) :
    repeatedIndex? seen sequence = none ↔
      (∀ i ∈ sequence.map (·.index), i ∉ seen) ∧ (sequence.map (·.index)).Nodup := by
  induction sequence generalizing seen with
  | nil => simp [repeatedIndex?]
  | cons record rest ih =>
    rw [repeatedIndex?]
    split
    · rename_i hs
      simp [hs]
    · rename_i hs
      rw [ih, List.map_cons, List.nodup_cons, List.forall_mem_cons]
      simp only [List.mem_cons, not_or]
      grind

theorem forest_of_repeatedIndex? {i : Nat} (h : sequence.repeatedIndex? [] = some i) :
    sequence.forest = .error (.sequence (.duplicateIndex i)) := by
  have h0 : Holds ∅ [] [] := fun i record => by simp
  have hs : ∀ i, i ∈ [] ↔ i ∈ ([] : Sequence).map (·.index) := by simp
  rcases tableFrom_eq sequence h0 hs with ⟨j, hj, ht⟩ | ⟨full, hn, -, -⟩
  · rw [forest, ht, Option.some.inj (h.symm.trans hj)]
  · exact absurd (h.symm.trans hn) (by simp)

/-- Where no index repeats, the records are visited in ascending order of index. -/
theorem forest_eq_visitRoots (h : sequence.repeatedIndex? [] = none) :
    sequence.forest = visitRoots sequence [] (sequence.mergeSort fun a b => a.index ≤ b.index) := by
  have h0 : Holds ∅ [] [] := fun i record => by simp
  have hs : ∀ i, i ∈ [] ↔ i ∈ ([] : Sequence).map (·.index) := by simp
  rcases tableFrom_eq sequence h0 hs with ⟨i, hi, -⟩ | ⟨full, -, ht, hu⟩
  · exact absurd (h.symm.trans hi) (by simp)
  have hp := List.mergeSort_perm sequence fun a b => decide (a.index ≤ b.index)
  have hm : (sequence.map (·.index)).mergeSort (· ≤ ·) =
      (sequence.mergeSort fun a b => a.index ≤ b.index).map (·.index) :=
    (List.map_mergeSort (f := Record.index) fun _ _ _ _ => rfl).symm
  rw [List.nil_append] at hu
  rw [forest, ht, hm]
  simp only
  rw [treesFrom_eq_visitRoots hu hp.subset hu]
  cases visitRoots sequence [] _ <;> rfl

/-- Decoding gives what the recursion gives: the same trees, or the same error. -/
theorem forest_eq_visitAll (sequence : Sequence) : sequence.forest = sequence.visitAll := by
  rw [visitAll]
  cases h : sequence.repeatedIndex? [] with
  | none => exact forest_eq_visitRoots h
  | some i => exact forest_of_repeatedIndex? h

end TreeSeq.Sequence
