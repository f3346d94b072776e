import TreeSeq.Proofs.Features.Counts

/-!
# A single pass grows columns and counts on the way

A single pass finds the columns of the features of a record while it adds the new ones, and
makes the vector at once. The column that it finds for a feature is the one that the feature
has for good, so the vector is the one over the columns grown so far (`grow_eq`). All in all
it grows the columns that observing the records grows, and its vectors become those of the
second pass once they are filled up with zeros (`singlePass_agrees`).
-/

namespace TreeSeq.Columns

variable {columns : Columns} {feature : Feature}

theorem add_of_mem (h : feature ∈ columns.features) : columns.add feature = columns :=
  dif_pos h

theorem features_add_of_not_mem (h : feature ∉ columns.features) :
    (columns.add feature).features = columns.features ++ [feature] := by
  rw [add, dif_neg h]

/-- The column that is found is the one of the feature once it is added. -/
theorem exists_place_eq (columns : Columns) (feature : Feature) :
    ∃ column, columns.place feature = (column, columns.add feature) ∧
      (columns.add feature).columnOf? feature = some column := by
  rw [place]
  cases hc : columns.columnOf? feature with
  | some column =>
    have hm : feature ∈ columns.features :=
      List.mem_of_getElem? (columnOf?_eq_some_iff.mp hc)
    refine ⟨column, ?_, ?_⟩
    · rw [add_of_mem hm]
    · rw [add_of_mem hm, hc]
  | none =>
    have hm : feature ∉ columns.features := List.idxOf?_eq_none_iff.mp hc
    refine ⟨columns.width, rfl, ?_⟩
    rw [columnOf?_eq_some_iff, featureAt?, features_add_of_not_mem hm, width,
      List.getElem?_concat_length]

/-- The columns that are found on the way are the columns of the features in the end. -/
theorem placeAll_eq (columns : Columns) (found : List Nat) (features : List Feature) :
    columns.placeAll found features =
      (found.reverse ++ features.filterMap (columns.addAll features).columnOf?,
        columns.addAll features) := by
  induction features generalizing columns found with
  | nil =>
    rw [placeAll, List.filterMap_nil, List.append_nil]
    rfl
  | cons feature rest ih =>
    obtain ⟨column, hp, hc⟩ := columns.exists_place_eq feature
    have hadd : columns.addAll (feature :: rest) = (columns.add feature).addAll rest := rfl
    have hlast : (columns.addAll (feature :: rest)).columnOf? feature = some column :=
      columnOf?_of_prefix (prefix_addAll _ rest) hc
    rw [List.filterMap_cons_some hlast, placeAll, hp]
    simp only
    rw [ih, hadd, List.reverse_cons, List.append_assoc, List.singleton_append]

/-- Growing columns by a record and counting at once is the same as counting afterwards. -/
theorem grow_eq (columns : Columns) (record : Record) : columns.grow record =
    ((columns.addAll record.features).vector record, columns.addAll record.features) := by
  rw [grow, placeAll_eq]
  rfl

theorem growAll_eq (columns : Columns) (made : List (List Nat)) (sequence : Sequence) :
    columns.growAll made sequence =
      (made.reverse ++ (columns.singlePass sequence).1, (columns.singlePass sequence).2) := by
  induction sequence generalizing columns made with
  | nil =>
    rw [singlePass, growAll, growAll, List.reverse_nil, List.append_nil]
  | cons record rest ih =>
    rw [singlePass, growAll, growAll]
    simp only
    rw [ih, ih _ [_], List.reverse_cons, List.reverse_singleton, List.append_assoc]

/-- The vector of the first record is over the columns with its features, and the pass goes on
from there. -/
theorem singlePass_cons (columns : Columns) (record : Record) (rest : Sequence) :
    columns.singlePass (record :: rest) =
      ((columns.addAll record.features).vector record ::
          ((columns.addAll record.features).singlePass rest).1,
        ((columns.addAll record.features).singlePass rest).2) := by
  rw [singlePass, growAll, grow_eq]
  exact growAll_eq _ [_] rest

theorem observe_cons (columns : Columns) (record : Record) (rest : Sequence) :
    columns.observe (record :: rest) = (columns.addAll record.features).observe rest := rfl

/-- A single pass leaves the columns that observing leaves. -/
theorem columns_singlePass (columns : Columns) (sequence : Sequence) :
    (columns.singlePass sequence).2 = columns.observe sequence := by
  induction sequence generalizing columns with
  | nil => rfl
  | cons record rest ih => rw [singlePass_cons, ih, observe_cons]

/-- Each vector is as wide as the columns are once its record and those before are
observed. -/
theorem lengths_singlePass (columns : Columns) (sequence : Sequence) :
    (columns.singlePass sequence).1.map List.length =
      (List.range sequence.length).map fun i =>
        (columns.observe (sequence.take (i + 1))).width := by
  induction sequence generalizing columns with
  | nil => rfl
  | cons record rest ih =>
    rw [singlePass_cons, List.map_cons, ih, length_vector, List.length_cons,
      List.range_succ_eq_map, List.map_cons, List.map_map]
    rfl

/-- Filled up with zeros, the vectors are those over any columns that are grown further. -/
theorem rightpad_singlePass {columns grown : Columns} {sequence : Sequence}
    (h : (columns.observe sequence).features <+: grown.features) :
    (columns.singlePass sequence).1.map (List.rightpad grown.width 0) = grown.vectors sequence := by
  induction sequence generalizing columns with
  | nil => rfl
  | cons record rest ih =>
    rw [observe_cons] at h
    have hfirst : (columns.addAll record.features).features <+: grown.features := by
      rw [observe_eq] at h
      exact (prefix_addAll _ _).trans h
    rw [singlePass_cons, List.map_cons, ih h, vectors, vectors, List.map_cons,
      rightpad_vector hfirst fun feature hf => mem_features_addAll.mpr (.inr hf)]

/-- A single pass leaves the columns, in the same order, that observing the records leaves.
Its vectors are each as wide as the columns were when its record had been observed, and with
zeros up to the final width they are the vectors that the records have over the final
columns. -/
theorem singlePass_agrees (columns : Columns) (sequence : Sequence) :
    (columns.singlePass sequence).2 = columns.observe sequence ∧
    ((columns.singlePass sequence).1.map List.length =
      (List.range sequence.length).map fun i =>
        (columns.observe (sequence.take (i + 1))).width) ∧
    (columns.singlePass sequence).1.map (List.rightpad (columns.observe sequence).width 0) =
      (columns.observe sequence).vectors sequence :=
  ⟨columns.columns_singlePass sequence, columns.lengths_singlePass sequence,
    rightpad_singlePass (List.prefix_refl _)⟩

end TreeSeq.Columns
