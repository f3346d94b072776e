import TreeSeq.Proofs.Features.Columns
import TreeSeq.Proofs.Fields

/-!
# Vectors count features

Columns and features stand for each other (`columnOf?_eq_some_iff`), and a vector tells for
each column how often its record has the feature of that column (`vector_eq_map`). Columns
that grow keep what they were as a prefix. Hence a vector over fewer columns is the beginning
of the vector over more (`take_vector`), and if the fewer columns have all features of the
record, the rest is zeros (`rightpad_vector`).

A record has each of its features once, apart from its type, which an attribute may repeat
(`Record.count_features_le`).
-/

namespace TreeSeq

/-! ## How often a record has a feature -/

namespace Literal

theorem name_of_mem_features {name : String} {literal : Literal} {feature : Feature}
    (h : feature ∈ literal.features name) : feature.name = name := by
  cases literal with
  | one value =>
    rw [List.mem_singleton.mp h]
  | many values =>
    obtain ⟨position, _, rfl⟩ := List.mem_mapIdx.mp h
    rfl

/-- The elements of a list differ in their positions. -/
theorem nodup_features (name : String) (literal : Literal) : (literal.features name).Nodup := by
  cases literal with
  | one value => exact List.nodup_singleton _
  | many values =>
    refine List.nodup_iff_getElem?_ne_getElem?.mpr fun i j hij hj he => ?_
    rw [features, List.length_mapIdx] at hj
    have hi : i < values.length := Nat.lt_trans hij hj
    simp only [features, List.getElem?_mapIdx, List.getElem?_eq_getElem hi,
      List.getElem?_eq_getElem hj, Option.map_some, Option.some.injEq, Feature.mk.injEq] at he
    omega

end Literal

namespace Record

variable {record : Record}

/-- The features of the attributes of a record. -/
def attributeFeatures (record : Record) : List Feature :=
  record.scalars.flatMap fun field => field.2.features field.1

theorem features_eq (record : Record) : record.features =
    ⟨typeFeatureName, none, .text record.nodeType⟩ :: record.attributeFeatures := rfl

/-- Attributes have distinct names, so their features are distinct. -/
theorem nodup_attributeFeatures (h : Fields.Distinct record.scalars) :
    record.attributeFeatures.Nodup := by
  refine List.nodup_flatMap.mpr ⟨fun field _ => field.2.nodup_features field.1, ?_⟩
  refine (List.pairwise_map.mp h).imp fun {one other} hne feature hone hother => hne ?_
  rw [← Literal.name_of_mem_features hone, Literal.name_of_mem_features hother]

/-- No feature comes more than twice, so no count is ever large. -/
theorem count_features_le (h : Fields.Distinct record.scalars) (feature : Feature) :
    record.features.count feature ≤ 2 := by
  have hattributes := List.nodup_iff_count_le_one.mp (nodup_attributeFeatures h) feature
  rw [features_eq, List.count_cons]
  split <;> omega

end Record

namespace Columns

variable {columns grown : Columns} {record : Record} {feature : Feature} {column : Nat}

/-! ## Columns and features -/

/-- The column of a feature is the one that has this feature. -/
theorem columnOf?_eq_some_iff :
    columns.columnOf? feature = some column ↔ columns.featureAt? column = some feature := by
  rw [columnOf?, List.idxOf?_eq_some_iff, featureAt?, List.getElem?_eq_some_iff]
  constructor
  · rintro ⟨hlt, he, -⟩
    exact ⟨hlt, he⟩
  · rintro ⟨hlt, he⟩
    refine ⟨hlt, he, fun other ho hother => ?_⟩
    have := columns.distinct.getElem_inj_iff.mp (hother.trans he.symm)
    omega

/-- Columns that are added leave the earlier ones in front. -/
theorem prefix_addAll (columns : Columns) (features : List Feature) :
    columns.features <+: (columns.addAll features).features := by
  rw [features_addAll]
  exact List.prefix_append _ _

/-- A feature keeps its column. -/
theorem columnOf?_of_prefix (h : columns.features <+: grown.features)
    (hc : columns.columnOf? feature = some column) : grown.columnOf? feature = some column := by
  obtain ⟨new, hn⟩ := h
  rw [columnOf?_eq_some_iff, featureAt?] at hc ⊢
  have hlt := (List.getElem?_eq_some_iff.mp hc).choose
  rw [← hn, List.getElem?_append_left hlt, hc]

/-! ## The entries of a vector -/

theorem getElem?_foldl_count (vector found : List Nat) (column : Nat) :
    (found.foldl count vector)[column]? = vector[column]?.map (· + found.count column) := by
  induction found generalizing vector with
  | nil => simp
  | cons first rest ih =>
    rw [List.foldl_cons, ih, count, List.getElem?_modify, List.count_cons]
    cases vector[column]? with
    | none => rfl
    | some n =>
      by_cases h : first = column
      · simp only [h, if_true, Option.map_eq_map, Option.map_some, beq_self_eq_true,
          Option.some.injEq]
        omega
      · simp [h]

/-- A column is found as often as its feature is there. -/
theorem count_filterMap_columnOf? (h : columns.featureAt? column = some feature)
    (features : List Feature) :
    (features.filterMap columns.columnOf?).count column = features.count feature := by
  rw [List.count_filterMap, List.count]
  refine List.countP_congr fun other _ => ?_
  rw [beq_iff_eq, beq_iff_eq, columnOf?_eq_some_iff, h, Option.some.injEq, eq_comm]

/-- The entry in a column is how often the record has its feature. -/
theorem getElem?_vector (columns : Columns) (record : Record) (column : Nat) :
    (columns.vector record)[column]? =
      (columns.featureAt? column).map (record.features.count ·) := by
  rw [Columns.vector, getElem?_foldl_count]
  cases hf : columns.featureAt? column with
  | none =>
    have hle : columns.width ≤ column := List.getElem?_eq_none_iff.mp hf
    rw [List.getElem?_replicate, if_neg (Nat.not_lt.mpr hle)]
    rfl
  | some feature =>
    have hlt : column < columns.width := (List.getElem?_eq_some_iff.mp hf).choose
    rw [List.getElem?_replicate, if_pos hlt, count_filterMap_columnOf? hf, Option.map_some,
      Option.map_some, Nat.zero_add]

theorem vector_eq_map (columns : Columns) (record : Record) :
    columns.vector record = columns.features.map (record.features.count ·) :=
  List.ext_getElem? fun column => by
    rw [getElem?_vector, List.getElem?_map]
    rfl

/-! ## Vectors over fewer and over more columns -/

/-- What a vector says over fewer columns it says over more. -/
theorem take_vector (h : columns.features <+: grown.features) (record : Record) :
    (grown.vector record).take columns.width = columns.vector record := by
  obtain ⟨new, hn⟩ := h
  rw [vector_eq_map, vector_eq_map, ← hn, List.map_append]
  exact List.take_left' (List.length_map _)

/-- A vector over columns that have all features of its record is zero in all later
columns. -/
theorem rightpad_vector (h : columns.features <+: grown.features)
    (ha : ∀ feature ∈ record.features, feature ∈ columns.features) :
    (columns.vector record).rightpad grown.width 0 = grown.vector record := by
  obtain ⟨new, hn⟩ := h
  have hzero : new.map (record.features.count ·) = List.replicate new.length 0 := by
    refine List.map_eq_replicate_iff.mpr fun feature hf => List.count_eq_zero.mpr fun hr => ?_
    have hd := grown.distinct
    rw [← hn] at hd
    exact (List.nodup_append.mp hd).2.2 feature (ha feature hr) feature hf rfl
  have hwidth : grown.width - columns.width = new.length := by
    rw [width, width, ← hn, List.length_append]
    omega
  rw [List.rightpad, length_vector, hwidth, vector_eq_map, vector_eq_map, ← hn, List.map_append,
    hzero]

end Columns

end TreeSeq
