import TreeSeq.Proofs.Features.Counts

/-!
# Vectors tell records apart

The features of a record are its type and, for each attribute, what stands there at each
position (`Literal.mem_features_iff`, `Record.mem_attributeFeatures_iff`). A literal is known by
what it has at each position, unless it is an empty list, which has nothing anywhere, like no
attribute at all (`Literal.eq_of_at?`). So a record can be read off its features if no list in
it is empty and no plain attribute passes for its type (`Record.Legible`), and two such records
have the same vector just if they have the same contents (`vector_eq_iff`).
-/

namespace TreeSeq

namespace Literal

/-- What a literal has at a position of a list, or as a scalar at no position. -/
def at? : Literal → Option Nat → Option Scalar
  | .one value, none => some value
  | .many values, some position => values[position]?
  | _, _ => none

theorem mem_features_iff {name : String} {literal : Literal} {feature : Feature} :
    feature ∈ literal.features name ↔
      feature.name = name ∧ literal.at? feature.position = some feature.value := by
  obtain ⟨key, position, value⟩ := feature
  cases literal with
  | one scalar =>
    rw [features, List.mem_singleton, Feature.mk.injEq]
    cases position <;> simp [at?, eq_comm]
  | many scalars =>
    rw [features, List.mem_mapIdx]
    simp only [Feature.mk.injEq]
    cases position with
    | none => simp [at?]
    | some position =>
      rw [at?, List.getElem?_eq_some_iff]
      constructor
      · rintro ⟨i, hi, rfl, ⟨⟩, rfl⟩
        exact ⟨rfl, hi, rfl⟩
      · rintro ⟨rfl, hi, rfl⟩
        exact ⟨position, hi, rfl, rfl, rfl⟩

/-- A literal has something somewhere, unless it is an empty list. -/
theorem exists_at?_of_ne {literal : Literal} (h : literal ≠ .many []) :
    ∃ position, (literal.at? position).isSome := by
  cases literal with
  | one value => exact ⟨none, rfl⟩
  | many values =>
    cases values with
    | nil => exact absurd rfl h
    | cons value rest => exact ⟨some 0, rfl⟩

/-- Literals that have the same everywhere are equal. -/
theorem eq_of_at? {one other : Literal} (h : ∀ position, one.at? position = other.at? position) :
    one = other := by
  have hscalar := h none
  cases one with
  | one value =>
    cases other with
    | one scalar => exact congrArg Literal.one (Option.some.inj hscalar)
    | many scalars => cases hscalar
  | many values =>
    cases other with
    | one scalar => cases hscalar
    | many scalars => exact congrArg Literal.many (List.ext_getElem? fun i => h (some i))

/-- The same for literals that may be missing, if they are not empty lists. -/
theorem eq_of_bind_at? {one other : Option Literal} (hone : one ≠ some (.many []))
    (hother : other ≠ some (.many []))
    (h : ∀ position, one.bind (·.at? position) = other.bind (·.at? position)) : one = other := by
  cases one with
  | none =>
    cases other with
    | none => rfl
    | some literal =>
      obtain ⟨position, hp⟩ := exists_at?_of_ne fun he => hother (congrArg some he)
      rw [← Option.bind_some literal fun literal => literal.at? position, ← h] at hp
      cases hp
  | some literal =>
    cases other with
    | none =>
      obtain ⟨position, hp⟩ := exists_at?_of_ne fun he => hone (congrArg some he)
      rw [← Option.bind_some literal fun literal => literal.at? position, h] at hp
      cases hp
    | some scalar => exact congrArg some (eq_of_at? h)

end Literal

namespace Record

variable {a b record : Record} {feature : Feature}

/-- What the attribute with a name has at a position. -/
def valueAt? (record : Record) (name : String) (position : Option Nat) : Option Scalar :=
  (Fields.get? record.scalars name).bind (·.at? position)

theorem mem_attributeFeatures_iff (h : Fields.Distinct record.scalars) :
    feature ∈ record.attributeFeatures ↔
      record.valueAt? feature.name feature.position = some feature.value := by
  rw [attributeFeatures, List.mem_flatMap, valueAt?, Option.bind_eq_some_iff]
  constructor
  · rintro ⟨field, hf, hm⟩
    obtain ⟨hname, hvalue⟩ := Literal.mem_features_iff.mp hm
    exact ⟨field.2, Fields.get?_of_mem h (hname ▸ hf), hvalue⟩
  · rintro ⟨literal, hl, hvalue⟩
    exact ⟨(feature.name, literal), Fields.mem_of_get? hl,
      Literal.mem_features_iff.mpr ⟨rfl, hvalue⟩⟩

/-- A record that can be read off its features. -/
structure Legible (record : Record) : Prop where
  distinct : Fields.Distinct record.scalars
  /-- No plain attribute has the name under which the type is a feature. -/
  untyped : ∀ value, (typeFeatureName, Literal.one value) ∉ record.scalars
  /-- No attribute is an empty list. -/
  filled : ∀ name, (name, Literal.many []) ∉ record.scalars

namespace Legible

theorem get?_ne_empty (h : record.Legible) (name : String) :
    Fields.get? record.scalars name ≠ some (.many []) :=
  fun he => h.filled name (Fields.mem_of_get? he)

/-- No attribute has a value where the type is a feature. -/
theorem valueAt?_type (h : record.Legible) : record.valueAt? typeFeatureName none = none := by
  rw [valueAt?, Option.bind_eq_none_iff]
  intro literal hl
  cases literal with
  | one value => exact absurd (Fields.mem_of_get? hl) (h.untyped value)
  | many values => rfl

/-- The type and the attributes have no feature in common. -/
theorem nodup_features (h : record.Legible) : record.features.Nodup := by
  refine List.nodup_cons.mpr ⟨fun hm => ?_, nodup_attributeFeatures h.distinct⟩
  have hvalue := (mem_attributeFeatures_iff h.distinct).mp hm
  rw [h.valueAt?_type] at hvalue
  cases hvalue

/-- Each feature gives the type or the value of an attribute at a position. -/
theorem mem_features_iff (h : record.Legible) : feature ∈ record.features ↔
    feature = ⟨typeFeatureName, none, .text record.nodeType⟩ ∨
      record.valueAt? feature.name feature.position = some feature.value := by
  rw [features_eq, List.mem_cons, mem_attributeFeatures_iff h.distinct]

/-- What is a feature of the type in one record is not one of an attribute in the other. -/
theorem nodeType_eq_of_subset (hb : b.Legible) (h : a.features ⊆ b.features) :
    a.nodeType = b.nodeType := by
  rcases hb.mem_features_iff.mp (h List.mem_cons_self) with he | hvalue
  · injection he with _ _ hvalue
    exact Scalar.text.inj hvalue
  · rw [hb.valueAt?_type] at hvalue
    cases hvalue

theorem valueAt?_of_subset (ha : a.Legible) (hb : b.Legible) (h : a.features ⊆ b.features)
    {name : String} {position : Option Nat} {value : Scalar}
    (hvalue : a.valueAt? name position = some value) :
    b.valueAt? name position = some value := by
  have hm : (⟨name, position, value⟩ : Feature) ∈ a.features :=
    ha.mem_features_iff.mpr (.inr hvalue)
  rcases hb.mem_features_iff.mp (h hm) with he | hother
  · -- the feature of an attribute of `a` is not the type of `b`
    injection he with hname hposition _
    rw [hname, hposition, ha.valueAt?_type] at hvalue
    cases hvalue
  · exact hother

/-- Two records have the same features just if they have the same type and the same attributes,
in any order. -/
theorem forall_mem_features_iff (ha : a.Legible) (hb : b.Legible) :
    (∀ feature, feature ∈ a.features ↔ feature ∈ b.features) ↔
      a.nodeType = b.nodeType ∧
        ∀ name, Fields.get? a.scalars name = Fields.get? b.scalars name := by
  constructor
  · intro h
    have hab : a.features ⊆ b.features := fun feature => (h feature).mp
    have hba : b.features ⊆ a.features := fun feature => (h feature).mpr
    refine ⟨hb.nodeType_eq_of_subset hab, fun name => ?_⟩
    refine Literal.eq_of_bind_at? (ha.get?_ne_empty name) (hb.get?_ne_empty name) fun position => ?_
    exact Option.ext fun value => ⟨ha.valueAt?_of_subset hb hab, hb.valueAt?_of_subset ha hba⟩
  · rintro ⟨htype, hscalars⟩ feature
    rw [ha.mem_features_iff, hb.mem_features_iff, htype, valueAt?, valueAt?, hscalars]

end Legible

end Record

namespace Columns

variable {columns : Columns} {a b record : Record}

/-- Vectors are equal just if the counts of all features with a column are. -/
theorem vector_eq_iff_count : columns.vector a = columns.vector b ↔
    ∀ feature ∈ columns.features, a.features.count feature = b.features.count feature := by
  rw [vector_eq_map, vector_eq_map]
  exact List.map_inj_left

/-- A record that can be read off its features has each of them once. -/
theorem entry_of_legible (h : record.Legible) {n : Nat} (hn : n ∈ columns.vector record) :
    n = 0 ∨ n = 1 := by
  rw [vector_eq_map] at hn
  obtain ⟨feature, -, rfl⟩ := List.mem_map.mp hn
  have := List.nodup_iff_count_le_one.mp h.nodup_features feature
  omega

/-- Over columns with all their features, two records that can be read off their features have
the same vector just if they have the same type and, under each name, the same attribute. The
entries of such a vector are zeros and ones. -/
theorem vector_eq_iff (ha : a.Legible) (hb : b.Legible)
    (hca : ∀ feature ∈ a.features, feature ∈ columns.features)
    (hcb : ∀ feature ∈ b.features, feature ∈ columns.features) :
    (columns.vector a = columns.vector b ↔
      a.nodeType = b.nodeType ∧
        ∀ name, Fields.get? a.scalars name = Fields.get? b.scalars name) ∧
    (∀ n ∈ columns.vector a, n = 0 ∨ n = 1) ∧ ∀ n ∈ columns.vector b, n = 0 ∨ n = 1 := by
  refine ⟨?_, fun n => entry_of_legible ha, fun n => entry_of_legible hb⟩
  rw [← ha.forall_mem_features_iff hb, vector_eq_iff_count]
  constructor
  · intro h feature
    -- a feature without a column is in neither record
    by_cases hc : feature ∈ columns.features
    · rw [← List.count_pos_iff, h feature hc, List.count_pos_iff]
    · exact ⟨fun hf => absurd (hca feature hf) hc, fun hf => absurd (hcb feature hf) hc⟩
  · intro h feature _
    rw [ha.nodup_features.count, hb.nodup_features.count, if_congr (h feature) rfl rfl]

/-- A list beside a plain attribute whose name looks like that of its first element. -/
def bracketed : Record :=
  ⟨0, "Decl", [("quals[0]", .one (.text "const")), ("quals", .many [.text "const", .int 1])], [],
    none⟩

/-- The same attributes the other way round, and a list under the name of the type. -/
def turned : Record :=
  ⟨7, "Decl", [("quals", .many [.text "const", .int 1]), ("quals[0]", .one (.text "const"))], [],
    some "a.c:1"⟩

/-- The list is longer, and under the name of the type there is another one. -/
def longer : Record :=
  ⟨1, "Decl", [("quals", .many [.text "const", .int 1, .null]),
    ("_nodetype", .many [.text "Decl"])], [], none⟩

theorem legible_bracketed : bracketed.Legible :=
  ⟨by decide, by simp [bracketed, typeFeatureName], by simp [bracketed]⟩

theorem legible_turned : turned.Legible :=
  ⟨by decide, by simp [turned, typeFeatureName], by simp [turned]⟩

theorem legible_longer : longer.Legible :=
  ⟨by decide, by simp [longer, typeFeatureName], by simp [longer]⟩

/-- The order of the attributes does not count, their contents do. -/
theorem vector_eq_iff_bracketed :
    bracketed.Legible ∧ turned.Legible ∧ longer.Legible ∧
      (∀ record ∈ [bracketed, turned, longer], ∀ feature ∈ record.features,
        feature ∈ (empty.observe [bracketed, longer]).features) ∧
      (empty.observe [bracketed, longer]).vector bracketed =
        (empty.observe [bracketed, longer]).vector turned ∧
      (empty.observe [bracketed, longer]).vector bracketed ≠
        (empty.observe [bracketed, longer]).vector longer ∧
      ∀ n ∈ (empty.observe [bracketed, longer]).vector longer, n = 0 ∨ n = 1 := by
  have hcolumns : ∀ record ∈ [bracketed, turned, longer], ∀ feature ∈ record.features,
      feature ∈ (empty.observe [bracketed, longer]).features := by decide
  have hb := hcolumns bracketed (by decide)
  obtain ⟨hturned, -⟩ :=
    vector_eq_iff legible_bracketed legible_turned hb (hcolumns turned (by decide))
  obtain ⟨hlonger, -, hentries⟩ :=
    vector_eq_iff legible_bracketed legible_longer hb (hcolumns longer (by decide))
  refine ⟨legible_bracketed, legible_turned, legible_longer, hcolumns, hturned.mpr ⟨rfl, ?_⟩,
    fun he => ?_, hentries⟩
  · exact Fields.get?_of_perm legible_bracketed.distinct (List.Perm.swap _ _ [])
  · exact absurd ((hlonger.mp he).2 "quals[0]") (by decide)

end Columns

end TreeSeq
