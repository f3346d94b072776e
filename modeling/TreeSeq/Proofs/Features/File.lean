import TreeSeq.Features.Json
import TreeSeq.Proofs.Features.Columns
import TreeSeq.Proofs.Sequence.File

/-!
# Feature files

A feature is written as an object with its name, its position if it has one, and its
value, and read field by field into a draft (`Feature.reads_toJson`). Columns are loaded
from their file with every feature in its place (`Columns.load_of_save`), as long as the
positions have 64 bits (`Feature.Storable`); features that repeat in a file have the place of
their first occurrence (`Columns.load_of_document`).
-/

namespace TreeSeq

open Json (Value blanks_space)
open Json.Dialect (exact_nested)
open Json.Reader

theorem Json.Reader.reads_scalar (scalar : Scalar) (around depth : Nat) :
    Reads (Reader.scalar around) (scalar.toJson.symbols depth) scalar := by
  have hv := reads_value (exact_nested (greatestDepth - around)) (scalar.fits_toJson _ _) depth
  rw [scalar.merged_toJson] at hv
  refine hv.bind fun rest => ?_
  rw [scalar.ofJson?_toJson]
  exact takes_pure scalar rest

namespace Feature

/-- A feature that a file can hold: its position has 64 bits. -/
def Storable (feature : Feature) : Prop :=
  ∀ position ∈ feature.position, position < UInt64.size

instance (feature : Feature) : Decidable feature.Storable :=
  inferInstanceAs (Decidable (∀ position ∈ feature.position, position < UInt64.size))

/-- A position is told apart from null by its first character. -/
theorem reads_position {position : Nat} (h : position < UInt64.size) :
    Reads (nullable natural) (Document.ofText (Json.Number.integer position).text)
      (some position) := by
  refine reads_nullable_some (reads_natural h) ?_
  obtain ⟨c, tail, ht, hc⟩ := Json.exists_head_integer position
  rw [ht]
  rintro ⟨rfl⟩
  exact absurd hc (by decide)

/-- A feature is read back from what it is written as. -/
theorem reads_toJson {feature : Feature} (h : feature.Storable) (depth : Nat) :
    Reads reader (feature.toJson.symbols depth) feature := by
  obtain ⟨name, position, value⟩ := feature
  cases position with
  | none =>
    have ha : Absorbs (namedMember members) .empty
        ([("key", Value.string name), ("value", value.toJson)].map (Value.entrySymbols (depth + 1)))
        ⟨some name, none, some value⟩ := by
      refine .cons (reads_namedMember rfl rfl blanks_space ((reads_string _).map _)) ?_
      exact .cons (reads_namedMember rfl rfl blanks_space ((reads_scalar value 2 _).map _)) (.nil _)
    exact reads_record_object ha rfl
  | some position =>
    have ha : Absorbs (namedMember members) .empty
        ([("key", Value.string name), ("position", Value.ofNat position),
          ("value", value.toJson)].map (Value.entrySymbols (depth + 1)))
        ⟨some name, some (some position), some value⟩ := by
      refine .cons (reads_namedMember rfl rfl blanks_space ((reads_string _).map _)) ?_
      refine .cons (reads_namedMember rfl rfl blanks_space
        ((reads_position (h position rfl)).map _)) ?_
      exact .cons (reads_namedMember rfl rfl blanks_space ((reads_scalar value 2 _).map _)) (.nil _)
    exact reads_record_object ha rfl

end Feature

namespace Columns

/-- An array of features is read back, also if some of them repeat. -/
theorem document_features {features : List Feature}
    (h : ∀ feature ∈ features, feature.Storable) :
    document (list Feature.reader)
      (.ofBytes (Value.array (features.map Feature.toJson)).pretty.toUTF8) = .ok features := by
  have hr : Reads (list Feature.reader)
      ((Value.array (features.map Feature.toJson)).symbols 0) features :=
    reads_array Feature.toJson fun feature hm => Feature.reads_toJson (h feature hm) 1
  rw [Document.ofBytes_toUTF8, Value.ofText_pretty, hr.document]

/-- Columns are loaded from their file, each feature in its place. -/
theorem load_of_save (columns : Columns) (h : ∀ feature ∈ columns.features, feature.Storable) :
    load columns.save.toUTF8 = .ok columns := by
  rw [load, save, document_features h]
  exact congrArg Except.ok columns.ofFeatures_features

/-- An array of features is loaded as columns in the order of the first occurrences. -/
theorem load_of_document {bytes : ByteArray} {features : List Feature}
    (h : document (list Feature.reader) (.ofBytes bytes) = .ok features) :
    ∃ columns, load bytes = .ok columns ∧ FirstSeen features columns := by
  refine ⟨ofFeatures features, ?_, firstSeen_ofFeatures features⟩
  rw [load, h]

/-- Columns that are saved and loaded have the same features in the same places, so vectors
stay what they were. Whatever the form in which a file has its features, they get columns in
the order of their first occurrences, and the form in which features are written is read
also where some of them repeat. -/
theorem loaded_columns (columns : Columns)
    (h : ∀ feature ∈ columns.features, feature.Storable) :
    (∃ loaded, load columns.save.toUTF8 = .ok loaded ∧
      (∀ feature, loaded.columnOf? feature = columns.columnOf? feature) ∧
      (∀ column, loaded.featureAt? column = columns.featureAt? column) ∧
      ∀ record, loaded.vector record = columns.vector record) ∧
    (∀ (bytes : ByteArray) (features : List Feature),
      document (list Feature.reader) (.ofBytes bytes) = .ok features →
        ∃ loaded, load bytes = .ok loaded ∧ FirstSeen features loaded) ∧
    ∀ features : List Feature, (∀ feature ∈ features, feature.Storable) →
      document (list Feature.reader)
        (.ofBytes (Value.array (features.map Feature.toJson)).pretty.toUTF8) = .ok features :=
  ⟨⟨columns, load_of_save columns h, fun _ => rfl, fun _ => rfl, fun _ => rfl⟩,
    fun _ _ => load_of_document, fun _ => document_features⟩

/-- Features that differ in their positions and in the kinds of their values alone. -/
def lookalikes : Columns :=
  ⟨[⟨"k", none, .null⟩, ⟨"k", none, .bool false⟩, ⟨"k", none, .int 0⟩, ⟨"k", none, .text "0"⟩,
    ⟨"k", some 0, .int 0⟩, ⟨"k", some (UInt64.size - 1), .int 0⟩, ⟨"k", some 1, .text "null"⟩],
    by decide⟩

theorem loaded_columns_lookalikes :
    (∀ feature ∈ lookalikes.features, feature.Storable) ∧
      ∃ loaded, load lookalikes.save.toUTF8 = .ok loaded ∧
        loaded.columnOf? ⟨"k", none, .text "0"⟩ = some 3 ∧
        loaded.featureAt? 5 = some ⟨"k", some (UInt64.size - 1), .int 0⟩ := by
  have hstorable : ∀ feature ∈ lookalikes.features, feature.Storable := by decide
  obtain ⟨loaded, hload, hcolumn, hfeature, -⟩ := (loaded_columns lookalikes hstorable).1
  exact ⟨hstorable, loaded, hload, hcolumn _, hfeature _⟩

end Columns

end TreeSeq
