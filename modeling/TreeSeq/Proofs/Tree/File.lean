import TreeSeq.Proofs.Json.Values
import TreeSeq.Tree.Import

/-!
# Tree files

A tree file is the text of `Node.written`, where a name may stand twice; the value
that a tree is (`Node.toJson`) has every name once. Merging repeated names makes one
of the other, so the file is read as the value.

* `merged_written`: merging what is written gives the value;
* `parse_save`, `load_save`: a saved file is parsed as the value, and loaded as the
  value is read.
-/

namespace TreeSeq

open Json (Value)
open Json.Dialect (Fits plain)

namespace Json.Value

theorem mergedItems_eq_map (items : List Value) : mergedItems items = items.map merged := by
  induction items with
  | nil => rfl
  | cons item rest ih => rw [mergedItems, ih, List.map_cons]

theorem mergedFields_eq_map (fields : List (String × Value)) :
    mergedFields fields = fields.map fun field => (field.1, field.2.merged) := by
  induction fields with
  | nil => rfl
  | cons field rest ih => rw [mergedFields, ih, List.map_cons]

theorem merged_array (items : List Value) : (array items).merged = array (items.map merged) := by
  rw [merged, mergedItems_eq_map]

end Json.Value

/-! ## Attributes -/

namespace Scalar

theorem merged_toJson (scalar : Scalar) : scalar.toJson.merged = scalar.toJson := by
  cases scalar <;> rfl

theorem fits_toJson (scalar : Scalar) (dialect : Json.Dialect) (around : Nat) :
    dialect.Fits around scalar.toJson := by
  cases scalar with
  | null => exact .null
  | bool b => exact .bool b
  | int n =>
    have hmax : Int64.maxValue.toInt < UInt64.size := by decide
    exact .integer n.minValue_le_toInt (Int.lt_of_le_of_lt n.toInt_le hmax)
  | text s => exact .string s

end Scalar

namespace Literal

theorem merged_toJson (literal : Literal) : literal.toJson.merged = literal.toJson := by
  cases literal with
  | one scalar => exact scalar.merged_toJson
  | many scalars =>
    rw [toJson, Value.merged_array, List.map_map]
    exact congrArg _ (List.map_congr_left fun scalar _ => scalar.merged_toJson)

theorem fits_toJson (literal : Literal) {dialect : Json.Dialect} {around : Nat}
    (h : dialect.depth.all (around < ·)) : dialect.Fits around literal.toJson := by
  cases literal with
  | one scalar => exact scalar.fits_toJson dialect around
  | many scalars =>
    refine .array h ?_
    rw [List.forall_mem_map]
    exact fun scalar _ => scalar.fits_toJson dialect _

end Literal

namespace Node

/-! ## Repeated names -/

theorem slotLiterals_eq (scalars : Fields Literal) (slot : String) :
    slotLiterals scalars slot =
      ((Fields.get? scalars slot).elim [] Literal.scalars).map Scalar.toJson := by
  rw [slotLiterals]
  cases Fields.get? scalars slot <;> rfl

theorem map_merged_slotLiterals (scalars : Fields Literal) (slot : String) :
    (slotLiterals scalars slot).map Value.merged = slotLiterals scalars slot := by
  rw [slotLiterals_eq, List.map_map]
  exact List.map_congr_left fun scalar _ => scalar.merged_toJson

/-- Merging leaves the names of a node where they are, and reaches its children. -/
theorem mergedFields_jsonFields (nodeType : String) (scalars : Fields Literal)
    (slots : List (String × List Node)) (span : Option String)
    (slotFields : List (String × Value)) :
    Value.mergedFields (jsonFields nodeType scalars slots span slotFields) =
      jsonFields nodeType scalars slots span (Value.mergedFields slotFields) := by
  have hempty : ∀ names : List String,
      (Value.array (names.map .string)).merged = .array (names.map .string) := fun names => by
    rw [Value.merged_array, List.map_map]
    rfl
  have hspan : (Value.ofText? span).merged = .ofText? span := by cases span <;> rfl
  simp only [jsonFields, Value.mergedFields_eq_map, List.map_cons, List.map_append, List.map_map,
    List.map_nil, hspan, Value.merged]
  congr 4
  · exact List.map_congr_left fun field _ => congrArg _ field.2.merged_toJson
  · split
    · rfl
    · rw [List.map_cons, hempty, List.map_nil]

mutual

theorem merged_written : ∀ tree : Node, (tree.jsonWith id).merged = tree.jsonWith Fields.ofPairs
  | ⟨nodeType, scalars, slots, span⟩ => by
    rw [jsonWith, jsonWith, Value.merged, id, mergedFields_jsonFields, mergedFields_slotsJson]

theorem mergedFields_slotsJson (scalars : Fields Literal) : ∀ slots : List (String × List Node),
    Value.mergedFields (slotsJson id scalars slots) = slotsJson Fields.ofPairs scalars slots
  | [] => rfl
  | (slot, children) :: rest => by
    rw [slotsJson, slotsJson, Value.mergedFields, Value.merged_array, List.map_append,
      map_merged_slotLiterals, map_merged_nodesJson, mergedFields_slotsJson]

theorem map_merged_nodesJson : ∀ nodes : List Node,
    (nodesJson id nodes).map Value.merged = nodesJson Fields.ofPairs nodes
  | [] => rfl
  | node :: rest => by
    rw [nodesJson, nodesJson, List.map_cons, merged_written, map_merged_nodesJson]

end

/-! ## The text -/

mutual

theorem fits_written (around : Nat) : ∀ tree : Node, plain.Fits around (tree.jsonWith id)
  | ⟨nodeType, scalars, slots, span⟩ => by
    rw [jsonWith, id, jsonFields]
    refine .object rfl ?_
    simp only [List.forall_mem_cons, List.forall_mem_append, List.forall_mem_map]
    refine ⟨.string _, ⟨⟨fun field _ => field.2.fits_toJson rfl, fits_slotsJson _ scalars slots⟩, ?_⟩,
      ?_, by simp⟩
    · split
      · simp
      · rw [List.forall_mem_singleton]
        exact .array rfl (List.forall_mem_map.mpr fun name _ => .string name)
    · cases span with
      | none => exact .null
      | some text => exact .string text

theorem fits_slotsJson (around : Nat) (scalars : Fields Literal) :
    ∀ slots : List (String × List Node), ∀ field ∈ slotsJson id scalars slots,
      plain.Fits around field.2
  | [] => by simp [slotsJson]
  | (slot, children) :: rest => by
    rw [slotsJson, List.forall_mem_cons]
    refine ⟨.array rfl ?_, fits_slotsJson around scalars rest⟩
    rw [List.forall_mem_append, slotLiterals_eq, List.forall_mem_map]
    exact ⟨fun scalar _ => scalar.fits_toJson plain _, fits_nodesJson _ children⟩

theorem fits_nodesJson (around : Nat) : ∀ nodes : List Node, ∀ item ∈ nodesJson id nodes,
    plain.Fits around item
  | [] => by simp [nodesJson]
  | node :: rest => by
    rw [nodesJson, List.forall_mem_cons]
    exact ⟨fits_written around node, fits_nodesJson around rest⟩

end

/-- A saved file is parsed as the value of the tree. -/
theorem parse_save (tree : Node) : Json.parse (.ofText tree.save) = .ok tree.toJson := by
  rw [save, written, Json.parse_pretty (fits_written 0 tree), merged_written, toJson]

/-- A saved file is loaded as the value of the tree is read. -/
theorem load_save (tree : Node) : load tree.save.toUTF8 = (ofJson tree.toJson).mapError .tree := by
  rw [load, Document.fromUTF8?_toUTF8]
  simp only [parse_save]
  cases ofJson tree.toJson <;> rfl

/-- Writing a tree to a file and making a value of it agree: the text is that of the
value, with its names in the same order, and reading either gives the same tree or
the same fault. -/
theorem save_agrees_with_toJson (tree : Node) :
    Json.parse (.ofText tree.save) = .ok tree.toJson ∧
      load tree.save.toUTF8 = (ofJson tree.toJson).mapError .tree :=
  ⟨parse_save tree, load_save tree⟩

end Node

end TreeSeq
