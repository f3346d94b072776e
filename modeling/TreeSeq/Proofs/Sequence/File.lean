import TreeSeq.Proofs.Json.Record
import TreeSeq.Proofs.Tree.Export
import TreeSeq.Proofs.Tree.File
import TreeSeq.Sequence.Json

/-!
# Sequence files

A record is written as an object with its fields in order, and read field by field into
a draft. What is written is read back whatever the record holds, as long as its numbers
have 64 bits and no name is repeated (`Record.Storable`).

* `reads_literal`: an attribute, told apart from a list by its bracket;
* `Record.reads_toJson`: a record, its place in the source being left out if there is
  none;
* `Sequence.load_toUTF8_save`: a whole file.
-/

namespace TreeSeq

open Json (Value blanks_space)
open Json.Dialect (exact_nested)
open Json.Reader

/-! ## Attributes -/

theorem Literal.ofJson?_toJson (literal : Literal) : ofJson? literal.toJson = some literal := by
  cases literal with
  | one scalar =>
    have h : (Scalar.ofJson? scalar.toJson).map one = some (one scalar) := by
      rw [scalar.ofJson?_toJson, Option.map_some]
    cases scalar <;> exact h
  | many scalars =>
    have h : (scalars.map Scalar.toJson).mapM Scalar.ofJson? = some scalars := by
      induction scalars with
      | nil => rfl
      | cons scalar rest ih => simp [scalar.ofJson?_toJson, ih]
    rw [toJson, ofJson?, h, Option.map_some]

namespace Json.Reader

theorem reads_literal (literal : Literal) {around : Nat} (h : around < greatestDepth)
    (depth : Nat) : Reads (Reader.literal around) (literal.toJson.symbols depth) literal := by
  have hopen : (Dialect.nested (greatestDepth - around)).depth.all (0 < ·) = true :=
    decide_eq_true (by omega)
  have hv := reads_value (exact_nested (greatestDepth - around)) (literal.fits_toJson hopen) depth
  rw [literal.merged_toJson] at hv
  refine hv.bind fun rest => ?_
  rw [literal.ofJson?_toJson]
  exact takes_pure literal rest

end Json.Reader

/-! ## Records -/

namespace Record

/-- A record that a file can hold: indices of 64 bits, and no name twice. -/
structure Storable (record : Record) : Prop where
  index : record.index < UInt64.size
  scalars : Fields.Distinct record.scalars
  slots : Fields.Distinct record.slotRefs
  children : ∀ i ∈ record.children, i < UInt64.size

instance (record : Record) : Decidable record.Storable :=
  decidable_of_iff (record.index < UInt64.size ∧ Fields.Distinct record.scalars ∧
      Fields.Distinct record.slotRefs ∧ ∀ i ∈ record.children, i < UInt64.size)
    ⟨fun ⟨hi, hs, hr, hc⟩ => ⟨hi, hs, hr, hc⟩, fun ⟨hi, hs, hr, hc⟩ => ⟨hi, hs, hr, hc⟩⟩

/-- The references of a record, slot by slot. -/
theorem reads_slotRefs {slotRefs : Fields (List Nat)} (hd : Fields.Distinct slotRefs)
    (hi : ∀ i ∈ slotRefs.flatMap (·.2), i < UInt64.size) (depth : Nat) :
    Reads (fields (list natural))
      ((Value.object (slotRefs.map fun slot => (slot.1, .array (slot.2.map .ofNat)))).symbols depth)
      slotRefs := by
  refine reads_object (fun refs => .array (refs.map .ofNat)) hd fun slot hs => ?_
  refine reads_array Value.ofNat fun i hm => ?_
  exact reads_natural (hi i (List.mem_flatMap.mpr ⟨slot, hs, hm⟩))

theorem reads_scalars {scalars : Fields Literal} (hd : Fields.Distinct scalars) (depth : Nat) :
    Reads (fields (literal 3))
      ((Value.object (scalars.map fun entry => (entry.1, entry.2.toJson))).symbols depth)
      scalars :=
  reads_object Literal.toJson hd fun entry _ => reads_literal entry.2 (by decide) _

/-- The fields that every record has, in front of others. -/
theorem absorbs_members {record : Record} (h : record.Storable) (depth : Nat)
    {others : List (String × Value)} {draft : Draft}
    (ho : Absorbs (namedMember members)
      ⟨some record.index, some record.nodeType, some record.scalars, some record.slotRefs, none⟩
      (others.map (Value.entrySymbols depth)) draft) :
    Absorbs (namedMember members) .empty
      (([("index", Value.ofNat record.index), ("node_type", Value.string record.nodeType),
        ("scalars", Value.object (record.scalars.map fun entry => (entry.1, entry.2.toJson))),
        ("slot_refs", Value.object
          (record.slotRefs.map fun slot => (slot.1, .array (slot.2.map .ofNat))))] ++ others).map
        (Value.entrySymbols depth)) draft := by
  refine .cons (reads_namedMember rfl rfl blanks_space ((reads_natural h.index).map _)) ?_
  refine .cons (reads_namedMember rfl rfl blanks_space ((reads_string _).map _)) ?_
  refine .cons (reads_namedMember rfl rfl blanks_space ((reads_scalars h.scalars _).map _)) ?_
  exact .cons (reads_namedMember rfl rfl blanks_space
    ((reads_slotRefs h.slots h.children _).map _)) ho

/-- A record is read back from what it is written as. -/
theorem reads_toJson {record : Record} (h : record.Storable) (depth : Nat) :
    Reads reader (record.toJson.symbols depth) record := by
  obtain ⟨index, nodeType, scalars, slotRefs, span⟩ := record
  cases span with
  | none =>
    refine reads_record_object (absorbs_members h _ (.nil _)) ?_
    rfl
  | some span =>
    have hread : Reads (nullable string) (Json.quoted span) (some span) :=
      reads_nullable_some (reads_string span) (by simp [Json.quoted])
    have hspan : Absorbs (namedMember members)
        ⟨some index, some nodeType, some scalars, some slotRefs, none⟩
        ([("source_span", Value.string span)].map (Value.entrySymbols (depth + 1)))
        ⟨some index, some nodeType, some scalars, some slotRefs, some (some span)⟩ :=
      .cons (reads_namedMember rfl rfl blanks_space (hread.map _)) (.nil _)
    exact reads_record_object (absorbs_members h _ hspan) rfl

end Record

namespace Sequence

/-- A file of records that it can hold is loaded as it was saved, with the records, the
attributes and the slots in their order. -/
theorem load_toUTF8_save (sequence : Sequence) (h : ∀ record ∈ sequence, record.Storable) :
    load sequence.save.toUTF8 = .ok sequence := by
  have hr : Reads (list Record.reader) ((toJson sequence).symbols 0) sequence :=
    reads_array Record.toJson fun record hm => Record.reads_toJson (h record hm) 1
  rw [load, Document.ofBytes_toUTF8, save, Value.ofText_pretty, hr.document]

/-- Numbers at their limits, a quote and a line feed in a text, an empty name, an empty
list and an empty slot. -/
def atLimits : Sequence :=
  [⟨18446744073709551615, "Decl", [("value", .one (.int (-9223372036854775808))),
      ("note", .many [.text "a\"\n", .null, .bool true])],
      [("type", []), ("init", [18446744073709551615, 7])], some "a.c:1"⟩,
    ⟨0, "", [("", .many [])], [], none⟩]

theorem load_toUTF8_save_limits :
    (∀ record ∈ atLimits, record.Storable) ∧ load atLimits.save.toUTF8 = .ok atLimits :=
  ⟨by decide, load_toUTF8_save atLimits (by decide)⟩

end Sequence

end TreeSeq
