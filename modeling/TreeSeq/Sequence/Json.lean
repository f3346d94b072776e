import TreeSeq.Error
import TreeSeq.Json.Record
import TreeSeq.Sequence.Basic
import TreeSeq.Tree.Import

/-!
# Sequence files

A sequence file is an array of records. A record is an object with its
`index`, `node_type`, `scalars`, `slot_refs` and, if it has one, its
`source_span`; on reading, `scalars` and `slot_refs` may be left out.
-/

namespace TreeSeq

namespace Literal

/-- The attribute that a JSON value is, if it is one. -/
def ofJson? : Json.Value → Option Literal
  | .array items => (items.mapM Scalar.ofJson?).map .many
  | value => (Scalar.ofJson? value).map .one

end Literal

namespace Json.Reader

/-- The greatest number of containers inside each other in a document of
records. -/
def greatestDepth : Nat := 127

/-- A scalar, `around` containers deep. -/
def scalar (around : Nat) : Reader Scalar := do
  match Scalar.ofJson? (← (Dialect.nested (greatestDepth - around)).value) with
  | some scalar => return scalar
  | none => fail .wrongShape

/-- An attribute, `around` containers deep. -/
def literal (around : Nat) : Reader Literal := do
  match Literal.ofJson? (← (Dialect.nested (greatestDepth - around)).value) with
  | some literal => return literal
  | none => fail .wrongShape

end Json.Reader

namespace Record

open Json (Member Reader)

/-- A record as JSON. -/
def toJson (record : Record) : Json.Value :=
  .object ([("index", .ofNat record.index), ("node_type", .string record.nodeType),
    ("scalars", .object (record.scalars.map fun field => (field.1, field.2.toJson))),
    ("slot_refs",
      .object (record.slotRefs.map fun slot => (slot.1, .array (slot.2.map .ofNat))))] ++
    match record.span with
    | some span => [("source_span", .string span)]
    | none => [])

/-- A record of which some fields are read. -/
structure Draft where
  index : Option Nat
  nodeType : Option String
  scalars : Option (Fields Literal)
  slotRefs : Option (Fields (List Nat))
  span : Option (Option String)

namespace Draft

/-- Nothing is read yet. -/
def empty : Draft :=
  ⟨none, none, none, none, none⟩

/-- The record, if its index and its type are there. -/
def finish (draft : Draft) : Option Record := do
  let index ← draft.index
  let nodeType ← draft.nodeType
  return ⟨index, nodeType, draft.scalars.getD [], draft.slotRefs.getD [], draft.span.join⟩

end Draft

/-- The fields of a record in a file. -/
def members : List (Member Draft) :=
  [⟨"index", false, (·.index.isSome),
      fun draft => return { draft with index := some (← Reader.natural) }⟩,
    ⟨"node_type", false, (·.nodeType.isSome),
      fun draft => return { draft with nodeType := some (← Reader.string) }⟩,
    ⟨"scalars", true, (·.scalars.isSome),
      fun draft => return { draft with scalars := some (← Reader.fields (Reader.literal 3)) }⟩,
    ⟨"slot_refs", true, (·.slotRefs.isSome),
      fun draft => do
        let slotRefs ← Reader.fields (Reader.list Reader.natural)
        return { draft with slotRefs := some slotRefs }⟩,
    ⟨"source_span", true, (·.span.isSome),
      fun draft => return { draft with span := some (← Reader.nullable Reader.string) }⟩]

/-- Reads a record. -/
def reader : Reader Record :=
  Reader.record members .empty Draft.finish

end Record

namespace Sequence

/-- A sequence as JSON. -/
def toJson (sequence : Sequence) : Json.Value :=
  .array (sequence.map Record.toJson)

/-- The text of a sequence file. -/
def save (sequence : Sequence) : String :=
  (toJson sequence).pretty

/-- Reads a sequence file. -/
def load (bytes : ByteArray) : Except Error Sequence :=
  match (Json.Reader.list Record.reader).document (.ofBytes bytes) with
  | .ok sequence => .ok sequence
  | .error fault => .error (.json fault)

end Sequence

end TreeSeq
