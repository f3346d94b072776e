import TreeSeq.Features.Basic
import TreeSeq.Sequence.Json

/-!
# Feature files

A feature file is the array of the features in the order of their columns. A
feature is an object with its `key`, its `position` if it has one, and its
`value`. A feature that a file repeats keeps its first column.
-/

namespace TreeSeq

namespace Feature

open Json (Member Reader)

/-- A feature as JSON. -/
def toJson (feature : Feature) : Json.Value :=
  let position := match feature.position with
    | some position => [("position", .ofNat position)]
    | none => []
  .object (("key", .string feature.name) :: (position ++ [("value", feature.value.toJson)]))

/-- A feature of which some fields are read. -/
structure Draft where
  name : Option String
  position : Option (Option Nat)
  value : Option Scalar

namespace Draft

/-- Nothing is read yet. -/
def empty : Draft :=
  ⟨none, none, none⟩

/-- The feature, if its name and its value are there. -/
def finish (draft : Draft) : Option Feature := do
  let name ← draft.name
  let value ← draft.value
  return ⟨name, draft.position.join, value⟩

end Draft

/-- The fields of a feature in a file. -/
def members : List (Member Draft) :=
  [⟨"key", false, (·.name.isSome),
      fun draft => return { draft with name := some (← Reader.string) }⟩,
    ⟨"position", true, (·.position.isSome),
      fun draft => return { draft with position := some (← Reader.nullable Reader.natural) }⟩,
    ⟨"value", false, (·.value.isSome),
      fun draft => return { draft with value := some (← Reader.scalar 2) }⟩]

/-- Reads a feature. -/
def reader : Reader Feature :=
  Reader.record members .empty Draft.finish

end Feature

namespace Columns

/-- The text of a feature file. -/
def save (columns : Columns) : String :=
  (Json.Value.array (columns.features.map Feature.toJson)).pretty

/-- Reads a feature file. -/
def load (bytes : ByteArray) : Except Error Columns :=
  match (Json.Reader.list Feature.reader).document (.ofBytes bytes) with
  | .ok features => .ok (ofFeatures features)
  | .error fault => .error (.json fault)

end Columns

end TreeSeq
