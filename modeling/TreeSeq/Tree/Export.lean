import TreeSeq.Json.Printer
import TreeSeq.Tree.Basic

/-!
# Writing trees as JSON

A node is an object: its type under `_nodetype`, the attributes that share no
name with a slot, the slots, the names of the slots without children under
`_empty_slots` if there are any, and its place under `coord`. A slot is an
array of its children after the literals of the attribute of the same name.

These names may coincide. In the text of a file (`Node.save`) each is written
where it comes; as a value (`Node.toJson`) a repeated name keeps its first
position and takes its last value.
-/

namespace TreeSeq

/-- The name under which a node keeps its type. -/
def nodeTypeName : String := "_nodetype"

/-- The name under which a node keeps its place in the source text. -/
def spanName : String := "coord"

/-- The name under which a node lists its slots without children. -/
def emptySlotsName : String := "_empty_slots"

namespace Scalar

/-- A scalar as JSON. -/
def toJson : Scalar → Json.Value
  | null => .null
  | bool b => .bool b
  | int n => .number (.integer n.toInt)
  | text s => .string s

end Scalar

namespace Literal

/-- An attribute as JSON. -/
def toJson : Literal → Json.Value
  | one scalar => scalar.toJson
  | many scalars => .array (scalars.map Scalar.toJson)

end Literal

namespace Node

/-- The names of the slots that hold no child. -/
def emptySlots (slots : List (String × List Node)) : List String :=
  (slots.filter (·.2.isEmpty)).map (·.1)

/-- The literals of the attribute that shares its name with a slot. -/
def slotLiterals (scalars : Fields Literal) (slot : String) : List Json.Value :=
  match Fields.get? scalars slot with
  | some literal => literal.scalars.map Scalar.toJson
  | none => []

/-- The fields of a node, `slotFields` being those of its slots. Names may
repeat. -/
def jsonFields (nodeType : String) (scalars : Fields Literal) (slots : List (String × List Node))
    (span : Option String) (slotFields : List (String × Json.Value)) :
    List (String × Json.Value) :=
  let plain := scalars.filter fun field => !Fields.has slots field.1
  let empty := emptySlots slots
  (nodeTypeName, .string nodeType) ::
    (plain.map (fun field => (field.1, field.2.toJson)) ++ slotFields ++
      (if empty.isEmpty then [] else [(emptySlotsName, .array (empty.map .string))]) ++
      [(spanName, .ofText? span)])

mutual

/-- A tree as JSON, where `gather` makes an object of the fields of a node. -/
def jsonWith (gather : List (String × Json.Value) → Fields Json.Value) : Node → Json.Value
  | ⟨nodeType, scalars, slots, span⟩ =>
    .object (gather (jsonFields nodeType scalars slots span (slotsJson gather scalars slots)))

/-- The fields of the slots. -/
def slotsJson (gather : List (String × Json.Value) → Fields Json.Value)
    (scalars : Fields Literal) : List (String × List Node) → List (String × Json.Value)
  | [] => []
  | (slot, children) :: rest =>
    (slot, .array (slotLiterals scalars slot ++ nodesJson gather children)) ::
      slotsJson gather scalars rest

/-- The children of a slot. -/
def nodesJson (gather : List (String × Json.Value) → Fields Json.Value) :
    List Node → List Json.Value
  | [] => []
  | node :: rest => jsonWith gather node :: nodesJson gather rest

end

/-- A tree as a JSON value. -/
def toJson (tree : Node) : Json.Value :=
  tree.jsonWith Fields.ofPairs

/-- A tree as it is written: a name stands as often as it is given. -/
def written (tree : Node) : Json.Value :=
  tree.jsonWith id

/-- The text of a tree file. -/
def save (tree : Node) : String :=
  tree.written.pretty

end Node

end TreeSeq
