import TreeSeq.Error
import TreeSeq.Json.Parser
import TreeSeq.Tree.Export

/-!
# Reading trees from JSON

An object with a type is a node. Of its other fields an object is a slot with
one child, an array is split into its objects, which become the children of a
slot, and the rest, which becomes a list attribute, and anything else is an
attribute. `_empty_slots` turns the named fields into slots without children;
where it stands among the fields does not matter.

An array without objects is an attribute, also when it is empty; an array of
objects alone is a slot and no attribute.
-/

namespace TreeSeq

namespace Scalar

/-- The scalar that a JSON value is, if it is one. -/
def ofJson? : Json.Value → Option Scalar
  | .null => some .null
  | .bool b => some (.bool b)
  | .string s => some (.text s)
  | .number (.integer n) =>
    if Int64.minValue.toInt ≤ n && n ≤ Int64.maxValue.toInt then some (.int (.ofInt n)) else none
  | _ => none

/-- The scalar that the attribute `name` has in a tree. -/
def ofJson (name : String) (value : Json.Value) : Except TreeFault Scalar :=
  match ofJson? value with
  | some scalar => .ok scalar
  | none =>
    match value with
    | .number n => .error (.unsupportedNumber name n)
    | _ => .error (.nestedLiteral name)

end Scalar

namespace Node

/-- The type of the node that an object describes. -/
def typeOf? (fields : List (String × Json.Value)) : Option String :=
  match Fields.get? fields nodeTypeName with
  | some (.string nodeType) => if nodeType.isEmpty then none else some nodeType
  | _ => none

/-- A node of which some fields are read. -/
structure Draft where
  node : Node
  /-- The slots to be left without children. -/
  emptySlots : List String

namespace Draft

/-- Takes the place in the source text. -/
def withSpan (draft : Draft) : Json.Value → Except TreeFault Draft
  | .null => .ok { draft with node.span := none }
  | .string span => .ok { draft with node.span := some span }
  | other => .error (.badSpan other)

/-- Takes the names of the slots without children. -/
def withEmptySlots (draft : Draft) : Json.Value → Except TreeFault Draft
  | .array items =>
    match items.mapM Json.Value.text? with
    | some names => .ok { draft with emptySlots := names }
    | none => .error .badEmptySlots
  | _ => .error .badEmptySlots

/-- Takes what an array holds: the literals as an attribute, unless there are
only children, and the children as a slot, if there are any. -/
def withItems (draft : Draft) (name : String) (literals : List Scalar) (children : List Node) :
    Draft :=
  let node := if literals.isEmpty && !children.isEmpty then draft.node
    else draft.node.withScalar name (.many literals)
  { draft with node := if children.isEmpty then node else node.withSlot name children }

/-- Makes sure of a slot. The attribute of that name is dropped if it is the
empty list that stood for the slot. -/
def emptySlot (node : Node) (slot : String) : Node :=
  let scalars := if Fields.get? node.scalars slot = some (.many []) then
    Fields.erase node.scalars slot else node.scalars
  { node with scalars, slots :=
      if Fields.has node.slots slot then node.slots else node.slots ++ [(slot, [])] }

/-- The finished node. -/
def finish (draft : Draft) : Node :=
  draft.emptySlots.foldl emptySlot draft.node

end Draft

mutual

/-- The tree that a JSON value describes. -/
def ofJson : Json.Value → Except TreeFault Node
  | .object fields =>
    match typeOf? fields with
    | none => .error .missingNodeType
    | some nodeType => do
      let draft ← ofFields ⟨.ofType nodeType, []⟩ fields
      return draft.finish
  | _ => .error .notAnObject

/-- Takes the fields of a node one by one. -/
def ofFields (draft : Draft) : List (String × Json.Value) → Except TreeFault Draft
  | [] => .ok draft
  | (name, value) :: rest => do
    let draft ←
      if name == nodeTypeName then .ok draft
      else if name == spanName then draft.withSpan value
      else if name == emptySlotsName then draft.withEmptySlots value
      else if value.isObject then do
        let child ← ofJson value
        .ok { draft with node := draft.node.withSlot name [child] }
      else match value with
        | .array items => do
          let (literals, children) ← ofItems name [] [] items
          .ok (draft.withItems name literals children)
        | scalar => do
          .ok { draft with node := draft.node.withScalar name (.one (← Scalar.ofJson name scalar)) }
    ofFields draft rest

/-- Splits an array into literals and children, added to those found before,
latest first. -/
def ofItems (name : String) (literals : List Scalar) (children : List Node) :
    List Json.Value → Except TreeFault (List Scalar × List Node)
  | [] => .ok (literals.reverse, children.reverse)
  | item :: rest => do
    if item.isObject then
      let child ← ofJson item
      ofItems name literals (child :: children) rest
    else
      let scalar ← Scalar.ofJson name item
      ofItems name (scalar :: literals) children rest

end

/-- Reads a tree file. -/
def load (bytes : ByteArray) : Except Error Node :=
  match String.fromUTF8? bytes with
  | none => .error (.file .notText)
  | some text =>
    match Json.parse (.ofText text) with
    | .error fault => .error (.json fault)
    | .ok value =>
      match ofJson value with
      | .error fault => .error (.tree fault)
      | .ok tree => .ok tree

end Node

end TreeSeq
