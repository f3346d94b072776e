import TreeSeq.Fields

/-!
# Syntax trees

A node has a type, literal attributes, and slots that hold its children in
order. `Node.outline` lists the nodes of a tree in pre-order, each with its
depth and the slot it hangs in; the other views are read off it.
-/

namespace TreeSeq

/-- A single attribute value. -/
inductive Scalar where
  | null
  | bool (b : Bool)
  | int (n : Int64)
  | text (s : String)
  deriving DecidableEq, Inhabited

/-- An attribute: a scalar or a list of them. -/
inductive Literal where
  | one (scalar : Scalar)
  | many (scalars : List Scalar)
  deriving DecidableEq, Inhabited

/-- A node of a syntax tree. -/
structure Node where
  /-- What kind of construct the node stands for. -/
  nodeType : String
  /-- The literal attributes, in order. -/
  scalars : Fields Literal
  /-- The slots, in order, with the children in each. -/
  slots : List (String × List Node)
  /-- Where in the source text the node comes from. -/
  span : Option String
  deriving Inhabited

namespace Scalar

/-- The text of a scalar; a text stands for itself. -/
def display : Scalar → String
  | null => "null"
  | bool b => if b then "true" else "false"
  | int n => toString n.toInt
  | text s => s

end Scalar

namespace Literal

/-- The scalars of an attribute. -/
def scalars : Literal → List Scalar
  | one scalar => [scalar]
  | many scalars => scalars

end Literal

namespace Node

/-- A node of this type with nothing in it. -/
def ofType (nodeType : String) : Node :=
  ⟨nodeType, [], [], none⟩

/-- Gives the node an attribute. -/
def withScalar (node : Node) (name : String) (value : Literal) : Node :=
  { node with scalars := Fields.put node.scalars name value }

/-- Gives the node a slot with these children. -/
def withSlot (node : Node) (name : String) (children : List Node) : Node :=
  { node with slots := Fields.put node.slots name children }

/-- Gives the node a place in the source text. -/
def withSpan (node : Node) (span : String) : Node :=
  { node with span := some span }

mutual

/-- The number of nodes in a tree. -/
def count : Node → Nat
  | ⟨_, _, slots, _⟩ => 1 + countSlots slots

/-- The number of nodes under all slots. -/
def countSlots : List (String × List Node) → Nat
  | [] => 0
  | (_, children) :: rest => countNodes children + countSlots rest

/-- The number of nodes in a list of trees. -/
def countNodes : List Node → Nat
  | [] => 0
  | node :: rest => node.count + countNodes rest

end

/-- A node at its place in a tree. -/
structure Place where
  depth : Nat
  /-- The slot that the node hangs in; a root hangs in none. -/
  slot : Option String
  node : Node

mutual

/-- The places of a tree in pre-order, before `rest`. -/
def outlineOnto (depth : Nat) (slot : Option String) (rest : List Place) : Node → List Place
  | ⟨nodeType, scalars, slots, span⟩ =>
    ⟨depth, slot, ⟨nodeType, scalars, slots, span⟩⟩ :: outlineSlots (depth + 1) rest slots

/-- The places under all slots in pre-order, before `rest`. -/
def outlineSlots (depth : Nat) (rest : List Place) : List (String × List Node) → List Place
  | [] => rest
  | (slot, children) :: slots => outlineNodes depth slot (outlineSlots depth rest slots) children

/-- The places of the trees of one slot in pre-order, before `rest`. -/
def outlineNodes (depth : Nat) (slot : String) (rest : List Place) : List Node → List Place
  | [] => rest
  | node :: nodes => outlineOnto depth (some slot) (outlineNodes depth slot rest nodes) node

end

/-- The places of a tree in pre-order: a node before its children, slots in
order and children in order. -/
def outline (tree : Node) : List Place :=
  outlineOnto 0 none [] tree

/-- The nodes of a tree in pre-order. -/
def preorder (tree : Node) : List Node :=
  tree.outline.map (·.node)

/-- The greatest depth of a node; a tree of one node has height 0. -/
def height (tree : Node) : Nat :=
  tree.outline.foldl (fun deepest place => max deepest place.depth) 0

/-- All scalars of a tree in pre-order. -/
def allScalars (tree : Node) : List Scalar :=
  tree.preorder.flatMap fun node => node.scalars.flatMap (·.2.scalars)

end Node

end TreeSeq
