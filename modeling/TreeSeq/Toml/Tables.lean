import TreeSeq.Fields
import TreeSeq.Toml.Value

/-!
# Tables built from keys and headers

A table comes to be in one of three ways: a header names it, the path of a
header passes through it, or a dotted key passes through it. The way decides
what may be added later (`Origin`): a header may name a table that only paths
of headers went through, and no table twice; a dotted key may not enter a
table that a header names. A value is given once.
-/

namespace TreeSeq.Toml

/-- How a table came to be. -/
inductive Origin where
  /-- A header names it. -/
  | header
  /-- The path of a header passes through it. -/
  | passing
  /-- A dotted key passes through it. -/
  | dotted
  deriving DecidableEq, Repr

/-- What stands under a name while a table is being built. -/
inductive Item where
  | value (v : Value)
  | table (origin : Origin) (items : List (String × Item))
  /-- A list of tables, the latest first. -/
  | tables (elements : List (List (String × Item)))

/-- The items of a table under distinct names. -/
abbrev Items := List (String × Item)

namespace Item

mutual

/-- The value of an item. -/
def toValue : Item → Value
  | value v => v
  | table _ items => .table (fields items)
  | tables elements => .array (elementsOnto [] elements)

/-- The values of the items of a table. -/
def fields : List (String × Item) → List (String × Value)
  | [] => []
  | (name, item) :: rest => (name, item.toValue) :: fields rest

/-- The tables of a list in order, before `after`. -/
def elementsOnto (after : List Value) : List (List (String × Item)) → List Value
  | [] => after
  | element :: rest => elementsOnto (.table (fields element) :: after) rest

end

end Item

namespace Items

/-- Changes the table at the end of a path, making the tables that are missing
on the way. Of a list of tables the path goes through the latest. -/
def within (dotted : Bool) (change : Origin → Items → Option Items) :
    (path : List String) → Origin → Items → Option Items
  | [], origin, items => change origin items
  | name :: path, _, items =>
    match Fields.get? items name with
    | none => do
      let origin := if dotted then .dotted else .passing
      return Fields.put items name (.table origin (← within dotted change path origin []))
    | some (.table origin inner) => do
      guard !(dotted && origin == .header)
      return Fields.put items name (.table origin (← within dotted change path origin inner))
    | some (.tables (latest :: earlier)) => do
      let latest ← within dotted change path .header latest
      return Fields.put items name (.tables (latest :: earlier))
    | some _ => none

/-- Gives the value at the end of a path, seen from a table. A dotted key adds
to tables made by dotted keys alone. -/
def give (path : List String) (name : String) (value : Value) (origin : Origin) (items : Items) :
    Option Items :=
  within true (fun origin items => do
    guard ((origin == .dotted) != path.isEmpty)
    guard !(Fields.has items name)
    return Fields.put items name (.value value)) path origin items

/-- Opens the table that a header names. -/
def openTable (name : String) (items : Items) : Option Items :=
  match Fields.get? items name with
  | none => some (Fields.put items name (.table .header []))
  | some (.table .passing inner) => some (Fields.put items name (.table .header inner))
  | some _ => none

/-- Opens one more table in the list that a header names. -/
def openElement (name : String) (items : Items) : Option Items :=
  match Fields.get? items name with
  | none => some (Fields.put items name (.tables [[]]))
  | some (.tables elements) => some (Fields.put items name (.tables ([] :: elements)))
  | some _ => none

/-- The table of some values under keys. -/
def ofEntries? (entries : List ((List String × String) × Value)) : Option Items :=
  entries.foldlM (fun items entry => give entry.1.1 entry.1.2 entry.2 .header items) []

end Items

/-- A line of a document. -/
inductive Statement where
  /-- A value under a key: the path and the last name. -/
  | entry (path : List String) (name : String) (value : Value)
  /-- A header that names a table. -/
  | table (path : List String) (name : String)
  /-- A header that names a list of tables and opens the next of them. -/
  | element (path : List String) (name : String)

namespace Statement

/-- Carries out a statement, given the path of the last header and the items of
the whole document. -/
def apply (state : List String × Items) : Statement → Option (List String × Items)
  | entry path name value => do
    let items ← Items.within false (Items.give path name value) state.1 .header state.2
    return (state.1, items)
  | table path name => do
    let items ← Items.within false (fun _ => Items.openTable name) path .header state.2
    return (path ++ [name], items)
  | element path name => do
    let items ← Items.within false (fun _ => Items.openElement name) path .header state.2
    return (path ++ [name], items)

/-- The table that the statements of a document make. -/
def table? (statements : List Statement) : Option Items :=
  (statements.foldlM apply ([], [])).map (·.2)

end Statement

end TreeSeq.Toml
