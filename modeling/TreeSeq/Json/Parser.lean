import TreeSeq.Json.Numerals
import TreeSeq.Json.Strings

/-!
# Reading JSON values

A value is read with a list of the containers that are open around it, so any
depth of nesting is read in constant space on the call stack. A `Dialect` says
what is accepted: `plain` takes any value, `nested` takes a limited number of
containers inside each other, and `ignored` passes over a value that nobody
asked for, taking strings and numbers by their grammar alone.
-/

namespace TreeSeq.Json

/-- A container that is still open. -/
inductive Open where
  /-- An array with its items so far, latest first. -/
  | array (items : List Value)
  /-- An object with its fields so far and the name that waits for a value. -/
  | object (fields : Fields Value) (name : String)

/-- Where the reading of a value stands, inside the open containers. -/
inductive Focus where
  /-- A value comes next. -/
  | wanted (around : List Open)
  /-- A value is complete. -/
  | found (value : Value) (around : List Open)

/-- What is accepted as a value. -/
structure Dialect where
  /-- How many containers may be open inside each other. -/
  depth : Option Nat
  /-- Reads a string after its opening quote. -/
  string : Reader String
  /-- Reads a number. -/
  number : Reader Number

namespace Dialect

/-- Any value. -/
def plain : Dialect :=
  ⟨none, Reader.text, Reader.number⟩

/-- Values with at most `depth` containers inside each other. -/
def nested (depth : Nat) : Dialect :=
  ⟨some depth, Reader.text, Reader.number⟩

/-- Values that are passed over. -/
def ignored : Dialect :=
  ⟨none, do Reader.skipText; return "", do Reader.skipNumber; return .integer 0⟩

/-- May a container open inside those around it? -/
def mayOpen (dialect : Dialect) (around : List Open) : Bool :=
  dialect.depth.all (around.length < ·)

/-- A name, its colon included, after the opening bracket or a comma. -/
def name (dialect : Dialect) : Reader String := do
  Reader.expect '"'
  let name ← dialect.string
  Reader.expect ':'
  return name

/-- Reads the start of a value that comes next. -/
def start (dialect : Dialect) (around : List Open) : Reader Focus := do
  match ← Reader.token with
  | none => Reader.fail .truncated
  | some .stray => Reader.fail .illFormed
  | some (.char 'n') =>
    Reader.word "null".toList
    return .found .null around
  | some (.char 't') =>
    Reader.word "true".toList
    return .found (.bool true) around
  | some (.char 'f') =>
    Reader.word "false".toList
    return .found (.bool false) around
  | some (.char '"') =>
    Reader.skip
    return .found (.string (← dialect.string)) around
  | some (.char '[') =>
    unless dialect.mayOpen around do
      Reader.fail .illFormed
    Reader.skip
    if (← Reader.token) == some (.char ']') then
      Reader.skip
      return .found (.array []) around
    else
      return .wanted (.array [] :: around)
  | some (.char '{') =>
    unless dialect.mayOpen around do
      Reader.fail .illFormed
    Reader.skip
    if (← Reader.token) == some (.char '}') then
      Reader.skip
      return .found (.object []) around
    else
      return .wanted (.object [] (← dialect.name) :: around)
  | some (.char c) =>
    if c == '-' || Text.isDigit c then
      return .found (.number (← dialect.number)) around
    else
      Reader.fail .illFormed

/-- Puts a complete value into the container around it. -/
def close (dialect : Dialect) (value : Value) : Open → List Open → Reader Focus
  | .array items, around => do
    if ← Reader.closes ']' then
      return .found (.array (value :: items).reverse) around
    else
      return .wanted (.array (value :: items) :: around)
  | .object fields name, around => do
    let fields := Fields.put fields name value
    if ← Reader.closes '}' then
      return .found (.object fields) around
    else
      return .wanted (.object fields (← dialect.name) :: around)

/-- One step of reading a value. -/
def step (dialect : Dialect) : Focus → Reader (Focus ⊕ Value)
  | .wanted around => return .inl (← dialect.start around)
  | .found value [] => return .inr value
  | .found value (container :: around) => return .inl (← dialect.close value container around)

/-- Reads a value. -/
def value (dialect : Dialect) : Reader Value :=
  Reader.loop dialect.step (.wanted [])

end Dialect

/-- Reads a whole document as one value. -/
def parse (document : Document) : Except Fault Value :=
  Reader.document Dialect.plain.value document

end TreeSeq.Json
