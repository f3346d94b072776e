import TreeSeq.Toml.Numerals
import TreeSeq.Toml.Strings
import TreeSeq.Toml.Tables

/-!
# Reading TOML

A document is read into statements, which `Statement.table?` carries out.
Arrays may span lines and end in a comma; inline tables do neither. Both nest
to a limited depth.
-/

namespace TreeSeq.Toml

namespace Scanner

/-- The greatest number of parts in a key, and of containers inside each
other. -/
def greatestDepth : Nat := 79

/-- May the character stand in a key without quotes? -/
def isKeyChar (c : Char) : Bool :=
  c.isAlphanum || c == '-' || c == '_'

/-- A part of a key. -/
def keyPart : Scanner String := do
  match ← peek with
  | some '"' => discard next; line '"'
  | some '\'' => discard next; line '\''
  | _ =>
    let found ← takeWhile isKeyChar
    check !found.isEmpty
    return String.ofList found

/-- A key: its path and its last name. Blanks around each part do not count. -/
def key : Scanner (List String × String) :=
  loop (fun path => do
    spaces
    let name ← keyPart
    spaces
    if ← optionally ['.'] then
      return .inl (path ++ [name])
    check (path.length < greatestDepth)
    return .inr (path, name)) []

/-- May the character stand in a number, a date or a time? -/
def isRunChar (c : Char) : Bool :=
  c.isAlphanum || ['+', '-', '.', '_', ':'].contains c

/-- A value without quotes and brackets. A time may follow a date after a
space. -/
def bare : Scanner Value := do
  let found ← takeWhile isRunChar
  match ← get with
  | ' ' :: c :: _ =>
    if isDate found && Text.isDigit c then
      discard next
      ofOption (ofRun? (found ++ ' ' :: (← takeWhile isRunChar)))
    else
      ofOption (ofRun? found)
  | _ => ofOption (ofRun? found)

/-- The items of an array, its opening bracket being taken. -/
def items (value : Scanner Value) : Scanner (List Value) := do
  gap
  if ← optionally [']'] then
    return []
  loop (fun found => do
    let found := (← value) :: found
    gap
    let comma ← optionally [',']
    gap
    if ← optionally [']'] then
      return .inr found.reverse
    check comma
    return .inl found) []

/-- A key with its value. -/
def entry (value : Scanner Value) : Scanner ((List String × String) × Value) := do
  let found ← key
  exactly ['=']
  spaces
  return (found, ← value)

/-- The entries of an inline table, its opening bracket being taken. -/
def entries (value : Scanner Value) : Scanner (List ((List String × String) × Value)) := do
  spaces
  if ← optionally ['}'] then
    return []
  loop (fun found => do
    let found := (← entry value) :: found
    spaces
    if ← optionally ['}'] then
      return .inr found.reverse
    exactly [',']
    return .inl found) []

/-- A value without brackets. -/
def single : Scanner Value := do
  match ← peek with
  | some '"' => return .text (← string '"')
  | some '\'' => return .text (← string '\'')
  | _ => bare

/-- A value with at most `depth` containers inside each other. -/
def value : (depth : Nat) → Scanner Value
  | 0 => single
  | depth + 1 => do
    if ← optionally ['['] then
      return .array (← items (value depth))
    else if ← optionally ['{'] then
      let table ← ofOption (Items.ofEntries? (← entries (value depth)))
      return .table (Item.fields table)
    else
      single

/-- A header or a key with its value, and the rest of the line. -/
def statement : Scanner Statement := do
  if ← optionally ['[', '['] then
    let (path, name) ← key
    exactly [']', ']']
    lineEnd
    return .element path name
  else if ← optionally ['['] then
    let (path, name) ← key
    exactly [']']
    lineEnd
    return .table path name
  else
    let ((path, name), found) ← entry (value greatestDepth)
    lineEnd
    return .entry path name found

/-- The statements of a document. -/
def statements : Scanner (List Statement) := do
  discard (optionally ['\uFEFF'])
  loop (fun found => do
    gap
    if (← get).isEmpty then
      return .inr found.reverse
    return .inl ((← statement) :: found)) []

end Scanner

/-- The fields of the table that a TOML document describes. -/
def parse (text : String) : Option (List (String × Value)) := do
  let (statements, _) ← Scanner.statements.run text.toList
  return Item.fields (← Statement.table? statements)

end TreeSeq.Toml
