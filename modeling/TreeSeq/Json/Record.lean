import TreeSeq.Json.Parser

/-!
# Reading JSON of a known shape

Readers that know what to expect report the first fault in reading order:
a value of another kind is read as far as its first bracket, and is of the
wrong shape if that much of it is JSON.

A record is read from an object, whose unknown names are passed over and whose
known names may each stand once, or from an array with the values of its
fields in order, where the optional ones at the end may be left out.
-/

namespace TreeSeq.Json

namespace Reader

variable {α σ : Type}

/-- The value that comes next is of another kind than asked for. -/
def wrongKind : Reader α := do
  match ← token with
  | none => fail .truncated
  | some .stray => fail .illFormed
  | some (.char c) =>
    if c == '[' || c == '{' then
      fail .wrongShape
    else
      let _ ← Dialect.plain.value
      fail .wrongShape

/-- A string. -/
def string : Reader String := do
  if (← token) == some (.char '"') then
    skip
    text
  else
    wrongKind

/-- Does a number come next? -/
def atNumber : Reader Bool := do
  match ← token with
  | some (.char c) => return c == '-' || Text.isDigit c
  | _ => return false

/-- A natural number below `2^64`. -/
def natural : Reader Nat := do
  if ← atNumber then
    match ← number with
    | .integer n => if n < 0 then fail .wrongShape else return n.toNat
    | .real _ => fail .wrongShape
  else
    wrongKind

/-- A null. -/
def null : Reader Unit := do
  if (← token) == some (.char 'n') then word "null".toList else wrongKind

/-- What `reader` reads, or a null. -/
def nullable (reader : Reader α) : Reader (Option α) := do
  if (← token) == some (.char 'n') then
    word "null".toList
    return none
  else
    return some (← reader)

/-- An array of what `item` reads. -/
def list (item : Reader α) : Reader (List α) := do
  if (← token) == some (.char '[') then
    skip
    return (← entries ']' (fun items => return (← item) :: items) []).reverse
  else
    wrongKind

/-- The name of a field and its colon. -/
def name : Reader String := do
  expect '"'
  let name ← text
  expect ':'
  return name

/-- An object whose values `item` reads; a repeated name takes the last. -/
def fields (item : Reader α) : Reader (Fields α) := do
  if (← token) == some (.char '{') then
    skip
    entries '}' (fun fields => return Fields.put fields (← name) (← item)) []
  else
    wrongKind

end Reader

/-- A field of a record that is read into a draft `σ`. -/
structure Member (σ : Type) where
  name : String
  /-- May the field be left out at the end of a record written as an array? -/
  optional : Bool
  /-- Has the draft got the field already? -/
  given : σ → Bool
  /-- Reads the value into the draft. -/
  read : σ → Reader σ

namespace Reader

variable {α σ : Type}

/-- A named value of a record. -/
def namedMember (members : List (Member σ)) (draft : σ) : Reader σ := do
  expect '"'
  let found ← text
  match members.find? (·.name == found) with
  | some member =>
    if member.given draft then
      fail .wrongShape
    expect ':'
    member.read draft
  | none =>
    expect ':'
    let _ ← Dialect.ignored.value
    return draft

/-- The values of a record in order, up to the closing bracket. -/
def placedMembers (first : Bool) : List (Member σ) → σ → Reader σ
  | [], draft => do
    expect ']'
    return draft
  | member :: rest, draft => do
    match ← token with
    | none => fail .truncated
    | some symbol =>
      if symbol == .char ']' then
        if member.optional then placedMembers first rest draft else fail .wrongShape
      else
        unless first do
          expect ','
        placedMembers false rest (← member.read draft)

/-- A record, in either form; `finish` yields nothing while a field that has to
be there is missing. -/
def record (members : List (Member σ)) (start : σ) (finish : σ → Option α) : Reader α := do
  let draft ← match ← token with
    | some (.char '{') => do
      skip
      entries '}' (namedMember members) start
    | some (.char '[') => do
      skip
      placedMembers true members start
    | _ => wrongKind
  match finish draft with
  | some value => return value
  | none => fail .wrongShape

end Reader

end TreeSeq.Json
