import TreeSeq.Fields

/-!
# JSON values

A value is what a JSON text denotes. Numbers are integers where the text is
one that 64 bits hold, and binary64 numbers otherwise. The fields of an object
are a list: a reader gives every name once (`Fields.Distinct`), while a value
made to be written may repeat a name.
-/

namespace TreeSeq.Json

/-- A JSON number. -/
inductive Number where
  /-- A whole number from `-2^63` up to `2^64 - 1`. -/
  | integer (n : Int)
  /-- Any other number. -/
  | real (x : Float)
  deriving Inhabited

/-- A JSON value. -/
inductive Value where
  | null
  | bool (b : Bool)
  | number (n : Number)
  | string (s : String)
  | array (items : List Value)
  | object (fields : List (String × Value))
  deriving Inhabited

namespace Value

/-- A natural number as a value. -/
def ofNat (n : Nat) : Value :=
  number (.integer n)

/-- A text, or null. -/
def ofText? : Option String → Value
  | some s => string s
  | none => null

/-- Is it an object? -/
def isObject : Value → Bool
  | object _ => true
  | _ => false

/-- The text, if it is a string. -/
def text? : Value → Option String
  | string s => some s
  | _ => none

/-! ## Merging repeated names -/

mutual

/-- The value with every repeated name merged, in every object: the name keeps
its first position and takes its last value. -/
def merged : Value → Value
  | array items => array (mergedItems items)
  | object fields => object (Fields.ofPairs (mergedFields fields))
  | other => other

/-- `merged` for each item. -/
def mergedItems : List Value → List Value
  | [] => []
  | item :: rest => item.merged :: mergedItems rest

/-- `merged` for the value of each field. -/
def mergedFields : List (String × Value) → List (String × Value)
  | [] => []
  | (name, value) :: rest => (name, value.merged) :: mergedFields rest

end

end Value

end TreeSeq.Json
