import TreeSeq.Decimal.Shortest
import TreeSeq.Json.Value

/-!
# Writing JSON

* `Value.compact` writes a value without any blank;
* `Value.pretty` writes one item or field a line, two spaces deeper than the
  container, and nothing after the last bracket; empty containers are `[]` and
  `{}`.

Inside strings only the quote, the backslash and the characters below U+0020
are escaped.
-/

namespace TreeSeq.Json

/-- A lower-case hexadecimal digit. -/
def hexDigit (n : Nat) : Char :=
  if n < 10 then Char.ofNat ('0'.toNat + n) else Char.ofNat ('a'.toNat + n - 10)

/-- How a character is written inside a string. -/
def escaped (c : Char) : String :=
  match c with
  | '"' => "\\\""
  | '\\' => "\\\\"
  | '\x08' => "\\b"
  | '\t' => "\\t"
  | '\n' => "\\n"
  | '\x0c' => "\\f"
  | '\r' => "\\r"
  | c =>
    if c.toNat < 0x20 then
      String.ofList ['\\', 'u', '0', '0', hexDigit (c.toNat / 16), hexDigit (c.toNat % 16)]
    else c.toString

/-- Writes a string in quotes after `out`. -/
def quoteOnto (out text : String) : String :=
  (text.toList.foldl (fun out c => out ++ escaped c) (out.push '"')).push '"'

/-- Numbers are positional while their leading digit stands between `10^-5` and
`10^15`; an exponent has a sign. -/
def numberLayout : Decimal.Layout := ⟨-5, 15, "+"⟩

/-- The text of a number. -/
def Number.text : Number → String
  | integer n => toString n
  | real x => numberLayout.writeFloat x

/-- Starts a new line, `depth` containers deep. -/
def newline (out : String) (depth : Nat) : String :=
  (out.push '\n').pushn ' ' (2 * depth)

namespace Value

mutual

/-- Writes a value after `out`, without blanks. -/
def compactOnto (out : String) : Value → String
  | null => out ++ "null"
  | bool b => out ++ if b then "true" else "false"
  | number n => out ++ n.text
  | string s => quoteOnto out s
  | array [] => out ++ "[]"
  | array (item :: rest) => (compactItems (item.compactOnto (out.push '[')) rest).push ']'
  | object [] => out ++ "\x7b\x7d"
  | object ((name, value) :: rest) =>
    (compactFields (value.compactOnto ((quoteOnto (out.push '{') name).push ':')) rest).push '}'

/-- Writes each item after a comma. -/
def compactItems (out : String) : List Value → String
  | [] => out
  | item :: rest => compactItems (item.compactOnto (out.push ',')) rest

/-- Writes each field after a comma. -/
def compactFields (out : String) : List (String × Value) → String
  | [] => out
  | (name, value) :: rest =>
    compactFields (value.compactOnto ((quoteOnto (out.push ',') name).push ':')) rest

end

mutual

/-- Writes a value after `out` over several lines; the value itself is `depth`
containers deep. -/
def prettyOnto (out : String) (depth : Nat) : Value → String
  | null => out ++ "null"
  | bool b => out ++ if b then "true" else "false"
  | number n => out ++ n.text
  | string s => quoteOnto out s
  | array [] => out ++ "[]"
  | array (item :: rest) =>
    let out := item.prettyOnto (newline (out.push '[') (depth + 1)) (depth + 1)
    (newline (prettyItems out (depth + 1) rest) depth).push ']'
  | object [] => out ++ "\x7b\x7d"
  | object ((name, value) :: rest) =>
    let out := quoteOnto (newline (out.push '{') (depth + 1)) name ++ ": "
    let out := value.prettyOnto out (depth + 1)
    (newline (prettyFields out (depth + 1) rest) depth).push '}'

/-- Writes each item on a line of its own, after a comma. -/
def prettyItems (out : String) (depth : Nat) : List Value → String
  | [] => out
  | item :: rest =>
    prettyItems (item.prettyOnto (newline (out.push ',') depth) depth) depth rest

/-- Writes each field on a line of its own, after a comma. -/
def prettyFields (out : String) (depth : Nat) : List (String × Value) → String
  | [] => out
  | (name, value) :: rest =>
    let out := quoteOnto (newline (out.push ',') depth) name ++ ": "
    prettyFields (value.prettyOnto out depth) depth rest

end

/-- The text of a value on one line. -/
def compact (value : Value) : String :=
  value.compactOnto ""

/-- The text of a value over several lines. -/
def pretty (value : Value) : String :=
  value.prettyOnto "" 0

end Value

end TreeSeq.Json
