import TreeSeq.Json.Reader
import TreeSeq.Text.Numeral

/-!
# Reading JSON strings

The readers here start after the opening quote and take the closing one.

* `text` yields the characters. A stray byte or a surrogate that is not part
  of a pair is a fault; a stray byte is reported at the end of the string.
* `skipText` passes over a string whose content does not matter: it accepts
  stray bytes and any `\u` escape.
-/

namespace TreeSeq.Json.Reader

/-- Are there `count` more bytes? -/
def hasBytes : (count : Nat) → Document → Bool
  | 0, _ => true
  | _ + 1, [] => false
  | count + 1, symbol :: rest => hasBytes (count + 1 - symbol.byteSize) rest
termination_by _ document => document.length

/-- The number written by four hexadecimal digits at the front. -/
def hexFour? : Document → Option (Nat × Document)
  | .char a :: .char b :: .char c :: .char d :: rest =>
    (Text.baseValue? 16 [a, b, c, d]).map (·, rest)
  | _ => none

/-- Four hexadecimal digits. A document with fewer than four bytes left ends
too early, whatever those bytes are. -/
def hexFour : Reader Nat := do
  let document ← get
  match hexFour? document with
  | some (n, rest) => set rest; return n
  | none => fail (if hasBytes 4 document then .illFormed else .truncated)

/-- Is it the first half of a surrogate pair? -/
def isHighSurrogate (n : Nat) : Bool :=
  0xD800 ≤ n && n ≤ 0xDBFF

/-- Is it the second half of a surrogate pair? -/
def isLowSurrogate (n : Nat) : Bool :=
  0xDC00 ≤ n && n ≤ 0xDFFF

/-- Takes the character `c`, which must come next. -/
def exactly (c : Char) : Reader Unit := do
  match ← peek with
  | some symbol => if symbol == .char c then skip else fail .illFormed
  | none => fail .truncated

/-- The character of a `\u` escape, or of a pair of them. -/
def codeEscape : Reader Char := do
  let high ← hexFour
  if isLowSurrogate high then
    fail .illFormed
  else if isHighSurrogate high then
    exactly '\\'
    exactly 'u'
    let low ← hexFour
    if isLowSurrogate low then
      return Char.ofNat (0x10000 + (high - 0xD800) * 0x400 + (low - 0xDC00))
    else
      fail .illFormed
  else
    return Char.ofNat high

/-- The character that a single letter escapes, the backslash being taken. -/
def letterEscape? : Char → Option Char
  | '"' => some '"'
  | '\\' => some '\\'
  | '/' => some '/'
  | 'b' => some '\x08'
  | 'f' => some '\x0c'
  | 'n' => some '\n'
  | 'r' => some '\r'
  | 't' => some '\t'
  | _ => none

/-- The character of an escape, the backslash being taken. -/
def escape : Reader Char := do
  match ← next with
  | none => fail .truncated
  | some .stray => fail .illFormed
  | some (.char 'u') => codeEscape
  | some (.char c) =>
    match letterEscape? c with
    | some escaped => return escaped
    | none => fail .illFormed

/-- One step through a string: `seen` holds its characters so far, latest
first, and `clean` tells that no stray byte was among them. -/
def textStep : List Char × Bool → Reader ((List Char × Bool) ⊕ String)
  | (seen, clean) => do
    match ← next with
    | none => fail .truncated
    | some .stray => return .inl (seen, false)
    | some (.char '"') =>
      if clean then return .inr (String.ofList seen.reverse) else fail .illFormed
    | some (.char '\\') => return .inl ((← escape) :: seen, clean)
    | some (.char c) =>
      if c.toNat < 0x20 then fail .illFormed else return .inl (c :: seen, clean)

/-- The characters of a string. -/
def text : Reader String :=
  loop textStep ([], true)

/-- Passes over an escape, the backslash being taken. -/
def skipEscape : Reader Unit := do
  match ← next with
  | none => fail .truncated
  | some .stray => fail .illFormed
  | some (.char 'u') => discard hexFour
  | some (.char c) => if (letterEscape? c).isSome then return () else fail .illFormed

/-- One step over a string whose content does not matter. -/
def skipTextStep : Unit → Reader (Unit ⊕ Unit)
  | () => do
    match ← next with
    | none => fail .truncated
    | some .stray => return .inl ()
    | some (.char '"') => return .inr ()
    | some (.char '\\') => skipEscape; return .inl ()
    | some (.char c) => if c.toNat < 0x20 then fail .illFormed else return .inl ()

/-- Passes over a string whose content does not matter. -/
def skipText : Reader Unit :=
  loop skipTextStep ()

end TreeSeq.Json.Reader
