import TreeSeq.Text.Numeral
import TreeSeq.Toml.Scanner

/-!
# TOML strings

A string stands between two quotes, or between three on each side, when it may
hold line breaks and one or two quotes in a row. Between `"` a backslash starts
an escape, between `'` every character stands for itself. In a string of
several lines the first line break does not count if it is the first
character, a line break is a line feed, and a backslash at the end of a line
drops the blanks and line breaks that follow.
-/

namespace TreeSeq.Toml.Scanner

/-- The character written by `count` hexadecimal digits, which come next. -/
def codePoint (count : Nat) : Scanner Char := do
  let digits := (← get).take count
  check (digits.length == count)
  modify (·.drop count)
  let n ← ofOption (Text.baseValue? 16 digits)
  if h : n.isValidChar then return Char.ofNatAux n h else refuse

/-- The character of an escape, the backslash being taken. -/
def escape : Scanner Char := do
  match ← next with
  | 'b' => return '\x08'
  | 't' => return '\t'
  | 'n' => return '\n'
  | 'f' => return '\x0c'
  | 'r' => return '\r'
  | '"' => return '"'
  | '\\' => return '\\'
  | 'u' => codePoint 4
  | 'U' => codePoint 8
  | _ => refuse

/-- A string on one line, its opening quote being taken. -/
def line (quote : Char) : Scanner String :=
  loop (fun seen => do
    let c ← next
    if c == quote then
      return .inr (String.ofList seen.reverse)
    else if c == '\\' && quote == '"' then
      return .inl ((← escape) :: seen)
    else
      check (isPlain c)
      return .inl (c :: seen)) []

/-- Takes spaces, tabs and line breaks. -/
def blanks : Scanner Unit :=
  loop (fun () => do
    spaces
    return if ← lineBreak then .inl () else .inr ()) ()

/-- Does a line break come next, spaces and tabs before it not counting? -/
def atLineEnd : Scanner Bool := do
  let here ← get
  spaces
  let found ← lineBreak
  set here
  return found

/-- A string of several lines, its three opening quotes being taken. -/
def block (quote : Char) : Scanner String := do
  discard lineBreak
  loop (fun seen => do
    if ← lineBreak then
      return .inl ('\n' :: seen)
    let c ← next
    if c == quote then
      let more ← takeWhile (· == quote)
      let count := 1 + more.length
      if count < 3 then
        return .inl (List.replicate count quote ++ seen)
      check (count ≤ 5)
      return .inr (String.ofList (List.replicate (count - 3) quote ++ seen).reverse)
    else if c == '\\' && quote == '"' then
      if ← atLineEnd then
        blanks
        return .inl seen
      return .inl ((← escape) :: seen)
    else
      check (isPlain c)
      return .inl (c :: seen)) []

/-- A string, its opening quote coming next. -/
def string (quote : Char) : Scanner String := do
  if ← optionally [quote, quote, quote] then
    block quote
  else
    exactly [quote]
    line quote

end TreeSeq.Toml.Scanner
