import TreeSeq.Text.Numeral
import TreeSeq.Toml.Value

/-!
# TOML numbers, dates and times

Numbers, dates and times are runs of characters without quotes. Digits may be
grouped by single underscores. A decimal number does not start with a zero
that others follow. Dates and times are kept as they are written, after a check
of each part.
-/

namespace TreeSeq.Toml

open Text (isDigit)

/-! ## Numbers -/

/-- Digits without the underscores that group them. -/
def ungrouped? (digits : List Char) : Option (List Char) :=
  let groups := digits.splitOn '_'
  if groups.any (·.isEmpty) then none else some groups.flatten

/-- The digits of a run of decimal digits. -/
def decimals? (digits : List Char) : Option (List Char) :=
  (ungrouped? digits).filter (·.all isDigit)

/-- The digits of a run that may not start with a needless zero. -/
def wholePart? (digits : List Char) : Option (List Char) :=
  (decimals? digits).filter fun digits => digits.head? != some '0' || digits.length == 1

/-- A sign, true for a minus, and what follows it. -/
def signed : List Char → Bool × List Char
  | '-' :: rest => (true, rest)
  | '+' :: rest => (false, rest)
  | rest => (false, rest)

/-- The integer of a sign and a size, if 64 bits hold it. -/
def bounded? (negative : Bool) (size : Nat) : Option Int :=
  let n : Int := if negative then -size else size
  if Int64.minValue.toInt ≤ n && n ≤ Int64.maxValue.toInt then some n else none

/-- The integer that a run is. -/
def integer? : List Char → Option Int
  | '0' :: 'x' :: digits => (ungrouped? digits >>= Text.baseValue? 16) >>= bounded? false
  | '0' :: 'o' :: digits => (ungrouped? digits >>= Text.baseValue? 8) >>= bounded? false
  | '0' :: 'b' :: digits => (ungrouped? digits >>= Text.baseValue? 2) >>= bounded? false
  | run =>
    let (negative, digits) := signed run
    (wholePart? digits).bind fun digits => bounded? negative (Text.digitsValue digits)

/-- The size of a number with these digits, the last one counting `10^exponent`.
Far beyond the range of binary64 it is infinite or zero. -/
def magnitude (digits : List Char) (exponent : Int) : Float :=
  let n := Text.digitsValue digits
  if n = 0 || exponent < -(digits.length + 400) then 0
  else if 400 < exponent then 1 / 0
  else Float.ofScientific n (exponent < 0) exponent.natAbs

/-- The number that a run with a point or an exponent is, if it is in range. -/
def real? (run : List Char) : Option Float := do
  let (negative, unsigned) := signed run
  let (mantissa, power) := unsigned.span fun c => c != 'e' && c != 'E'
  let (whole, places) := mantissa.span (· != '.')
  guard !(power.isEmpty && places.isEmpty)
  let whole ← wholePart? whole
  let places ← if places.isEmpty then some [] else decimals? places.tail
  let (down, power) := signed power.tail
  let power ← if unsigned.length = mantissa.length then some [] else decimals? power
  let power := Text.digitsValue power
  let size := magnitude (whole ++ places) ((if down then -(power : Int) else power) - places.length)
  if negative then return -size
  guard !size.isInf
  return size

/-- The value of a word for infinity or for no number. -/
def special? (run : List Char) : Option Float :=
  let (negative, word) := signed run
  if word = ['i', 'n', 'f'] then some (if negative then -1 / 0 else 1 / 0)
  else if word = ['n', 'a', 'n'] then some (0 / 0)
  else none

/-! ## Dates and times -/

/-- Are these digits of a number between two bounds? -/
def isBetween (low high : Nat) (digits : List Char) : Bool :=
  digits.all isDigit && low ≤ Text.digitsValue digits && Text.digitsValue digits ≤ high

/-- The number of days in a month. -/
def daysIn (year month : Nat) : Nat :=
  if month = 2 then
    if year % 4 = 0 && (year % 100 != 0 || year % 400 = 0) then 29 else 28
  else if [4, 6, 9, 11].contains month then 30
  else 31

/-- Is it a date? -/
def isDate : List Char → Bool
  | [y₁, y₂, y₃, y₄, '-', m₁, m₂, '-', d₁, d₂] =>
    let year := Text.digitsValue [y₁, y₂, y₃, y₄]
    isBetween 0 9999 [y₁, y₂, y₃, y₄] && isBetween 1 12 [m₁, m₂] &&
      isBetween 1 (daysIn year (Text.digitsValue [m₁, m₂])) [d₁, d₂]
  | _ => false

/-- What follows a time. -/
def afterTime? : List Char → Option (List Char)
  | h₁ :: h₂ :: ':' :: m₁ :: m₂ :: ':' :: s₁ :: s₂ :: rest =>
    if isBetween 0 23 [h₁, h₂] && isBetween 0 59 [m₁, m₂] && isBetween 0 60 [s₁, s₂] then
      match rest with
      | '.' :: more => if more.head?.any isDigit then some (more.dropWhile isDigit) else none
      | rest => some rest
    else none
  | _ => none

/-- Is it an offset from universal time, or nothing? -/
def isOffset : List Char → Bool
  | [] | ['Z'] | ['z'] => true
  | [sign, h₁, h₂, ':', m₁, m₂] =>
    (sign == '+' || sign == '-') && isBetween 0 23 [h₁, h₂] && isBetween 0 59 [m₁, m₂]
  | _ => false

/-- Is it a date, a time, or a date with a time after it? -/
def isMoment (run : List Char) : Bool :=
  isDate run || afterTime? run == some [] ||
    (isDate (run.take 10) && (run[10]?).any ['T', 't', ' '].contains &&
      (afterTime? (run.drop 11)).any isOffset)

/-- The value of a run that starts with a sign or a digit, or is a word. -/
def ofRun? (run : List Char) : Option Value :=
  if run = "true".toList then some (.bool true)
  else if run = "false".toList then some (.bool false)
  else if isMoment run then some (.moment (String.ofList run))
  else (integer? run).map .integer <|> ((real? run <|> special? run).map .real)

end TreeSeq.Toml
