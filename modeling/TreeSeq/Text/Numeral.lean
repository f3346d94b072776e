/-!
# Numerals

Natural numbers written in ASCII digits: any number of leading zeros, and one
plus sign in front at most. Hexadecimal digits may be of either case.
-/

namespace TreeSeq.Text

/-- Is it one of the ASCII digits? -/
def isDigit (c : Char) : Bool :=
  '0' ≤ c && c ≤ '9'

/-- The value of an ASCII digit. -/
def digitValue (c : Char) : Nat :=
  c.toNat - '0'.toNat

/-- The value of a list of ASCII digits. -/
def digitsValue (digits : List Char) : Nat :=
  digits.foldl (fun n c => 10 * n + digitValue c) 0

/-- The value of a hexadecimal digit of either case. -/
def hexValue? (c : Char) : Option Nat :=
  if isDigit c then some (digitValue c)
  else if 'a' ≤ c && c ≤ 'f' then some (c.toNat - 'a'.toNat + 10)
  else if 'A' ≤ c && c ≤ 'F' then some (c.toNat - 'A'.toNat + 10)
  else none

/-- The value of a list of digits in a base. -/
def baseValue? (base : Nat) (digits : List Char) : Option Nat :=
  digits.foldlM (fun n c => do
    let d ← hexValue? c
    if d < base then some (base * n + d) else none) 0

/-- The value of one or more ASCII digits; nothing else has one. -/
def readDigits? (digits : List Char) : Option Nat :=
  if digits.isEmpty || !digits.all isDigit then none else some (digitsValue digits)

/-- Reads a numeral whose value is below `limit`. -/
def readBelow? (limit : Nat) (text : String) : Option Nat :=
  let digits := match text.toList with
    | '+' :: rest => rest
    | all => all
  (readDigits? digits).filter (· < limit)

end TreeSeq.Text
