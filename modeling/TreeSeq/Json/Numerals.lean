import TreeSeq.Json.Reader
import TreeSeq.Json.Value
import TreeSeq.Text.Numeral

/-!
# Reading JSON numbers

A `Numeral` is a number as it is written; `Numeral.number?` is its value. A
whole number that 64 bits hold is exact. Any other number is read with a
significand of 64 bits: digits that no longer fit are dropped, those of the
whole part counting as tens. The significand is then multiplied or divided
once by a power of ten, after divisions by `10^308` while the exponent is
below that. A result beyond the binary64 range has no value.
-/

namespace TreeSeq.Json

/-- A number as it is written. -/
structure Numeral where
  negative : Bool
  /-- The digits of the whole part. -/
  whole : List Char
  /-- The digits after the point, if there is one. -/
  fraction : Option (List Char)
  /-- The sign of the exponent (true for a minus) and its digits. -/
  exponent : Option (Bool × List Char)

/-- A significand of 64 bits and a power of ten. -/
structure Scaled where
  significand : Nat
  exponent : Int

namespace Scaled

/-- Takes the digits of the whole part. From the first digit that does not fit
on, each counts as a factor of ten. -/
def whole (n : Nat) : List Char → Scaled
  | [] => ⟨n, 0⟩
  | c :: rest =>
    let longer := 10 * n + Text.digitValue c
    if longer < UInt64.size then whole longer rest else ⟨n, (c :: rest).length⟩

/-- Takes the digits after the point, up to the first that does not fit. -/
def places (x : Scaled) : List Char → Scaled
  | [] => x
  | c :: rest =>
    let longer := 10 * x.significand + Text.digitValue c
    if longer < UInt64.size then places ⟨longer, x.exponent - 1⟩ rest else x

/-- Divides by `10^e`. -/
def divide (x : Float) (e : Nat) : Float :=
  if e ≤ 308 then x / Float.ofScientific 1 false e
  else if x == 0 then x
  else divide (x / Float.ofScientific 1 false 308) (e - 308)
termination_by e

/-- The binary64 number, if it is in range. -/
def float? (x : Scaled) : Option Float :=
  let start := Float.ofNat x.significand
  if x.exponent < 0 then some (divide start x.exponent.natAbs)
  else if x.exponent ≤ 308 then
    let product := start * Float.ofScientific 1 false x.exponent.toNat
    if product.isInf then none else some product
  else if x.significand = 0 then some start
  else none

end Scaled

namespace Numeral

/-- The greatest exponent that is counted. -/
def greatestExponent : Nat := Int32.maxValue.toInt.toNat

/-- The size of a number that is not whole, if it is in range. -/
def magnitude? (n : Numeral) : Option Float :=
  let x := (Scaled.whole 0 n.whole).places (n.fraction.getD [])
  match n.exponent with
  | none => x.float?
  | some (down, digits) =>
    let e := Text.digitsValue digits
    if greatestExponent < e then
      if down || x.significand = 0 then some 0 else none
    else
      (Scaled.mk x.significand (if down then x.exponent - e else x.exponent + e)).float?

/-- The value of a numeral, if it is in range. -/
def number? (n : Numeral) : Option Number :=
  let size := Text.digitsValue n.whole
  if n.fraction.isNone && n.exponent.isNone && !n.negative && size < UInt64.size then
    some (.integer size)
  else if n.fraction.isNone && n.exponent.isNone && n.negative && 0 < size &&
      size ≤ Int64.minValue.toInt.natAbs then
    some (.integer (-size))
  else
    n.magnitude?.map fun x => .real (if n.negative then -x else x)

end Numeral

namespace Reader

/-- The digits at the front of a document, put before `seen`, and the rest. -/
def spanDigits (seen : List Char) : Document → List Char × Document
  | .char c :: rest =>
    if Text.isDigit c then spanDigits (c :: seen) rest else (seen.reverse, .char c :: rest)
  | rest => (seen.reverse, rest)

/-- Takes the digits that come next. -/
def digits : Reader (List Char) :=
  modifyGet (spanDigits [])

/-- Takes one digit or more; `atEnd` is the fault of a document that ends
instead. -/
def someDigits (atEnd : Fault) : Reader (List Char) := do
  let found ← digits
  if found.isEmpty then
    fail (if (← peek).isNone then atEnd else .illFormed)
  else
    return found

/-- Takes the next symbol if it is the character `c`. -/
def optionally (c : Char) : Reader Bool := do
  if (← peek) == some (.char c) then
    skip
    return true
  else
    return false

/-- A numeral; `atEnd` is the fault of a document that ends where a digit has
to come. A whole part of several digits does not start with a zero. -/
def numeral (atEnd : Fault) : Reader Numeral := do
  let negative ← optionally '-'
  let whole ← someDigits atEnd
  if whole.head? == some '0' && 1 < whole.length then
    fail .illFormed
  let fraction ← if ← optionally '.' then some <$> someDigits atEnd else pure none
  let marked ← optionally 'e' <||> optionally 'E'
  if marked then
    let down ← optionally '-'
    unless down do
      discard (optionally '+')
    let exponent ← someDigits atEnd
    return ⟨negative, whole, fraction, some (down, exponent)⟩
  else
    return ⟨negative, whole, fraction, none⟩

/-- A number. -/
def number : Reader Number := do
  match (← numeral .truncated).number? with
  | some n => return n
  | none => fail .illFormed

/-- Passes over a number whose value does not matter. -/
def skipNumber : Reader Unit :=
  discard (numeral .illFormed)

end Reader

end TreeSeq.Json
