/-!
# The shortest decimal of a binary64 number

A finite positive number is `m · 2^q`. The reals that round to it form an
interval around it, whose ends belong to it when `m` is even. `shortest` finds
the fewest significant decimal digits that fall into this interval and, of the
decimals with that many digits, the nearest one to the number; of two equally
near ones it takes the even one. All of it is exact arithmetic on naturals.

`Layout` says how such digits are written: which exponents are written out
positionally, and with what sign the others appear.
-/

namespace TreeSeq.Decimal

/-- A positive number `value / unit` with the interval of the reals that round
to it, all over the same denominator. -/
structure Interval where
  low : Nat
  value : Nat
  high : Nat
  unit : Nat
  /-- Do the ends belong to the interval? -/
  closed : Bool

/-- Decimal digits at a place: `value · 10^exponent`. -/
structure Digits where
  value : Nat
  exponent : Int
  deriving DecidableEq, Repr

/-- The interval of the number with exponent field `biased` and fraction field
`fraction`. -/
def Interval.ofFields (biased fraction : Nat) : Interval :=
  let m := if biased = 0 then fraction else fraction + Nat.pow 2 52
  let e := max biased 1
  let up := Nat.pow 2 (e - 1075)
  let unit := 4 * Nat.pow 2 (1075 - e)
  let below := if fraction = 0 && 1 < biased then 1 else 2
  ⟨(4 * m - below) * up, 4 * m * up, (4 * m + 2) * up, unit, m % 2 = 0⟩

/-- Is `value · 10^exponent` in the interval? -/
def Interval.holds (i : Interval) (d : Digits) : Bool :=
  let x := d.value * i.unit * Nat.pow 10 d.exponent.toNat
  let down := Nat.pow 10 (-d.exponent).toNat
  if i.closed then i.low * down ≤ x && x ≤ i.high * down
  else i.low * down < x && x < i.high * down

/-- The exponent of the leading decimal digit. -/
def Interval.leading (i : Interval) : Int :=
  if i.unit ≤ i.value then
    (Nat.toDigits 10 (i.value / i.unit)).length - 1
  else
    let places := (Nat.toDigits 10 (i.unit / i.value)).length
    if i.value * Nat.pow 10 (places - 1) = i.unit then -((places - 1 : Nat) : Int) else -(places : Int)

/-- The best decimal of the interval on the grid of step `10^exponent`, if one
of the two grid points around the number lies in the interval. -/
def Interval.onGrid (i : Interval) (exponent : Int) : Option Digits :=
  let num := i.value * Nat.pow 10 (-exponent).toNat
  let den := i.unit * Nat.pow 10 exponent.toNat
  let below : Digits := ⟨num / den, exponent⟩
  let above : Digits := ⟨num / den + 1, exponent⟩
  let twice := 2 * (num % den)
  let nearer := if twice < den || (twice = den && (num / den) % 2 = 0) then below else above
  let other := if nearer = below then above else below
  if i.holds nearer then some nearer
  else if i.holds other then some other
  else none

/-- The best decimal on the first of the grids with `n`, `n + 1`, … significant
digits that has one, `left` grids at most. -/
def Interval.search (i : Interval) (leading : Int) (n : Nat) : (left : Nat) → Digits
  | 0 =>
    ⟨i.value * Nat.pow 10 (16 - leading).toNat / (i.unit * Nat.pow 10 (leading - 16).toNat),
      leading - 16⟩
  | left + 1 =>
    match i.onGrid (leading - n + 1) with
    | some d => d
    | none => search i leading (n + 1) left

/-- The shortest decimal of the number with these fields; 17 digits always
suffice. -/
def shortest (biased fraction : Nat) : Digits :=
  let i := Interval.ofFields biased fraction
  i.search i.leading 1 17

/-- How a decimal is written. -/
structure Layout where
  /-- The least exponent of the leading digit that is written positionally. -/
  least : Int
  /-- The greatest exponent of the leading digit that is written positionally. -/
  greatest : Int
  /-- The sign of a positive exponent. -/
  plus : String

/-- The digits of a number without the zeros at its end. -/
def significant (n : Nat) : List Char :=
  ((Nat.toDigits 10 n).reverse.dropWhile (· == '0')).reverse

/-- Writes digits whose first one stands at `leading`. A whole number keeps one
decimal place. -/
def Layout.write (layout : Layout) (digits : List Char) (leading : Int) : String :=
  if layout.least ≤ leading && leading ≤ layout.greatest then
    if leading < 0 then
      "0." ++ String.ofList (List.replicate (-leading - 1).toNat '0' ++ digits)
    else
      let whole := leading.toNat + 1
      let padded := digits ++ List.replicate (whole - digits.length) '0'
      let places := padded.drop whole
      String.ofList (padded.take whole) ++ "." ++
        if places.isEmpty then "0" else String.ofList places
  else
    let mantissa := match digits with
      | first :: second :: rest => String.ofList (first :: '.' :: second :: rest)
      | few => String.ofList few
    let sign := if leading < 0 then "-" else layout.plus
    mantissa ++ "e" ++ sign ++ toString leading.natAbs

/-- Writes a finite number by its shortest decimal. -/
def Layout.writeFloat (layout : Layout) (x : Float) : String :=
  let bits := x.toBits.toNat
  let sign := if bits / Nat.pow 2 63 = 1 then "-" else ""
  let biased := bits / Nat.pow 2 52 % Nat.pow 2 11
  let fraction := bits % Nat.pow 2 52
  if biased = 0 && fraction = 0 then sign ++ "0.0"
  else
    let d := shortest biased fraction
    let leading := d.exponent + (Nat.toDigits 10 d.value).length - 1
    sign ++ layout.write (significant d.value) leading

end TreeSeq.Decimal
