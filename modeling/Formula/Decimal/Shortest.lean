/-!
# The shortest decimal of a float

A float stands for an interval of rational numbers, those that round to it.  Of the decimals in the
interval `Decimal.ofInterval` takes one on the coarsest decimal grid, so that no other has fewer
digits, and on that grid the nearest to the float itself.  All arithmetic is exact.
-/

namespace Formula

/-- A decimal: the number `digits`, times ten to the power `exponent`. -/
structure Decimal where
  digits : Nat
  exponent : Int
  deriving DecidableEq, Repr

/-- The rational numbers that round to a positive float. -/
structure RoundingInterval where
  /-- The float itself. -/
  value : Rat
  /-- The point halfway to the float below. -/
  low : Rat
  /-- The point halfway to the float above. -/
  high : Rat
  /-- Do the two ends round to the float as well? -/
  closed : Bool

namespace RoundingInterval

/-- The interval of the positive float with the given bits.  A float is a whole number `m` of units
`2 ^ q`; a half of the unit lies between it and each end, only a quarter below a power of two, and
the ends belong to the floats of which `m` is even. -/
def ofBits (bits : UInt64) : RoundingInterval :=
  let power := ((bits >>> 52) &&& 0x7FF).toNat
  let fraction := (bits &&& 0xFFFFFFFFFFFFF).toNat
  let m := if power = 0 then fraction else 0x10000000000000 + fraction
  let unit : Rat := (2 : Rat) ^ (max power 1 - 1075 : Int)
  { value := m * unit
    low := m * unit - unit / (if fraction = 0 ∧ 1 < power then 4 else 2)
    high := m * unit + unit / 2
    closed := m % 2 = 0 }

/-- Does a number round to the float? -/
def contains (i : RoundingInterval) (x : Rat) : Bool :=
  if i.closed then i.low ≤ x && x ≤ i.high else i.low < x && x < i.high

/-- The decimal with the given exponent in the interval that is nearest to the float; of two at the
same distance the greater one. -/
def nearest? (i : RoundingInterval) (exponent : Int) : Option Decimal :=
  let grid := (10 : Rat) ^ exponent
  let below := (i.value / grid).floor.toNat
  let above := below + 1
  match i.contains (below * grid), i.contains (above * grid) with
  | true, true =>
    if i.value - below * grid < above * grid - i.value then some { digits := below, exponent }
    else some { digits := above, exponent }
  | true, false => some { digits := below, exponent }
  | false, true => some { digits := above, exponent }
  | false, false => none

end RoundingInterval

/-- The shortest decimal that rounds to a positive float.  The grids go from above the greatest
float down to one that is finer than the distance of any two floats; on the last one, which is never
reached, every float lies. -/
def Decimal.ofInterval (i : RoundingInterval) : Decimal :=
  ((List.range 634).findSome? fun step => i.nearest? (309 - (step : Nat))).getD
    { digits := (i.value * (10 : Rat) ^ (1074 : Int)).floor.toNat, exponent := -1074 }

end Formula
