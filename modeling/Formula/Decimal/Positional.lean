import Formula.Decimal.Shortest

/-!
# Decimals in positional notation

Floats are written with the fewest digits that read back and without an exponent, however many
zeros that takes.
-/

namespace Formula

namespace Decimal

/-- What is written behind a whole number. -/
inductive Ending where
  /-- Nothing: `8`. -/
  | bare
  /-- A point and a zero: `8.0`. -/
  | pointZero
  deriving DecidableEq, Repr

/-- The characters of an ending. -/
def Ending.chars : Ending → List Char
  | bare => []
  | pointZero => ['.', '0']

/-- The digits of a decimal, with a point where one belongs and zeros up to it. -/
def positional (d : Decimal) (ending : Ending) : List Char :=
  let digits := Nat.toDigits 10 d.digits
  let places := (-d.exponent).toNat
  if places = 0 then digits ++ List.replicate d.exponent.toNat '0' ++ ending.chars
  else
    let padded := List.replicate (places + 1 - digits.length) '0' ++ digits
    padded.take (padded.length - places) ++ '.' :: padded.drop (padded.length - places)

/-- A float in positional notation. -/
def ofFloat (x : Float) (ending : Ending) : String :=
  if x.isNaN then "NaN"
  else
    let bits := x.toBits
    let size := bits &&& 0x7FFFFFFFFFFFFFFF
    let unsigned :=
      if x.isInf then ['i', 'n', 'f']
      else if size = 0 then ['0'] ++ ending.chars
      else (Decimal.ofInterval (.ofBits size)).positional ending
    String.ofList (if size < bits then '-' :: unsigned else unsigned)

end Decimal

end Formula
