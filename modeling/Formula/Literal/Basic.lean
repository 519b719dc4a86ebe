/-!
# Decimal literals and their value

A literal is kept as the digits it spells and one decimal exponent, into which the number of
digits after the point is already folded.  Its value is found by accumulating the digits and then
scaling by a power of ten, with one multiplication or division per binary digit of the exponent.

The value is defined over any type with addition, multiplication and division (`Arithmetic`), so
that the same algorithm can be read over floats, where every step rounds, and over the rationals,
where none does.
-/

namespace Formula

/-- Numbers with the operations that the value of a literal is computed with. -/
class Arithmetic (α : Type) extends Add α, Mul α, Div α where
  /-- A natural number as a value; only 0 to 10 are used. -/
  ofNat : Nat → α

instance : Arithmetic Float where
  ofNat := Float.ofNat

instance : Arithmetic Rat where
  ofNat n := (n : Rat)

/-- A decimal literal: the number spelled by `digits`, times ten to the power `exponent`. -/
structure Literal where
  /-- The digits before and after the point, as numbers from 0 to 9. -/
  digits : List Nat
  /-- The exponent as written, less the number of digits after the point. -/
  exponent : Int
  deriving DecidableEq, Repr

namespace Literal

variable {α : Type} [Arithmetic α]

/-- The number that the digits spell, one multiplication and one addition per digit. -/
def accumulate (digits : List Nat) : α :=
  digits.foldl (fun value digit => value * Arithmetic.ofNat 10 + Arithmetic.ofNat digit)
    (Arithmetic.ofNat 0)

/-- Applies `op` to `value` and those of `power`, `power ^ 2`, `power ^ 4`, … that belong to the
binary digits of `magnitude`, lowest first. -/
def applyPowers (op : α → α → α) (value power : α) (magnitude : Nat) : α :=
  if magnitude = 0 then value
  else
    applyPowers op (if magnitude % 2 = 1 then op value power else value) (power * power)
      (magnitude / 2)
termination_by magnitude

/-- The value scaled by a power of ten: it is multiplied for a positive exponent and divided for a
negative one. -/
def scale (value : α) (exponent : Int) : α :=
  applyPowers (if exponent < 0 then (· / ·) else (· * ·)) value (Arithmetic.ofNat 10)
    exponent.natAbs

/-- The value of a literal. -/
def value (l : Literal) : α :=
  scale (accumulate l.digits) l.exponent

end Literal

end Formula
