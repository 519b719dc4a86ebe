import Formula.Scope.Basic

/-!
# Tallies

A tally is a small example of data that the functions of a formula read and change.  The functions
work for every host: they have a meaning of their own where the host's data are no tally.
-/

namespace Formula

/-- Data of a host that follows what its functions are called with. -/
structure Tally where
  /-- How often `Tally.tick` was called. -/
  calls : Nat := 0
  /-- The sum of the arguments of `Tally.sum`. -/
  total : Float := 0.0
  /-- What `Tally.scale` multiplies by. -/
  factor : Float := 1.0

namespace Tally

variable {τ : Type}

/-- Counts the call and gives the argument back. -/
def tick (x : Float) : Step (Tally ⊕ τ) Float
  | .inl tally => .ok x (.inl { tally with calls := tally.calls + 1 })
  | .inr other => .ok x (.inr other)

/-- Adds the argument to the total and gives the new total, which only a tally has. -/
def sum (x : Float) : Step (Tally ⊕ τ) Float
  | .inl tally => .ok (tally.total + x) (.inl { tally with total := tally.total + x })
  | .inr other => .error .undefinedVariable (.inr other)

/-- Multiplies by the factor of the tally, and by 1 without one. -/
def scale (x : Float) : Step (Tally ⊕ τ) Float
  | .inl tally => .ok (x * tally.factor) (.inl tally)
  | .inr other => .ok (x * 1.0) (.inr other)

end Tally

end Formula
