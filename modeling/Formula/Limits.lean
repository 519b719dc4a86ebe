/-!
# Limits: how much one evaluation may use
-/

namespace Formula

/-- The bounds of one evaluation. -/
structure Limits where
  /-- The room for a name: names have at most one byte less. -/
  nameSize : Nat := 32
  /-- The greatest number of expressions nested in one another, the outermost one included. -/
  depth : Nat := 64
  deriving DecidableEq, Repr

end Formula
