import Formula.Evaluation.Run

/-!
# Callbacks of every host

Functions that a host may offer to formulas whatever its data are.
-/

namespace Formula.Callback

variable {σ : Type}

/-- Multiplies by `slope` and adds `offset`, rounding after each. -/
def affine (slope offset : Float) : Callback σ :=
  ofFloat fun x => x * slope + offset

/-- Fails on every argument. -/
def fail (fault : Fault) : Callback σ := fun _ => throw fault

/-- Lets arguments through that are not below `low`, and fails on the others. -/
def guard (low : Float) (fault : Fault) : Callback σ := fun x =>
  if x < low then throw fault else pure x

/-- The function that a formula spells with the variable `x` for its argument.  It is evaluated on
its own, within the usual limits. -/
def ofFormula (text : String) : Callback σ := fun x =>
  match evaluateIn (({} : Context).insert "x" x) text with
  | .ok value => pure value
  | .error fault => throw fault

end Formula.Callback
