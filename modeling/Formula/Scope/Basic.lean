import Formula.Step

/-!
# Scopes: where names get their meaning

A formula is evaluated for a host.  The host has data of its own, of any type `σ`, and a scope that
answers the names of the formula.  Every answer may look at the host's data, change them and fail.

* `Callback` — what a function name stands for.
* `Scope` — the answers to function names and to variable names.
* `Scope.empty`, `Scope.layer` — no answers at all, and answers of one's own in front of another
  scope's.
-/

namespace Formula

/-- A function of a formula: from an argument to a value, on the host's data. -/
abbrev Callback (σ : Type) := Float → Step σ Float

/-- A function that leaves the host's data alone and never fails. -/
def Callback.ofFloat {σ : Type} (f : Float → Float) : Callback σ := fun x => pure (f x)

/-- The meaning of names. -/
structure Scope (σ : Type) where
  /-- Looks up a function.  The function found is called later, with the host's data of then. -/
  function : String → StateM σ (Option (Callback σ))
  /-- Looks up the value of a variable. -/
  value : String → Step σ Float

namespace Scope

variable {σ : Type}

/-- Looks up a function; one that is not found is a fault. -/
def find (scope : Scope σ) (name : String) : Step σ (Callback σ) := fun host =>
  match scope.function name host with
  | (some callback, host) => .ok callback host
  | (none, host) => .error .undefinedFunction host

/-- The scope that defines nothing. -/
def empty : Scope σ where
  function _ := pure none
  value _ := throw .undefinedVariable

/-- The functions and values given, and for all other names the scope `under` them. -/
def layer (functions : String → Option (Callback σ)) (values : String → Option Float)
    (under : Scope σ) : Scope σ where
  function name := match functions name with
    | some callback => pure (some callback)
    | none => under.function name
  value name := match values name with
    | some value => pure value
    | none => under.value name

end Scope

end Formula
