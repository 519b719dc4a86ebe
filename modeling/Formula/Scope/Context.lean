import Std.Data.HashMap
import Formula.Scope.Builtin

/-!
# Contexts: formulas with given variables
-/

namespace Formula

/-- The values of variables by name.  A name is any text here, also one that no formula can
spell. -/
abbrev Context := Std.HashMap String Float

/-- The scope of a context: its variables, and what is built in where it has none of a name. -/
def Scope.ofContext {σ : Type} (context : Context) : Scope σ :=
  Scope.layer (fun _ => none) (fun name => context[name]?) Scope.builtin

end Formula
