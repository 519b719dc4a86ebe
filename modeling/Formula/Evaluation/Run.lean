import Formula.Evaluation.Rules
import Formula.Scope.Context

/-!
# Evaluating formulas

`evaluate` gives the value of a formula, or the first fault, together with the host's data as the
evaluation leaves them.  `run` is the same evaluation with its whole final state, which also shows
how far the text was read.  `evaluateAll` evaluates several formulas for one host, and `evaluateIn`
one formula for a host without data.
-/

namespace Formula

variable {σ : Type}

/-- Ends a formula with its value, which takes the end of the text. -/
def Evaluation.finish (value : Float) : Evaluation σ Float := fun s =>
  if s.token = .done then .ok value s else .error .unexpectedCharacter s

/-- Evaluates a whole formula: an expression and the end of the text. -/
def Evaluation.formula (env : Setting σ) : Evaluation σ Float := do
  advance env.limits.nameSize
  let value ← expression env
  finish value

/-- Evaluates the formula that a text spells and gives the final state as well. -/
def run (env : Setting σ) (text : String) (host : σ) : EStateM.Result Fault (State σ) Float :=
  Evaluation.formula env (.start (bytesOf text) host)

/-- Evaluates the formula that a text spells.  Without a scope every name is undefined. -/
def evaluate (scope : Option (Scope σ)) (text : String) (limits : Limits := {}) :
    Step σ Float := fun host =>
  match run { scope, limits } text host with
  | .ok value s => .ok value s.host
  | .error fault s => .error fault s.host

/-- Evaluates formulas one after the other, each on the data that the one before leaves, and gives
every result with the data after it.  A fault ends its own formula only. -/
def evaluateAll (scope : Option (Scope σ)) : List String → σ → List (Except Fault Float × σ)
  | [], _ => []
  | text :: texts, host =>
    let (result, host) := Step.outcome (evaluate scope text) host
    (result, host) :: evaluateAll scope texts host

theorem evaluateAll_cons (scope : Option (Scope σ)) (text : String) (texts : List String)
    (host : σ) : evaluateAll scope (text :: texts) host =
      Step.outcome (evaluate scope text) host ::
        evaluateAll scope texts (Step.outcome (evaluate scope text) host).2 := rfl

/-- Evaluates the formula that a text spells with the variables of a context and all that is
built in. -/
def evaluateIn (context : Context) (text : String) : Except Fault Float :=
  (Step.outcome (evaluate (some (.ofContext context)) text) ()).1

end Formula
