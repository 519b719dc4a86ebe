import Formula.Decimal.Positional
import Formula.Evaluation.Run
import Formula.Host.Sensors
import Formula.Table.Basic

/-!
# Demonstrations

Three small programs that show the ways of evaluating a formula, as the lines that they print: one
formula after the other, one formula in several contexts, and formulas of a host with data and
functions of its own.
-/

namespace Formula.Demonstration

/-- A result as it is printed in lists of results. -/
def result : Except Fault Float → String
  | .ok value => "Ok(" ++ Decimal.ofFloat value .pointZero ++ ")"
  | .error fault => "Err(" ++ fault.title ++ ")"

/-- A formula that compares two variables. -/
def comparison : String := "($price > 100) * ($volume < 5000)"

/-- A context of the variables in `comparison`. -/
def market (price volume : Float) : Context :=
  .ofList [("price", price), ("volume", volume)]

/-- Formulas of built-in names with their values, or the message and number of the fault, and at
last a formula with variables. -/
def simple : List String :=
  let scope : Scope Unit := .builtin
  let lines :=
    ["1+(2*sin(3))", "2 < 3 * 1", "--5 + round(2.5)", "$PI * 2", "(1+2", "1+2)"].map fun text =>
      match (evaluate (some scope) text).run () with
      | .ok value _ => text ++ " = " ++ Decimal.ofFloat value .bare
      | .error fault _ =>
        text ++ ": " ++ fault.message ++ " (code " ++ toString fault.code ++ ")"
  lines ++ [comparison ++ " = " ++ result (evaluateIn (market 120.0 3000.0) comparison)]

/-- One formula in three contexts, each in a table of its own. -/
def batch : List String :=
  let tables : List (Table Unit) :=
    [(120.0, 3000.0), (80.0, 6000.0), (101.0, 4999.0)].map fun (price, volume) =>
      (Table.withBuiltins.set "price" price).set "volume" volume
  let results := tables.map fun table =>
    (Step.outcome (evaluate (some table.toScope) comparison) ()).1
  results.zipIdx.map fun (r, index) => "Result " ++ toString index ++ ": " ++ result r

/-- Formulas of sensors, and how often they asked for a reading. -/
def sensors : List String :=
  let start : Sensors :=
    { readings := .ofList [("outside", 68.0), ("inside", 77.0), ("bias", -0.5)] }
  let host : Sensors ⊕ Empty := .inl start
  let texts := ["celsius($outside)", "offset(celsius($inside)) > 20", "sqrt($missing)"]
  let answers := evaluateAll (some Sensors.scope) texts host
  let lookups := match (answers.getLast?.map (·.2)).getD host with
    | .inl sensors => sensors.lookups
  List.zipWith (fun text answer => text ++ " = " ++ result answer.1) texts answers ++
    ["variable lookups: " ++ toString lookups]

end Formula.Demonstration
