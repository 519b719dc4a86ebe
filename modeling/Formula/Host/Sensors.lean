import Formula.Scope.Context

/-!
# Sensors

A host whose variables are the readings of sensors and which counts how often one was asked for.
Names of variables that no sensor has are undefined, those of the built-in constants included.
-/

namespace Formula

/-- The readings of sensors, and how often a formula has asked for one. -/
structure Sensors where
  /-- The readings by the name of the sensor. -/
  readings : Context
  /-- The number of look-ups so far, those of unknown sensors included.  It is kept as a natural
  number in place of a machine word, which only 2 ^ 64 look-ups could tell apart. -/
  lookups : Nat := 0

namespace Sensors

variable {τ : Type}

/-- Degrees Celsius from degrees Fahrenheit. -/
def celsius (fahrenheit : Float) : Float :=
  (fahrenheit - 32.0) * 5.0 / 9.0

/-- Adds the reading named `bias`, or nothing if there is none.  It is not counted. -/
def offset (x : Float) : Step (Sensors ⊕ τ) Float
  | .inl sensors => .ok (x + sensors.readings.getD "bias" 0.0) (.inl sensors)
  | .inr other => .error .undefinedVariable (.inr other)

/-- Looks up the reading of a sensor and counts that. -/
def reading (name : String) : Step (Sensors ⊕ τ) Float
  | .inl sensors =>
    let counted := Sum.inl { sensors with lookups := sensors.lookups + 1 }
    match sensors.readings[name]? with
    | some value => .ok value counted
    | none => .error .undefinedVariable counted
  | .inr other => .error .undefinedVariable (.inr other)

/-- The functions of the sensors themselves. -/
def function? : String → Option (Callback (Sensors ⊕ τ))
  | "celsius" => some (Callback.ofFloat celsius)
  | "offset" => some offset
  | _ => none

/-- The scope of sensors: their readings, their functions and the built-in functions. -/
def scope : Scope (Sensors ⊕ τ) where
  function := (Scope.layer function? (fun _ => none) Scope.builtin).function
  value := reading

end Sensors

end Formula
