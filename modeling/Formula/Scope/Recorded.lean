import Formula.Scope.Basic

/-!
# Recorded scopes

`Scope.recorded` answers as another scope does and writes down every answer, in order.  A call names
the record of the look-up that its function came from, so that a record shows which opening each
call closes.
-/

namespace Formula

/-- One answer of a scope or of one of its functions. -/
inductive Event where
  /-- A function was looked up. -/
  | function (name : String) (found : Bool)
  /-- A variable was looked up. -/
  | value (name : String) (result : Except Fault Float)
  /-- The function was called that the event numbered `opened` had found. -/
  | call (opened : Nat) (name : String) (argument : Float) (result : Except Fault Float)

/-- Host data with a record of what the scope has answered so far. -/
structure Recorded (σ : Type) where
  /-- The host's own data. -/
  host : σ
  /-- The answers, the oldest one first. -/
  events : Array Event := #[]

namespace Recorded

variable {σ : Type}

/-- The data with one more event, numbered by how many there were before it. -/
def push (r : Recorded σ) (host : σ) (event : Event) : Recorded σ :=
  { host, events := r.events.push event }

/-- Takes a step on the host's data and writes down its result. -/
def step (action : Step σ Float) (event : Except Fault Float → Event) :
    Step (Recorded σ) Float := fun r =>
  match action r.host with
  | .ok value host => .ok value (r.push host (event (.ok value)))
  | .error fault host => .error fault (r.push host (event (.error fault)))

end Recorded

/-- The scope with its answers written down. -/
def Scope.recorded {σ : Type} (scope : Scope σ) : Scope (Recorded σ) where
  function name := fun r =>
    let (found, host) := scope.function name r.host
    (found.map fun callback x => Recorded.step (callback x) (.call r.events.size name x),
      r.push host (.function name found.isSome))
  value name := Recorded.step (scope.value name) (.value name)

end Formula
