import Formula.Scope.Basic

/-!
# Scopes with prepared values

A script gives the values that a variable has from one look-up to the next, so that a formula can be
evaluated against variables that change while it is read.
-/

namespace Formula

/-- The values prepared for a variable. -/
inductive Script where
  /-- A value for each look-up; the last one is given from then on. -/
  | values (first : Float) (more : List Float)
  /-- A fault at every look-up. -/
  | failing (fault : Fault)

/-- The value at look-up number `n`, counted from 0. -/
def Script.value : Script → Nat → Except Fault Float
  | values first [], _ => .ok first
  | values first _, 0 => .ok first
  | values _ (second :: more), n + 1 => (values second more).value n
  | failing fault, _ => .error fault

/-- Host data with the names of the prepared variables that were looked up. -/
structure Scripted (σ : Type) where
  /-- The host's own data. -/
  host : σ
  /-- One name for each look-up, the latest one first. -/
  asked : List String := []

variable {σ : Type}

/-- A step of a host that has prepared values besides its own data. -/
def Scripted.onHost {α : Type} (action : Step σ α) : Step (Scripted σ) α :=
  Step.onPart Scripted.host (fun s host => { s with host }) action

/-- Gives the next value prepared for a variable. -/
def Scripted.next (name : String) (script : Script) : Step (Scripted σ) Float := fun s =>
  let asked := { s with asked := name :: s.asked }
  match script.value (s.asked.count name) with
  | .ok value => .ok value asked
  | .error fault => .error fault asked

/-- The prepared values, and for all other names the scope `under` them. -/
def Scope.scripted (script : String → Option Script) (under : Scope σ) : Scope (Scripted σ) where
  function name := fun s =>
    let (found, host) := under.function name s.host
    (found.map fun callback x => Scripted.onHost (callback x), { s with host })
  value name := match script name with
    | some prepared => Scripted.next name prepared
    | none => Scripted.onHost (under.value name)

end Formula
