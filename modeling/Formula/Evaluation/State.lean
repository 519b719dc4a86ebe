import Formula.Limits
import Formula.Scope.Basic
import Formula.Token.Scan

/-!
# The state of an evaluation

An evaluation reads a formula once from left to right and holds one token, the next one to be used,
read ahead of the rules.  The text that is left never grows: `State.ahead` counts its bytes and the
token held, and every use of a token makes it smaller (`ahead_lt_of_consume`).
-/

namespace Formula

/-- How far an evaluation has come. -/
structure State (σ : Type) where
  /-- The bytes behind the token. -/
  rest : List UInt8
  /-- The token to be used next. -/
  token : Token
  /-- How many expressions are being evaluated, each nested in the one before. -/
  depth : Nat
  /-- How many tokens have been asked for, the end and a failed reading included. -/
  fetched : Nat
  /-- The data of the host. -/
  host : σ

/-- A part of an evaluation. -/
abbrev Evaluation (σ α : Type) := Step (State σ) α

/-- What an evaluation is given besides its text and the data of the host. -/
structure Setting (σ : Type) where
  /-- The meaning of names; without one every name is undefined. -/
  scope : Option (Scope σ)
  /-- How much the evaluation may use. -/
  limits : Limits

namespace State

variable {σ : Type}

/-- The state before the first token is read. -/
def start (bytes : List UInt8) (host : σ) : State σ :=
  { rest := bytes, token := .done, depth := 0, fetched := 0, host }

/-- How much of the text is still to be used: the bytes left and the token, unless it is the end. -/
def ahead (s : State σ) : Nat :=
  s.token.weight + s.rest.length

/-- The state inside one more nested expression. -/
def enter (s : State σ) : State σ :=
  { s with depth := s.depth + 1 }

/-- The state behind a nested expression. -/
def leave (s : State σ) : State σ :=
  { s with depth := s.depth - 1 }

@[simp]
theorem ahead_enter (s : State σ) : s.enter.ahead = s.ahead := rfl

@[simp]
theorem ahead_leave (s : State σ) : s.leave.ahead = s.ahead := rfl

end State

namespace Setting

variable {σ : Type}

/-- Looks up a function in the scope, if there is one. -/
def function (env : Setting σ) (name : String) : Step σ (Callback σ) :=
  match env.scope with
  | none => throw .undefinedFunction
  | some scope => scope.find name

/-- Looks up a variable in the scope, if there is one. -/
def value (env : Setting σ) (name : String) : Step σ Float :=
  match env.scope with
  | none => throw .undefinedVariable
  | some scope => scope.value name

end Setting

namespace Evaluation

variable {σ α : Type}

/-- Reads the next token in place of the one held.  The token stays where reading fails. -/
def advance (nameSize : Nat) : Evaluation σ Unit := fun s =>
  match Token.next nameSize s.rest with
  | .ok token rest => .ok () { s with rest, token, fetched := s.fetched + 1 }
  | .error fault rest => .error fault { s with rest, fetched := s.fetched + 1 }

/-- Takes a step on the data of the host alone. -/
def onHost (action : Step σ α) : Evaluation σ α :=
  Step.onPart State.host (fun s host => { s with host }) action

/-- Uses the token held: takes a step on the data of the host and then reads the next token. -/
def consume (env : Setting σ) (action : Step σ α) : Evaluation σ α := do
  let a ← onHost action
  advance env.limits.nameSize
  return a

/-- Uses the token held if it is the one given; another one is a fault. -/
def accept (env : Setting σ) (token : Token) (fault : Fault) (action : Step σ α) :
    Evaluation σ α := fun s =>
  if s.token = token then consume env action s else .error fault s

theorem ahead_lt_of_advance {nameSize : Nat} {s t : State σ} (hs : s.token ≠ .done)
    (h : advance nameSize s = .ok () t) : t.ahead < s.ahead := by
  have hw : s.token.weight = 1 := by
    cases hs' : s.token <;> simp_all [Token.weight]
  unfold advance at h
  split at h
  · next hn =>
    cases h
    have := Token.weight_add_length_le_of_next hn
    simp only [State.ahead]
    omega
  · cases h

/-- Using a token other than the end leaves less ahead. -/
theorem ahead_lt_of_consume {env : Setting σ} {action : Step σ α} {s t : State σ} {a : α}
    (hs : s.token ≠ .done) (h : consume env action s = .ok a t) : t.ahead < s.ahead := by
  obtain ⟨_, u, hu, h⟩ := Step.bind_eq_ok.1 h
  obtain ⟨_, v, hv, h⟩ := Step.bind_eq_ok.1 h
  cases h
  obtain ⟨host, _, rfl⟩ := Step.onPart_eq_ok.1 hu
  exact ahead_lt_of_advance (s := { s with host }) hs hv

theorem ahead_lt_of_accept {env : Setting σ} {token : Token} {fault : Fault}
    {action : Step σ α} {s t : State σ} {a : α} (ht : token ≠ .done)
    (h : accept env token fault action s = .ok a t) : t.ahead < s.ahead := by
  unfold accept at h
  split at h
  · next hs => exact ahead_lt_of_consume (hs ▸ ht) h
  · cases h

end Evaluation

end Formula
