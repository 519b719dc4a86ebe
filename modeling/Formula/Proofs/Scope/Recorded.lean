import Formula.Proofs.Scope.Events
import Formula.Proofs.Step

/-!
# Steps with a record

A step that is taken with a recorded scope does what it does with the scope itself, and appends its
events to the record.  `Follows` relates the two: a step with a record, the step without it, and the
questions that they ask.  It holds of looking up a name (`follows_find`, `follows_value`), of
calling a function with an argument (`follows_call`), and of steps in a row (`Follows.bind`).
-/

namespace Formula

variable {σ α β γ δ : Type}

namespace Recorded

/-- The data after some more events. -/
def extend (r : Recorded σ) (host : σ) (events : List Event) : Recorded σ :=
  { host, events := r.events ++ events.toArray }

@[simp]
theorem host_extend (r : Recorded σ) (host : σ) (events : List Event) :
    (r.extend host events).host = host := rfl

@[simp]
theorem size_extend (r : Recorded σ) (host : σ) (events : List Event) :
    (r.extend host events).events.size = r.events.size + events.length := by
  simp [extend]

@[simp]
theorem extend_extend (r : Recorded σ) (host host' : σ) (front events : List Event) :
    (r.extend host front).extend host' events = r.extend host' (front ++ events) := by
  simp [extend]

@[simp]
theorem extend_nil (r : Recorded σ) : r.extend r.host [] = r := by
  simp [extend]

/-- The record of a step is empty before it. -/
theorem events_extend_start (host u : σ) (events : List Event) :
    (extend { host } u events).events.toList = events := by
  simp [extend]

theorem push_eq_extend (r : Recorded σ) (host : σ) (event : Event) :
    r.push host event = r.extend host [event] := by
  simp [push, extend]

theorem toList_push (r : Recorded σ) (host : σ) (event : Event) :
    (r.push host event).events.toList = r.events.toList ++ [event] := by
  simp [push]

/-- A step with a record writes down the result that it has without one. -/
theorem outcome_step (p : Step σ Float) (event : Except Fault Float → Event) (r : Recorded σ) :
    Step.outcome (step p event) r =
      ((Step.outcome p r.host).1,
        r.push (Step.outcome p r.host).2 (event (Step.outcome p r.host).1)) := by
  unfold Step.outcome step
  cases p r.host <;> rfl

end Recorded

/-- The results of a step with a record that is `r` before it and of the step without a record:
values with the relation `R` to one another, or the same fault. -/
inductive Records (r : Recorded σ) (queries : List Query) (names : List String)
    (R : α → β → Prop) :
    EStateM.Result Fault (Recorded σ) α → EStateM.Result Fault σ β → Prop
  /-- All questions have good answers. -/
  | ok {a : α} {b : β} {host : σ} {events : List Event} (hR : R a b)
    (h : Answered r.events.size queries names events) :
    Records r queries names R (.ok a (r.extend host events)) (.ok b host)
  /-- A question has a fault for its answer. -/
  | error {fault : Fault} {host : σ} {events : List Event}
    (h : Refused r.events.size queries fault events) :
    Records r queries names R (.error fault (r.extend host events)) (.error fault host)

/-- A step with a record does what the step without a record does, asks the given questions, and
leaves functions of the given names to be called. -/
def Follows (p : Step (Recorded σ) α) (q : Step σ β) (queries : List Query)
    (names : List String) (R : α → β → Prop) : Prop :=
  ∀ r, Records r queries names R (p r) (q r.host)

theorem Follows.pure {R : α → β → Prop} {a : α} {b : β} (hR : R a b) :
    Follows (σ := σ) (Pure.pure a) (Pure.pure b) [] [] R := by
  intro r
  have h : Records r [] [] R (.ok a (r.extend r.host [])) (.ok b r.host) := .ok hR (.nil _)
  rw [Recorded.extend_nil] at h
  exact h

theorem Follows.bind {p : Step (Recorded σ) α} {q : Step σ β} {f : α → Step (Recorded σ) γ}
    {g : β → Step σ δ} {queries more : List Query} {names others : List String}
    {R : α → β → Prop} {S : γ → δ → Prop} (h : Follows p q queries names R)
    (hf : ∀ a b, R a b → Follows (f a) (g b) more others S) :
    Follows (p >>= f) (q >>= g) (queries ++ more) (others ++ names) S := by
  intro r
  have hr := h r
  generalize hp : p r = x, hq : q r.host = y at hr
  cases hr with
  | error h =>
    rw [Step.bind_of_error hp, Step.bind_of_error hq]
    exact .error (h.append_right more)
  | @ok a b host front hR h =>
    rw [Step.bind_of_ok hp, Step.bind_of_ok hq]
    have hs := hf a b hR (r.extend host front)
    rw [Recorded.host_extend] at hs
    generalize f a (r.extend host front) = x, g b host = y at hs
    cases hs with
    | ok hS h' =>
      rw [Recorded.size_extend] at h'
      rw [Recorded.extend_extend]
      exact .ok hS (h.append h')
    | error h' =>
      rw [Recorded.size_extend] at h'
      rw [Recorded.extend_extend]
      exact .error (h.append_refused h')

/-- Steps in a row of which the first one leaves no function to be called. -/
theorem Follows.bind_nil {p : Step (Recorded σ) α} {q : Step σ β} {f : α → Step (Recorded σ) γ}
    {g : β → Step σ δ} {queries more : List Query} {names : List String}
    {R : α → β → Prop} {S : γ → δ → Prop} (h : Follows p q queries [] R)
    (hf : ∀ a b, R a b → Follows (f a) (g b) more names S) :
    Follows (p >>= f) (q >>= g) (queries ++ more) names S := by
  have hb := h.bind hf
  rwa [List.append_nil] at hb

/-- A step that asks nothing more does not change the record. -/
theorem Follows.map {p : Step (Recorded σ) α} {q : Step σ β} {f : α → γ} {g : β → δ}
    {queries : List Query} {names : List String} {R : α → β → Prop} {S : γ → δ → Prop}
    (h : Follows p q queries names R) (hf : ∀ a b, R a b → S (f a) (g b)) :
    Follows (p >>= fun a => Pure.pure (f a)) (q >>= fun b => Pure.pure (g b)) queries names S := by
  have hb := h.bind fun a b hR => Follows.pure (hf a b hR)
  rwa [List.append_nil, List.nil_append] at hb

/-! ## What a scope answers -/

variable (scope : Scope σ)

theorem follows_value (name : String) :
    Follows (scope.recorded.value name) (scope.value name) [.value name] [] Eq := by
  intro r
  change Records r _ _ _ (Recorded.step (scope.value name) (.value name) r) _
  rw [Recorded.step]
  cases scope.value name r.host with
  | ok x host =>
    simp only [Recorded.push_eq_extend]
    exact .ok rfl (.value _ _ _)
  | error fault host =>
    simp only [Recorded.push_eq_extend]
    exact .error (Refused.single rfl rfl fun _ => rfl)

/-- A function that is found writes down its calls under the number of the look-up. -/
theorem find_recorded (name : String) (r : Recorded σ) :
    scope.recorded.find name r = match scope.find name r.host with
      | .ok callback host => .ok (fun x => Recorded.step (callback x) (.call r.events.size name x))
        (r.extend host [.function name true])
      | .error fault host => .error fault (r.extend host [.function name false]) := by
  simp only [Scope.find, Scope.recorded, ← Recorded.push_eq_extend]
  rcases scope.function name r.host with ⟨_ | callback, host⟩ <;> rfl

theorem refused_function {name : String} {host u : σ} {fault : Fault}
    (h : scope.find name host = .error fault u) (n : Nat) :
    Refused n [.function name] fault [.function name false] := by
  have hf : fault = .undefinedFunction := by
    rw [Scope.find] at h
    split at h <;> cases h
    rfl
  subst hf
  exact Refused.single rfl rfl fun _ => rfl

theorem follows_find (name : String) :
    Follows (scope.recorded.find name) (scope.find name) [.function name] [name]
      fun _ _ => True := by
  intro r
  rw [find_recorded]
  cases h : scope.find name r.host with
  | ok callback host => exact .ok trivial (.function _ _)
  | error fault host => exact .error (refused_function scope h _)

/-- A function is looked up before its argument has a value and called with that value. -/
theorem follows_call {p : Step (Recorded σ) Float} {q : Step σ Float} {queries : List Query}
    (h : Follows p q queries [] Eq) (name : String) :
    Follows (scope.recorded.find name >>= fun callback => p >>= callback)
      (scope.find name >>= fun callback => q >>= callback)
      (.function name :: (queries ++ [.call name])) [] Eq := by
  intro r
  have hfind := find_recorded scope name r
  cases hf : scope.find name r.host with
  | error fault host =>
    rw [hf] at hfind
    rw [Step.bind_of_error hfind, Step.bind_of_error hf]
    exact .error ((refused_function scope hf _).append_right _)
  | ok callback host =>
    rw [hf] at hfind
    rw [Step.bind_of_ok hfind, Step.bind_of_ok hf]
    -- the look-up stays open while the argument is evaluated
    have hr := h (r.extend host [.function name true])
    rw [Recorded.host_extend] at hr
    generalize hp : p (r.extend host [.function name true]) = a, hq : q host = b at hr
    cases hr with
    | error h =>
      rw [Step.bind_of_error hp, Step.bind_of_error hq, Recorded.extend_extend]
      rw [Recorded.size_extend] at h
      exact .error ((Answered.function _ name).append_refused (h.append_right _))
    | @ok x _ u events hx h =>
      subst hx
      rw [Recorded.size_extend] at h
      rw [Step.bind_of_ok hp, Step.bind_of_ok hq, Recorded.step]
      simp only [Recorded.host_extend, Recorded.push_eq_extend, Recorded.extend_extend]
      cases callback x u with
      | ok y v => exact .ok rfl h.call
      | error fault v => exact .error (.call h)

end Formula
