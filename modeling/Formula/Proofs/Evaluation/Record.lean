import Formula.Proofs.Evaluation.Independence
import Formula.Proofs.Evaluation.Relation

/-!
# Runs with a record

A run in which the answers are written down has the result of the run without a record, reads as far
and leaves the same data beside the record (`run_recorded`).  Answers are only ever added to the
record, so what is written down while the front part of a formula is evaluated comes first in what
is written down for all of it (`events_prefix_of_through?`).
-/

namespace Formula

open Grammar

variable {σ : Type}

/-- The setting with the answers of its scope written down. -/
def Setting.recorded (env : Setting σ) : Setting (Recorded σ) where
  scope := env.scope.map Scope.recorded
  limits := env.limits

/-- All that is asked and answered in a run, in order. -/
def Setting.events (env : Setting σ) (text : String) (host : σ) : List Event :=
  (finalState (run env.recorded text { host })).host.events.toList

namespace Recorded

/-- The data beside a record.  It does not matter what is in the record. -/
def Holds (_ : Unit) (r : Recorded σ) (host : σ) : Prop :=
  r.host = host

/-- The same data with the same record, which begins as given. -/
def Extends (front : List Event) (r r' : Recorded σ) : Prop :=
  r = r' ∧ front <+: r.events.toList

theorem Extends.extend {front : List Event} {r : Recorded σ} (h : front <+: r.events.toList)
    (host : σ) (events : List Event) :
    Extends front (r.extend host events) (r.extend host events) := by
  refine ⟨rfl, h.trans ?_⟩
  simp [Recorded.extend]

end Recorded

open Recorded

/-! ## What a recorded scope answers -/

theorem related_empty {ι τ : Type} {H : ι → τ → σ → Prop} : Scope.Related H .empty .empty where
  find _ := fun _ _ _ hH => .error hH
  value _ := .throw _

theorem holds_step (p : Step σ Float) (event : Except Fault Float → Event) :
    Step.Related Holds Eq (Recorded.step p event) p := by
  rintro _ r _ rfl
  unfold Recorded.step
  cases p r.host with
  | ok x host => exact .ok rfl rfl
  | error fault host => exact .error rfl

theorem extends_step (p : Step σ Float) (event : Except Fault Float → Event) :
    Step.Related Extends Eq (Recorded.step p event) (Recorded.step p event) := by
  rintro front r _ ⟨rfl, h⟩
  simp only [Recorded.step, push_eq_extend]
  cases p r.host with
  | ok x host => exact .ok rfl (.extend h host _)
  | error fault host => exact .error (.extend h host _)

theorem holds_recorded (scope : Scope σ) : scope.recorded.Related Holds scope where
  find name := by
    rintro _ r _ rfl
    rw [find_recorded]
    cases scope.find name r.host with
    | ok callback host => exact .ok (fun x => holds_step _ _) rfl
    | error fault host => exact .error rfl
  value name := holds_step _ _

theorem extends_recorded (scope : Scope σ) : scope.recorded.Related Extends scope.recorded where
  find name := by
    rintro front r _ ⟨rfl, h⟩
    rw [find_recorded]
    cases scope.find name r.host with
    | ok callback host => exact .ok (fun x => extends_step _ _) (.extend h host _)
    | error fault host => exact .error (.extend h host _)
  value name := extends_step _ _

theorem Setting.holds_recorded (env : Setting σ) : env.recorded.Related Holds env where
  limits := rfl
  names := by
    obtain ⟨scope, limits⟩ := env
    cases scope with
    | none => exact related_empty
    | some scope => exact Formula.holds_recorded scope

theorem Setting.extends_recorded (env : Setting σ) :
    env.recorded.Related Extends env.recorded where
  limits := rfl
  names := by
    obtain ⟨scope, limits⟩ := env
    cases scope with
    | none => exact related_empty
    | some scope => exact Formula.extends_recorded scope

/-! ## What a record shows of a run -/

/-- **A record changes nothing.**  A run with a record has the same result as the run without it,
reads as far, and leaves the same data beside the record. -/
theorem run_recorded (env : Setting σ) (text : String) (r : Recorded σ) :
    Agree (State.Related (Holds ())) Eq (run env.recorded text r) (run env text r.host) :=
  agree_run env.holds_recorded text rfl

theorem rest_recorded (env : Setting σ) (text : String) (host : σ) :
    (finalState (run env.recorded text { host })).rest = (finalState (run env text host)).rest := by
  have h := run_recorded env text { host }
  generalize run env.recorded text { host } = r, run env text host = r' at h
  cases h with
  | ok _ hH => exact hH.rest
  | error hH => exact hH.rest

/-- The result of an evaluation is that of its run, and so are the data in the end. -/
theorem outcome_evaluate (env : Setting σ) (text : String) (host : σ) :
    Step.outcome (evaluate env.scope text env.limits) host = match run env text host with
      | .ok x s => (.ok x, s.host)
      | .error fault s => (.error fault, s.host) := by
  obtain ⟨scope, limits⟩ := env
  dsimp only [Step.outcome, evaluate]
  cases run { scope, limits } text host <;> rfl

/-- An evaluation with a record has the same result and leaves the same data beside the record. -/
theorem outcome_recorded (env : Setting σ) (text : String) (host : σ) :
    (Step.outcome (evaluate env.recorded.scope text env.recorded.limits) { host }).1 =
        (Step.outcome (evaluate env.scope text env.limits) host).1 ∧
      (Step.outcome (evaluate env.recorded.scope text env.recorded.limits) { host }).2.host =
        (Step.outcome (evaluate env.scope text env.limits) host).2 := by
  have hH : Holds () { host } host := rfl
  exact (agree_evaluate env.holds_recorded text hH).outcome

/-- An evaluation with a record has the same result. -/
theorem evaluate_recorded (env : Setting σ) (text : String) (host : σ) :
    (Step.outcome (evaluate env.recorded.scope text env.recorded.limits) { host }).1 =
      (Step.outcome (evaluate env.scope text env.limits) host).1 :=
  (outcome_recorded env text host).1

theorem events_eq (env : Setting σ) (text : String) (host : σ) : env.events text host =
    (Step.outcome (evaluate env.recorded.scope text env.recorded.limits)
      { host }).2.events.toList := by
  rw [outcome_evaluate, Setting.events]
  cases run env.recorded text { host } <;> rfl

theorem record_eq (scope : Scope σ) (text : String) (limits : Limits) (host : σ) :
    record scope text limits host =
      (Step.outcome (evaluate (some scope.recorded) text limits) { host }).2.events.toList :=
  events_eq { scope := some scope, limits } text host

theorem host_recorded (scope : Scope σ) (text : String) (limits : Limits) (host : σ) :
    (Step.outcome (evaluate (some scope.recorded) text limits) { host }).2.host =
      (Step.outcome (evaluate (some scope) text limits) host).2 :=
  (outcome_recorded { scope := some scope, limits } text host).2

/-- Evaluations that are recorded alike have the same events. -/
theorem events_congr {env other : Setting σ} {text text' : String} {host : σ}
    (h : evaluate env.recorded.scope text env.recorded.limits { host } =
      evaluate other.recorded.scope text' other.recorded.limits { host }) :
    env.events text host = other.events text' host := by
  rw [events_eq, events_eq, Step.outcome_congr h]

/-- The events of a front part come first in those of what is read from it on. -/
theorem events_prefix_of_through? (env : Setting σ) {P Q : Fragment} {front more : List Token}
    (hP : Fragment.start.through? front = some P) (hQ : P.through? more = some Q)
    (r : Recorded σ) :
    (Step.outcome (P.value env.recorded.names) r).2.events.toList <+:
      (Step.outcome (Q.value env.recorded.names) r).2.events.toList := by
  have hself := Fragment.related_value env.extends_recorded hP [] r r
    ⟨rfl, List.nil_prefix⟩
  rw [← Fragment.value_of_through? hQ]
  cases hv : P.value env.recorded.names r with
  | error fault u =>
    exact ⟨[], by rw [Step.outcome_of_error hv, Step.outcome_of_error (Step.bind_of_error hv),
      List.append_nil]⟩
  | ok pending u =>
    rw [hv] at hself
    cases hself with
    | ok hpending _ =>
      -- the operations that are pending only add to the record that there is by now
      have hsteps := related_steps env.extends_recorded more hpending u.events.toList u u
        ⟨rfl, List.prefix_rfl⟩
      rw [Step.outcome_of_ok hv, Step.outcome, Step.bind_of_ok hv]
      generalize more.foldlM (fun pending token => pending.step env.recorded token) pending u = x
        at hsteps
      cases hsteps with
      | ok _ hH => exact hH.2
      | error hH => exact hH.2

end Formula
