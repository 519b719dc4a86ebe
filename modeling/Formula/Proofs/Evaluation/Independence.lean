import Mathlib
import Formula.Proofs.Evaluation.Ending
import Formula.Proofs.Evaluation.Questions

/-!
# Values do not steer an evaluation

How far a text is read, which questions are asked on the way and with which fault it ends has
nothing to do with the values that are computed.  Two hosts, each with data and a scope of its own,
see the same course of events unless an answer is a fault (`run_independent`).
-/

namespace Formula

open Grammar

variable {σ τ : Type}

/-- The fault that a run ends with, if it fails. -/
def fault? : EStateM.Result Fault (State σ) Float → Option Fault
  | .ok _ _ => none
  | .error fault _ => some fault

/-- The state that a run ends in. -/
def finalState : EStateM.Result Fault (State σ) Float → State σ
  | .ok _ s => s
  | .error _ s => s

/-- What is asked and answered in a run: the record that the run leaves if its scope is recorded. -/
def record (scope : Scope σ) (text : String) (limits : Limits) (host : σ) : List Event :=
  (finalState (run { scope := some scope.recorded, limits } text { host })).host.events.toList

/-- The course of a run and its events, by the reading of its text and the bytes left where the
reading ends. -/
inductive Course (R : Reading) (rest : List UInt8) (r : EStateM.Result Fault (State σ) Float)
    (events : List Event) : Prop
  /-- All questions have good answers, and the run ends as the reading does. -/
  | answered (hf : fault? r = R.fault?) (hr : (finalState r).rest = rest)
    (hq : events.map Event.query = R.fragment.queries)
  /-- An answer is a fault. -/
  | refused (hq : events.map Event.query <+: R.fragment.queries)
    (hb : ∃ event ∈ events, event.fault? ≠ none)

section Ends

variable {scope : Scope σ} {host u : σ} {R : Reading} {reached : σ → State σ}
  {r : EStateM.Result Fault (State σ) Float}

/-- A run whose fragment has a value ends where the reading of its text does. -/
theorem Ends.of_value {pending : Pending σ} (h : Ends scope host R reached r)
    (hv : R.fragment.value scope host = .ok pending u) :
    fault? r = R.fault? ∧ finalState r = reached u ∧ (finalState r).host = u := by
  cases h with
  | failed h => cases h.symm.trans hv
  | stopped h hr ht =>
    obtain ⟨-, rfl⟩ := EStateM.Result.ok.inj (h.symm.trans hv)
    exact ⟨by rw [fault?, Reading.fault?, hr], ht.symm, rfl⟩
  | finished h hr hx ht =>
    obtain ⟨-, rfl⟩ := EStateM.Result.ok.inj (h.symm.trans hv)
    exact ⟨by rw [fault?, Reading.fault?, hr], ht.symm, rfl⟩

/-- A run whose fragment fails leaves the data of the host as the fragment does. -/
theorem Ends.of_error {fault : Fault} (h : Ends scope host R reached r)
    (hv : R.fragment.value scope host = .error fault u) : (finalState r).host = u := by
  cases h with
  | failed h => exact (EStateM.Result.error.inj (h.symm.trans hv)).2
  | stopped h => cases h.symm.trans hv
  | finished h => cases h.symm.trans hv

end Ends

theorem run_course (scope : Scope σ) (text : String) (limits : Limits) (host : σ) :
    Course (.ofText limits text)
      (State.skip limits.nameSize ((Reading.ofText limits text).used + 1)
        (.start (bytesOf text) ())).rest
      (run { scope := some scope, limits } text host) (record scope text limits host) := by
  have h := run_ends { scope := some scope, limits } text host
  have h' := run_ends { scope := some scope.recorded, limits } text { host }
  have hv := (Reading.ofText limits text).fragment.follows_value scope { host }
  generalize hp : (Reading.ofText limits text).fragment.value scope.recorded { host } = p,
    hq : (Reading.ofText limits text).fragment.value scope host = q at hv
  cases hv with
  | @ok _ _ u events hR ha =>
    obtain ⟨hf, hr, -⟩ := h.of_value hq
    have he : record scope text limits host = events := by
      rw [record, (h'.of_value hp).2.2, Recorded.events_extend_start]
    refine .answered hf ?_ (he ▸ ha.asked)
    rw [hr]
    exact State.rest_skip_congr _ _ rfl
  | @error fault u events hr =>
    have he : record scope text limits host = events := by
      rw [record, h'.of_error hp, Recorded.events_extend_start]
    obtain ⟨front, event, hl, hf, -⟩ := hr.last
    refine .refused (he ▸ hr.asked) ⟨event, ?_, by rw [hf]; nofun⟩
    rw [he, hl]
    simp

/-- **Values do not steer an evaluation.**  Two runs in which no answer is a fault end alike, at the
same place of the text, and ask the same questions.  A run in which an answer is a fault asks the
first of these questions. -/
theorem run_independent (scope₁ : Scope σ) (scope₂ : Scope τ) (text : String) (limits : Limits)
    (host₁ : σ) (host₂ : τ) :
    let r₁ := run { scope := some scope₁, limits } text host₁
    let r₂ := run { scope := some scope₂, limits } text host₂
    let events₁ := record scope₁ text limits host₁
    let events₂ := record scope₂ text limits host₂
    ((∀ event ∈ events₁, event.fault? = none) → (∀ event ∈ events₂, event.fault? = none) →
      fault? r₁ = fault? r₂ ∧ (finalState r₁).rest = (finalState r₂).rest ∧
        events₁.map Event.query = events₂.map Event.query) ∧
    ((∀ event ∈ events₂, event.fault? = none) →
      events₁.map Event.query <+: events₂.map Event.query) := by
  intro r₁ r₂ events₁ events₂
  have h₁ := run_course scope₁ text limits host₁
  have h₂ := run_course scope₂ text limits host₂
  constructor
  · intro good₁ good₂
    rcases h₁ with ⟨hf₁, hr₁, hq₁⟩ | ⟨-, event, he, hb⟩
    · rcases h₂ with ⟨hf₂, hr₂, hq₂⟩ | ⟨-, event, he, hb⟩
      · exact ⟨hf₁.trans hf₂.symm, hr₁.trans hr₂.symm, hq₁.trans hq₂.symm⟩
      · exact absurd (good₂ event he) hb
    · exact absurd (good₁ event he) hb
  · intro good₂
    rcases h₂ with ⟨-, -, hq₂⟩ | ⟨-, event, he, hb⟩
    · rw [hq₂]
      rcases h₁ with ⟨-, -, hq₁⟩ | ⟨hq₁, -⟩
      · exact hq₁ ▸ List.prefix_rfl
      · exact hq₁
    · exact absurd (good₂ event he) hb

/-- Two hosts, one of which keeps count, give other values and are asked the same; a host that
refuses the variable is asked the first of these questions. -/
theorem other_values_same_course :
    let quiet : Scope Unit := .layer (fun _ => some pure) (fun _ => some 1) .empty
    let busy : Scope Nat :=
      { function := fun _ n => (some fun x m => .ok x (m + 1), n + 1)
        value := fun _ n => .ok 2 (n + 1) }
    let strict : Scope Unit := .layer (fun _ => some pure) (fun _ => none) .empty
    let text := "f(-$x)"
    let first := run { scope := some quiet, limits := {} } text ()
    let second := run { scope := some busy, limits := {} } text 0
    evaluate (some quiet) text {} () = .ok (-1) () ∧ evaluate (some busy) text {} 0 = .ok (-2) 3 ∧
      (fault? first = fault? second ∧ (finalState first).rest = (finalState second).rest ∧
        (record quiet text {} ()).map Event.query = (record busy text {} 0).map Event.query) ∧
      (record strict text {} ()).map Event.query <+: (record quiet text {} ()).map Event.query := by
  intro quiet busy strict text first second
  have answered (events : List Event) (h : events.map Event.fault? = [none, none, none]) :
      ∀ event ∈ events, event.fault? = none := by
    intro event he
    simpa [h] using List.mem_map_of_mem (f := Event.fault?) he
  have good₁ : ∀ event ∈ record quiet text {} (), event.fault? = none := answered _ (by cbv)
  have good₂ : ∀ event ∈ record busy text {} 0, event.fault? = none := answered _ (by cbv)
  refine ⟨by cbv, by cbv, (run_independent quiet busy text {} () 0).1 good₁ good₂, ?_⟩
  exact (run_independent strict quiet text {} () ()).2 good₁

end Formula
