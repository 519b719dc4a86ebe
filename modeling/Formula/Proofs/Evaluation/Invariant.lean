import Formula.Proofs.Evaluation.Record

/-!
# Invariants of the data

What every answer of a scope maintains about the data of the host is maintained by every evaluation,
whether it gives a value or fails (`evaluate_maintains`).  Functions have to maintain it whenever
they are called, which may be long after they were found.

With a record, the data are those of the host and the events so far, so that an invariant may speak
of both (`maintains_recorded`).
-/

namespace Formula

variable {σ α : Type}

/-- A step maintains what holds of the data, whether it gives a value or fails. -/
def Step.Maintains (I : σ → Prop) (p : Step σ α) : Prop :=
  ∀ s, I s → I (outcome p s).2

/-- All answers of a scope maintain what holds of the data. -/
structure Scope.Maintains (I : σ → Prop) (scope : Scope σ) : Prop where
  /-- Looking up a function does. -/
  find : ∀ name, (scope.find name).Maintains I
  /-- Calling a function does that was found. -/
  call : ∀ name s callback t, I s → scope.find name s = .ok callback t →
    ∀ x, (callback x).Maintains I
  /-- Looking up a variable does. -/
  value : ∀ name, (scope.value name).Maintains I

variable {I : σ → Prop}

/-- The data are the same, and the invariant holds of them. -/
def SameData (I : σ → Prop) (_ : Unit) (s t : σ) : Prop :=
  s = t ∧ I s

theorem Step.Maintains.related {p : Step σ α} (h : p.Maintains I) :
    Step.Related (SameData I) Eq p p := by
  rintro i s _ ⟨rfl, hI⟩
  have ho := h s hI
  unfold Step.outcome at ho
  cases hp : p s with
  | ok a t => exact .ok rfl ⟨rfl, by rwa [hp] at ho⟩
  | error fault t => exact .error ⟨rfl, by rwa [hp] at ho⟩

theorem Scope.Maintains.related {scope : Scope σ} (h : scope.Maintains I) :
    scope.Related (SameData I) scope where
  find name := by
    rintro i s _ ⟨rfl, hI⟩
    have ho := h.find name s hI
    unfold Step.outcome at ho
    cases hf : scope.find name s with
    | ok callback t =>
      exact .ok (fun x => (h.call name s callback t hI hf x).related) ⟨rfl, by rwa [hf] at ho⟩
    | error fault t => exact .error ⟨rfl, by rwa [hf] at ho⟩
  value name := (h.value name).related

/-- **Evaluations maintain what every answer maintains.** -/
theorem evaluate_maintains {scope : Scope σ} (h : scope.Maintains I) (text : String)
    (limits : Limits) : (evaluate (some scope) text limits).Maintains I := by
  intro host hI
  let env : Setting σ := { scope := some scope, limits }
  have he : env.Related (SameData I) env := ⟨rfl, h.related⟩
  have hs : SameData I () host host := ⟨rfl, hI⟩
  exact (agree_evaluate he text hs).outcome.2.2

/-- An invariant of the data with the record is maintained if every event maintains it that may be
written down. -/
theorem maintains_recorded {scope : Scope σ} {I : Recorded σ → Prop}
    (find : ∀ name found r, I r →
      I (r.push (Step.outcome (scope.find name) r.host).2 (.function name found)))
    (call : ∀ name host callback u, scope.find name host = .ok callback u → ∀ opened x r, I r →
      I (r.push (Step.outcome (callback x) r.host).2
        (.call opened name x (Step.outcome (callback x) r.host).1)))
    (value : ∀ name r, I r →
      I (r.push (Step.outcome (scope.value name) r.host).2
        (.value name (Step.outcome (scope.value name) r.host).1))) :
    scope.recorded.Maintains I where
  find name r hI := by
    have hf := find_recorded scope name r
    cases h : scope.find name r.host with
    | ok callback host =>
      have hi := find name true r hI
      rw [h] at hf
      rw [Step.outcome_of_ok h] at hi
      rwa [Step.outcome_of_ok hf, ← Recorded.push_eq_extend]
    | error fault host =>
      have hi := find name false r hI
      rw [h] at hf
      rw [Step.outcome_of_error h] at hi
      rwa [Step.outcome_of_error hf, ← Recorded.push_eq_extend]
  call name r callback t _ h x := by
    rw [find_recorded] at h
    split at h
    · next found host hf =>
      cases h
      intro r' hI
      rw [Recorded.outcome_step]
      exact call name r.host found host hf r.events.size x r' hI
    · cases h
  value name r hI := by
    show I (Step.outcome (Recorded.step (scope.value name) (.value name)) r).2
    rw [Recorded.outcome_step]
    exact value name r hI

end Formula
