import Mathlib
import Formula.Proofs.Evaluation.Correctness
import Formula.Proofs.Evaluation.Failing
import Formula.Proofs.Evaluation.Record
import Formula.Proofs.Grammar.Limits

/-!
# Limits only cut an evaluation short

Under greater limits an evaluation asks first what it asks under smaller ones, and it is the same
evaluation if no limit is met (`evaluate_limits`).  With enough room for the brackets and names of a
text no limit is met at all; a fault of a limit then is the answer of a callback.
-/

namespace Formula

open Grammar

variable {σ : Type}

/-- Does a result not tell of a limit? -/
def Unlimited (result : Except Fault Float) : Prop :=
  ∀ fault, result = .error fault → fault.isOfLimits = false

/-! ## Values within limits -/

section

variable {scope : Scope σ} {R R' : Reading} {host : σ}

/-- The data in the end are those that evaluating what has been read leaves. -/
theorem data_of_value (scope : Scope σ) (R : Reading) (host : σ) :
    (Step.outcome (R.value scope) host).2 = (Step.outcome (R.fragment.value scope) host).2 := by
  cases hv : R.fragment.value scope host with
  | error fault u =>
    rw [Step.outcome_of_error hv, Reading.value, Step.outcome_of_error (Step.bind_of_error hv)]
  | ok pending u =>
    rw [Step.outcome_of_ok hv, Reading.value, Step.outcome, Step.bind_of_ok hv]
    cases R.fault? <;> rfl

/-- A limit that has stopped the reading shows, unless a callback has failed before. -/
theorem exists_error_of_value {fault : Fault} (he : R.ending = .error fault)
    (hr : (Step.outcome (R.value scope) host).1 ≠ .error fault) :
    ∃ failure u, R.fragment.value scope host = .error failure u := by
  cases hv : R.fragment.value scope host with
  | error failure u => exact ⟨failure, u, rfl⟩
  | ok pending u =>
    refine absurd ?_ hr
    rw [Reading.value, Reading.fault?, he, Step.outcome, Step.bind_of_ok hv]
    rfl

/-- A fault that has not stopped the reading is that of a callback. -/
theorem error_of_value {fault : Fault} (he : R.ending ≠ .error fault)
    (hr : (Step.outcome (R.value scope) host).1 = .error fault) :
    ∃ u, R.fragment.value scope host = .error fault u := by
  cases hv : R.fragment.value scope host with
  | error failure u =>
    rw [Reading.value, Step.outcome_of_error (Step.bind_of_error hv)] at hr
    cases hr
    exact ⟨u, rfl⟩
  | ok pending u =>
    rw [Reading.value, Reading.fault?, Step.outcome, Step.bind_of_ok hv] at hr
    cases hR : R.ending with
    | ok tree =>
      rw [hR] at hr
      cases hr
    | error stopped =>
      rw [hR] at hr
      cases hr
      exact absurd hR he

/-- What no limit stops has the same value within greater limits. -/
theorem value_of_within (h : R.Within R')
    (hr : Unlimited (Step.outcome (R.value scope) host).1) :
    R'.value scope host = R.value scope host := by
  cases h with
  | same hf he => rw [Reading.value, Reading.value, Reading.fault?, Reading.fault?, hf, he]
  | @stopped fault more he hl hf =>
    have hne : (Step.outcome (R.value scope) host).1 ≠ .error fault := by
      intro h
      cases (hr fault h).symm.trans hl
    obtain ⟨failure, u, hv⟩ := exists_error_of_value he hne
    have hv' := Fragment.value_error_of_through? { scope := some scope, limits := {} } hf hv
    rw [Reading.value, Reading.value, Step.bind_of_error hv]
    exact Step.bind_of_error hv'

end

/-! ## Evaluations within limits -/

section

variable {scope : Option (Scope σ)} {low high : Limits}

/-- An evaluation that meets no limit is the same within greater limits. -/
theorem evaluate_of_le (hn : low.nameSize ≤ high.nameSize) (hd : low.depth ≤ high.depth)
    {text : String} {host : σ}
    (hr : Unlimited (Step.outcome (evaluate scope text low) host).1) :
    evaluate scope text high host = evaluate scope text low host := by
  rw [evaluate_eq_value] at hr ⊢
  rw [evaluate_eq_value]
  exact value_of_within (ofText_within hn hd text) hr

/-- What is asked within limits is asked first within greater ones. -/
theorem events_prefix_of_le (scope : Option (Scope σ)) (hn : low.nameSize ≤ high.nameSize)
    (hd : low.depth ≤ high.depth) (text : String) (host : σ) :
    Setting.events { scope, limits := low } text host <+:
      Setting.events { scope, limits := high } text host := by
  rw [events_eq, events_eq]
  simp only [evaluate_eq_value, data_of_value]
  obtain ⟨more, hmore⟩ := (ofText_within hn hd text).exists_more
  exact events_prefix_of_through? { scope, limits := low }
    (Fragment.start.through?_take_used _ _ _) hmore { host }

/-- An evaluation that meets no limit asks the same within greater limits. -/
theorem events_of_le (hn : low.nameSize ≤ high.nameSize) (hd : low.depth ≤ high.depth)
    {text : String} {host : σ}
    (hr : Unlimited (Step.outcome (evaluate scope text low) host).1) :
    Setting.events { scope, limits := high } text host =
      Setting.events { scope, limits := low } text host := by
  rw [← evaluate_recorded { scope, limits := low }] at hr
  exact events_congr (evaluate_of_le hn hd hr)

end

/-! ## Limits that are not met -/

/-- Without a scope nothing fails but look-ups. -/
theorem failsWith_empty :
    Scope.FailsWith (fun fault => fault.isOfLimits = false) (.empty : Scope σ) where
  find name := (failsWith_find .empty name).mono fun _ h => h ▸ rfl
  call _ _ _ _ h := by cases h
  value _ := .throw rfl

/-- A fault of a limit that no reading meets is the last answer that has been given. -/
theorem exists_last_event {scope : Option (Scope σ)} {text : String} {limits : Limits} {host : σ}
    {fault : Fault} (hl : fault.isOfLimits)
    (he : (Reading.ofText limits text).ending ≠ .error fault)
    (hr : (Step.outcome (evaluate scope text limits) host).1 = .error fault) :
    ∃ front event, Setting.events { scope, limits } text host = front ++ [event] ∧
      event.fault? = some fault := by
  rw [evaluate_eq_value] at hr
  obtain ⟨u, hv⟩ := error_of_value he hr
  cases scope with
  | none =>
    have hP := Fragment.start.through?_take_used limits.depth
      (Token.sequence limits.nameSize (bytesOf text)).1
      (Token.sequence limits.nameSize (bytesOf text)).2
    cases hl.symm.trans (failsWith_empty.fragment hP host fault u hv)
  | some scope =>
    have hf := (Reading.ofText limits text).fragment.follows_value scope { host }
    rw [events_eq, evaluate_eq_value, data_of_value]
    change ∃ front event, (Step.outcome ((Reading.ofText limits text).fragment.value scope.recorded)
      { host }).2.events.toList = front ++ [event] ∧ _
    generalize hp : (Reading.ofText limits text).fragment.value scope.recorded { host } = p,
      hq : (Reading.ofText limits text).fragment.value scope host = q at hf
    cases hf with
    | ok => cases hq.symm.trans hv
    | error hrefused =>
      cases hq.symm.trans hv
      obtain ⟨front, event, hevents, hfault, -⟩ := hrefused.last
      refine ⟨front, event, ?_, hfault⟩
      rw [Step.outcome_of_error hp, Recorded.events_extend_start, hevents]

/-- **Limits only cut an evaluation short.**  What is asked within limits is asked first within
greater ones, and an evaluation that does not fail because of a limit is the same within greater
ones.  If more brackets may be open than a text has, and a name may have more bytes than the text, a
fault of a limit can only be the answer of a callback. -/
theorem evaluate_limits (scope : Option (Scope σ)) (text : String) (host : σ) :
    (∀ low high : Limits, low.nameSize ≤ high.nameSize → low.depth ≤ high.depth →
      Setting.events { scope, limits := low } text host <+:
        Setting.events { scope, limits := high } text host ∧
      ((Step.outcome (evaluate scope text low) host).1 ≠ .error .stackOverflow →
        (Step.outcome (evaluate scope text low) host).1 ≠ .error .nameTooLong →
        evaluate scope text high host = evaluate scope text low host ∧
          Setting.events { scope, limits := high } text host =
            Setting.events { scope, limits := low } text host)) ∧
    ∀ limits : Limits, (bytesOf text).count 0x28 < limits.depth →
      (bytesOf text).length < limits.nameSize →
      ∀ fault, fault = .stackOverflow ∨ fault = .nameTooLong →
        (Step.outcome (evaluate scope text limits) host).1 = .error fault →
        ∃ front event, Setting.events { scope, limits } text host = front ++ [event] ∧
          event.fault? = some fault := by
  constructor
  · intro low high hn hd
    refine ⟨events_prefix_of_le scope hn hd text host, fun hso hntl => ?_⟩
    have hr : Unlimited (Step.outcome (evaluate scope text low) host).1 := by
      intro fault h
      cases fault with
      | stackOverflow => exact absurd h hso
      | nameTooLong => exact absurd h hntl
      | _ => rfl
    exact ⟨evaluate_of_le hn hd hr, events_of_le hn hd hr⟩
  · intro limits hd hn fault hf hr
    have hl : fault.isOfLimits := by rcases hf with rfl | rfl <;> rfl
    refine exists_last_event hl (fun he => ?_) hr
    cases (ofText_fits hd hn he).symm.trans hl

/-- Two expressions, one in the other, are evaluated alike whether or not more would be allowed, and
with room enough the fault of a limit is the answer of the variable. -/
theorem limits_not_met :
    let quiet : Scope Unit := .layer (fun _ => none) (fun _ => some 3) .empty
    let loud : Scope Unit := { quiet with value := fun _ => throw .stackOverflow }
    let low : Limits := { nameSize := 2, depth := 2 }
    let high : Limits := {}
    (evaluate (some quiet) "-($x)" low () = .ok (-3) () ∧
      evaluate (some quiet) "-($x)" high () = evaluate (some quiet) "-($x)" low () ∧
      Setting.events { scope := some quiet, limits := low } "-($x)" () <+:
        Setting.events { scope := some quiet, limits := high } "-($x)" ()) ∧
    evaluate (some loud) "$x" high () = .error .stackOverflow () ∧
    ∃ front event, Setting.events { scope := some loud, limits := high } "$x" () =
      front ++ [event] ∧ event.fault? = some .stackOverflow := by
  intro quiet loud low high
  have hq : evaluate (some quiet) "-($x)" low () = .ok (-3) () := by cbv
  have hl : evaluate (some loud) "$x" high () = .error .stackOverflow () := by cbv
  have hne (fault : Fault) :
      (Step.outcome (evaluate (some quiet) "-($x)" low) ()).1 ≠ .error fault := by
    rw [Step.outcome_of_ok hq]
    rintro ⟨⟩
  obtain ⟨hp, he⟩ := (evaluate_limits (some quiet) "-($x)" ()).1 low high (by decide) (by decide)
  refine ⟨⟨hq, (he (hne _) (hne _)).1, hp⟩, hl, ?_⟩
  refine (evaluate_limits (some loud) "$x" ()).2 high (by decide) (by decide) _ (.inl rfl) ?_
  rw [Step.outcome_of_error hl]

end Formula
