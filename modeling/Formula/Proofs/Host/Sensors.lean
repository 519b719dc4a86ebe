import Mathlib
import Formula.Host.Sensors
import Formula.Proofs.Evaluation.Invariant
import Formula.Proofs.Evaluation.Lookups

/-!
# Sessions with sensors

Formulas that are evaluated for the same sensors, one after the other, leave the readings as they
are and count the look-ups of variables.  They have nothing else to do with one another, whether they
fail or not (`evaluateAll_sensors`).

* `Counted` — the counter goes with the record of an evaluation.
* `SameReadings` — no answer depends on the counter, so neither does a result.
* `Foreign` — without sensors there are no readings and no bias, and nothing changes.
-/

namespace Formula.Sensors

variable {τ : Type} {readings : Context}

/-! ## What the scope answers -/

/-- What may be found under a name: the function of the bias, or one that has to do with its
argument alone. -/
inductive Known : String → Callback (Sensors ⊕ τ) → Prop
  | offset : Known "offset" offset
  | ofFloat {name : String} (h : name ≠ "offset") (f : Float → Float) :
    Known name (Callback.ofFloat f)

/-- A function is found, or not, whatever the data are. -/
theorem find_cases (name : String) :
    (∃ callback : Callback (Sensors ⊕ τ), Known name callback ∧ scope.find name = pure callback) ∨
      (scope : Scope (Sensors ⊕ τ)).find name = throw .undefinedFunction := by
  by_cases ho : name = "offset"
  · subst ho
    exact .inl ⟨offset, .offset, rfl⟩
  by_cases hc : name = "celsius"
  · subst hc
    exact .inl ⟨_, .ofFloat ho celsius, rfl⟩
  have hf : function? (τ := τ) name = none := by
    unfold function?
    split <;> trivial
  cases hb : Builtin.function? name with
  | some f =>
    refine .inl ⟨_, .ofFloat ho f, ?_⟩
    funext host
    simp only [Scope.find, scope, Scope.layer, Scope.builtin, hf, hb]
    rfl
  | none =>
    refine .inr ?_
    funext host
    simp only [Scope.find, scope, Scope.layer, Scope.builtin, hf, hb]
    rfl

theorem known_of_find {name : String} {host u : Sensors ⊕ τ} {callback : Callback (Sensors ⊕ τ)}
    (h : scope.find name host = .ok callback u) : Known name callback := by
  rcases find_cases (τ := τ) name with ⟨found, hk, hf⟩ | hf
  · rw [hf] at h
    cases h
    exact hk
  · rw [hf] at h
    cases h

/-- Looking up a function leaves the data alone. -/
theorem outcome_find (name : String) (host : Sensors ⊕ τ) :
    (Step.outcome (scope.find name) host).2 = host := by
  rcases find_cases (τ := τ) name with ⟨found, -, hf⟩ | hf <;> rw [hf] <;> rfl

/-- Calling a function leaves the data alone. -/
theorem Known.outcome {name : String} {callback : Callback (Sensors ⊕ τ)} (h : Known name callback)
    (x : Float) (host : Sensors ⊕ τ) : (Step.outcome (callback x) host).2 = host := by
  cases h with
  | offset => cases host <;> rfl
  | ofFloat => rfl

/-- Looking up a variable is counted, whether there is such a sensor or not. -/
theorem outcome_reading (name : String) (sensors : Sensors) :
    (Step.outcome (reading name) (.inl sensors : Sensors ⊕ τ)).2 =
      .inl { sensors with lookups := sensors.lookups + 1 } := by
  unfold Step.outcome reading
  dsimp only
  cases sensors.readings[name]? <;> rfl

/-! ## The counter -/

/-- The readings are those of the beginning, and the counter has grown by what is on record. -/
def Counted (readings : Context) (before : Nat) (r : Recorded (Sensors ⊕ τ)) : Prop :=
  r.host = .inl { readings, lookups := before + variableLookups r.events.toList }

theorem counted_maintained (readings : Context) (before : Nat) :
    (scope : Scope (Sensors ⊕ τ)).recorded.Maintains (Counted readings before) := by
  apply maintains_recorded
  · intro name found r h
    rw [Counted, Recorded.toList_push, lookups_append, outcome_find]
    exact h
  · intro name host callback u hf opened x r h
    rw [Counted, Recorded.toList_push, lookups_append, (known_of_find hf).outcome]
    exact h
  · intro name r h
    rw [Counted] at h
    rw [Counted, Recorded.toList_push, lookups_append, h]
    exact outcome_reading name _

/-- An evaluation leaves the readings alone and counts the variables that are looked up. -/
theorem evaluate_counts (readings : Context) (before : Nat) (text : String) (limits : Limits) :
    let host : Sensors ⊕ τ := .inl { readings, lookups := before }
    (Step.outcome (evaluate (some scope) text limits) host).2 =
      .inl { readings, lookups := before + variableLookups (record scope text limits host) } := by
  intro host
  have hs : Counted readings before { host } := rfl
  have hm := evaluate_maintains (counted_maintained readings before) text limits _ hs
  rwa [Counted, host_recorded, ← record_eq] at hm

/-! ## Results -/

/-- Sensors with the same readings. -/
def SameReadings (readings : Context) (s t : Sensors ⊕ τ) : Prop :=
  ∃ m n, s = .inl { readings, lookups := m } ∧ t = .inl { readings, lookups := n }

theorem Known.related {name : String} {callback : Callback (Sensors ⊕ τ)}
    (h : Known name callback) : Callback.Related SameReadings callback callback := by
  rintro x readings _ _ ⟨m, n, rfl, rfl⟩
  cases h with
  | offset => exact .ok rfl ⟨m, n, rfl, rfl⟩
  | ofFloat => exact .ok rfl ⟨m, n, rfl, rfl⟩

/-- No answer depends on the counter. -/
theorem related_scope :
    Scope.Related SameReadings (scope : Scope (Sensors ⊕ τ)) (scope : Scope (Sensors ⊕ τ)) where
  find name := by
    rcases find_cases (τ := τ) name with ⟨callback, hk, hf⟩ | hf
    · rw [hf]
      exact .pure hk.related
    · rw [hf]
      exact .throw _
  value name := by
    rintro readings _ _ ⟨m, n, rfl, rfl⟩
    show Agree (SameReadings readings) Eq (reading name (.inl { readings, lookups := m }))
      (reading name (.inl { readings, lookups := n }))
    unfold reading
    dsimp only
    cases readings[name]? with
    | some x => exact .ok rfl ⟨m + 1, n + 1, rfl, rfl⟩
    | none => exact .error ⟨m + 1, n + 1, rfl, rfl⟩

/-- The result of an evaluation does not depend on the counter. -/
theorem evaluate_congr (readings : Context) (m n : Nat) (text : String) (limits : Limits) :
    (Step.outcome (evaluate (some scope) text limits)
        (.inl { readings, lookups := m } : Sensors ⊕ τ)).1 =
      (Step.outcome (evaluate (some scope) text limits)
        (.inl { readings, lookups := n } : Sensors ⊕ τ)).1 := by
  have he : Setting.Related (SameReadings (τ := τ)) { scope := some scope, limits }
      { scope := some scope, limits } := ⟨rfl, related_scope⟩
  have hs : SameReadings (τ := τ) readings (.inl { readings, lookups := m })
      (.inl { readings, lookups := n }) := ⟨m, n, rfl, rfl⟩
  exact (agree_evaluate he text hs).outcome.1

/-- An evaluation has the result that it has for a counter at 0. -/
theorem outcome_evaluate (readings : Context) (before : Nat) (text : String) (limits : Limits) :
    let host : Sensors ⊕ τ := .inl { readings, lookups := before }
    Step.outcome (evaluate (some scope) text limits) host =
      ((Step.outcome (evaluate (some scope) text limits) (.inl { readings } : Sensors ⊕ τ)).1,
        .inl { readings, lookups := before + variableLookups (record scope text limits host) }) :=
  Prod.ext (evaluate_congr readings before 0 text limits)
    (evaluate_counts readings before text limits)

/-! ## Other data -/

/-- What an answer is without sensors: there are no readings and there is no bias. -/
def Denied : Event → Prop
  | .function _ _ => True
  | .value _ result => result = .error .undefinedVariable
  | .call _ name _ result => name = "offset" → result = .error .undefinedVariable

/-- The data are no sensors, and the record shows nothing else. -/
def Foreign (other : τ) (r : Recorded (Sensors ⊕ τ)) : Prop :=
  r.host = .inr other ∧ ∀ event ∈ r.events.toList, Denied event

theorem Foreign.push {other : τ} {r : Recorded (Sensors ⊕ τ)} {event : Event}
    (h : Foreign other r) (he : Denied event) : Foreign other (r.push (.inr other) event) := by
  refine ⟨rfl, ?_⟩
  rw [Recorded.toList_push, List.forall_mem_append, List.forall_mem_singleton]
  exact ⟨h.2, he⟩

theorem foreign_maintained (other : τ) : scope.recorded.Maintains (Foreign other) := by
  apply maintains_recorded
  · intro name found r h
    rw [outcome_find, h.1]
    exact h.push trivial
  · intro name host callback u hf opened x r h
    have hk := known_of_find hf
    rw [hk.outcome, h.1]
    refine h.push ?_
    cases hk with
    | offset => exact fun _ => rfl
    | ofFloat hn => exact fun ho => absurd ho hn
  · intro name r h
    rw [h.1]
    exact h.push rfl

/-- An evaluation for data that are no sensors changes nothing, and it gets no reading and no
bias. -/
theorem evaluate_foreign (other : τ) (text : String) (limits : Limits) :
    (Step.outcome (evaluate (some scope) text limits) (.inr other : Sensors ⊕ τ)).2 = .inr other ∧
      ∀ event ∈ record scope text limits (.inr other : Sensors ⊕ τ), Denied event := by
  have hs : Foreign other { host := .inr other } := ⟨rfl, nofun⟩
  have hm := evaluate_maintains (foreign_maintained other) text limits _ hs
  rwa [Foreign, host_recorded, ← record_eq] at hm

/-! ## Sessions -/

/-- The answers to formulas that are evaluated one after the other, from a value of the counter
on. -/
inductive Session (readings : Context) :
    Nat → List String → List (Except Fault Float × (Sensors ⊕ τ)) → Prop
  | nil (before : Nat) : Session readings before [] []
  | cons {before asked : Nat} {text : String} {texts : List String} {result : Except Fault Float}
    {answers : List (Except Fault Float × (Sensors ⊕ τ))}
    -- the counter grows by the look-ups of variables, and the readings stay
    (counted : asked = variableLookups
      (record scope text {} (.inl { readings, lookups := before } : Sensors ⊕ τ)))
    -- these are all variables of the formula if it has a value, and some of them if it fails
    (le : asked ≤ variableTokens {} text)
    (all : result.isOk → asked = variableTokens {} text)
    -- the result is that of the formula alone
    (alone : result =
      (Step.outcome (evaluate (some scope) text) (.inl { readings } : Sensors ⊕ τ)).1)
    (session : Session readings (before + asked) texts answers) :
    Session readings before (text :: texts)
      ((result, .inl { readings, lookups := before + asked }) :: answers)

theorem session_evaluateAll (readings : Context) (before : Nat) (texts : List String) :
    Session readings before texts
      (evaluateAll (some scope) texts (.inl { readings, lookups := before } : Sensors ⊕ τ)) := by
  induction texts generalizing before with
  | nil => exact .nil before
  | cons text texts ih =>
    let host : Sensors ⊕ τ := .inl { readings, lookups := before }
    have ho := outcome_evaluate (τ := τ) readings before text {}
    rw [evaluateAll_cons, ho]
    refine .cons rfl (lookups_le scope text {} host) ?_ rfl (ih _)
    intro hok
    cases he : evaluate (some scope) text {} host with
    | ok x u => exact lookups_eq he
    | error fault u =>
      have hr := congrArg Prod.fst ho
      rw [Step.outcome_of_error he] at hr
      rw [← hr] at hok
      cases hok

/-- **Sensors count exactly and do nothing else.**  Formulas that are evaluated one after the other
for the same sensors leave the readings alone, count the variables that each of them looks up, and
have the results that they have alone.  Functions leave the counter alone.  For data that are no
sensors all variables and the function of the bias are refused, and nothing is counted. -/
theorem evaluateAll_sensors (readings : Context) (texts : List String) :
    Session readings 0 texts
        (evaluateAll (some scope) texts (.inl { readings } : Sensors ⊕ τ)) ∧
      (∀ name (host : Sensors ⊕ τ), (Step.outcome (scope.find name) host).2 = host ∧
        ∀ callback u, scope.find name host = .ok callback u →
          ∀ x host', (Step.outcome (callback x) host').2 = host') ∧
      ∀ other : τ,
        evaluateAll (some scope) texts (.inr other) =
            texts.map (fun text => ((Step.outcome (evaluate (some scope) text) (.inr other)).1,
              (.inr other : Sensors ⊕ τ))) ∧
          ∀ text, ∀ event ∈ record scope text {} (.inr other : Sensors ⊕ τ), Denied event := by
  refine ⟨session_evaluateAll readings 0 texts, fun name host => ⟨outcome_find name host, ?_⟩, ?_⟩
  · intro callback u hf x host'
    exact (known_of_find hf).outcome x host'
  · intro other
    refine ⟨?_, fun text => (evaluate_foreign other text {}).2⟩
    induction texts with
    | nil => rfl
    | cons text texts ih =>
      have ha : Step.outcome (evaluate (some scope) text) (.inr other) = (_, .inr other) :=
        Prod.ext rfl (evaluate_foreign other text {}).1
      rw [evaluateAll_cons, ha, ih, List.map_cons]

/-- A formula that fails in the middle of a session has its look-ups counted, and the next one is
evaluated as ever. -/
theorem session_over_fault :
    let readings : Context := .insert (.insert ∅ "inside" 20) "outside" 5
    let after (lookups : Nat) : Sensors ⊕ Unit := .inl { readings, lookups }
    let texts := ["-$outside", "sqrt($inside*$attic)", "-$inside"]
    let answers : List (Except Fault Float × (Sensors ⊕ Unit)) :=
      [(.ok (-5), after 1), (.error .undefinedVariable, after 3), (.ok (-20), after 4)]
    evaluateAll (some scope) texts (after 0) = answers ∧ Session readings 0 texts answers ∧
      (evaluateAll (some scope) texts (.inr () : Sensors ⊕ Unit)).map Prod.snd =
        [.inr (), .inr (), .inr ()] := by
  intro readings after texts answers
  obtain ⟨hsession, -, hforeign⟩ := @evaluateAll_sensors Unit readings texts
  have he : evaluateAll (some scope) texts (after 0) = answers := by
    simp only [readings, after, texts, answers]
    cbv
  refine ⟨he, ?_, ?_⟩
  · rw [← he]
    exact hsession
  · rw [(hforeign ()).1]
    rfl

end Formula.Sensors
