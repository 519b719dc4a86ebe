import Formula.Proofs.Evaluation.Ending

/-!
# Related runs

Two hosts with data of different types see the same of a formula if each callback of the one does on
its data what a callback of the other does on related data.  Steps then agree in their values or
faults and leave related data (`Step.Related`), and so do the steps of tokens (`related_step`), the
values of front parts (`Fragment.related_value`) and whole runs (`agree_run`).

The relation of the data may be any one of a family, so that it can hold on to what has been the
case before; what a relation says of functions is said of the whole family.
-/

namespace Formula

open Evaluation Grammar

variable {ι σ τ α β γ δ : Type}

/-! ## Steps on related data -/

/-- Results that agree: related values or the same fault, and related data. -/
inductive Agree (H : τ → σ → Prop) (R : α → β → Prop) :
    EStateM.Result Fault τ α → EStateM.Result Fault σ β → Prop
  | ok {a : α} {b : β} {t : τ} {s : σ} (hR : R a b) (hH : H t s) :
    Agree H R (.ok a t) (.ok b s)
  | error {fault : Fault} {t : τ} {s : σ} (hH : H t s) :
    Agree H R (.error fault t) (.error fault s)

/-- Two steps agree whenever they are taken on related data. -/
def Step.Related (H : ι → τ → σ → Prop) (R : α → β → Prop) (p : Step τ α) (q : Step σ β) : Prop :=
  ∀ i t s, H i t s → Agree (H i) R (p t) (q s)

theorem Agree.bind {H : τ → σ → Prop} {R : α → β → Prop} {S : γ → δ → Prop} {p : Step τ α}
    {q : Step σ β} {f : α → Step τ γ} {g : β → Step σ δ} {t : τ} {s : σ}
    (h : Agree H R (p t) (q s))
    (hf : ∀ a b u v, p t = .ok a u → R a b → H u v → Agree H S (f a u) (g b v)) :
    Agree H S ((p >>= f) t) ((q >>= g) s) := by
  generalize hp : p t = x, hq : q s = y at h
  cases h with
  | ok hR hH =>
    rw [Step.bind_of_ok hp, Step.bind_of_ok hq]
    exact hf _ _ _ _ hp hR hH
  | error hH =>
    rw [Step.bind_of_error hp, Step.bind_of_error hq]
    exact .error hH

/-- Results that agree with equal values are the same beside the data. -/
theorem Agree.outcome {H : τ → σ → Prop} {p : Step τ α} {q : Step σ α} {t : τ} {s : σ}
    (h : Agree H Eq (p t) (q s)) :
    (Step.outcome p t).1 = (Step.outcome q s).1 ∧
      H (Step.outcome p t).2 (Step.outcome q s).2 := by
  unfold Step.outcome
  generalize p t = x, q s = y at h
  cases h with
  | ok hR hH => exact ⟨congrArg Except.ok hR, hH⟩
  | error hH => exact ⟨rfl, hH⟩

variable {H : ι → τ → σ → Prop} {R : α → β → Prop} {S : γ → δ → Prop}

namespace Step.Related

theorem pure {a : α} {b : β} (h : R a b) :
    Step.Related H R (Pure.pure a : Step τ α) (Pure.pure b) :=
  fun _ _ _ hH => .ok h hH

theorem throw (fault : Fault) :
    Step.Related H R (MonadExcept.throw fault : Step τ α) (MonadExcept.throw fault) :=
  fun _ _ _ hH => .error hH

theorem bind {p : Step τ α} {q : Step σ β} {f : α → Step τ γ} {g : β → Step σ δ}
    (h : Step.Related H R p q) (hf : ∀ a b, R a b → Step.Related H S (f a) (g b)) :
    Step.Related H S (p >>= f) (q >>= g) :=
  fun i t s hH => (h i t s hH).bind fun a b u v _ hR hH => hf a b hR i u v hH

end Step.Related

/-- Two functions agree on related data. -/
def Callback.Related (H : ι → τ → σ → Prop) (f : Callback τ) (g : Callback σ) : Prop :=
  ∀ x, Step.Related H Eq (f x) (g x)

/-- Two scopes answer alike on related data. -/
structure Scope.Related (H : ι → τ → σ → Prop) (scope : Scope τ) (other : Scope σ) : Prop where
  /-- The functions that are found are related. -/
  find : ∀ name, Step.Related H (Callback.Related H) (scope.find name) (other.find name)
  /-- The variables have the same values. -/
  value : ∀ name, Step.Related H Eq (scope.value name) (other.value name)

/-! ## Related operations that are pending -/

/-- The same has to come next. -/
inductive Stage.Related (H : ι → τ → σ → Prop) : Stage τ → Stage σ → Prop
  | operand (held : Held) : Stage.Related H (.operand held) (.operand held)
  | opening (held : Held) {f : Callback τ} {g : Callback σ} (h : f.Related H g) :
    Stage.Related H (.opening held f) (.opening held g)
  | operator (sum : Option (Float × SumOp)) (product : Float) :
    Stage.Related H (.operator sum product) (.operator sum product)

/-- The same is held around open brackets. -/
inductive OuterRelated (H : ι → τ → σ → Prop) :
    List (Held × Callback τ) → List (Held × Callback σ) → Prop
  | nil : OuterRelated H [] []
  | cons (held : Held) {f : Callback τ} {g : Callback σ} {outer : List (Held × Callback τ)}
    {others : List (Held × Callback σ)} (h : f.Related H g) (ho : OuterRelated H outer others) :
    OuterRelated H ((held, f) :: outer) ((held, g) :: others)

theorem OuterRelated.length {outer : List (Held × Callback τ)} {others : List (Held × Callback σ)}
    (h : OuterRelated H outer others) : outer.length = others.length := by
  induction h with
  | nil => rfl
  | cons held h ho ih => exact congrArg (· + 1) ih

/-- The same operations are pending. -/
structure Pending.Related (H : ι → τ → σ → Prop) (P : Pending τ) (Q : Pending σ) : Prop where
  /-- In the innermost expression. -/
  stage : P.stage.Related H Q.stage
  /-- Around the open brackets. -/
  outer : OuterRelated H P.outer Q.outer

theorem Pending.Related.start : Pending.Related H .start .start :=
  ⟨.operand _, .nil⟩

theorem Pending.Related.total? {P : Pending τ} {Q : Pending σ} (h : P.Related H Q) :
    P.total? = Q.total? := by
  obtain ⟨stage, outer⟩ := P
  obtain ⟨stage', outer'⟩ := Q
  obtain ⟨hs, ho⟩ := h
  cases hs with
  | operator => cases ho <;> rfl
  | _ => rfl

/-- Two settings with the same limits in which names have the same meaning. -/
structure Setting.Related (H : ι → τ → σ → Prop) (env : Setting τ) (other : Setting σ) : Prop where
  /-- The limits are the same. -/
  limits : env.limits = other.limits
  /-- The names have the same meaning. -/
  names : env.names.Related H other.names

variable {env : Setting τ} {other : Setting σ}

/-- One token does the same with related operations. -/
theorem related_step (he : env.Related H other) {P : Pending τ} {Q : Pending σ}
    (h : P.Related H Q) (token : Token) :
    Step.Related H (Pending.Related H) (P.step env token) (Q.step other token) := by
  obtain ⟨stage, outer⟩ := P
  obtain ⟨stage', outer'⟩ := Q
  obtain ⟨hs, ho⟩ := h
  cases hs with
  | operand held =>
    cases token with
    | minus => exact .pure ⟨.operand _, ho⟩
    | number x => exact .pure ⟨.operator _ _, ho⟩
    | openBracket => exact .pure ⟨.operand _, .cons held (fun _ => .pure rfl) ho⟩
    | name role name =>
      cases role
      · rw [Pending.step_function, Pending.step_function, env.function_eq, other.function_eq]
        exact (he.names.find name).bind fun f g hf => .pure ⟨.opening held hf, ho⟩
      · rw [Pending.step_value, Pending.step_value, env.value_eq, other.value_eq]
        exact (he.names.value name).bind fun x y hx => by subst hx; exact .pure ⟨.operator _ _, ho⟩
    | done | plus | times | closeBracket => exact .throw _
  | opening held hf =>
    by_cases ht : token = .openBracket
    · subst ht
      exact .pure ⟨.operand _, .cons held hf ho⟩
    · simp only [Pending.step, if_neg ht]
      exact .throw _
  | operator sum product =>
    cases token with
    | plus | minus | times => exact .pure ⟨.operand _, ho⟩
    | closeBracket =>
      cases ho with
      | nil => exact .throw _
      | cons held hf ho =>
        exact (hf _).bind fun x y hx => by subst hx; exact .pure ⟨.operator _ _, ho⟩
    | done | openBracket | number | name => cases ho <;> exact .throw _

theorem related_steps (he : env.Related H other) (tokens : List Token) {P : Pending τ}
    {Q : Pending σ} (h : P.Related H Q) : Step.Related H (Pending.Related H)
      (tokens.foldlM (fun pending token => pending.step env token) P)
      (tokens.foldlM (fun pending token => pending.step other token) Q) := by
  induction tokens generalizing P Q with
  | nil => exact .pure h
  | cons token tokens ih =>
    rw [List.foldlM_cons, List.foldlM_cons]
    exact (related_step he h token).bind fun P Q h => ih h

/-- What has been read of a formula has related values. -/
theorem Grammar.Fragment.related_value (he : env.Related H other) {P : Fragment}
    {tokens : List Token} (hP : start.through? tokens = some P) :
    Step.Related H (Pending.Related H) (P.value env.names) (P.value other.names) := by
  rw [← value_of_through? hP, ← value_of_through? hP]
  exact related_steps he tokens .start

/-! ## Related runs -/

/-- Two states that differ in the data of the host alone, which are related. -/
structure State.Related (H : τ → σ → Prop) (s : State τ) (t : State σ) : Prop where
  rest : s.rest = t.rest
  token : s.token = t.token
  depth : s.depth = t.depth
  fetched : s.fetched = t.fetched
  host : H s.host t.host

theorem related_onHost {p : Step τ α} {q : Step σ β} (h : Step.Related H R p q) :
    Step.Related (fun i => State.Related (H i)) R (onHost p) (onHost q) := by
  intro i s t hst
  have hr := h i s.host t.host hst.host
  generalize hp : p s.host = x, hq : q t.host = y at hr
  cases hr with
  | ok hR hH =>
    rw [onHost, onHost, Step.onPart_of_ok hp, Step.onPart_of_ok hq]
    exact .ok hR { hst with host := hH }
  | error hH =>
    rw [onHost, onHost, Step.onPart_of_error hp, Step.onPart_of_error hq]
    exact .error { hst with host := hH }

theorem related_advance (H : ι → τ → σ → Prop) (nameSize : Nat) :
    Step.Related (fun i => State.Related (H i)) Eq (advance nameSize) (advance nameSize) := by
  intro i s t hst
  unfold advance
  rw [← hst.rest, ← hst.fetched]
  cases Token.next nameSize s.rest with
  | ok token rest => exact .ok rfl { hst with rest := rfl, token := rfl, fetched := rfl }
  | error fault rest => exact .error { hst with rest := rfl, fetched := rfl }

theorem agree_resume (he : env.Related H other) {i : ι} {P : Pending τ} {Q : Pending σ}
    (h : P.Related H Q) {s : State τ} {t : State σ} (hst : State.Related (H i) s t)
    (hs : s.depth = 0) :
    Agree (State.Related (H i)) Eq (P.resume env s) (Q.resume other t) := by
  induction hn : s.ahead using Nat.strongRecOn generalizing P Q s t with
  | ind n ih =>
    subst hn
    have hl := h.outer.length
    have ht : t.depth = 0 := hst.depth.symm.trans hs
    by_cases hle : env.limits.depth ≤ P.outer.length
    · rw [Pending.resume, if_pos hle, Pending.resume, if_pos (by rwa [← he.limits, ← hl])]
      exact .error hst
    have hlt := Nat.not_le.1 hle
    have hlt' : Q.outer.length < other.limits.depth := by rwa [← he.limits, ← hl]
    by_cases hend : s.token = .done ∧ P.total?.isSome
    · obtain ⟨hdone, hx⟩ := hend
      obtain ⟨x, hx⟩ := Option.isSome_iff_exists.1 hx
      rw [resume_total hs hlt hdone hx,
        resume_total ht hlt' (hst.token.symm.trans hdone) (h.total?.symm.trans hx)]
      exact .ok rfl hst
    have hf : s.token = .done → P.total? = none := by
      intro hdone
      simpa [hdone] using hend
    rw [resume_step hs hlt hf, resume_step ht hlt' (by rwa [← h.total?, ← hst.token]), ← hst.token]
    refine (related_onHost (related_step he h s.token) i s t hst).bind
      fun P' Q' u v hnext h' huv => ?_
    rw [he.limits]
    refine (related_advance H _ i u v huv).bind fun _ _ s' t' hs' _ hst' => ?_
    obtain ⟨host, hhost, rfl⟩ := Step.onPart_eq_ok.1 hnext
    have hlt := ahead_lt_of_advance (s := { s with host }) (ne_done_of_step hhost) hs'
    exact ih s'.ahead hlt h' hst' ((depth_of_advance hs').trans hs) rfl

/-- Two runs on related data in settings that are related agree. -/
theorem agree_run (he : env.Related H other) (text : String) {i : ι} {host : τ} {host' : σ}
    (hH : H i host host') :
    Agree (State.Related (H i)) Eq (run env text host) (run other text host') := by
  rw [run_eq_resume, run_eq_resume, he.limits]
  have hstart : State.Related (H i) (.start (bytesOf text) host) (.start (bytesOf text) host') :=
    ⟨rfl, rfl, rfl, rfl, hH⟩
  refine (related_advance H _ i _ _ hstart).bind fun _ _ s t hs _ hst => ?_
  exact agree_resume he .start hst (depth_of_advance hs)

/-- Two evaluations on related data in settings that are related agree. -/
theorem agree_evaluate (he : env.Related H other) (text : String) {i : ι} {host : τ} {host' : σ}
    (hH : H i host host') :
    Agree (H i) Eq (evaluate env.scope text env.limits host)
      (evaluate other.scope text other.limits host') := by
  have h := agree_run he text hH
  simp only [evaluate]
  generalize run env text host = p, run other text host' = q at h
  cases h with
  | ok hR hst => exact .ok hR hst.host
  | error hst => exact .error hst.host

end Formula
