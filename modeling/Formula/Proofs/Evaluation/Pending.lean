import Formula.Evaluation.Run
import Formula.Proofs.Step

/-!
# Evaluation from one token to the next

The rules of evaluation call one another, and between two tokens many of them wait for their value.
This file makes what they wait with explicit: the operators of each expression that have no right
operand yet (`Held`), one level for each open bracket with the function to be called behind it, and
what has to come next (`Pending`).

* `Pending.step` — what one token does to the pending operations, on the data of the host alone.
* `Pending.resume` — the rest of an evaluation as the rules perform it, from pending operations on.
* `resume_step` — the rules take the same steps: to resume is to take the step of the token held, to
  read the next token, and to resume from there.

So the five rules, nested in one another and each with a loop of its own, are one loop over tokens.
-/

namespace Formula

open Evaluation

/-- What the operators of one expression hold while they wait for their right operand. -/
structure Held where
  /-- The sum to the left of a sign, and the sign. -/
  sum : Option (Float × SumOp) := none
  /-- The product to the left of an operator, and the operator. -/
  product : Option (Float × ProductOp) := none
  /-- Is the term to come behind an odd number of minus signs? -/
  negative : Bool := false

/-- Applies an operator that waits, if there is one, to its right operand. -/
def settle {ω : Type} (apply : ω → Float → Float → Float) : Option (Float × ω) → Float → Float
  | none, x => x
  | some (left, op), x => apply op left x

/-- What has to come next in the innermost expression. -/
inductive Stage (σ : Type) where
  /-- A minus sign or a term. -/
  | operand (held : Held)
  /-- The opening bracket behind a function name. -/
  | opening (held : Held) (callback : Callback σ)
  /-- An operator, a closing bracket or the end, behind a product. -/
  | operator (sum : Option (Float × SumOp)) (product : Float)

/-- The operations that are pending between two tokens. -/
structure Pending (σ : Type) where
  /-- What has to come next. -/
  stage : Stage σ
  /-- What is held around each open bracket, with the function called behind it, innermost first. -/
  outer : List (Held × Callback σ)

variable {σ : Type}

/-- The stage behind a term. -/
def Held.supply (held : Held) (x : Float) : Stage σ :=
  .operator held.sum (settle ProductOp.apply held.product (if held.negative then -x else x))

namespace Pending

/-- No operation at all, at the beginning of a formula. -/
def start : Pending σ := { stage := .operand {}, outer := [] }

/-- Takes one token: the step on the host's data that it asks for, and what is pending behind it. -/
def step (env : Setting σ) (token : Token) : Pending σ → Step σ (Pending σ)
  | ⟨.operand held, outer⟩ => match token with
    | .minus => pure ⟨.operand { held with negative := !held.negative }, outer⟩
    | .number value => pure ⟨held.supply value, outer⟩
    | .openBracket => pure ⟨.operand {}, (held, pure) :: outer⟩
    | .name .function name => do
      let callback ← env.function name
      return ⟨.opening held callback, outer⟩
    | .name .variable name => do
      let value ← env.value name
      return ⟨held.supply value, outer⟩
    | _ => throw .expectedTerm
  | ⟨.opening held callback, outer⟩ =>
    if token = .openBracket then pure ⟨.operand {}, (held, callback) :: outer⟩
    else throw .expectedOpenBracket
  | ⟨.operator sum product, outer⟩ => match token.productOp?, token.sumOp?, outer with
    | some op, _, _ => pure ⟨.operand { sum, product := some (product, op) }, outer⟩
    | _, some op, _ => pure ⟨.operand { sum := some (settle SumOp.apply sum product, op) }, outer⟩
    | _, _, [] => throw .unexpectedCharacter
    | _, _, (held, callback) :: outer =>
      if token = .closeBracket then do
        let value ← callback (settle SumOp.apply sum product)
        return ⟨held.supply value, outer⟩
      else throw .expectedCloseBracket

section Step

variable {env : Setting σ} {sum : Option (Float × SumOp)} {product : Float}
  {outer : List (Held × Callback σ)}

@[simp]
theorem step_minus (held : Held) : step env .minus ⟨.operand held, outer⟩ =
    pure ⟨.operand { held with negative := !held.negative }, outer⟩ := rfl

@[simp]
theorem step_number (held : Held) (value : Float) :
    step env (.number value) ⟨.operand held, outer⟩ = pure ⟨held.supply value, outer⟩ := rfl

@[simp]
theorem step_bracket (held : Held) : step env .openBracket ⟨.operand held, outer⟩ =
    pure ⟨.operand {}, (held, pure) :: outer⟩ := rfl

@[simp]
theorem step_function (held : Held) (name : String) :
    step env (.name .function name) ⟨.operand held, outer⟩ =
      env.function name >>= fun callback => pure ⟨.opening held callback, outer⟩ := rfl

@[simp]
theorem step_value (held : Held) (name : String) :
    step env (.name .variable name) ⟨.operand held, outer⟩ =
      env.value name >>= fun value => pure ⟨held.supply value, outer⟩ := rfl

@[simp]
theorem step_call (held : Held) (callback : Callback σ) :
    step env .openBracket ⟨.opening held callback, outer⟩ =
      pure ⟨.operand {}, (held, callback) :: outer⟩ := rfl

@[simp]
theorem step_times (op : ProductOp) : step env (.times op) ⟨.operator sum product, outer⟩ =
    pure ⟨.operand { sum, product := some (product, op) }, outer⟩ := rfl

theorem step_of_sumOp? {token : Token} {op : SumOp} (h : token.sumOp? = some op) :
    step env token ⟨.operator sum product, outer⟩ =
      pure ⟨.operand { sum := some (settle SumOp.apply sum product, op) }, outer⟩ := by
  cases token <;> cases h <;> rfl

@[simp]
theorem step_close (held : Held) (callback : Callback σ) :
    step env .closeBracket ⟨.operator sum product, (held, callback) :: outer⟩ =
      callback (settle SumOp.apply sum product) >>= fun value =>
        pure ⟨held.supply value, outer⟩ := rfl

end Step

end Pending

/-! ## The rules, from pending operations on -/

variable (env : Setting σ)

/-- The rest of an expression behind a product. -/
def behindProduct (sum : Option (Float × SumOp)) (product : Float) : Evaluation σ Float :=
  productTail env product >>= fun product => sumTail env (settle SumOp.apply sum product)

/-- The rest of an expression behind a term. -/
def Held.resume (held : Held) (x : Float) : Evaluation σ Float :=
  behindProduct env held.sum
    (settle ProductOp.apply held.product (if held.negative then -x else x))

/-- The rest of the innermost expression. -/
def Stage.resume : Stage σ → Evaluation σ Float
  | .operand held => signed env held.negative >>= fun x =>
    behindProduct env held.sum (settle ProductOp.apply held.product x)
  | .opening held callback => bracketed env callback >>= held.resume env
  | .operator sum product => behindProduct env sum product

/-- Goes on behind an expression that has ended, in the expressions around it. -/
def unwind : List (Held × Callback σ) → EStateM.Result Fault (State σ) Float →
    EStateM.Result Fault (State σ) Float
  | [], .ok x s => finish x s.leave
  | [], .error fault s => .error fault s.leave
  | (held, callback) :: outer, .ok x s => unwind outer
    ((accept env .closeBracket .expectedCloseBracket (callback x) >>= held.resume env) s.leave)
  | _ :: outer, .error fault s => unwind outer (.error fault s.leave)

/-- The same state inside as many expressions as given. -/
def State.atDepth (s : State σ) (depth : Nat) : State σ :=
  { s with depth }

/-- The rest of an evaluation with the given operations pending. -/
def Pending.resume (pending : Pending σ) : Evaluation σ Float := fun s =>
  if env.limits.depth ≤ pending.outer.length then .error .stackOverflow s
  else unwind env pending.outer
    (pending.stage.resume env (s.atDepth (pending.outer.length + 1)))

/-- Takes a step on the host's data, reads the next token, and resumes with what is then pending. -/
def Pending.proceed (action : Step σ (Pending σ)) : Evaluation σ Float :=
  onHost action >>= fun pending => advance env.limits.nameSize >>= fun _ => pending.resume env

variable {env}

/-! ## Depth -/

namespace State

@[simp]
theorem leave_atDepth (s : State σ) (d : Nat) : (s.atDepth (d + 1)).leave = s.atDepth d := rfl

theorem atDepth_of_depth {s : State σ} {d : Nat} (h : s.depth = d) : s.atDepth d = s := by
  subst h
  rfl

end State

/-- Reading a token has nothing to do with the depth. -/
theorem advance_atDepth (nameSize : Nat) (s : State σ) (d : Nat) :
    advance nameSize (s.atDepth d) = match advance nameSize s with
      | .ok () t => .ok () (t.atDepth d)
      | .error fault t => .error fault (t.atDepth d) := by
  unfold advance
  cases h : Token.next nameSize s.rest <;> simp [State.atDepth, h]

theorem depth_of_advance {nameSize : Nat} {s t : State σ} (h : advance nameSize s = .ok () t) :
    t.depth = s.depth := by
  unfold advance at h
  split at h <;> cases h
  rfl

theorem depth_of_advance_error {nameSize : Nat} {s t : State σ} {fault : Fault}
    (h : advance nameSize s = .error fault t) : t.depth = s.depth := by
  unfold advance at h
  split at h <;> cases h
  rfl

/-- A failure ends all expressions that are open, and leaves each of them. -/
theorem unwind_error (outer : List (Held × Callback σ)) (fault : Fault) (s : State σ) :
    unwind env outer (.error fault (s.atDepth (outer.length + 1))) =
      .error fault (s.atDepth 0) := by
  induction outer with
  | nil => rfl
  | cons frame outer ih => exact ih

/-- To use a token inside open expressions is to take a step on the host's data, to read the next
token, and to go on from there. -/
theorem unwind_consume {α : Type} {outer : List (Held × Callback σ)} (action : Step σ α)
    {k : α → Evaluation σ Float} (next : α → Pending σ) {s : State σ} (hs : s.depth = 0)
    (hk : ∀ a t, t.depth = 0 →
      unwind env outer (k a (t.atDepth (outer.length + 1))) = (next a).resume env t) :
    unwind env outer ((consume env action >>= k) (s.atDepth (outer.length + 1))) =
      Pending.proceed env (action >>= fun a => pure (next a)) s := by
  rw [consume, bind_assoc, Pending.proceed]
  cases ha : action s.host with
  | error fault u =>
    have hl : onHost action (s.atDepth (outer.length + 1)) =
        .error fault (State.atDepth { s with host := u } (outer.length + 1)) :=
      Step.onPart_of_error ha
    have hr : onHost (action >>= fun a => pure (next a)) s = .error fault { s with host := u } :=
      Step.onPart_of_error (Step.bind_of_error ha)
    rw [Step.bind_of_error hl, Step.bind_of_error hr, unwind_error, State.atDepth_of_depth]
    exact hs
  | ok a u =>
    have hl : onHost action (s.atDepth (outer.length + 1)) =
        .ok a (State.atDepth { s with host := u } (outer.length + 1)) := Step.onPart_of_ok ha
    have hr : onHost (action >>= fun a => pure (next a)) s = .ok (next a) { s with host := u } :=
      Step.onPart_of_ok (Step.bind_of_ok ha)
    rw [Step.bind_of_ok hl, Step.bind_of_ok hr, bind_assoc]
    have hd := advance_atDepth env.limits.nameSize { s with host := u } (outer.length + 1)
    cases hv : advance env.limits.nameSize { s with host := u } with
    | error fault t =>
      rw [hv] at hd
      rw [Step.bind_of_error hd, Step.bind_of_error hv, unwind_error, State.atDepth_of_depth]
      exact (depth_of_advance_error hv).trans hs
    | ok _ t =>
      rw [hv] at hd
      rw [Step.bind_of_ok hd, Step.bind_of_ok hv, pure_bind]
      exact hk a t ((depth_of_advance hv).trans hs)

/-! ## The rules take the steps -/

theorem resume_of_lt {outer : List (Held × Callback σ)} (h : outer.length < env.limits.depth)
    (stage : Stage σ) (s : State σ) : Pending.resume env ⟨stage, outer⟩ s =
      unwind env outer (stage.resume env (s.atDepth (outer.length + 1))) :=
  if_neg (Nat.not_le.2 h)

theorem accept_of_token {α : Type} {token : Token} {fault : Fault} {action : Step σ α}
    {s : State σ} (h : s.token = token) :
    accept env token fault action s = consume env action s :=
  if_pos h

/-- A sum that begins here is what has to come next where nothing is held. -/
theorem sum_eq_resume : sum env = (Stage.operand {}).resume env := by
  rw [sum_eq, product_eq, bind_assoc]
  rfl

theorem expression_atDepth (env : Setting σ) (s : State σ) (d : Nat) :
    expression env (s.atDepth d) =
      if env.limits.depth ≤ d then .error .stackOverflow (s.atDepth d)
      else match sum env (s.atDepth (d + 1)) with
        | .ok x t => .ok x t.leave
        | .error fault t => .error fault t.leave := by
  rw [expression_eq]
  rfl

/-- An expression inside others is the operand that has to come next behind their brackets. -/
theorem unwind_expression (outer : List (Held × Callback σ)) (held : Held)
    (callback : Callback σ) {s : State σ} (hs : s.depth = 0) :
    unwind env outer ((expression env >>= fun x =>
      accept env .closeBracket .expectedCloseBracket (callback x) >>= held.resume env)
        (s.atDepth (outer.length + 1))) =
      Pending.resume env ⟨.operand {}, (held, callback) :: outer⟩ s := by
  have he := expression_atDepth env s (outer.length + 1)
  rw [Pending.resume, ← sum_eq_resume]
  by_cases hd : env.limits.depth ≤ outer.length + 1
  · rw [if_pos hd] at he
    rw [Step.bind_of_error he, unwind_error, State.atDepth_of_depth hs]
    exact (if_pos hd).symm
  · rw [if_neg hd] at he
    rw [List.length_cons, if_neg hd]
    cases hi : sum env (s.atDepth (outer.length + 1 + 1)) with
    | ok x t =>
      rw [hi] at he
      rw [Step.bind_of_ok he, unwind]
    | error fault t =>
      rw [hi] at he
      rw [Step.bind_of_error he, unwind]

/-- A formula is the operand that has to come next where nothing is pending. -/
theorem expression_finish {s : State σ} (hs : s.depth = 0) :
    (expression env >>= finish) s = Pending.start.resume env s := by
  have he := expression_atDepth env s 0
  rw [State.atDepth_of_depth hs] at he
  rw [Pending.resume, Pending.start, ← sum_eq_resume]
  by_cases hd : env.limits.depth ≤ 0
  · rw [if_pos hd] at he
    rw [Step.bind_of_error he]
    exact (if_pos hd).symm
  · rw [if_neg hd] at he
    rw [List.length_nil, if_neg hd]
    cases hi : sum env (s.atDepth (0 + 1)) with
    | ok x t =>
      rw [hi] at he
      rw [Step.bind_of_ok he, unwind]
    | error fault t =>
      rw [hi] at he
      rw [Step.bind_of_error he, unwind]

theorem proceed_of_ok {action : Step σ (Pending σ)} {s : State σ} {next : Pending σ} {u : σ}
    (h : action s.host = .ok next u) : Pending.proceed env action s =
      (advance env.limits.nameSize >>= fun _ => next.resume env) { s with host := u } :=
  Step.bind_of_ok (Step.onPart_of_ok h)

theorem proceed_of_error {action : Step σ (Pending σ)} {s : State σ} {fault : Fault} {u : σ}
    (h : action s.host = .error fault u) :
    Pending.proceed env action s = .error fault { s with host := u } :=
  Step.bind_of_error (Step.onPart_of_error h)

theorem proceed_throw (fault : Fault) (s : State σ) :
    Pending.proceed env (throw fault) s = .error fault s :=
  proceed_of_error rfl

theorem unwind_bracketed {outer : List (Held × Callback σ)} {held : Held}
    {callback : Callback σ} {s : State σ} (hs : s.depth = 0) (ht : s.token = .openBracket) :
    unwind env outer ((bracketed env callback >>= held.resume env)
      (s.atDepth (outer.length + 1))) =
      Pending.proceed env (pure ⟨.operand {}, (held, callback) :: outer⟩) s := by
  have ha : (accept env .openBracket .expectedOpenBracket (pure ()))
      (s.atDepth (outer.length + 1)) = consume env (pure ()) (s.atDepth (outer.length + 1)) :=
    accept_of_token ht
  rw [bracketed_eq, bind_assoc, Step.bind_congr_at ha]
  simp only [bind_assoc]
  refine unwind_consume (pure ()) (fun _ => ⟨.operand {}, (held, callback) :: outer⟩) hs ?_
  intro _ t h
  exact unwind_expression outer held callback h

/-- Behind a term the rules go on with its value. -/
theorem unwind_supply {outer : List (Held × Callback σ)} {held : Held} {action : Step σ Float}
    {s : State σ} (hs : s.depth = 0) (hd : outer.length < env.limits.depth) :
    unwind env outer ((consume env action >>= held.resume env)
      (s.atDepth (outer.length + 1))) =
      Pending.proceed env (action >>= fun x => pure ⟨held.supply x, outer⟩) s := by
  refine unwind_consume _ _ hs ?_
  intro x t _
  rw [resume_of_lt hd]
  rfl

/-- A term takes one step with its first token. -/
theorem unwind_term {held : Held} {outer : List (Held × Callback σ)} {s : State σ}
    (hs : s.depth = 0) (hd : outer.length < env.limits.depth) (hm : s.token ≠ .minus) :
    unwind env outer ((term env >>= held.resume env) (s.atDepth (outer.length + 1))) =
      Pending.proceed env (Pending.step env s.token ⟨.operand held, outer⟩) s := by
  -- the rule goes on as the step does, or they fail alike
  have goes {p : Evaluation σ Float}
      (h : term env (s.atDepth (outer.length + 1)) = p (s.atDepth (outer.length + 1))) :=
    Step.bind_congr_at h (held.resume env)
  have fails {fault : Fault} (h : term env (s.atDepth (outer.length + 1)) =
      .error fault (s.atDepth (outer.length + 1))) :
      unwind env outer ((term env >>= held.resume env) (s.atDepth (outer.length + 1))) =
        Pending.proceed env (throw fault) s := by
    rw [Step.bind_of_error h, unwind_error, State.atDepth_of_depth hs, proceed_throw]
  have ht := congrFun (term_eq env) (s.atDepth (outer.length + 1))
  simp only [show (s.atDepth (outer.length + 1)).token = s.token from rfl] at ht
  cases htoken : s.token with
  | number value =>
    simp only [htoken] at ht
    rw [goes ht]
    exact unwind_supply hs hd
  | openBracket =>
    simp only [htoken] at ht
    rw [goes ht]
    exact unwind_bracketed hs htoken
  | name role name =>
    cases role
    · simp only [htoken] at ht
      rw [goes ht, bind_assoc]
      refine unwind_consume _ _ hs ?_
      intro callback t _
      rw [resume_of_lt hd]
      rfl
    · simp only [htoken] at ht
      rw [goes ht]
      exact unwind_supply hs hd
  | minus => exact absurd htoken hm
  | _ =>
    simp only [htoken] at ht
    exact fails ht

theorem resume_operand {held : Held} {outer : List (Held × Callback σ)} {s : State σ}
    (hs : s.depth = 0) (hd : outer.length < env.limits.depth) :
    Pending.resume env ⟨.operand held, outer⟩ s =
      Pending.proceed env (Pending.step env s.token ⟨.operand held, outer⟩) s := by
  rw [resume_of_lt hd, Stage.resume]
  by_cases hm : s.token = .minus
  · rw [Step.bind_congr_at (signed_of_minus env (s.atDepth (outer.length + 1)) hm), bind_assoc, hm]
    refine unwind_consume (pure ())
      (fun _ => ⟨.operand { held with negative := !held.negative }, outer⟩) hs ?_
    intro _ t _
    rw [resume_of_lt hd]
    rfl
  · rw [Step.bind_congr_at (signed_of_ne env (s.atDepth (outer.length + 1)) hm), bind_assoc]
    simp only [pure_bind]
    exact unwind_term hs hd hm

theorem resume_opening {held : Held} {callback : Callback σ} {outer : List (Held × Callback σ)}
    {s : State σ} (hs : s.depth = 0) (hd : outer.length < env.limits.depth) :
    Pending.resume env ⟨.opening held callback, outer⟩ s =
      Pending.proceed env (Pending.step env s.token ⟨.opening held callback, outer⟩) s := by
  rw [resume_of_lt hd, Stage.resume, Pending.step]
  by_cases ht : s.token = .openBracket
  · rw [if_pos ht]
    exact unwind_bracketed hs ht
  · have hb : bracketed env callback (s.atDepth (outer.length + 1)) =
        .error .expectedOpenBracket (s.atDepth (outer.length + 1)) := by
      rw [bracketed_eq]
      exact Step.bind_of_error (if_neg ht)
    rw [if_neg ht, Step.bind_of_error hb, unwind_error, State.atDepth_of_depth hs, proceed_throw]

/-- A product ends where no operator follows it, and so does the sum that it ends. -/
theorem behindProduct_of_none {sum : Option (Float × SumOp)} {product : Float} {s : State σ}
    (hp : s.token.productOp? = none) (hs : s.token.sumOp? = none) :
    behindProduct env sum product s = .ok (settle SumOp.apply sum product) s := by
  rw [behindProduct, Step.bind_of_ok (productTail_of_none env s hp), sumTail_of_none env s hs]

theorem resume_operator {sum : Option (Float × SumOp)} {product : Float}
    {outer : List (Held × Callback σ)} {s : State σ} (hs : s.depth = 0)
    (hd : outer.length < env.limits.depth) (hf : outer = [] → s.token ≠ .done) :
    Pending.resume env ⟨.operator sum product, outer⟩ s =
      Pending.proceed env (Pending.step env s.token ⟨.operator sum product, outer⟩) s := by
  rw [resume_of_lt hd, Stage.resume, behindProduct]
  cases hp : s.token.productOp? with
  | some op =>
    simp only [Pending.step, hp]
    rw [Step.bind_congr_at (productTail_of_some env (s.atDepth (outer.length + 1)) hp)]
    simp only [bind_assoc]
    refine unwind_consume (pure ())
      (fun _ => ⟨.operand { sum, product := some (product, op) }, outer⟩) hs ?_
    intro _ t _
    rw [resume_of_lt hd]
    rfl
  | none =>
    rw [Step.bind_of_ok (productTail_of_none env (s.atDepth (outer.length + 1)) hp)]
    cases hsum : s.token.sumOp? with
    | some op =>
      simp only [Pending.step, hp, hsum]
      rw [sumTail_of_some env (s.atDepth (outer.length + 1)) hsum, product_eq]
      simp only [bind_assoc]
      refine unwind_consume (pure ()) (fun _ =>
        ⟨.operand { sum := some (settle SumOp.apply sum product, op) }, outer⟩) hs ?_
      intro _ t _
      rw [resume_of_lt hd]
      rfl
    | none =>
      rw [sumTail_of_none env (s.atDepth (outer.length + 1)) hsum]
      cases outer with
      | nil =>
        simp only [Pending.step, hp, hsum]
        rw [proceed_throw, unwind, List.length_nil, State.leave_atDepth,
          State.atDepth_of_depth hs, finish, if_neg (hf rfl)]
      | cons frame outer =>
        obtain ⟨held, callback⟩ := frame
        simp only [Pending.step, hp, hsum]
        rw [unwind, List.length_cons, State.leave_atDepth]
        by_cases hb : s.token = .closeBracket
        · have ha : accept env .closeBracket .expectedCloseBracket
              (callback (settle SumOp.apply sum product)) (s.atDepth (outer.length + 1)) =
              consume env (callback (settle SumOp.apply sum product))
                (s.atDepth (outer.length + 1)) := accept_of_token hb
          rw [if_pos hb, Step.bind_congr_at ha]
          exact unwind_supply hs (Nat.lt_of_succ_lt hd)
        · have ha : accept env .closeBracket .expectedCloseBracket
              (callback (settle SumOp.apply sum product)) (s.atDepth (outer.length + 1)) =
              .error .expectedCloseBracket (s.atDepth (outer.length + 1)) := if_neg hb
          rw [if_neg hb, Step.bind_of_error ha, unwind_error, State.atDepth_of_depth hs,
            proceed_throw]

/-- Has a formula come to its end if the end of the text is next? -/
def Pending.total? : Pending σ → Option Float
  | ⟨.operator sum product, []⟩ => some (settle SumOp.apply sum product)
  | _ => none

/-- No step can be taken with the end of the text. -/
theorem ne_done_of_step {pending next : Pending σ} {token : Token} {s u : σ}
    (h : pending.step env token s = .ok next u) : token ≠ .done := by
  rintro rfl
  obtain ⟨stage, outer⟩ := pending
  cases stage with
  | operand held => cases h
  | opening held callback => cases h
  | operator sum product => cases outer <;> cases h

/-- **The rules take one step per token.**  To resume is to take the step of the token held, to
read the next token and to resume with what is then pending, except at the end of the text behind a
whole formula. -/
theorem resume_step {pending : Pending σ} {s : State σ} (hs : s.depth = 0)
    (hd : pending.outer.length < env.limits.depth)
    (hf : s.token = .done → pending.total? = none) :
    pending.resume env s = Pending.proceed env (pending.step env s.token) s := by
  obtain ⟨stage, outer⟩ := pending
  cases stage with
  | operand held => exact resume_operand hs hd
  | opening held callback => exact resume_opening hs hd
  | operator sum product =>
    refine resume_operator hs hd ?_
    rintro rfl ht
    simp [Pending.total?] at hf
    exact hf ht

theorem resume_total {pending : Pending σ} {s : State σ} {x : Float} (hs : s.depth = 0)
    (hd : pending.outer.length < env.limits.depth) (ht : s.token = .done)
    (hx : pending.total? = some x) : pending.resume env s = .ok x s := by
  match pending, hd, hx with
  | ⟨.operator sum product, []⟩, hd, rfl =>
    have hp : s.token.productOp? = none := by rw [ht]; rfl
    have hsum : s.token.sumOp? = none := by rw [ht]; rfl
    rw [resume_of_lt hd, Stage.resume,
      behindProduct_of_none (s := s.atDepth ([].length + 1)) hp hsum, unwind, List.length_nil,
      State.leave_atDepth, State.atDepth_of_depth hs, finish, if_pos ht]

end Formula
