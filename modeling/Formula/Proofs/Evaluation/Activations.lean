import Formula.Proofs.Evaluation.Pending

/-!
# Rules in progress

At every moment of an evaluation one rule is at work, and others wait for the value of a rule that
they have called.  This file makes them explicit, so that one can speak of an evaluation while it is
under way, and not of its result alone.

* `Rule` — the rules with what they are given, and `Activation` — a rule that waits, with what it
  holds.
* `Moment` — what is done next, for whom, and in which state; `Moment.next?` — the moment after it.
* `Passage` — all that can happen between a moment and the next one.  The moments still to come
  become fewer with each of them (`Moment.effort`).
* `leads_call` — a call leads to what the rule gives: these are the moments that the rules go
  through.
-/

namespace Formula

open Evaluation

variable {σ : Type}

/-- The rules of evaluation.  What is left of a sum or of a product behind a value is a rule of its
own: the loop of the rule before it. -/
inductive Rule (σ : Type) where
  | expression
  | sum
  | sumTail (value : Float)
  | product
  | productTail (value : Float)
  | signed (negative : Bool)
  | term
  | bracketed (callback : Callback σ)

/-- Evaluates by a rule. -/
def Rule.run (env : Setting σ) : Rule σ → Evaluation σ Float
  | expression => Evaluation.expression env
  | sum => Evaluation.sum env
  | sumTail value => Evaluation.sumTail env value
  | product => Evaluation.product env
  | productTail value => Evaluation.productTail env value
  | signed negative => Evaluation.signed env negative
  | term => Evaluation.term env
  | bracketed callback => Evaluation.bracketed env callback

/-- A rule in progress that waits for the value of a rule that it has called. -/
inductive Activation (σ : Type) where
  /-- An expression, not nested too deep, waits for its sum. -/
  | expression
  /-- A sum waits for its first product. -/
  | sum
  /-- A sum that has come to a value waits for the product behind an operator. -/
  | sumTail (value : Float) (op : SumOp)
  /-- A product waits for its first factor. -/
  | product
  /-- A product that has come to a value waits for the factor behind an operator. -/
  | productTail (value : Float) (op : ProductOp)
  /-- Minus signs wait for their term. -/
  | signed (negative : Bool)
  /-- A bracket waits for the expression in it. -/
  | bracketed (callback : Callback σ)

/-- How it goes on behind a token. -/
inductive Onward (σ : Type) where
  /-- Behind an operator of a sum that has come to a value. -/
  | sumTail (value : Float) (op : SumOp)
  /-- Behind an operator of a product that has come to a value. -/
  | productTail (value : Float) (op : ProductOp)
  /-- Behind a minus sign. -/
  | signed (negative : Bool)
  /-- Behind the name of a function. -/
  | bracketed (callback : Callback σ)
  /-- Behind an opening bracket. -/
  | inside (callback : Callback σ)
  /-- Behind a term with its value. -/
  | value (x : Float)

/-- What is done next. -/
inductive Doing (σ : Type) where
  /-- A rule is called. -/
  | call (rule : Rule σ)
  /-- The token held is used: a question, if it asks one, and then the reading of the next token. -/
  | use (action : Step σ (Onward σ))
  /-- A rule gives its result to the one that waits for it. -/
  | give (result : Except Fault Float)

/-- A moment of an evaluation. -/
structure Moment (σ : Type) where
  /-- What is done next. -/
  doing : Doing σ
  /-- The rules that wait, each for the one before it. -/
  waiting : List (Activation σ)
  /-- How far the evaluation has come. -/
  state : State σ

/-- What happens first when a rule is called. -/
def Rule.begin (env : Setting σ) (waiting : List (Activation σ)) (s : State σ) : Rule σ → Moment σ
  | expression =>
    if env.limits.depth ≤ s.depth then ⟨.give (.error .stackOverflow), waiting, s⟩
    else ⟨.call sum, .expression :: waiting, s.enter⟩
  | sum => ⟨.call product, .sum :: waiting, s⟩
  | sumTail value => match s.token.sumOp? with
    | none => ⟨.give (.ok value), waiting, s⟩
    | some op => ⟨.use (pure (.sumTail value op)), waiting, s⟩
  | product => ⟨.call (signed false), .product :: waiting, s⟩
  | productTail value => match s.token.productOp? with
    | none => ⟨.give (.ok value), waiting, s⟩
    | some op => ⟨.use (pure (.productTail value op)), waiting, s⟩
  | signed negative =>
    if s.token = .minus then ⟨.use (pure (.signed (!negative))), waiting, s⟩
    else ⟨.call term, .signed negative :: waiting, s⟩
  | term => match s.token with
    | .number value => ⟨.use (pure (.value value)), waiting, s⟩
    | .openBracket => ⟨.call (bracketed pure), waiting, s⟩
    | .name .function name =>
      ⟨.use (env.function name >>= fun callback => pure (.bracketed callback)), waiting, s⟩
    | .name .variable name =>
      ⟨.use (env.value name >>= fun value => pure (.value value)), waiting, s⟩
    | _ => ⟨.give (.error .expectedTerm), waiting, s⟩
  | bracketed callback =>
    if s.token = .openBracket then ⟨.use (pure (.inside callback)), waiting, s⟩
    else ⟨.give (.error .expectedOpenBracket), waiting, s⟩

/-- What happens when a rule gets the value that it waits for.  Nothing is done with a fault but to
pass it on, and the level of an expression ends in either case. -/
def Activation.receive (waiting : List (Activation σ)) (s : State σ) :
    Activation σ → Except Fault Float → Moment σ
  | expression, result => ⟨.give result, waiting, s.leave⟩
  | _, .error fault => ⟨.give (.error fault), waiting, s⟩
  | sum, .ok x => ⟨.call (.sumTail x), waiting, s⟩
  | sumTail value op, .ok x => ⟨.call (.sumTail (op.apply value x)), waiting, s⟩
  | product, .ok x => ⟨.call (.productTail x), waiting, s⟩
  | productTail value op, .ok x => ⟨.call (.productTail (op.apply value x)), waiting, s⟩
  | signed negative, .ok x => ⟨.give (.ok (if negative then -x else x)), waiting, s⟩
  | bracketed callback, .ok x =>
    if s.token = .closeBracket then ⟨.use (callback x >>= fun y => pure (.value y)), waiting, s⟩
    else ⟨.give (.error .expectedCloseBracket), waiting, s⟩

/-- What happens behind a token. -/
def Onward.go (waiting : List (Activation σ)) (s : State σ) : Onward σ → Moment σ
  | sumTail x op => ⟨.call .product, .sumTail x op :: waiting, s⟩
  | productTail x op => ⟨.call (.signed false), .productTail x op :: waiting, s⟩
  | signed negative => ⟨.call (.signed negative), waiting, s⟩
  | bracketed callback => ⟨.call (.bracketed callback), waiting, s⟩
  | inside callback => ⟨.call .expression, .bracketed callback :: waiting, s⟩
  | value x => ⟨.give (.ok x), waiting, s⟩

namespace Moment

/-- The moment at which a rule has given its result. -/
def given (waiting : List (Activation σ)) : EStateM.Result Fault (State σ) Float → Moment σ
  | .ok x s => ⟨.give (.ok x), waiting, s⟩
  | .error fault s => ⟨.give (.error fault), waiting, s⟩

/-- A rule that has given its result has left its state, and those that wait for it wait still. -/
theorem state_given (waiting : List (Activation σ)) (p : Evaluation σ Float) (s : State σ) :
    (given waiting (p s)).state = (Step.outcome p s).2 := by
  unfold Step.outcome
  cases p s <;> rfl

theorem waiting_given (waiting : List (Activation σ))
    (r : EStateM.Result Fault (State σ) Float) : (given waiting r).waiting = waiting := by
  cases r <;> rfl

/-- The next moment, unless the last result has been given. -/
def next? (env : Setting σ) : Moment σ → Option (Moment σ)
  | ⟨.call rule, waiting, s⟩ => some (rule.begin env waiting s)
  | ⟨.use action, waiting, s⟩ => some <| match consume env action s with
    | .ok onward t => onward.go waiting t
    | .error fault t => ⟨.give (.error fault), waiting, t⟩
  | ⟨.give _, [], _⟩ => none
  | ⟨.give result, activation :: waiting, s⟩ => some (activation.receive waiting s result)

end Moment

/-- One moment comes after some others, or none, behind another one. -/
inductive Leads (env : Setting σ) : Moment σ → Moment σ → Prop
  | refl (m : Moment σ) : Leads env m m
  | next {m m' m'' : Moment σ} (h : m.next? env = some m') (ht : Leads env m' m'') : Leads env m m''

variable {env : Setting σ}

theorem Leads.trans {m m' m'' : Moment σ} (h : Leads env m m') (h' : Leads env m' m'') :
    Leads env m m'' := by
  induction h with
  | refl => exact h'
  | next hn _ ih => exact .next hn (ih h')

/-! ## What changes from one moment to the next -/

theorem State.ahead_of_ne_done {s : State σ} (h : s.token ≠ .done) :
    s.ahead = s.rest.length + 1 := by
  rw [ahead, Nat.add_comm]
  cases ht : s.token with
  | done => exact absurd ht h
  | _ => rfl

/-- The levels of nesting that end with a rule in progress. -/
def Activation.level : Activation σ → Nat
  | expression => 1
  | _ => 0

/-- How many expressions are in progress. -/
def levels : List (Activation σ) → Nat
  | [] => 0
  | activation :: waiting => activation.level + levels waiting

@[simp]
theorem levels_cons (activation : Activation σ) (waiting : List (Activation σ)) :
    levels (activation :: waiting) = activation.level + levels waiting := rfl

/-- The moments that a rule can take from its call on until it uses a token, with those that it and
the rules that it calls can take behind the values that they wait for. -/
def Rule.effort : Rule σ → Nat
  | expression => 12
  | sum => 10
  | product => 7
  | signed _ => 4
  | term => 2
  | bracketed _ | sumTail _ | productTail _ => 1

/-- The moments that a rule can take from the value that it waits for on until it uses a token. -/
def Activation.effort : Activation σ → Nat
  | sum | sumTail .. | product | productTail .. => 2
  | expression | signed _ | bracketed _ => 1

/-- The moments that all rules that wait can take, but for the tokens that they use. -/
def effortBehind : List (Activation σ) → Nat
  | [] => 0
  | activation :: waiting => activation.effort + effortBehind waiting

@[simp]
theorem effortBehind_cons (activation : Activation σ) (waiting : List (Activation σ)) :
    effortBehind (activation :: waiting) = activation.effort + effortBehind waiting := rfl

/-- The moments still to come because of what is done next.  Every byte of the text that is ahead
stands for as many as can pass between two uses of tokens. -/
def Doing.effort (s : State σ) : Doing σ → Nat
  | call rule => 14 * s.ahead + rule.effort
  | use _ => 14 * s.rest.length + 14
  | give (.ok _) => 14 * s.ahead
  | give (.error _) => 0

theorem Rule.effort_pos (rule : Rule σ) : 0 < rule.effort := by
  cases rule <;> simp [effort]

theorem Activation.effort_pos (activation : Activation σ) : 0 < activation.effort := by
  cases activation <;> simp [effort]

theorem Doing.effort_give_le (s : State σ) (result : Except Fault Float) :
    (give result : Doing σ).effort s ≤ 14 * s.ahead := by
  cases result with
  | ok x => exact Nat.le_refl _
  | error fault => exact Nat.zero_le _

/-- A token other than the end stands for the moments from its use to the next one. -/
theorem Doing.effort_use {s : State σ} (h : s.token ≠ .done) (action : Step σ (Onward σ)) :
    (use action).effort s = 14 * s.ahead := by
  rw [effort, State.ahead_of_ne_done h]
  omega

namespace Moment

/-- An upper bound of the moments still to come. -/
def effort (m : Moment σ) : Nat :=
  m.doing.effort m.state + effortBehind m.waiting

/-- The token held is about to be used. -/
def Uses (m : Moment σ) : Prop :=
  ∃ action, m.doing = .use action

/-- A fault is on its way out. -/
def Fails (m : Moment σ) : Prop :=
  ∃ fault, m.doing = .give (.error fault)

end Moment

/-- All that can happen between a moment and the next one. -/
inductive Passage (env : Setting σ) : Moment σ → Moment σ → Prop
  /-- An expression begins, below the limit. -/
  | enter {waiting : List (Activation σ)} {s : State σ} (h : s.depth < env.limits.depth) :
    Passage env ⟨.call .expression, waiting, s⟩ ⟨.call .sum, .expression :: waiting, s.enter⟩
  /-- An expression ends, with a value or a fault. -/
  | leave {result : Except Fault Float} {waiting : List (Activation σ)} {s : State σ} :
    Passage env ⟨.give result, .expression :: waiting, s⟩ ⟨.give result, waiting, s.leave⟩
  /-- A token is used, and there is a next one. -/
  | used {action : Step σ (Onward σ)} {onward : Onward σ} {waiting : List (Activation σ)}
    {s t : State σ} (h : consume env action s = .ok onward t) :
    Passage env ⟨.use action, waiting, s⟩ (onward.go waiting t)
  /-- The question that a token asks, or the reading of the next token, fails. -/
  | refused {action : Step σ (Onward σ)} {fault : Fault} {waiting : List (Activation σ)}
    {s t : State σ} (h : consume env action s = .error fault t) :
    Passage env ⟨.use action, waiting, s⟩ ⟨.give (.error fault), waiting, t⟩
  /-- A rule goes on, or calls another one, or ends, in the state that it is in. -/
  | still {m m' : Moment σ} (hm : ¬ m.Uses) (hs : m'.state = m.state)
    (hl : levels m'.waiting = levels m.waiting) (hu : m'.Uses → m.state.token ≠ .done)
    (hf : m.Fails → m'.Fails) (he : m'.effort < m.effort) : Passage env m m'

section

variable {waiting : List (Activation σ)} {s : State σ}

/-- A rule that is called calls another one or gives its result, or it has a token to use. -/
theorem passage_begin (rule : Rule σ) :
    Passage env ⟨.call rule, waiting, s⟩ (rule.begin env waiting s) := by
  have calls {rule rule' : Rule σ} {activation : Activation σ} (hl : activation.level = 0)
      (he : rule'.effort + activation.effort < rule.effort) :
      Passage env ⟨.call rule, waiting, s⟩ ⟨.call rule', activation :: waiting, s⟩ := by
    refine .still nofun rfl (by simp [hl]) nofun nofun ?_
    simp only [Moment.effort, Doing.effort, effortBehind_cons]
    omega
  have gives {rule : Rule σ} (result : Except Fault Float) :
      Passage env ⟨.call rule, waiting, s⟩ ⟨.give result, waiting, s⟩ := by
    refine .still nofun rfl rfl nofun nofun (Nat.add_lt_add_right ?_ _)
    exact Nat.lt_of_le_of_lt (Doing.effort_give_le s result)
      (Nat.lt_add_of_pos_right rule.effort_pos)
  have uses {rule : Rule σ} (action : Step σ (Onward σ)) (ht : s.token ≠ .done) :
      Passage env ⟨.call rule, waiting, s⟩ ⟨.use action, waiting, s⟩ := by
    refine .still nofun rfl rfl (fun _ => ht) nofun (Nat.add_lt_add_right ?_ _)
    exact Doing.effort_use ht action ▸ Nat.lt_add_of_pos_right rule.effort_pos
  cases rule with
  | expression =>
    rw [Rule.begin]
    split
    · exact gives _
    · next h => exact .enter (Nat.not_le.1 h)
  | sum => exact calls rfl (by simp [Rule.effort, Activation.effort])
  | sumTail value =>
    rw [Rule.begin]
    split
    · exact gives _
    · next op ho => exact uses _ (Token.ne_done_of_sumOp? ho)
  | product => exact calls rfl (by simp [Rule.effort, Activation.effort])
  | productTail value =>
    rw [Rule.begin]
    split
    · exact gives _
    · next op ho => exact uses _ (Token.ne_done_of_productOp? ho)
  | signed negative =>
    rw [Rule.begin]
    split
    · next hm => exact uses _ (by simp [hm])
    · exact calls rfl (by simp [Rule.effort, Activation.effort])
  | term =>
    rw [Rule.begin]
    split
    · next ht => exact uses _ (by simp [ht])
    · exact .still nofun rfl rfl nofun nofun (by simp [Moment.effort, Doing.effort, Rule.effort])
    · next ht => exact uses _ (by simp [ht])
    · next ht => exact uses _ (by simp [ht])
    · exact gives _
  | bracketed callback =>
    rw [Rule.begin]
    split
    · next ho => exact uses _ (by simp [ho])
    · exact gives _

/-- A rule that gets a value goes on with it, and one that gets a fault hands it on. -/
theorem passage_receive (activation : Activation σ) (result : Except Fault Float) :
    Passage env ⟨.give result, activation :: waiting, s⟩
      (activation.receive waiting s result) := by
  have hands {activation : Activation σ} (fault : Fault) (hl : activation.level = 0) :
      Passage env ⟨.give (.error fault), activation :: waiting, s⟩
        ⟨.give (.error fault), waiting, s⟩ := by
    refine .still nofun rfl (by simp [hl]) nofun (fun _ => ⟨fault, rfl⟩) ?_
    have := activation.effort_pos
    simp only [Moment.effort, effortBehind_cons]
    omega
  have goes {x : Float} {activation : Activation σ} {doing : Doing σ} (hl : activation.level = 0)
      (hu : (∃ action, doing = .use action) → s.token ≠ .done)
      (he : doing.effort s < (Doing.give (.ok x) : Doing σ).effort s + activation.effort) :
      Passage env ⟨.give (.ok x), activation :: waiting, s⟩ ⟨doing, waiting, s⟩ := by
    refine .still nofun rfl (by simp [hl]) hu nofun ?_
    simp only [Moment.effort, effortBehind_cons]
    omega
  cases activation with
  | expression => exact .leave
  | bracketed callback =>
    cases result with
    | error fault => exact hands fault rfl
    | ok x =>
      rw [Activation.receive]
      split
      · next hc =>
        have ht : s.token ≠ .done := by simp [hc]
        exact goes rfl (fun _ => ht) (Doing.effort_use ht _ ▸ Nat.lt_succ_self _)
      · exact goes rfl nofun (Nat.succ_pos _)
  | _ =>
    cases result with
    | error fault => exact hands fault rfl
    | ok x => exact goes rfl nofun (by simp [Doing.effort, Rule.effort, Activation.effort])

/-- **What one moment changes.** -/
theorem passage_of_next {m m' : Moment σ} (h : m.next? env = some m') : Passage env m m' := by
  obtain ⟨doing, waiting, s⟩ := m
  cases doing with
  | call rule =>
    obtain rfl := Option.some.inj h
    exact passage_begin rule
  | use action =>
    obtain rfl := Option.some.inj h
    split
    · next hc => exact .used hc
    · next hc => exact .refused hc
  | give result =>
    cases waiting with
    | nil => cases h
    | cons activation waiting =>
      obtain rfl := Option.some.inj h
      exact passage_receive activation result

end

/-! ## The moments that the rules go through -/

section

variable {waiting : List (Activation σ)} {s : State σ}

theorem onHost_of_ok {α : Type} {action : Step σ α} {a : α} {u : σ}
    (h : action s.host = .ok a u) : onHost action s = .ok a { s with host := u } :=
  Step.onPart_of_ok h

theorem onHost_of_error {α : Type} {action : Step σ α} {fault : Fault} {u : σ}
    (h : action s.host = .error fault u) :
    onHost action s = .error fault { s with host := u } :=
  Step.onPart_of_error h

/-- A step on the host's data that goes on in one way or another is used like the step itself. -/
theorem consume_bind_pure {α β : Type} (action : Step σ α) (f : α → β) (s : State σ) :
    consume env (action >>= fun a => pure (f a)) s =
      (consume env action >>= fun a => pure (f a)) s := by
  have hhost : onHost (action >>= fun a => pure (f a)) s =
      (onHost action >>= fun a => pure (f a)) s := by
    cases ha : action s.host with
    | ok a u =>
      rw [Step.bind_of_ok (onHost_of_ok ha)]
      exact onHost_of_ok (Step.bind_of_ok ha)
    | error fault u =>
      rw [Step.bind_of_error (onHost_of_error ha)]
      exact onHost_of_error (Step.bind_of_error ha)
  rw [consume, Step.bind_congr_at hhost, consume]
  simp only [bind_assoc, pure_bind]

/-- Behind a token it goes on as the rule does behind it. -/
theorem leads_use {α : Type} (action : Step σ α) (onward : α → Onward σ)
    {f : α → Evaluation σ Float}
    (h : ∀ a t, consume env action s = .ok a t →
      Leads env ((onward a).go waiting t) (.given waiting (f a t))) :
    Leads env ⟨.use (action >>= fun a => pure (onward a)), waiting, s⟩
      (.given waiting ((consume env action >>= f) s)) := by
  refine .next rfl ?_
  rw [consume_bind_pure]
  cases hc : consume env action s with
  | ok a t =>
    rw [Step.bind_of_ok hc, Step.bind_of_ok hc]
    exact h a t hc
  | error fault t =>
    rw [Step.bind_of_error hc, Step.bind_of_error hc]
    exact .refl _

/-- A step that gives the value is used for the value. -/
theorem leads_use_value (action : Step σ Float) :
    Leads env ⟨.use (action >>= fun x => pure (.value x)), waiting, s⟩
      (.given waiting (consume env action s)) := by
  have h : Leads env ⟨.use (action >>= fun x => pure (.value x)), waiting, s⟩
      (.given waiting ((consume env action >>= pure) s)) :=
    leads_use action .value fun _ _ _ => .refl _
  rwa [bind_pure] at h

/-- A call leads to what its rule gives. -/
def Rule.Runs (env : Setting σ) (rule : Rule σ) (waiting : List (Activation σ)) (s : State σ) :
    Prop :=
  Leads env ⟨.call rule, waiting, s⟩ (.given waiting (rule.run env s))

/-- One that waits goes on with a value as its rule does, and hands on a fault. -/
theorem Rule.Runs.through {rule : Rule σ} {activation : Activation σ}
    {f : Float → Evaluation σ Float} (h : rule.Runs env (activation :: waiting) s)
    (herror : ∀ fault t, activation.receive waiting t (.error fault) =
      ⟨.give (.error fault), waiting, t⟩)
    (hok : ∀ x t, rule.run env s = .ok x t →
      Leads env (activation.receive waiting t (.ok x)) (.given waiting (f x t))) :
    Leads env ⟨.call rule, activation :: waiting, s⟩
      (.given waiting ((rule.run env >>= f) s)) := by
  refine h.trans ?_
  cases hr : rule.run env s with
  | ok x t =>
    rw [Step.bind_of_ok hr]
    exact .next rfl (hok x t hr)
  | error fault t =>
    rw [Step.bind_of_error hr]
    exact .next rfl (herror fault t ▸ .refl _)

/-- All calls that take less effort than this one lead to what their rules give. -/
def RunsBelow (env : Setting σ) (rule : Rule σ) (s : State σ) : Prop :=
  ∀ rule' waiting t, (Doing.call rule').effort t < (Doing.call rule).effort s →
    rule'.Runs env waiting t

/-- A call behind some of the text takes less effort than one before it. -/
theorem Doing.effort_call_lt {rule rule' : Rule σ} {t : State σ} (h : t.ahead < s.ahead) :
    (call rule).effort t < (call rule').effort s := by
  have hr : rule.effort ≤ 12 := by cases rule <;> simp [Rule.effort]
  simp only [effort]
  omega

/-- So all rules can be called behind some of the text. -/
theorem RunsBelow.ahead {rule rule' : Rule σ} {t : State σ}
    (ih : RunsBelow env rule s) (h : t.ahead < s.ahead)
    (waiting : List (Activation σ)) : rule'.Runs env waiting t :=
  ih rule' waiting t (Doing.effort_call_lt h)

theorem runs_expression (ih : RunsBelow env .expression s) :
    Rule.expression.Runs env waiting s := by
  refine .next rfl ?_
  rw [Rule.run, expression_eq, Rule.begin, nested]
  split
  · exact .refl _
  · refine (ih .sum (.expression :: waiting) s.enter (by simp [Doing.effort, Rule.effort])).trans ?_
    rw [Rule.run]
    cases sum env s.enter <;> exact .next rfl (.refl _)

theorem runs_sum (ih : RunsBelow env .sum s) : Rule.sum.Runs env waiting s := by
  refine .next rfl ?_
  rw [Rule.run, sum_eq]
  refine (ih .product (.sum :: waiting) s (by simp [Doing.effort, Rule.effort])).through
    (fun _ _ => rfl) fun x t ht => ?_
  exact ih.ahead (ahead_lt_of_product ht) waiting

theorem runs_sumTail {value : Float} (ih : RunsBelow env (.sumTail value) s) :
    (Rule.sumTail value).Runs env waiting s := by
  refine .next rfl ?_
  rw [Rule.run, Rule.begin]
  split
  · next ho =>
    rw [sumTail_of_none _ _ ho]
    exact .refl _
  · next op ho =>
    rw [sumTail_of_some _ _ ho]
    refine leads_use (pure ()) (fun _ => .sumTail value op) fun _ t ht => ?_
    have h := ahead_lt_of_consume (Token.ne_done_of_sumOp? ho) ht
    refine (ih.ahead h (.sumTail value op :: waiting)).through (fun _ _ => rfl) fun x u hu => ?_
    exact ih.ahead (Nat.lt_trans (ahead_lt_of_product hu) h) waiting

theorem runs_product (ih : RunsBelow env .product s) :
    Rule.product.Runs env waiting s := by
  refine .next rfl ?_
  rw [Rule.run, product_eq]
  refine (ih (.signed false) (.product :: waiting) s (by simp [Doing.effort, Rule.effort])).through
    (fun _ _ => rfl) fun x t ht => ?_
  exact ih.ahead (ahead_lt_of_signed ht) waiting

theorem runs_productTail {value : Float} (ih : RunsBelow env (.productTail value) s) :
    (Rule.productTail value).Runs env waiting s := by
  refine .next rfl ?_
  rw [Rule.run, Rule.begin]
  split
  · next ho =>
    rw [productTail_of_none _ _ ho]
    exact .refl _
  · next op ho =>
    rw [productTail_of_some _ _ ho]
    refine leads_use (pure ()) (fun _ => .productTail value op) fun _ t ht => ?_
    have h := ahead_lt_of_consume (Token.ne_done_of_productOp? ho) ht
    refine (ih.ahead h (.productTail value op :: waiting)).through (fun _ _ => rfl) fun x u hu => ?_
    exact ih.ahead (Nat.lt_trans (ahead_lt_of_signed hu) h) waiting

theorem runs_signed {negative : Bool} (ih : RunsBelow env (.signed negative) s) :
    (Rule.signed negative).Runs env waiting s := by
  refine .next rfl ?_
  rw [Rule.run, Rule.begin]
  split
  · next hm =>
    rw [signed_of_minus _ _ hm]
    refine leads_use (pure ()) (fun _ => .signed (!negative)) fun _ t ht => ?_
    exact ih.ahead (ahead_lt_of_consume (by simp [hm]) ht) waiting
  · next hm =>
    rw [signed_of_ne _ _ hm]
    exact (ih .term (.signed negative :: waiting) s (by simp [Doing.effort, Rule.effort])).through
      (fun _ _ => rfl) fun _ _ _ => .refl _

theorem runs_term (ih : RunsBelow env .term s) : Rule.term.Runs env waiting s := by
  refine .next rfl ?_
  rw [Rule.run, term_eq]
  obtain ⟨rest, token, depth, fetched, host⟩ := s
  cases token with
  | number value => exact leads_use_value (pure value)
  | openBracket => exact ih (.bracketed pure) waiting _ (by simp [Doing.effort, Rule.effort])
  | name role text =>
    cases role with
    | function =>
      refine leads_use (env.function text) .bracketed fun callback t hc => ?_
      exact ih.ahead (ahead_lt_of_consume (by simp) hc) waiting
    | «variable» => exact leads_use_value (env.value text)
  | _ => exact .refl _

/-- Behind the expression in it, a bracket takes its end. -/
theorem leads_close {callback : Callback σ} {x : Float} :
    Leads env ((Activation.bracketed callback).receive waiting s (.ok x))
      (.given waiting (accept env .closeBracket .expectedCloseBracket (callback x) s)) := by
  rw [Activation.receive, accept]
  split
  · exact leads_use_value (callback x)
  · exact .refl _

theorem runs_bracketed {callback : Callback σ}
    (ih : RunsBelow env (.bracketed callback) s) :
    (Rule.bracketed callback).Runs env waiting s := by
  refine .next rfl ?_
  rw [Rule.run, bracketed_eq, Rule.begin]
  split
  · next ho =>
    rw [Step.bind_congr_at (accept_of_token ho)]
    refine leads_use (pure ()) (fun _ => .inside callback) fun _ t ht => ?_
    have h := ahead_lt_of_consume (by simp [ho]) ht
    exact (ih.ahead h (.bracketed callback :: waiting)).through (fun _ _ => rfl)
      fun _ _ _ => leads_close
  · next ho =>
    have h : accept env .openBracket .expectedOpenBracket (pure ()) s =
      .error .expectedOpenBracket s := if_neg ho
    rw [Step.bind_of_error h]
    exact .refl _

/-- **A call leads to what its rule gives.**  Every rule goes through these moments, with those that
wait for it left alone. -/
theorem leads_call (env : Setting σ) (rule : Rule σ) (waiting : List (Activation σ))
    (s : State σ) : Leads env ⟨.call rule, waiting, s⟩ (.given waiting (rule.run env s)) := by
  -- by the effort: it is less for what a rule calls, at once or behind some of the text
  induction hn : (Doing.call rule).effort s using Nat.strongRecOn generalizing rule waiting s with
  | ind n ih =>
    subst hn
    have ih : RunsBelow env rule s := fun rule' waiting' t h => ih _ h rule' waiting' t rfl
    cases rule with
    | expression => exact runs_expression ih
    | sum => exact runs_sum ih
    | sumTail => exact runs_sumTail ih
    | product => exact runs_product ih
    | productTail => exact runs_productTail ih
    | signed => exact runs_signed ih
    | term => exact runs_term ih
    | bracketed => exact runs_bracketed ih

end

end Formula
