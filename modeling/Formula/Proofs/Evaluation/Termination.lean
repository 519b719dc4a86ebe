import Mathlib
import Formula.Proofs.Evaluation.Depth
import Formula.Proofs.Evaluation.Independence
import Formula.Proofs.Token.Locality

/-!
# Evaluations end

An evaluation has a measure of what is ahead of it, `State.ahead`: the bytes behind the token held,
and one for the token unless it is the end.  No moment makes it greater, the use of a token makes it
less, and the end is never used.

* `effort_lt_of_next` — between two uses of tokens only so many moments can pass, so that what is
  ahead bounds the moments that are still to come.
* `Moment.Frugal` — the tokens that have been asked for and what is ahead are together no more than
  they were at the beginning.
* `evaluation_terminates` — every evaluation ends, and it asks for at most one token more than its
  text has bytes.
-/

namespace Formula

open Evaluation

variable {σ : Type} {env : Setting σ}

/-! ## What is ahead -/

/-- Reading a token leaves no more than there was, also where it fails. -/
theorem Token.length_outcome_next_le (size : Nat) (bytes : List UInt8) :
    (Step.outcome (next size) bytes).2.length ≤ bytes.length := by
  obtain ⟨front, rest, rfl, -, h⟩ := local_next size bytes
  rw [h rest rfl, List.length_append]
  exact Nat.le_add_left _ _

namespace Evaluation

variable {α : Type} {s t : State σ}

theorem fetched_advance (nameSize : Nat) (s : State σ) :
    (Step.outcome (advance nameSize) s).2.fetched = s.fetched + 1 := by
  unfold Step.outcome advance
  cases Token.next nameSize s.rest <;> rfl

/-- A token that has been read, the end included, is no more than the bytes read for it. -/
theorem ahead_le_of_advance {nameSize : Nat} (h : advance nameSize s = .ok () t) :
    t.ahead ≤ s.rest.length := by
  unfold advance at h
  split at h
  · next hn =>
    cases h
    exact Token.weight_add_length_le_of_next hn
  · cases h

theorem ahead_advance_le (nameSize : Nat) (s : State σ) :
    (Step.outcome (advance nameSize) s).2.ahead ≤ s.ahead := by
  cases h : advance nameSize s with
  | ok _ t =>
    rw [Step.outcome_of_ok h]
    exact Nat.le_trans (ahead_le_of_advance h) (Nat.le_add_left _ _)
  | error fault t =>
    rw [Step.outcome_of_error h]
    have hr := Token.length_outcome_next_le nameSize s.rest
    unfold advance at h
    split at h <;> cases h
    next hn =>
      rw [Step.outcome_of_error hn] at hr
      exact Nat.add_le_add_left hr _

theorem fetched_consume_le (env : Setting σ) (action : Step σ α) (s : State σ) :
    (Step.outcome (consume env action) s).2.fetched ≤ s.fetched + 1 := by
  rw [state_consume]
  split
  · exact Nat.le_of_eq (fetched_advance _ _)
  · exact Nat.le_succ _

theorem ahead_consume_le (env : Setting σ) (action : Step σ α) (s : State σ) :
    (Step.outcome (consume env action) s).2.ahead ≤ s.ahead := by
  rw [state_consume]
  split
  · exact ahead_advance_le _ _
  · exact Nat.le_refl _

theorem ahead_le_of_consume {action : Step σ α} {a : α} (h : consume env action s = .ok a t) :
    t.ahead ≤ s.rest.length := by
  obtain ⟨_, _, hu, h⟩ := Step.bind_eq_ok.1 h
  obtain ⟨_, _, hv, h⟩ := Step.bind_eq_ok.1 h
  cases h
  obtain ⟨host, _, rfl⟩ := Step.onPart_eq_ok.1 hu
  exact ahead_le_of_advance (s := { s with host }) hv

end Evaluation

/-! ## From one moment to the next -/

namespace Moment

variable {m m' : Moment σ}

/-- What is ahead never grows, whether a token is used or not, and whether that succeeds or not. -/
theorem ahead_le_of_next (h : m.next? env = some m') : m'.state.ahead ≤ m.state.ahead := by
  cases passage_of_next h with
  | enter | leave => exact Nat.le_refl _
  | @used action onward waiting s t hc =>
    have ha := ahead_consume_le env action s
    rw [Step.outcome_of_ok hc] at ha
    simpa using ha
  | @refused action fault waiting s t hc =>
    have ha := ahead_consume_le env action s
    rw [Step.outcome_of_error hc] at ha
    exact ha
  | still _ hs => exact Nat.le_of_eq (congrArg State.ahead hs)

/-- A token that is about to be used is not the end. -/
theorem ne_done_of_next (h : m.next? env = some m') (hu : m'.Uses) : m'.state.token ≠ .done := by
  cases passage_of_next h with
  | enter | leave | refused => obtain ⟨_, hu⟩ := hu; cases hu
  | @used _ onward => obtain ⟨_, hu⟩ := hu; cases onward <;> cases hu
  | still _ hs _ h => exact hs ▸ h hu

/-- A token that has been used, and is not the end, is no longer ahead. -/
theorem ahead_lt_of_next (h : m.next? env = some m') (hu : m.Uses) (hf : ¬ m'.Fails)
    (ht : m.state.token ≠ .done) : m'.state.ahead < m.state.ahead := by
  cases passage_of_next h with
  | enter | leave => obtain ⟨_, hu⟩ := hu; cases hu
  | used hc => simpa using ahead_lt_of_consume ht hc
  | refused => exact absurd ⟨_, rfl⟩ hf
  | still hm => exact absurd hu hm

/-- Behind a token it takes less than the token stood for. -/
theorem effort_go_lt (onward : Onward σ) (waiting : List (Activation σ)) (s : State σ) :
    (onward.go waiting s).effort < 14 * s.ahead + 14 + effortBehind waiting := by
  cases onward <;> simp only [Onward.go, effort, Doing.effort, Rule.effort, Activation.effort,
    effortBehind_cons] <;> omega

/-- The moments still to come become fewer. -/
theorem effort_lt_of_next (h : m.next? env = some m') : m'.effort < m.effort := by
  cases passage_of_next h with
  | @enter waiting s =>
    simp only [effort, Doing.effort, Rule.effort, Activation.effort, State.ahead_enter,
      effortBehind_cons]
    omega
  | @leave result waiting s =>
    have hr : (Doing.give result).effort s.leave = (Doing.give result : Doing σ).effort s := by
      cases result <;> rfl
    simp only [effort, hr, Activation.effort, effortBehind_cons]
    omega
  | @used action onward waiting s t hc =>
    have ha := ahead_le_of_consume hc
    have hg := effort_go_lt onward waiting t
    simp only [effort, Doing.effort] at hg ⊢
    omega
  | refused => exact Nat.add_lt_add_right (Nat.succ_pos _) _
  | still _ _ _ _ _ he => exact he

/-- The tokens that have been asked for and what is ahead are together at most `n`; only behind a
failure there may be more ahead. -/
structure Frugal (n : Nat) (m : Moment σ) : Prop where
  fetched_le : m.state.fetched ≤ n
  ahead_le : ¬ m.Fails → m.state.fetched + m.state.ahead ≤ n
  ne_done : m.Uses → m.state.token ≠ .done

variable {n : Nat}

/-- Every token that is asked for stands for a byte of the text, the last one apart. -/
theorem Frugal.next (h : m.Frugal n) (hn : m.next? env = some m') : m'.Frugal n := by
  cases passage_of_next hn with
  | enter => exact ⟨h.fetched_le, fun _ => h.ahead_le nofun, nofun⟩
  | leave => exact ⟨h.fetched_le, h.ahead_le, nofun⟩
  | @used action onward waiting s t hc =>
    have hf := fetched_consume_le env action s
    rw [Step.outcome_of_ok hc] at hf
    have ht : s.token ≠ .done := h.ne_done ⟨action, rfl⟩
    have ha := ahead_lt_of_consume ht hc
    have hn' : s.fetched + s.ahead ≤ n := h.ahead_le nofun
    refine ⟨?_, fun _ => ?_, ne_done_of_next hn⟩ <;> rw [state_go]
    · exact Nat.le_trans hf (by omega)
    · exact Nat.le_trans (Nat.add_le_add_right hf _) (by omega)
  | @refused action fault waiting s t hc =>
    have hf := fetched_consume_le env action s
    rw [Step.outcome_of_error hc] at hf
    -- the token asked for in vain is counted for the one that is used
    have ht : s.token ≠ .done := h.ne_done ⟨action, rfl⟩
    have ha := State.ahead_of_ne_done ht
    have hn' : s.fetched + s.ahead ≤ n := h.ahead_le nofun
    exact ⟨Nat.le_trans hf (by omega), fun hm => absurd ⟨fault, rfl⟩ hm, nofun⟩
  | still _ hs _ hu hf =>
    rw [← hs] at hu
    exact ⟨hs ▸ h.fetched_le, fun hm => hs ▸ h.ahead_le (mt hf hm), hu⟩

theorem Frugal.leads (h : m.Frugal n) (hl : Leads env m m') : m'.Frugal n := by
  induction hl with
  | refl => exact h
  | next hn _ ih => exact ih (h.next hn)

/-- A rule asks for no more tokens than there are bytes and a token ahead of it. -/
theorem frugal_call (rule : Rule σ) (waiting : List (Activation σ)) (s : State σ) :
    (Moment.mk (.call rule) waiting s).Frugal (s.fetched + s.ahead) :=
  ⟨Nat.le_add_right _ _, fun _ => Nat.le_refl _, nofun⟩

end Moment

/-! ## Whole evaluations -/

/-- The rules that use a token whenever they succeed: all but the rests of sums and products, which
may be empty. -/
def Rule.Uses : Rule σ → Prop
  | sumTail _ | productTail _ => False
  | _ => True

theorem ahead_lt_of_run {rule : Rule σ} (hr : rule.Uses) {s t : State σ} {x : Float}
    (h : rule.run env s = .ok x t) : t.ahead < s.ahead := by
  cases rule with
  | expression => exact ahead_lt_of_expression h
  | sum => exact ahead_lt_of_sum h
  | sumTail => exact hr.elim
  | product => exact ahead_lt_of_product h
  | productTail => exact hr.elim
  | signed => exact ahead_lt_of_signed h
  | term => exact ahead_lt_of_term h
  | bracketed => exact ahead_lt_of_bracketed h

theorem ahead_le_of_leads {m m' : Moment σ} (h : Leads env m m') :
    m'.state.ahead ≤ m.state.ahead := by
  induction h with
  | refl => exact Nat.le_refl _
  | next hn _ ih => exact Nat.le_trans ih (Moment.ahead_le_of_next hn)

/-- Across a rule what is ahead does not grow either, also where the rule fails. -/
theorem ahead_run_le (rule : Rule σ) (s : State σ) :
    (Step.outcome (rule.run env) s).2.ahead ≤ s.ahead := by
  have h := ahead_le_of_leads (leads_call env rule [] s)
  rwa [Moment.state_given] at h

/-- The end of a formula is seen in the token held. -/
theorem finalState_finish (x : Float) (s : State σ) : finalState (finish x s) = s := by
  unfold finish
  split <;> rfl

theorem finalState_bind_finish (p : Evaluation σ Float) (s : State σ) :
    finalState ((p >>= finish) s) = (Step.outcome p s).2 := by
  cases hp : p s with
  | ok x t =>
    rw [Step.bind_of_ok hp, Step.outcome_of_ok hp]
    exact finalState_finish x t
  | error fault t =>
    rw [Step.bind_of_error hp, Step.outcome_of_error hp]
    rfl

/-- A run asks for at most one token more than its text has bytes. -/
theorem fetched_run_le (env : Setting σ) (text : String) (host : σ) :
    (finalState (run env text host)).fetched ≤ (bytesOf text).length + 1 := by
  have hf := fetched_advance env.limits.nameSize (.start (bytesOf text) host)
  cases ha : advance env.limits.nameSize (.start (bytesOf text) host) with
  | error fault t =>
    have hr : run env text host = .error fault t := Step.bind_of_error ha
    rw [Step.outcome_of_error ha] at hf
    rw [hr]
    exact Nat.le_trans (Nat.le_of_eq hf) (Nat.succ_le_succ (Nat.zero_le _))
  | ok _ t =>
    have hr : run env text host = (expression env >>= finish) t := Step.bind_of_ok ha
    rw [Step.outcome_of_ok ha] at hf
    have hf : t.fetched = 1 := hf
    have hle : t.ahead ≤ (bytesOf text).length := ahead_le_of_advance ha
    have hfrugal := (Moment.frugal_call .expression [] t).leads (leads_call env .expression [] t)
    have hfetched := hfrugal.fetched_le
    rw [Moment.state_given] at hfetched
    rw [hr, finalState_bind_finish]
    exact Nat.le_trans hfetched (by omega)

/-- What it is for evaluations to end.  The measure is what is ahead: the bytes behind the token
held and one for the token, unless it is the end. -/
structure Setting.Terminates (env : Setting σ) : Prop where
  /-- There is no endless sequence of moments. -/
  ends : WellFounded fun m' m : Moment σ => m.next? env = some m'
  /-- The moments behind a call lead to what its rule gives. -/
  returns : ∀ (rule : Rule σ) waiting s,
    Leads env ⟨.call rule, waiting, s⟩ (.given waiting (rule.run env s))
  /-- The measure. -/
  ahead_eq : ∀ s : State σ, s.ahead = s.rest.length + if s.token = .done then 0 else 1
  /-- It never grows from one moment to the next. -/
  ahead_le : ∀ m m' : Moment σ, m.next? env = some m' → m'.state.ahead ≤ m.state.ahead
  /-- So it does not grow across a rule, which may fail. -/
  ahead_le_run : ∀ (rule : Rule σ) s, (Step.outcome (rule.run env) s).2.ahead ≤ s.ahead
  /-- It becomes less when a token is read in place of one that is not the end. -/
  ahead_lt_advance : ∀ s t : State σ, advance env.limits.nameSize s = .ok () t →
    s.token ≠ .done → t.ahead < s.ahead
  /-- So it becomes less with every token that is used and has a next one. -/
  ahead_lt : ∀ m m' : Moment σ, m.next? env = some m' → m.Uses → m.state.token ≠ .done →
    ¬ m'.Fails → m'.state.ahead < m.state.ahead
  /-- It becomes less across every rule that succeeds. -/
  ahead_lt_run : ∀ (rule : Rule σ) s t x, rule.Uses → rule.run env s = .ok x t → t.ahead < s.ahead
  /-- No rule uses the end. -/
  ne_done : ∀ (rule : Rule σ) waiting s m, Leads env ⟨.call rule, waiting, s⟩ m → m.Uses →
    m.state.token ≠ .done
  /-- A run asks for at most one token more than its text has bytes. -/
  fetched_le : ∀ text host, (finalState (run env text host)).fetched ≤ (bytesOf text).length + 1

/-- **Evaluations end.**  They do so for every text and all limits, and whatever the functions and
variables of the host are: no rule calls another one without end, and no loop of a rule goes on
without end, because every use of a token leaves less ahead. -/
theorem evaluation_terminates (env : Setting σ) : env.Terminates where
  ends := Subrelation.wf Moment.effort_lt_of_next (measure Moment.effort).wf
  returns := leads_call env
  ahead_eq s := by
    by_cases hs : s.token = .done
    · rw [if_pos hs, State.ahead, hs, Nat.add_comm]
      rfl
    · rw [if_neg hs, State.ahead_of_ne_done hs]
  ahead_le _ _ := Moment.ahead_le_of_next
  ahead_le_run := ahead_run_le
  ahead_lt_advance _ _ h hs := ahead_lt_of_advance hs h
  ahead_lt _ _ h hu ht hf := Moment.ahead_lt_of_next h hu hf ht
  ahead_lt_run _ _ _ _ hr h := ahead_lt_of_run hr h
  ne_done rule waiting s _ h := ((Moment.frugal_call rule waiting s).leads h).ne_done
  fetched_le := fetched_run_le env

end Formula
