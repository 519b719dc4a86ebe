import Mathlib
import Formula.Proofs.Evaluation.Activations

/-!
# The depth of an evaluation

The depth that a state counts is the number of expressions in progress, at every moment
(`Balanced`).  It is counted up when an expression begins and down when one ends, and a rule may end
at many places and in as many ways; but none of them leaves an expression behind that has not been
counted down (`depth_balanced`).
-/

namespace Formula

open Evaluation

variable {σ : Type} {env : Setting σ}

namespace Evaluation

variable {α : Type} {action : Step σ α} {s t : State σ}

/-- To use a token is to take a step on the data of the host and then, if it succeeds, to read the
next token: this is the state that it leaves. -/
theorem state_consume (env : Setting σ) (action : Step σ α) (s : State σ) :
    (Step.outcome (consume env action) s).2 = match action s.host with
      | .ok _ u => (Step.outcome (advance env.limits.nameSize) { s with host := u }).2
      | .error _ u => { s with host := u } := by
  cases ha : action s.host with
  | error fault u =>
    have hc : consume env action s = .error fault { s with host := u } :=
      Step.bind_of_error (onHost_of_error ha)
    rw [Step.outcome_of_error hc]
  | ok a u =>
    have h := onHost_of_ok ha
    cases hv : advance env.limits.nameSize { s with host := u } with
    | ok _ t =>
      have hc : consume env action s = .ok a t := (Step.bind_of_ok h).trans (Step.bind_of_ok hv)
      rw [Step.outcome_of_ok hc]
      exact (congrArg Prod.snd (Step.outcome_of_ok hv)).symm
    | error fault t =>
      have hc : consume env action s = .error fault t :=
        (Step.bind_of_ok h).trans (Step.bind_of_error hv)
      rw [Step.outcome_of_error hc]
      exact (congrArg Prod.snd (Step.outcome_of_error hv)).symm

theorem depth_advance (nameSize : Nat) (s : State σ) :
    (Step.outcome (advance nameSize) s).2.depth = s.depth := by
  rw [Step.outcome]
  cases h : advance nameSize s with
  | ok _ t => exact depth_of_advance h
  | error fault t => exact depth_of_advance_error h

theorem depth_consume (env : Setting σ) (action : Step σ α) (s : State σ) :
    (Step.outcome (consume env action) s).2.depth = s.depth := by
  rw [state_consume]
  split
  · exact depth_advance _ _
  · rfl

end Evaluation

namespace Moment

/-- The depth is the number of expressions in progress, and it is within the limit. -/
structure Balanced (env : Setting σ) (m : Moment σ) : Prop where
  depth_eq : m.state.depth = levels m.waiting
  depth_le : m.state.depth ≤ env.limits.depth

variable {m m' : Moment σ}

theorem Balanced.of_eq (h : m.Balanced env) (hs : m'.state.depth = m.state.depth)
    (hl : levels m'.waiting = levels m.waiting) : m'.Balanced env :=
  ⟨by rw [hs, hl, h.depth_eq], hs ▸ h.depth_le⟩

@[simp]
theorem state_go (onward : Onward σ) (waiting : List (Activation σ)) (s : State σ) :
    (onward.go waiting s).state = s := by
  cases onward <;> rfl

/-- No expression begins or ends behind a token alone. -/
@[simp]
theorem levels_go (onward : Onward σ) (waiting : List (Activation σ)) (s : State σ) :
    levels (onward.go waiting s).waiting = levels waiting := by
  cases onward <;> simp [Onward.go, Activation.level]

/-- The depth keeps up with the expressions in progress. -/
theorem Balanced.next (h : m.Balanced env) (hn : m.next? env = some m') : m'.Balanced env := by
  cases passage_of_next hn with
  | @enter waiting s hd =>
    refine ⟨?_, hd⟩
    show s.depth + 1 = 1 + levels waiting
    rw [h.depth_eq, Nat.add_comm]
  | @leave result waiting s =>
    have hd : s.depth = 1 + levels waiting := h.depth_eq
    refine ⟨?_, Nat.le_trans (Nat.sub_le _ _) h.depth_le⟩
    show s.depth - 1 = levels waiting
    omega
  | @used action onward waiting s t hc =>
    have hd := depth_consume env action s
    rw [Step.outcome_of_ok hc] at hd
    exact h.of_eq (by simpa using hd) (by simp)
  | @refused action fault waiting s t hc =>
    have hd := depth_consume env action s
    rw [Step.outcome_of_error hc] at hd
    exact h.of_eq hd rfl
  | still _ hs hl => exact h.of_eq (by rw [hs]) hl

theorem Balanced.leads (h : m.Balanced env) (hl : Leads env m m') : m'.Balanced env := by
  induction hl with
  | refl => exact h
  | next hn _ ih => exact ih (h.next hn)

end Moment

/-- Expressions in progress, as many as a state counts. -/
theorem levels_replicate (n : Nat) :
    levels (List.replicate n (Activation.expression : Activation σ)) = n := by
  induction n with
  | zero => rfl
  | succ n ih =>
    rw [List.replicate_succ, levels_cons, ih, Nat.add_comm]
    rfl

/-- **The depth is balanced.**  A rule leaves the depth as it found it, whether it gives a value or
fails, wherever it fails.  On the way the depth is the number of expressions in progress that have
passed the limit's guard, and never more than the limit, so that counting it up needs no more room
than the limit does.  An expression at the limit fails at once: it reads no token, asks nothing and
calls no other rule. -/
theorem depth_balanced (env : Setting σ) (rule : Rule σ) {s : State σ}
    (h : s.depth ≤ env.limits.depth) :
    (Step.outcome (rule.run env) s).2.depth = s.depth ∧
    (∀ waiting, levels waiting = s.depth →
      Leads env ⟨.call rule, waiting, s⟩ (.given waiting (rule.run env s)) ∧
      ∀ m, Leads env ⟨.call rule, waiting, s⟩ m →
        m.state.depth = levels m.waiting ∧ m.state.depth ≤ env.limits.depth) ∧
    (s.depth = env.limits.depth →
      expression env s = .error .stackOverflow s ∧
      ∀ waiting, Moment.next? env ⟨.call .expression, waiting, s⟩ =
        some ⟨.give (.error .stackOverflow), waiting, s⟩) := by
  have hm (waiting : List (Activation σ)) (hw : levels waiting = s.depth) (m : Moment σ)
      (hl : Leads env ⟨.call rule, waiting, s⟩ m) : m.Balanced env :=
    Moment.Balanced.leads ⟨hw.symm, h⟩ hl
  refine ⟨?_, fun waiting hw => ⟨leads_call env rule waiting s, fun m hl => ?_⟩, fun hd => ?_⟩
  · -- the depth as found stands for as many expressions, and these are still in progress in the end
    have hw := @levels_replicate σ s.depth
    have hd := (hm _ hw _ (leads_call env rule _ s)).depth_eq
    rwa [Moment.state_given, Moment.waiting_given, hw] at hd
  · have hb := hm waiting hw m hl
    exact ⟨hb.depth_eq, hb.depth_le⟩
  · have hle := Nat.le_of_eq hd.symm
    refine ⟨?_, fun waiting => ?_⟩
    · rw [expression_eq, Evaluation.nested, if_pos hle]
    · rw [Moment.next?, Rule.begin, if_pos hle]

/-- Within the limit of two levels and inside one, brackets overflow the second time; the depth is
one again behind the fault. -/
theorem depth_behind_overflow :
    let env : Setting Unit := { scope := none, limits := { depth := 2 } }
    let s : State Unit :=
      { rest := bytesOf "(1))", token := .openBracket, depth := 1, fetched := 1, host := () }
    s.depth ≤ env.limits.depth ∧
      (Step.outcome (Rule.expression.run env) s).1 = .error .stackOverflow ∧
      (Step.outcome (Rule.expression.run env) s).2.depth = 1 ∧
      levels [Activation.bracketed (σ := Unit) pure, .expression] = s.depth := by
  intro env s
  refine ⟨by decide, by cbv, (depth_balanced env .expression (s := s) (by decide)).1, rfl⟩

end Formula
