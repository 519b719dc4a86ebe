import Formula.Proofs.Evaluation.Ending

/-!
# Evaluation is reading and then evaluating

A formula is evaluated while it is read, without a tree.  The result is nevertheless that of doing
one after the other: `evaluate_eq` for every text, and `evaluate_eq_ok_iff` in terms of the grammar
for the texts that have a value.
-/

namespace Formula

open Evaluation Grammar

variable {σ : Type}

/-- To evaluate a text is to read it and then to evaluate what has been read.  A callback that fails
goes before whatever has stopped the reading. -/
theorem evaluate_eq (scope : Option (Scope σ)) (text : String) (limits : Limits) :
    evaluate scope text limits = match (Reading.ofText limits text).ending with
      | .ok tree => tree.value (scope.getD .empty)
      | .error fault =>
        (Reading.ofText limits text).fragment.value (scope.getD .empty) >>= fun _ =>
          throw fault := by
  funext host
  have h := run_ends { scope, limits } text host
  rw [evaluate]
  generalize run { scope, limits } text host = r at h
  cases h with
  | failed h =>
    cases hr : (Reading.ofText limits text).ending with
    | error fault => exact (Step.bind_of_error h).symm
    | ok tree =>
      simp only [Fragment.value_of_tree? (Fragment.tree?_of_read hr)]
      exact (Step.bind_of_error h).symm
  | stopped h hr ht =>
    rw [hr]
    refine Eq.trans ?_ (Step.bind_of_ok h).symm
    rfl
  | finished h hr hx ht =>
    rw [hr]
    exact hx.symm

/-- The value of what has been read, or what has stopped the reading. -/
def Grammar.Reading.value (scope : Scope σ) (R : Reading) : Step σ Float :=
  R.fragment.value scope >>= fun pending => match R.fault? with
    | none => pure (pending.total?.getD 0)
    | some fault => throw fault

theorem evaluate_eq_value (scope : Option (Scope σ)) (text : String) (limits : Limits) :
    evaluate scope text limits = (Reading.ofText limits text).value (scope.getD .empty) := by
  rw [evaluate_eq, Reading.value, Reading.fault?]
  cases hr : (Reading.ofText limits text).ending with
  | ok tree => exact Fragment.value_of_tree? (Fragment.tree?_of_read hr)
  | error fault => rfl

/-- **Soundness and completeness.**  Evaluating a text gives a value exactly if its tokens up to the
end of the text are those of a tree, the expressions of the tree are nested within the limit, the
outermost one included, and the tree has that value, found from left to right. -/
theorem evaluate_eq_ok_iff (scope : Option (Scope σ)) (text : String) (limits : Limits)
    (host u : σ) (v : Float) :
    evaluate scope text limits host = .ok v u ↔ ∃ tree : Grammar.Sum,
      Token.sequence limits.nameSize (bytesOf text) = (tree.tokens, none) ∧
        tree.nesting + 1 ≤ limits.depth ∧ tree.value (scope.getD .empty) host = .ok v u := by
  rw [evaluate_eq]
  constructor
  · intro h
    cases hr : (Reading.ofText limits text).ending with
    | error fault =>
      rw [hr] at h
      obtain ⟨pending, t, -, h⟩ := Step.bind_eq_ok.1 h
      cases h
    | ok tree =>
      rw [hr] at h
      obtain ⟨hs, hd⟩ := ending_eq_ok_iff.1 hr
      exact ⟨tree, hs, hd, h⟩
  · rintro ⟨tree, hs, hd, hv⟩
    have hr : (Reading.ofText limits text).ending = .ok tree := ending_eq_ok_iff.2 ⟨hs, hd⟩
    rw [hr]
    exact hv

end Formula
