import Formula.Proofs.Evaluation.Ending
import Formula.Proofs.Grammar.Viable

/-!
# Failing callbacks

What has been read of a formula fails only as its scope does: with the fault of a name that is not
found or with the faults of its callbacks (`Scope.FailsWith.fragment`).
-/

namespace Formula

open Grammar

variable {σ : Type}

/-- The answers of a scope, and of the functions that it finds, fail with faults of a kind only. -/
structure Scope.FailsWith (kind : Fault → Prop) (scope : Scope σ) : Prop where
  /-- No look-up of a function fails otherwise. -/
  find : ∀ name, Step.FailsWith kind (scope.find name)
  /-- No function that is found fails otherwise. -/
  call : ∀ name host callback u, scope.find name host = .ok callback u →
    ∀ x, Step.FailsWith kind (callback x)
  /-- No variable fails otherwise. -/
  value : ∀ name, Step.FailsWith kind (scope.value name)

theorem failsWith_find (scope : Scope σ) (name : String) :
    Step.FailsWith (· = .undefinedFunction) (scope.find name) := by
  intro host fault u h
  unfold Scope.find at h
  split at h <;> cases h
  rfl

variable {kind : Fault → Prop} {scope : Scope σ}

mutual

theorem failsWith_sum (hs : scope.FailsWith kind) : ∀ tree : Grammar.Sum,
    Step.FailsWith kind (tree.value scope)
  | .single product => failsWith_product hs product
  | .more left _ right => (failsWith_sum hs left).bind fun _ _ _ _ =>
    (failsWith_product hs right).bind fun _ _ _ _ => .pure _

theorem failsWith_product (hs : scope.FailsWith kind) : ∀ tree : Product,
    Step.FailsWith kind (tree.value scope)
  | .single factor => failsWith_signed hs factor
  | .more left _ right => (failsWith_product hs left).bind fun _ _ _ _ =>
    (failsWith_signed hs right).bind fun _ _ _ _ => .pure _

theorem failsWith_signed (hs : scope.FailsWith kind) : ∀ tree : Signed,
    Step.FailsWith kind (tree.value scope)
  | .signed _ term => (failsWith_term hs term).bind fun _ _ _ _ => .pure _

theorem failsWith_term (hs : scope.FailsWith kind) : ∀ tree : Term,
    Step.FailsWith kind (tree.value scope)
  | .number _ => .pure _
  | .bracket inner => failsWith_sum hs inner
  | .call function argument => (hs.find function).bind fun _ _ _ hf =>
    (failsWith_sum hs argument).bind fun _ x _ _ => hs.call _ _ _ _ hf x
  | .variable name => hs.value name

end

/-- What has been read can be completed to a whole formula, which fails wherever it does. -/
theorem Scope.FailsWith.fragment (hs : scope.FailsWith kind) {P : Fragment} {before : List Token}
    (hP : Fragment.start.through? before = some P) : Step.FailsWith kind (P.value scope) := by
  intro host fault u h
  obtain ⟨tree, rest, ht⟩ := Fragment.exists_viable hP
  obtain ⟨Q, hQ, hq⟩ := tokens_eq_iff.1 ht.symm
  rw [Fragment.through?_append, hP, Option.bind_some] at hQ
  have hv := Fragment.value_error_of_through? { scope := some scope, limits := {} } hQ h
  refine failsWith_sum hs tree host fault u ?_
  rw [Fragment.value_of_tree? hq]
  exact Step.bind_of_error hv

end Formula
