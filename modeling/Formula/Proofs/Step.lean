import Formula.Step

/-!
# Steps one after the other

A step that begins with another one goes on where that one succeeds and fails where it fails.  The
lemmas of this file say so for a single result (`bind_of_ok`, `bind_of_error`), and what a step on a
part of the data gives where the part alone gives it (`onPart_of_ok`, `onPart_of_error`).  A step
with all its failures of one kind (`FailsWith`) is made of such steps.  `outcome_eq_ok` and
`outcome_eq_error` lead from a result to its two sides and back.
-/

namespace Formula.Step

variable {σ τ α β : Type}

theorem bind_of_ok {p : Step σ α} {f : α → Step σ β} {s t : σ} {a : α} (h : p s = .ok a t) :
    (p >>= f) s = f a t := by
  show EStateM.bind p f s = _
  rw [EStateM.bind, h]

theorem bind_of_error {p : Step σ α} {f : α → Step σ β} {s t : σ} {fault : Fault}
    (h : p s = .error fault t) : (p >>= f) s = .error fault t := by
  show EStateM.bind p f s = _
  rw [EStateM.bind, h]

theorem bind_congr_at {p q : Step σ α} {s : σ} (h : p s = q s) (f : α → Step σ β) :
    (p >>= f) s = (q >>= f) s := by
  show EStateM.bind p f s = EStateM.bind q f s
  rw [EStateM.bind, EStateM.bind, h]

theorem outcome_of_ok {p : Step σ α} {s t : σ} {a : α} (h : p s = .ok a t) :
    outcome p s = (.ok a, t) := by
  rw [outcome, h]

theorem outcome_of_error {p : Step σ α} {s t : σ} {fault : Fault} (h : p s = .error fault t) :
    outcome p s = (.error fault, t) := by
  rw [outcome, h]

theorem outcome_eq_ok {p : Step σ α} {s t : σ} {a : α} :
    outcome p s = (.ok a, t) ↔ p s = .ok a t := by
  unfold outcome
  cases p s <;> simp

theorem outcome_eq_error {p : Step σ α} {s t : σ} {fault : Fault} :
    outcome p s = (.error fault, t) ↔ p s = .error fault t := by
  unfold outcome
  cases p s <;> simp

theorem outcome_congr {p q : Step σ α} {s : σ} (h : p s = q s) : outcome p s = outcome q s := by
  rw [outcome, outcome, h]

variable {get : τ → σ} {put : τ → σ → τ}

theorem onPart_of_ok {p : Step σ α} {s : τ} {part : σ} {a : α} (h : p (get s) = .ok a part) :
    onPart get put p s = .ok a (put s part) := by
  rw [onPart, h]

theorem onPart_of_error {p : Step σ α} {s : τ} {part : σ} {fault : Fault}
    (h : p (get s) = .error fault part) : onPart get put p s = .error fault (put s part) := by
  rw [onPart, h]

/-! ## Kinds of values and of failures -/

/-- A step that gives values of a kind only. -/
def Gives (kind : α → Prop) (p : Step σ α) : Prop :=
  ∀ s a t, p s = .ok a t → kind a

section Gives

variable {kind : α → Prop}

theorem Gives.pure {a : α} (h : kind a) : Gives kind (Pure.pure a : Step σ α) := by
  intro s b t h'
  cases h'
  exact h

theorem Gives.throw (fault : Fault) : Gives kind (MonadExcept.throw fault : Step σ α) := by
  intro s a t h
  cases h

end Gives

/-- A step that fails with faults of a kind only. -/
def FailsWith (kind : Fault → Prop) (p : Step σ α) : Prop :=
  ∀ s fault t, p s = .error fault t → kind fault

section FailsWith

variable {kind : Fault → Prop}

theorem FailsWith.mono {other : Fault → Prop} {p : Step σ α} (h : FailsWith kind p)
    (hk : ∀ fault, kind fault → other fault) : FailsWith other p :=
  fun s fault t ht => hk fault (h s fault t ht)

theorem FailsWith.pure (a : α) : FailsWith kind (Pure.pure a : Step σ α) := by
  intro s fault t h
  cases h

theorem FailsWith.throw {fault : Fault} (h : kind fault) :
    FailsWith kind (MonadExcept.throw fault : Step σ α) := by
  intro s fault t h'
  cases h'
  exact h

/-- The second of two steps has to fail with these faults for values of the first one alone. -/
theorem FailsWith.bind {p : Step σ α} {f : α → Step σ β} (h : FailsWith kind p)
    (hf : ∀ s a t, p s = .ok a t → FailsWith kind (f a)) : FailsWith kind (p >>= f) := by
  intro s fault t ht
  cases hp : p s with
  | ok a u =>
    rw [bind_of_ok hp] at ht
    exact hf s a u hp _ _ _ ht
  | error fault' u =>
    rw [bind_of_error hp] at ht
    cases ht
    exact h _ _ _ hp

end FailsWith

end Formula.Step
