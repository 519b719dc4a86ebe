import Formula.Evaluation.State

/-!
# Steps that use up text

The rules of the grammar call one another, and a formula may nest them as deep as its limits allow.
They end because each rule, when it succeeds, has used at least one token.  `Bounded` keeps that
fact with the result of a step, where the recursion needs it; the proofs are not there at run time.
-/

namespace Formula

/-- The result of a step that leaves less than `n` ahead if it succeeds. -/
def Bounded (σ α : Type) (n : Nat) : Type :=
  { r : EStateM.Result Fault (State σ) α // ∀ a s, r = .ok a s → s.ahead < n }

namespace Bounded

variable {σ α β : Type} {n m : Nat}

/-- The result alone. -/
@[inline]
def result (r : Bounded σ α n) : EStateM.Result Fault (State σ) α := r.1

/-- Success in a state with less than `n` ahead. -/
@[inline]
def pure (a : α) (s : State σ) (h : s.ahead < n) : Bounded σ α n :=
  ⟨.ok a s, fun _ _ hr => by cases hr; exact h⟩

/-- Failure, in any state. -/
@[inline]
def fail (fault : Fault) (s : State σ) : Bounded σ α n :=
  ⟨.error fault s, fun _ _ hr => by cases hr⟩

/-- A step of which it is known how much it leaves. -/
@[inline]
def run (p : Evaluation σ α) (s : State σ) (h : ∀ a t, p s = .ok a t → t.ahead < n) :
    Bounded σ α n :=
  ⟨p s, h⟩

/-- Goes on where a step has succeeded, with what is known of the state reached. -/
@[inline]
def andThen (r : Bounded σ α n) (f : (a : α) → (s : State σ) → s.ahead < n → Bounded σ β m) :
    Bounded σ β m :=
  match r with
  | ⟨.ok a s, h⟩ => f a s (h a s rfl)
  | ⟨.error fault s, _⟩ => fail fault s

/-- The same result under a greater bound. -/
@[inline]
def weaken (r : Bounded σ α n) (h : n ≤ m) : Bounded σ α m :=
  ⟨r.1, fun a s hr => Nat.lt_of_lt_of_le (r.2 a s hr) h⟩

/-- The same result behind a nested expression. -/
@[inline]
def leave (r : Bounded σ α n) : Bounded σ α n :=
  match r with
  | ⟨.ok a s, h⟩ => pure a s.leave (h a s rfl)
  | ⟨.error fault s, _⟩ => fail fault s.leave

@[simp]
theorem result_run (p : Evaluation σ α) (s : State σ)
    (h : ∀ a t, p s = .ok a t → t.ahead < n) : (run p s h).result = p s := rfl

@[simp]
theorem result_weaken (r : Bounded σ α n) (h : n ≤ m) : (r.weaken h).result = r.result := rfl

@[simp]
theorem result_pure (a : α) (s : State σ) (h : s.ahead < n) :
    (pure a s h : Bounded σ α n).result = .ok a s := rfl

@[simp]
theorem result_fail (fault : Fault) (s : State σ) :
    (fail fault s : Bounded σ α n).result = .error fault s := rfl

theorem result_leave (r : Bounded σ α n) :
    r.leave.result = match r.result with
      | .ok a s => .ok a s.leave
      | .error fault s => .error fault s.leave := by
  obtain ⟨r, h⟩ := r
  cases r <;> rfl

/-- Going on with a step is one step after the other, bounds apart. -/
theorem result_andThen {r : Bounded σ α n}
    {f : (a : α) → (s : State σ) → s.ahead < n → Bounded σ β m} {p : Evaluation σ α}
    {q : α → Evaluation σ β} {s : State σ} (hr : r.result = p s)
    (hf : ∀ a t h, (f a t h).result = q a t) : (r.andThen f).result = (p >>= q) s := by
  show _ = EStateM.bind p q s
  unfold EStateM.bind
  rw [← hr]
  obtain ⟨r, h⟩ := r
  cases r with
  | ok a t => exact hf a t _
  | error fault t => rfl

end Bounded

end Formula
