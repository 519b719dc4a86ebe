import Formula.Fault

/-!
# Steps

All that happens while a formula is evaluated is made of steps: reading a token, a rule of the
grammar, a function of the host.  A step works on data of its own kind, gives a value or fails, and
leaves the data changed in either case.
-/

namespace Formula

/-- A step on data of type `σ` that gives an `α` or fails. -/
abbrev Step (σ α : Type) := EStateM Fault σ α

namespace Step

variable {σ τ α β : Type}

/-- The result of a step beside the data that it leaves. -/
def outcome (p : Step σ α) (s : σ) : Except Fault α × σ :=
  match p s with
  | .ok a t => (.ok a, t)
  | .error fault t => (.error fault, t)

/-- The same step on data of which its own are a part. -/
def onPart (get : τ → σ) (put : τ → σ → τ) (p : Step σ α) : Step τ α := fun s =>
  match p (get s) with
  | .ok a part => .ok a (put s part)
  | .error fault part => .error fault (put s part)

/-- Two steps succeed in a row if the first one does and then the second. -/
theorem bind_eq_ok {p : Step σ α} {f : α → Step σ β} {s t : σ} {b : β} :
    (p >>= f) s = .ok b t ↔ ∃ a u, p s = .ok a u ∧ f a u = .ok b t := by
  show EStateM.bind p f s = _ ↔ _
  unfold EStateM.bind
  split
  · simp_all only [EStateM.Result.ok.injEq]
    exact ⟨fun h => ⟨_, _, ⟨rfl, rfl⟩, h⟩, fun ⟨_, _, ⟨h₁, h₂⟩, h⟩ => h₁ ▸ h₂ ▸ h⟩
  · simp_all

theorem onPart_eq_ok {get : τ → σ} {put : τ → σ → τ} {p : Step σ α} {s t : τ} {a : α} :
    onPart get put p s = .ok a t ↔ ∃ part, p (get s) = .ok a part ∧ t = put s part := by
  unfold onPart
  split
  · simp_all only [EStateM.Result.ok.injEq]
    exact ⟨fun ⟨h₁, h₂⟩ => ⟨_, ⟨h₁, rfl⟩, h₂.symm⟩, fun ⟨_, ⟨h₁, h₂⟩, h⟩ => ⟨h₁, h₂ ▸ h.symm⟩⟩
  · simp_all

end Step

end Formula
