import Formula.Step

/-!
# Scanners

A scanner reads from the front of the bytes that are left and leaves the bytes behind what it has
read, also when it fails.  Scanners only ever step forward: on success they leave a back part of
what they were given (`Scan.Leaves`), which is what makes every loop over tokens end.
-/

namespace Formula

/-- A scanner: reads from the front of the remaining bytes and may fail. -/
abbrev Scan (α : Type) := Step (List UInt8) α

namespace Scan

variable {α β : Type}

/-- The scanner steps over a front part of the bytes and leaves the part behind it. -/
def Leaves (p : Scan α) : Prop :=
  ∀ bytes a rest, p bytes = .ok a rest → rest <:+ bytes

theorem Leaves.bind {p : Scan α} {f : α → Scan β} (hp : p.Leaves)
    (hf : ∀ a, (f a).Leaves) : Scan.Leaves (p >>= f) := by
  intro bytes b rest h
  obtain ⟨a, mid, h₁, h₂⟩ := Step.bind_eq_ok.1 h
  exact (hf _ _ _ _ h₂).trans (hp _ _ _ h₁)

theorem Leaves.pure (a : α) : Scan.Leaves (Pure.pure a) := by
  intro bytes b rest h
  cases h
  exact List.suffix_refl _

end Scan

end Formula
