import Formula.Proofs.Token.Spelling

/-!
# Exponents out of range

The exponent that is written is collected without its sign, as a signed 64-bit number, and the
digits behind the point are counted before it.  Both steps can leave the range although their outcome
would not.  `next_outOfRange_iff` says when a literal is refused.  Next to exponents that do not fit
in 64 bits these are

* the lowest exponent of all, which has no counterpart without its sign
  (`lowest_exponent_refused`), and
* more digits behind the point than a 64-bit number counts, whatever exponent follows them.
-/

namespace Formula.Literal

open Byte

/-- An exponent fits in a signed 64-bit number. -/
def Fits (exponent : Int) : Prop :=
  Int64.minValue.toInt ≤ exponent ∧ exponent ≤ Int64.maxValue.toInt

instance (exponent : Int) : Decidable (Fits exponent) :=
  inferInstanceAs (Decidable (_ ∧ _))

theorem minValue_eq : Int64.minValue.toInt = -(exponentBound : Int) := rfl

theorem maxValue_eq : Int64.maxValue.toInt = (exponentBound : Int) - 1 := rfl

theorem fits_iff {exponent : Int} :
    Fits exponent ↔ -(exponentBound : Int) ≤ exponent ∧ exponent < exponentBound := by
  rw [Fits, minValue_eq, maxValue_eq, Int.le_sub_one_iff]

theorem inRange_iff_fits {exponent : Int} : inRange exponent ↔ Fits exponent := by
  simp [inRange, fits_iff]

/-- An exponent can be collected without its sign if it fits and is not the lowest one. -/
theorem Power.magnitude_lt_iff (p : Power) :
    p.magnitude < exponentBound ↔ Fits p.exponent ∧ p.exponent ≠ -(exponentBound : Int) := by
  rw [fits_iff, Power.exponent]
  split
  · omega
  · have : 0 < exponentBound := by decide
    omega

namespace Spelling

variable (s : Spelling)

theorem magnitude_lt_iff :
    (∀ p ∈ s.power, p.magnitude < exponentBound) ↔
      Fits s.written ∧ s.written ≠ -(exponentBound : Int) := by
  unfold written
  cases s.power with
  | none =>
    have h0 : Fits 0 ∧ (0 : Int) ≠ -(exponentBound : Int) := by decide
    simpa using h0
  | some p => simpa using p.magnitude_lt_iff

theorem inRange_iff :
    s.InRange ↔ s.places.length ≤ exponentBound ∧ Fits s.written ∧
      s.written ≠ -(exponentBound : Int) ∧ Fits (s.written - s.places.length) := by
  constructor
  · intro h
    obtain ⟨hw, hl⟩ := s.magnitude_lt_iff.1 h.magnitude
    exact ⟨h.places, hw, hl, inRange_iff_fits.1 h.exponent⟩
  · rintro ⟨hp, hw, hl, he⟩
    exact ⟨hp, s.magnitude_lt_iff.2 ⟨hw, hl⟩, inRange_iff_fits.2 he⟩

end Spelling

/-- **When a literal is refused.**  A text of the grammar is read whole as a number or is refused
since its exponent is out of range, and the latter exactly if the exponent that is written does not
fit in 64 bits, or does not less the number of digits behind the point, or is the lowest that fits,
or if there are more of these digits than can be counted. -/
theorem next_outOfRange_iff (s : Spelling) (size : Nat) :
    ((∃ rest, Token.next size s.bytes = .error .literalOutOfRange rest) ↔
      ¬ Fits s.written ∨ ¬ Fits (s.written - s.places.length) ∨
        s.written = Int64.minValue.toInt ∨ exponentBound < s.places.length) ∧
    ((∃ rest, Token.next size s.bytes = .error .literalOutOfRange rest) ∨
      ∃ v, Token.next size s.bytes = .ok (.number v) []) := by
  have hr := s.inRange_iff
  rw [minValue_eq]
  rcases Token.next_literal_alone s size with ⟨h, hn⟩ | ⟨h, hn⟩
  · obtain ⟨hp, hw, hl, he⟩ := hr.1 h
    refine ⟨⟨?_, ?_⟩, .inr ⟨_, hn⟩⟩
    · rintro ⟨rest, hn'⟩
      cases hn.symm.trans hn'
    · rintro (h | h | h | h)
      · exact absurd hw h
      · exact absurd he h
      · exact absurd h hl
      · omega
  · refine ⟨⟨fun _ => ?_, fun _ => hn⟩, .inl hn⟩
    rw [hr] at h
    grind

/-- The lowest exponent fits in 64 bits, and it is refused where it is written as such. -/
theorem lowest_exponent_refused :
    ∃ s : Spelling, s.bytes = bytesOf "1e-9223372036854775808" ∧ Fits s.written ∧
      Fits (s.written - s.places.length) ∧
      ∃ rest, Token.next 32 s.bytes = .error .literalOutOfRange rest := by
  let s : Spelling :=
    ⟨[0x31], List.all_eq_true.1 rfl, none,
      some ⟨false, some .minus,
        ⟨bytesOf "9223372036854775808", List.all_eq_true.1 (by decide), by decide⟩⟩, .inl nofun⟩
  have hw : s.written = -(exponentBound : Int) := by decide
  have hb : ¬ s.InRange := fun h => (s.inRange_iff.1 h).2.2.1 hw
  rcases Token.next_literal_alone s 32 with ⟨h, -⟩ | ⟨-, hn⟩
  · exact absurd h hb
  · exact ⟨s, by decide, by decide, by decide, hn⟩

end Formula.Literal
