import Mathlib
import Formula.Proofs.Token.Reading

/-!
# The value of a literal without rounding

Over the rationals no step of the algorithm rounds, and what it gives is the number that the literal
denotes.

* `accumulate_eq` — the digits come to the integer that they spell in base ten.
* `applyPowers_eq` — squaring and multiplying, or dividing, comes to one power.  One statement
  covers both operations, since a division is a product with an inverse power.
* `number_exact` — a number that is read is that of a text of the grammar, and the same computation
  over the rationals gives `Spelling.decimal`.
-/

namespace Formula.Literal

open Byte

/-! ## Digits -/

/-- The digits of a literal come to the integer that they spell in base ten. -/
theorem accumulate_eq (digits : List ℕ) :
    (accumulate digits : ℚ) = (Nat.ofDigits 10 digits.reverse : ℕ) := by
  induction digits using List.reverseRecOn with
  | nil => simp [accumulate, Arithmetic.ofNat, Nat.ofDigits_nil]
  | append_singleton digits d ih =>
    have hstep : (accumulate (digits ++ [d]) : ℚ) = accumulate digits * (10 : ℕ) + (d : ℕ) := by
      simp only [accumulate, List.foldl_append, List.foldl_cons, List.foldl_nil]
      rfl
    rw [hstep, ih, List.reverse_append, List.reverse_singleton, List.singleton_append,
      Nat.ofDigits_cons]
    push_cast
    ring

/-! ## Powers of ten -/

/-- What is applied for the binary digits of `n` comes to the power `n`.  The operation is a product
with a power of its right side, with that side itself for a multiplication and with its inverse for
a division. -/
theorem applyPowers_eq {op : ℚ → ℚ → ℚ} {sign : ℤ} (hop : ∀ v p, op v p = v * p ^ sign)
    (v p : ℚ) (n : ℕ) : applyPowers op v p n = v * (p ^ sign) ^ n := by
  induction n using Nat.strong_induction_on generalizing v p with
  | _ n ih =>
    rw [applyPowers]
    by_cases h0 : n = 0
    · simp [h0]
    · have hsquare : ((p * p) ^ sign) ^ (n / 2) = (p ^ sign) ^ (2 * (n / 2)) := by
        rw [mul_zpow, ← pow_two, ← pow_mul]
      rw [if_neg h0]
      show applyPowers op (if n % 2 = 1 then op v p else v) (p * p) (n / 2) = v * (p ^ sign) ^ n
      rw [ih (n / 2) (by omega), hsquare]
      -- the lowest binary digit says whether the power itself is applied
      split
      · next hodd =>
        have hn : n = 2 * (n / 2) + 1 := by omega
        rw [hop, mul_assoc, ← pow_succ', ← hn]
      · next heven =>
        have hn : n = 2 * (n / 2) := by omega
        rw [← hn]

theorem scale_eq (v : ℚ) (exponent : ℤ) : scale v exponent = v * 10 ^ exponent := by
  rw [scale]
  by_cases hneg : exponent < 0
  · have hdiv : ∀ v p : ℚ, v / p = v * p ^ (-1 : ℤ) := by simp [div_eq_mul_inv]
    have he : exponent = -1 * (exponent.natAbs : ℤ) := by omega
    rw [if_pos hneg]
    calc applyPowers (· / ·) v (Arithmetic.ofNat 10) exponent.natAbs
      _ = v * (((10 : ℕ) : ℚ) ^ (-1 : ℤ)) ^ exponent.natAbs := applyPowers_eq hdiv v _ _
      _ = v * 10 ^ (-1 * (exponent.natAbs : ℤ)) := by rw [zpow_mul, zpow_natCast]; rfl
      _ = v * 10 ^ exponent := by rw [← he]
  · have hmul : ∀ v p : ℚ, v * p = v * p ^ (1 : ℤ) := by simp
    have he : exponent = 1 * (exponent.natAbs : ℤ) := by omega
    rw [if_neg hneg]
    calc applyPowers (· * ·) v (Arithmetic.ofNat 10) exponent.natAbs
      _ = v * (((10 : ℕ) : ℚ) ^ (1 : ℤ)) ^ exponent.natAbs := applyPowers_eq hmul v _ _
      _ = v * 10 ^ (1 * (exponent.natAbs : ℤ)) := by rw [zpow_mul, zpow_natCast]; rfl
      _ = v * 10 ^ exponent := by rw [← he]

/-- The value of a literal without rounding. -/
theorem value_eq (l : Literal) :
    (l.value : ℚ) = (Nat.ofDigits 10 l.digits.reverse : ℕ) * 10 ^ l.exponent := by
  rw [value, scale_eq, accumulate_eq]

/-- The number that a text of the grammar denotes: the integer spelled by the digits before the
point and those behind it, times ten to the exponent that is written, less one for each digit behind
the point. -/
def Spelling.decimal (s : Spelling) : ℚ :=
  (Nat.ofDigits 10 ((s.whole ++ s.places).map digitValue).reverse : ℕ) *
    10 ^ (s.written - s.places.length)

/-- **Without rounding, a literal has the value that it denotes.**  Every number that is read is
read from a text of the grammar, and every such text whose exponent stays in range is read as a
number.  Over the rationals, the algorithm gives the number that the text denotes. -/
theorem number_exact (size : ℕ) :
    (∀ bytes rest v, Token.next size bytes = .ok (.number v) rest →
      ∃ gap, ∃ s : Spelling, bytes = gap ++ (s.bytes ++ rest) ∧ (∀ b ∈ gap, isSeparator b) ∧
        v = s.literal.value ∧ (s.literal.value : ℚ) = s.decimal) ∧
    ∀ s : Spelling, s.InRange →
      Token.next size s.bytes = .ok (.number s.literal.value) [] ∧
        (s.literal.value : ℚ) = s.decimal := by
  constructor
  · intro bytes rest v h
    obtain ⟨gap, spelling, hb, hg, hs⟩ := Token.exists_spelling_of_next h nofun
    cases hs with
    | number s hr => exact ⟨gap, s, hb, hg, rfl, value_eq s.literal⟩
  · intro s hs
    rcases Token.next_literal_alone s size with ⟨-, h⟩ | ⟨hn, -⟩
    · exact ⟨h, value_eq s.literal⟩
    · exact absurd hs hn

/-- The digit behind the point takes the exponent to the lowest one of all. -/
theorem number_lowest :
    Token.next 32 (bytesOf ".1e-9223372036854775807") =
        .ok (.number (value ⟨[1], -9223372036854775808⟩)) [] ∧
      (value ⟨[1], -9223372036854775808⟩ : ℚ) = 10 ^ (-9223372036854775808 : ℤ) := by
  let s : Spelling :=
    ⟨[], nofun, some ⟨[0x31], List.all_eq_true.1 rfl, nofun⟩,
      some ⟨false, some .minus,
        ⟨bytesOf "9223372036854775807", List.all_eq_true.1 (by decide), by decide⟩⟩, .inr rfl⟩
  have hs : s.InRange := ⟨by decide, by rintro p ⟨⟩; decide, by decide⟩
  have hl : s.literal = ⟨[1], -9223372036854775808⟩ := by decide
  have hd : s.decimal = 10 ^ (-9223372036854775808 : ℤ) := by
    have he : s.written - s.places.length = -9223372036854775808 := by decide
    have hn : Nat.ofDigits 10 ((s.whole ++ s.places).map digitValue).reverse = 1 := by decide
    rw [Spelling.decimal, he, hn, Nat.cast_one, one_mul]
  obtain ⟨hn, hv⟩ := (number_exact 32).2 s hs
  rw [hl] at hn hv
  exact ⟨hn, hv.trans hd⟩

end Formula.Literal
