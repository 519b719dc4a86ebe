import Mathlib
import Formula.Proofs.Literal.Powers
import Formula.Proofs.Literal.Value

/-!
# Literals that denote whole numbers

Where the exponent of a literal is not negative, only additions and multiplications are made, and no
result on the way exceeds the number that the literal denotes.  The one exception is the last power
of ten, which is squared once more and then not used.  So nothing is lost as long as that number is
within reach, whatever the arithmetic does beyond.

* `exactBelow_float` — floats are exact below `2 ^ 53`.
* `accumulate_exact`, `applyPowers_exact` — the two loops, over any arithmetic that is.
* `next_whole` — what is read.
-/

namespace Formula.Literal

open Byte Binary64

/-- Sums and products of natural numbers below `bound` are exact if they lie below it as well.
Nothing is said of others. -/
structure ExactBelow (α : Type) [Arithmetic α] (bound : ℕ) : Prop where
  add : ∀ m n : ℕ, m + n < bound →
    (Arithmetic.ofNat m + Arithmetic.ofNat n : α) = Arithmetic.ofNat (m + n)
  mul : ∀ m n : ℕ, m < bound → n < bound → m * n < bound →
    (Arithmetic.ofNat m * Arithmetic.ofNat n : α) = Arithmetic.ofNat (m * n)

theorem exactBelow_float : ExactBelow Float (2 ^ 53) where
  add m n h := by
    show Float.ofNat m + Float.ofNat n = Float.ofNat (m + n)
    have hm : m < 2 ^ 53 := by omega
    have hn : n < 2 ^ 53 := by omega
    rw [ofNat_eq hm, ofNat_eq hn, ofNat_eq h, Nat.cast_add]
    exact nearest_add (representable_natCast hm) (representable_natCast hn)
  mul m n hm hn h := by
    show Float.ofNat m * Float.ofNat n = Float.ofNat (m * n)
    rw [ofNat_eq hm, ofNat_eq hn, ofNat_eq h, Nat.cast_mul]
    exact nearest_mul (representable_natCast hm) (representable_natCast hn)

/-! ## The two loops -/

variable {α : Type} [Arithmetic α] {bound : ℕ}

theorem accumulate_concat (digits : List ℕ) (d : ℕ) :
    (accumulate (digits ++ [d]) : α) =
      accumulate digits * Arithmetic.ofNat 10 + Arithmetic.ofNat d := by
  simp [accumulate]

/-- The integers that the digits spell one after the other grow up to the last one. -/
theorem accumulate_exact (hα : ExactBelow α bound) (hten : 10 < bound) (digits : List ℕ)
    (h : Nat.ofDigits 10 digits.reverse < bound) :
    (accumulate digits : α) = Arithmetic.ofNat (Nat.ofDigits 10 digits.reverse) := by
  induction digits using List.reverseRecOn with
  | nil => rfl
  | append_singleton digits d ih =>
    rw [List.reverse_append, List.reverse_singleton, List.singleton_append,
      Nat.ofDigits_cons] at h ⊢
    set n := Nat.ofDigits 10 digits.reverse
    have hn : n * 10 < bound := by omega
    rw [accumulate_concat, ih (by omega), hα.mul n 10 (by omega) hten hn,
      hα.add (n * 10) d (by omega)]
    congr 1
    ring

/-- The powers that are multiplied stay below the number that comes out, and so do all the products.
A power that is not used may be anything. -/
theorem applyPowers_exact (hα : ExactBelow α bound) {v p e : ℕ} (hv : 0 < v) (hp : 0 < p)
    (h : v * p ^ e < bound) :
    applyPowers (· * ·) (Arithmetic.ofNat v : α) (Arithmetic.ofNat p) e =
      Arithmetic.ofNat (v * p ^ e) := by
  induction e using Nat.strong_induction_on generalizing v p with
  | _ e ih =>
    by_cases he : e = 0
    · rw [he, applyPowers_zero, pow_zero, mul_one]
    · have hle : v ≤ v * p ^ e := Nat.le_mul_of_pos_right v (Nat.pow_pos hp)
      have hp1 : p ≤ p ^ e := Nat.le_self_pow he p
      have hpe : p ^ e ≤ v * p ^ e := Nat.le_mul_of_pos_left _ hv
      -- what is left of the exponent is applied to `v'`
      obtain ⟨v', hv', hstep, hpow⟩ : ∃ v', 0 < v' ∧
          (if e % 2 = 1 then Arithmetic.ofNat v * Arithmetic.ofNat p else Arithmetic.ofNat v : α) =
            Arithmetic.ofNat v' ∧ v' * (p * p) ^ (e / 2) = v * p ^ e := by
        have hhalf : (p * p) ^ (e / 2) = p ^ (2 * (e / 2)) := by rw [← pow_two, ← pow_mul]
        rw [hhalf]
        split
        · next hodd =>
          have hvp : v * p ≤ v * p ^ e := Nat.mul_le_mul_left v hp1
          refine ⟨v * p, Nat.mul_pos hv hp, hα.mul v p (by omega) (by omega) (by omega), ?_⟩
          rw [mul_assoc, ← pow_succ', (by omega : 2 * (e / 2) + 1 = e)]
        · next heven =>
          exact ⟨v, hv, rfl, by rw [(by omega : 2 * (e / 2) = e)]⟩
      rw [applyPowers_of_ne_zero _ _ _ he, hstep, ← hpow]
      by_cases hlast : e / 2 = 0
      · rw [hlast, applyPowers_zero, pow_zero, mul_one]
      · have hsq : p * p ≤ p ^ e := by
          rw [← pow_two]
          exact Nat.pow_le_pow_right hp (by omega)
        rw [hα.mul p p (by omega) (by omega) (by omega)]
        exact ih (e / 2) (by omega) hv' (Nat.mul_pos hp hp) (by rwa [hpow])

/-! ## What is read -/

/-- The integer that the digits before and behind the point spell, taken together. -/
def Spelling.integer (s : Spelling) : ℕ :=
  Nat.ofDigits 10 s.literal.digits.reverse

theorem Spelling.decimal_eq (s : Spelling) : s.decimal = s.integer * 10 ^ s.literal.exponent :=
  rfl

theorem accumulate_float {s : Spelling} (h : s.integer < 2 ^ 53) :
    (accumulate s.literal.digits : Float) = Float.ofNat s.integer :=
  accumulate_exact exactBelow_float (by norm_num) _ h

/-- Without a negative exponent a literal has the value that it denotes if that lies below the
bound. -/
theorem value_exact (hα : ExactBelow α bound) (hten : 10 < bound) {s : Spelling} {n : ℕ}
    (he : 0 ≤ s.literal.exponent) (hn : s.decimal = n) (h0 : 0 < n) (h : n < bound) :
    (s.literal.value : α) = Arithmetic.ofNat n := by
  have hpow : s.integer * 10 ^ s.literal.exponent.natAbs = n := by
    rw [Spelling.decimal_eq, ← Int.natAbs_of_nonneg he, zpow_natCast] at hn
    exact_mod_cast hn
  have hpos : 0 < s.integer := by
    by_contra hzero
    rw [Nat.eq_zero_of_not_pos hzero, zero_mul] at hpow
    omega
  have hle : s.integer ≤ n := hpow ▸ Nat.le_mul_of_pos_right _ (by positivity)
  rw [value, scale, if_neg he.not_gt, accumulate_exact hα hten _ (hle.trans_lt h)]
  exact (applyPowers_exact hα hpos (by norm_num) (hpow ▸ h)).trans (congrArg _ hpow)

/-- Without an exponent part, a literal is out of range only if it has more digits behind the point
than can be counted. -/
theorem inRange_of_no_power {s : Spelling} (hpower : s.power = none)
    (hplaces : s.places.length ≤ exponentBound) : s.InRange where
  places := hplaces
  magnitude := by simp [hpower]
  exponent := by
    have hbound : 0 < exponentBound := by decide
    simp only [Spelling.literal, Spelling.written, hpower, inRange, Bool.and_eq_true,
      decide_eq_true_eq]
    omega

theorem next_of_inRange {s : Spelling} (hs : s.InRange) {rest : List UInt8} (hr : s.Ends rest)
    (size : ℕ) : Token.next size (s.bytes ++ rest) = .ok (.number s.literal.value) rest :=
  (Token.next_literal s size rest).trans (Step.bind_of_ok (scan_of_inRange hs hr))

/-- **A whole number is read exactly.**  Take any literal that is accepted, with any number of zeros
in front, any digits behind the point and any exponent, so that the exponent less the number of
digits behind the point is not negative.  If it denotes a number of 53 binary digits, then that
number is read.  Nothing is needed of floats but that they are exact on numbers of this size, and
any arithmetic with this property gives the same. -/
theorem next_whole (size : ℕ) {s : Spelling} (hs : s.InRange) {rest : List UInt8} (hr : s.Ends rest)
    (he : 0 ≤ s.written - s.places.length) {n : ℕ} (hn : s.decimal = n) (h0 : 0 < n)
    (h : n < 2 ^ 53) :
    Token.next size (s.bytes ++ rest) = .ok (.number (Float.ofNat n)) rest ∧
      ∀ (α : Type) [Arithmetic α], ExactBelow α (2 ^ 53) →
        (s.literal.value : α) = Arithmetic.ofNat n := by
  constructor
  · rw [next_of_inRange hs hr, value_exact exactBelow_float (by norm_num) he hn h0 h]
    rfl
  · intro α _ hα
    exact value_exact hα (by norm_num) he hn h0 h

/-- Digits behind the point do no harm if the exponent makes up for them. -/
theorem next_whole_behind_point :
    Token.next 32 (bytesOf "007.50e4+1") = .ok (.number (Float.ofNat 75000)) (bytesOf "+1") ∧
      (value ⟨[0, 0, 7, 5, 0], 2⟩ : Float) = Float.ofNat 75000 := by
  let s : Spelling :=
    ⟨bytesOf "007", List.all_eq_true.1 (by decide),
      some ⟨bytesOf "50", List.all_eq_true.1 (by decide), by decide⟩,
      some ⟨false, none, ⟨bytesOf "4", List.all_eq_true.1 (by decide), by decide⟩⟩, .inr rfl⟩
  have hs : s.InRange := ⟨by decide, by rintro p ⟨⟩; decide, by decide⟩
  have hr : s.Ends (bytesOf "+1") := ⟨by decide, nofun, nofun, nofun⟩
  have hn : s.decimal = (75000 : ℕ) := by
    have hi : s.integer = 750 := by decide
    have he : s.literal.exponent = 2 := by decide
    rw [Spelling.decimal_eq, hi, he]
    norm_num
  obtain ⟨hnext, hvalue⟩ := next_whole 32 hs hr (by decide) hn (by norm_num) (by norm_num)
  exact ⟨hnext, hvalue Float exactBelow_float⟩

end Formula.Literal
