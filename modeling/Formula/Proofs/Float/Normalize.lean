import Mathlib
import Formula.Proofs.Float.Nearest

/-!
# Rounding the result of an operation

An operation computes a mantissa that may have too many digits, with two bits that say what was cut
off behind it.  The digits in excess are shifted out, and the mantissa is rounded by the two bits.

* `extended_shiftRight`, `extended_roundedMantissa` — the two bits are enough to round correctly.
* `roundWithAccuracy_eq` — what is computed in a unit that is small enough is rounded to the nearest
  number that floats hold.
* `normalize_natCast` — and so is a whole number of units of any size.
-/

namespace Formula.Binary64

open Float.Model (Format UnpackedFloat totalExponent)
open Float.Model.UnpackedFloat

variable {q x : ℚ}

/-! ## Digits in excess -/

/-- What is kept of `x` in order to round it: its whole part, whether the rest comes to a half, and
whether anything else is left. -/
def extended (x : ℚ) : ExtendedMantissa where
  mantissa := ⌊x⌋₊
  roundBit := 1 / 2 ≤ Int.fract x
  stickyBit := Int.fract x ≠ 0 ∧ Int.fract x ≠ 1 / 2

theorem floor_add_fract (hx : 0 ≤ x) : (⌊x⌋₊ : ℚ) + Int.fract x = x := by
  rw [natCast_floor_eq_intCast_floor hx]
  exact Int.floor_add_fract x

/-- The digit that is shifted out joins the rest. -/
theorem fract_half (hx : 0 ≤ x) :
    Int.fract (x / 2) = ((⌊x⌋₊ % 2 : ℕ) + Int.fract x) / 2 := by
  have h0 := Int.fract_nonneg x
  have h1 := Int.fract_lt_one x
  have hfloor := floor_add_fract hx
  have hdigit : ((⌊x⌋₊ % 2 : ℕ) : ℚ) ≤ 1 := by
    exact_mod_cast (by omega : ⌊x⌋₊ % 2 ≤ 1)
  have hdiv : ((⌊x⌋₊ % 2 : ℕ) : ℚ) + 2 * (⌊x⌋₊ / 2 : ℕ) = ⌊x⌋₊ := by
    exact_mod_cast Nat.mod_add_div _ 2
  refine Int.fract_eq_iff.2 ⟨by positivity, by linarith, (⌊x⌋₊ / 2 : ℕ), ?_⟩
  rw [Int.cast_natCast]
  linarith

theorem extended_shiftRightOne (hx : 0 ≤ x) : (extended x).shiftRightOne = extended (x / 2) := by
  have h0 := Int.fract_nonneg x
  have h1 := Int.fract_lt_one x
  have hrest : 1 / 2 ≤ Int.fract x ∨ Int.fract x ≠ 0 ∧ Int.fract x ≠ 1 / 2 ↔ Int.fract x ≠ 0 := by
    grind
  simp only [ExtendedMantissa.shiftRightOne, extended, fract_half hx, Nat.floor_div_ofNat,
    ExtendedMantissa.mk.injEq, true_and, ← Bool.decide_or, hrest]
  rcases Nat.mod_two_eq_zero_or_one ⌊x⌋₊ with h | h <;> rw [h] <;> push_cast <;>
    refine ⟨?_, decide_eq_decide.2 ?_⟩
  · simp
    linarith
  · grind
  · simp
    linarith
  · grind

/-- Shifting out `n` digits is a division by `2 ^ n`. -/
theorem extended_shiftRight (hx : 0 ≤ x) (n : ℕ) : extended x >>> n = extended (x / 2 ^ n) := by
  show n.repeat ExtendedMantissa.shiftRightOne (extended x) = _
  induction n with
  | zero => simp [Nat.repeat]
  | succ n ih =>
    rw [Nat.repeat, ih, extended_shiftRightOne (by positivity), div_div, ← pow_succ]

/-- The two bits are enough to round. -/
theorem extended_roundedMantissa (hx : 0 ≤ x) :
    ((extended x).roundedMantissa : ℤ) = nearestWhole x := by
  simp only [nearestWhole, ← Int.natCast_floor_eq_floor hx, extended,
    ExtendedMantissa.roundedMantissa]
  rcases lt_trichotomy (Int.fract x) (1 / 2) with h | h | h
  · have hround : decide (1 / 2 ≤ Int.fract x) = false := decide_eq_false h.not_ge
    rw [if_pos h, hround]
    cases decide (Int.fract x ≠ 0 ∧ Int.fract x ≠ 1 / 2) <;> rfl
  · simp [h, ExtendedMantissa.accuracy, Accuracy.roundToNearestEven]
  · have hround : decide (1 / 2 ≤ Int.fract x) = true := decide_eq_true h.le
    have hsticky : decide (Int.fract x ≠ 0 ∧ Int.fract x ≠ 1 / 2) = true :=
      decide_eq_true ⟨(one_half_pos.trans h).ne', h.ne'⟩
    rw [if_neg h.not_gt, if_pos h, hround, hsticky]
    rfl

/-- A whole number leaves no rest. -/
theorem extended_natCast (m : ℕ) : extended m = .ofMantissaAndAccuracy m .exact := by
  simp [extended, ExtendedMantissa.ofMantissaAndAccuracy]

/-- A quotient of whole numbers leaves the rest of the division. -/
theorem extended_div (m : ℕ) {k : ℕ} (hk : 0 < k) :
    extended (m / k) = .ofMantissaAndAccuracy (m / k) (accuracyOfFraction (m % k) k) := by
  have hk' : (0 : ℚ) < k := Nat.cast_pos.2 hk
  have hround : 1 / 2 ≤ ((m % k : ℕ) : ℚ) / k ↔ k ≤ 2 * (m % k) := by
    rw [div_le_div_iff₀ two_pos hk']
    norm_cast
    omega
  have hhalf : ((m % k : ℕ) : ℚ) / k = 1 / 2 ↔ 2 * (m % k) = k := by
    rw [div_eq_div_iff hk'.ne' two_ne_zero]
    norm_cast
    omega
  have hzero : ((m % k : ℕ) : ℚ) / k = 0 ↔ m % k = 0 := by
    simp [hk.ne']
  simp only [extended, Int.fract_div_natCast_eq_div_natCast_mod, Nat.floor_div_eq_div, hround,
    ne_eq, hzero, hhalf, accuracyOfFraction]
  by_cases h0 : m % k = 0
  · simp [h0, hk.ne', ExtendedMantissa.ofMantissaAndAccuracy]
  · rw [if_neg h0]
    rcases lt_trichotomy (2 * (m % k)) k with h | h | h
    · simp [compare_lt_iff_lt.2 h, h0, h.ne, h.not_ge, ExtendedMantissa.ofMantissaAndAccuracy]
    · simp [h0, h, ExtendedMantissa.ofMantissaAndAccuracy]
    · simp [compare_gt_iff_gt.2 h, h0, h.ne', h.le, ExtendedMantissa.ofMantissaAndAccuracy]

/-! ## Rounding a result -/

theorem log_eq {e : ℤ} (hq : 0 < q) (hm : ⌊q / 2 ^ e⌋₊ ≠ 0) :
    Int.log 2 q = ⌊q / 2 ^ e⌋₊.log2 + e := by
  set m := ⌊q / 2 ^ e⌋₊ with hfloor
  have hx : 0 ≤ q / 2 ^ e := (div_pos hq (two_zpow_pos e)).le
  have hle : 2 ^ ((m.log2 : ℤ) + e) ≤ q := by
    rw [two_zpow_add, ← le_div_iff₀ (two_zpow_pos e), zpow_natCast]
    calc (2 ^ m.log2 : ℚ) ≤ m := by exact_mod_cast Nat.log2_self_le hm
      _ ≤ q / 2 ^ e := Nat.floor_le hx
  have hlt : q < 2 ^ ((m.log2 : ℤ) + e + 1) := by
    rw [add_right_comm, two_zpow_add, ← div_lt_iff₀ (two_zpow_pos e)]
    calc q / 2 ^ e < m + 1 := Nat.lt_floor_add_one _
      _ ≤ 2 ^ (m.log2 + 1) := by exact_mod_cast Nat.lt_log2_self
      _ = 2 ^ ((m.log2 : ℤ) + 1) := by rw [← zpow_natCast]; push_cast; rfl
  rw [two_zpow_le_iff hq] at hle
  rw [lt_two_zpow_iff hq] at hlt
  omega

theorem targetExponent_eq (total : ℤ) :
    Format.binary64.targetExponent total = max (total - 53) (-1074) :=
  rfl

theorem targetExponent_of_ne_zero {e : ℤ} (hq : 0 < q) (hm : ⌊q / 2 ^ e⌋₊ ≠ 0) :
    Format.binary64.targetExponent (totalExponent ⌊q / 2 ^ e⌋₊ e) = unitExponent q := by
  rw [targetExponent_eq, totalExponent, unitExponent, log_eq hq hm]
  omega

theorem targetExponent_of_le {e : ℤ} (hq : 0 < q) (he : e ≤ unitExponent q) :
    Format.binary64.targetExponent (totalExponent ⌊q / 2 ^ e⌋₊ e) = unitExponent q := by
  by_cases hm : ⌊q / 2 ^ e⌋₊ = 0
  · -- nothing reaches the unit, so it is the least one
    have hlt : Int.log 2 q < e := by
      rwa [Nat.floor_eq_zero, div_lt_one (two_zpow_pos e), lt_two_zpow_iff hq] at hm
    rw [targetExponent_eq, totalExponent, hm, Nat.log2_zero]
    unfold unitExponent at he ⊢
    omega
  · exact targetExponent_of_ne_zero hq hm

theorem mantissa_ofMantissaAndAccuracy (m : ℕ) (accuracy : Accuracy) :
    (ExtendedMantissa.ofMantissaAndAccuracy m accuracy).mantissa = m := by
  cases accuracy with
  | exact => rfl
  | inexact o => cases o <;> rfl

/-- Shifting goes to the unit that the number is rounded to. -/
theorem shiftToTargetExponent_eq {m : ℕ} {e : ℤ} {accuracy : Accuracy} (hq : 0 < q)
    (he : e ≤ unitExponent q) (h : .ofMantissaAndAccuracy m accuracy = extended (q / 2 ^ e)) :
    shiftToTargetExponent Format.binary64 m e accuracy =
      (extended (q / 2 ^ unitExponent q), unitExponent q) := by
  have hm : ⌊q / 2 ^ e⌋₊ = m := by
    rw [← mantissa_ofMantissaAndAccuracy m accuracy, h, extended]
  have hshift : ((unitExponent q - e).toNat : ℤ) = unitExponent q - e :=
    Int.toNat_of_nonneg (sub_nonneg.2 he)
  have hx : 0 ≤ q / 2 ^ e := (div_pos hq (two_zpow_pos e)).le
  have hdiv : q / 2 ^ e / 2 ^ (unitExponent q - e).toNat = q / 2 ^ unitExponent q := by
    rw [div_div, ← zpow_natCast, hshift, ← two_zpow_add, add_sub_cancel]
  rw [shiftToTargetExponent, ← hm, targetExponent_of_le hq he, shiftToExponent, hm, h,
    extended_shiftRight hx, hdiv, hshift, add_sub_cancel]

theorem unitExponent_le_rounded (hq : 0 < q) (hr : 0 < rounded q) :
    unitExponent q ≤ unitExponent (rounded q) := by
  have hmin : -1074 ≤ unitExponent q := le_max_right _ _
  rcases hmin.eq_or_lt with h | h
  · rw [← h]
    exact le_max_right _ _
  · have := (two_zpow_le_iff hr).1 (two_zpow_le_rounded hq h)
    unfold unitExponent at this ⊢
    omega

theorem mantissa_shiftToTargetExponent_zero (e : ℤ) :
    (shiftToTargetExponent Format.binary64 0 e .exact).1.mantissa = 0 := by
  rw [shiftToTargetExponent, shiftToExponent, ← extended_natCast,
    extended_shiftRight (Nat.cast_nonneg 0)]
  simp [extended]

/-- What is computed in a unit that is small enough is rounded correctly. -/
theorem roundWithAccuracy_eq {m : ℕ} {e : ℤ} {accuracy : Accuracy} (hq : 0 < q)
    (he : e ≤ unitExponent q) (h : .ofMantissaAndAccuracy m accuracy = extended (q / 2 ^ e)) :
    roundWithAccuracy Format.binary64 .positive m e accuracy = unpacked (rounded q) := by
  have hx : 0 ≤ q / 2 ^ unitExponent q := (div_pos hq (two_zpow_pos _)).le
  have hm : rounded q = (extended (q / 2 ^ unitExponent q)).roundedMantissa *
      2 ^ unitExponent q := by
    rw [rounded, ← extended_roundedMantissa hx, Int.cast_natCast]
  rw [roundWithAccuracy, shiftToTargetExponent_eq hq he h]
  simp only
  rcases (rounded_nonneg hq.le).eq_or_lt with h0 | hpos
  · have hzero : (extended (q / 2 ^ unitExponent q)).roundedMantissa = 0 := by
      rw [hm, zero_eq_mul] at h0
      exact_mod_cast h0.resolve_right (two_zpow_pos _).ne'
    rw [← h0, unpacked_zero, hzero, dif_pos (mantissa_shiftToTargetExponent_zero _)]
  · -- the rounded mantissa may have one digit too many, which is shifted out without loss
    have hexact : ExtendedMantissa.ofMantissaAndAccuracy
        (extended (q / 2 ^ unitExponent q)).roundedMantissa .exact =
        extended (rounded q / 2 ^ unitExponent q) := by
      rw [hm, mul_div_cancel_right₀ _ (two_zpow_pos _).ne', extended_natCast]
    rw [shiftToTargetExponent_eq hpos (unitExponent_le_rounded hq hpos) hexact]
    rfl

/-- In a smaller unit, a number has more of them. -/
theorem shiftLeft_mul (m : ℕ) {d e : ℤ} (h : d ≤ e) :
    ((m <<< (e - d).toNat : ℕ) : ℚ) * 2 ^ d = m * 2 ^ e := by
  have hshift : ((e - d).toNat : ℤ) = e - d := Int.toNat_of_nonneg (sub_nonneg.2 h)
  rw [Nat.shiftLeft_eq, Nat.cast_mul, Nat.cast_pow, Nat.cast_two, ← zpow_natCast, hshift, mul_assoc,
    ← two_zpow_add, sub_add_cancel]

/-- A whole number of units of any size is rounded correctly. -/
theorem normalize_natCast (m : ℕ) (e : ℤ) :
    UnpackedFloat.normalize Format.binary64 m e .positive = unpacked (rounded (m * 2 ^ e)) := by
  rcases m.eq_zero_or_pos with rfl | hm
  · simp
    rfl
  · set q : ℚ := m * 2 ^ e with hdef
    have hq : 0 < q := mul_pos (Nat.cast_pos.2 hm) (two_zpow_pos e)
    have hdiv : q / 2 ^ e = m := mul_div_cancel_right₀ _ (two_zpow_pos e).ne'
    have htarget : Format.binary64.targetExponent (totalExponent m e) = unitExponent q := by
      have hfloor : ⌊q / 2 ^ e⌋₊ = m := by rw [hdiv, Nat.floor_natCast]
      rw [← hfloor]
      exact targetExponent_of_ne_zero hq (by rw [hfloor]; exact hm.ne')
    have hgt : compare (m : ℤ) 0 = .gt := compare_gt_iff_gt.2 (Nat.cast_pos.2 hm)
    rw [UnpackedFloat.normalize, hgt]
    simp only [Int.toNat_natCast, UnpackedFloat.round, htarget, decreaseExponent]
    -- the unit is made small enough first
    rcases le_total e (unitExponent q) with hle | hle
    · have hzero : (e - unitExponent q).toNat = 0 := by omega
      rw [hzero, Nat.shiftLeft_zero, Nat.cast_zero, sub_zero]
      exact roundWithAccuracy_eq hq hle (by rw [hdiv, extended_natCast])
    · have hshift : e - ((e - unitExponent q).toNat : ℤ) = unitExponent q := by omega
      rw [hshift]
      refine roundWithAccuracy_eq hq le_rfl ?_
      rw [← extended_natCast]
      congr 1
      rw [eq_div_iff (two_zpow_pos _).ne']
      exact shiftLeft_mul m hle

end Formula.Binary64
