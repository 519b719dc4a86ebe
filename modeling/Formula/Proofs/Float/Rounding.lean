import Mathlib

/-!
# Rounding to 53 binary digits

Floats are the numbers with 53 binary digits, or fewer next to zero.  Every operation on them gives
the number of this kind that is nearest to the exact result.  Here is that number for any rational
that is not negative; how far floats reach is left open.

* `rounded_mono` — rounding keeps the order.
* `rounded_rounded`, `rounded_natCast` — what has 53 digits stays as it is.
* `rounded_le`, `le_rounded` — rounding changes a number by no more than its share `precision`.
-/

namespace Formula.Binary64

/-! ## Whole numbers -/

/-- The whole number nearest to `x`; of two at the same distance, the even one. -/
def nearestWhole (x : ℚ) : ℤ :=
  if Int.fract x < 1 / 2 then ⌊x⌋
  else if 1 / 2 < Int.fract x then ⌊x⌋ + 1
  else ⌊x⌋ + ⌊x⌋ % 2

theorem floor_le_nearestWhole (x : ℚ) : ⌊x⌋ ≤ nearestWhole x := by
  unfold nearestWhole
  split_ifs <;> omega

theorem nearestWhole_le_floor_add_one (x : ℚ) : nearestWhole x ≤ ⌊x⌋ + 1 := by
  unfold nearestWhole
  split_ifs <;> omega

@[simp]
theorem nearestWhole_intCast (n : ℤ) : nearestWhole n = n := by
  simp [nearestWhole]

theorem nearestWhole_two_pow (k : ℕ) : nearestWhole (2 ^ k) = 2 ^ k := by
  exact_mod_cast nearestWhole_intCast (2 ^ k)

theorem nearestWhole_mono : Monotone nearestWhole := by
  intro x y hxy
  rcases (Int.floor_mono hxy).lt_or_eq with hlt | heq
  · calc nearestWhole x ≤ ⌊x⌋ + 1 := nearestWhole_le_floor_add_one x
      _ ≤ ⌊y⌋ := hlt
      _ ≤ nearestWhole y := floor_le_nearestWhole y
  · have hf : Int.fract x ≤ Int.fract y := by
      rw [Int.fract, Int.fract, heq]
      exact sub_le_sub_right hxy _
    unfold nearestWhole
    rw [heq]
    split_ifs <;> first | omega | linarith

theorem abs_nearestWhole_sub_le (x : ℚ) : |nearestWhole x - x| ≤ 1 / 2 := by
  have hx := Int.floor_add_fract x
  have h0 := Int.fract_nonneg x
  have h1 := Int.fract_lt_one x
  unfold nearestWhole
  rw [abs_le]
  split_ifs with hlt hgt
  · constructor <;> linarith
  · push_cast
    constructor <;> linarith
  · -- halfway between two whole numbers, either is near enough
    rcases Int.emod_two_eq_zero_or_one ⌊x⌋ with h | h <;> rw [h] <;> push_cast <;>
      constructor <;> linarith

/-! ## The unit -/

/-- The exponent of the unit that a number is rounded to.  The unit leaves 53 binary digits of the
number, and fewer only where it would become too small. -/
def unitExponent (q : ℚ) : ℤ :=
  max (Int.log 2 q - 52) (-1074)

variable {q r : ℚ}

theorem two_zpow_pos (e : ℤ) : (0 : ℚ) < 2 ^ e :=
  zpow_pos two_pos e

theorem two_zpow_add (d e : ℤ) : (2 : ℚ) ^ (d + e) = 2 ^ d * 2 ^ e :=
  zpow_add₀ two_ne_zero d e

theorem lt_two_zpow_iff (hq : 0 < q) {e : ℤ} : q < 2 ^ e ↔ Int.log 2 q < e :=
  Int.lt_zpow_iff_log_lt one_lt_two hq

theorem two_zpow_le_iff (hq : 0 < q) {e : ℤ} : 2 ^ e ≤ q ↔ e ≤ Int.log 2 q :=
  Int.zpow_le_iff_le_log one_lt_two hq

theorem unitExponent_mono (hq : 0 < q) (hqr : q ≤ r) : unitExponent q ≤ unitExponent r :=
  max_le_max_right _ (sub_le_sub_right (Int.log_mono_right hq hqr) _)

theorem unitExponent_le (hq : 0 < q) {e : ℤ} (he : -1074 ≤ e) (h : q < 2 ^ (53 + e)) :
    unitExponent q ≤ e := by
  rw [lt_two_zpow_iff hq] at h
  unfold unitExponent
  omega

theorem lt_of_unitExponent (hq : 0 < q) : q / 2 ^ unitExponent q < 2 ^ 53 := by
  have h : q < 2 ^ (53 + unitExponent q) := by
    rw [lt_two_zpow_iff hq]
    unfold unitExponent
    omega
  rwa [div_lt_iff₀ (two_zpow_pos _), ← zpow_natCast, ← two_zpow_add]

/-- A unit above the least one leaves all 53 digits. -/
theorem le_of_unitExponent (hq : 0 < q) (h : -1074 < unitExponent q) :
    2 ^ 52 ≤ q / 2 ^ unitExponent q := by
  have h : 2 ^ (52 + unitExponent q) ≤ q := by
    rw [two_zpow_le_iff hq]
    unfold unitExponent at h ⊢
    omega
  rwa [le_div_iff₀ (two_zpow_pos _), ← zpow_natCast, ← two_zpow_add]

/-! ## Rounding -/

/-- The number nearest to `q` with 53 binary digits. -/
def rounded (q : ℚ) : ℚ :=
  nearestWhole (q / 2 ^ unitExponent q) * 2 ^ unitExponent q

@[simp]
theorem rounded_zero : rounded 0 = 0 := by
  simp [rounded, nearestWhole]

theorem rounded_nonneg (hq : 0 ≤ q) : 0 ≤ rounded q := by
  have h : 0 ≤ nearestWhole (q / 2 ^ unitExponent q) := by
    have := nearestWhole_mono (div_nonneg hq (two_zpow_pos (unitExponent q)).le)
    simpa [nearestWhole] using this
  exact mul_nonneg (Int.cast_nonneg h) (two_zpow_pos _).le

/-- A number that is whole in the unit stays as it is. -/
theorem rounded_of_unitExponent_le {m e : ℤ} (h : unitExponent (m * 2 ^ e) ≤ e) :
    rounded (m * 2 ^ e) = m * 2 ^ e := by
  have hm : (m * 2 ^ e : ℚ) / 2 ^ unitExponent (m * 2 ^ e) =
      ((m * 2 ^ (e - unitExponent (m * 2 ^ e)).toNat : ℤ) : ℚ) := by
    have he : ((e - unitExponent (m * 2 ^ e)).toNat : ℤ) = e - unitExponent (m * 2 ^ e) :=
      Int.toNat_of_nonneg (sub_nonneg.2 h)
    push_cast
    rw [← zpow_natCast, he, zpow_sub₀ two_ne_zero, mul_div_assoc]
  rw [rounded, hm, nearestWhole_intCast, ← hm, div_mul_cancel₀ _ (two_zpow_pos _).ne']

theorem rounded_mul_two_zpow {m : ℕ} (hm : m < 2 ^ 53) {e : ℤ} (he : -1074 ≤ e) :
    rounded (m * 2 ^ e) = m * 2 ^ e := by
  rcases m.eq_zero_or_pos with rfl | hpos
  · simp
  · have hq : (0 : ℚ) < m * 2 ^ e := mul_pos (Nat.cast_pos.2 hpos) (two_zpow_pos e)
    have hlt : (m * 2 ^ e : ℚ) < 2 ^ (53 + e) := by
      rw [two_zpow_add]
      exact mul_lt_mul_of_pos_right (by exact_mod_cast hm) (two_zpow_pos e)
    exact rounded_of_unitExponent_le (m := m) (unitExponent_le hq he hlt)

theorem rounded_natCast {n : ℕ} (hn : n < 2 ^ 53) : rounded n = n := by
  simpa using rounded_mul_two_zpow hn (e := 0) (by decide)

theorem rounded_two_pow (k : ℕ) : rounded (2 ^ k) = 2 ^ k := by
  simpa using rounded_mul_two_zpow (m := 1) (by norm_num) (e := k) (by omega)

/-- What is left of a number: a whole number of units, of 53 digits at most. -/
theorem exists_rounded (hq : 0 ≤ q) :
    ∃ m : ℕ, m ≤ 2 ^ 53 ∧ rounded q = m * 2 ^ unitExponent q := by
  rcases hq.eq_or_lt with rfl | hq
  · exact ⟨0, by simp⟩
  · have h0 := nearestWhole_mono (div_pos hq (two_zpow_pos (unitExponent q))).le
    have h := nearestWhole_mono (lt_of_unitExponent hq).le
    rw [← Int.cast_zero, nearestWhole_intCast] at h0
    rw [nearestWhole_two_pow] at h
    obtain ⟨m, hm⟩ := Int.eq_ofNat_of_zero_le h0
    rw [hm] at h
    exact ⟨m, by exact_mod_cast h, by rw [rounded, hm, Int.cast_natCast]⟩

/-- Rounding once more changes nothing. -/
theorem rounded_rounded (hq : 0 ≤ q) : rounded (rounded q) = rounded q := by
  obtain ⟨m, hm, hr⟩ := exists_rounded hq
  have hu : -1074 ≤ unitExponent q := le_max_right _ _
  rw [hr]
  rcases hm.lt_or_eq with hlt | rfl
  · exact rounded_mul_two_zpow hlt hu
  · -- one digit too many, and the last one is zero
    have h : ((2 ^ 53 : ℕ) : ℚ) * 2 ^ unitExponent q =
        (2 ^ 52 : ℕ) * 2 ^ (unitExponent q + 1) := by
      rw [two_zpow_add]
      push_cast
      ring
    rw [h]
    exact rounded_mul_two_zpow (by norm_num) (by omega)

theorem rounded_le_two_zpow (hq : 0 ≤ q) : rounded q ≤ 2 ^ (53 + unitExponent q) := by
  obtain ⟨m, hm, hr⟩ := exists_rounded hq
  rw [hr, two_zpow_add]
  exact mul_le_mul_of_nonneg_right (by exact_mod_cast hm) (two_zpow_pos _).le

theorem two_zpow_le_rounded (hq : 0 < q) (h : -1074 < unitExponent q) :
    2 ^ (52 + unitExponent q) ≤ rounded q := by
  have h := nearestWhole_mono (le_of_unitExponent hq h)
  rw [nearestWhole_two_pow] at h
  rw [rounded, two_zpow_add]
  exact mul_le_mul_of_nonneg_right (by exact_mod_cast h) (two_zpow_pos _).le

theorem rounded_mono (hq : 0 ≤ q) (hqr : q ≤ r) : rounded q ≤ rounded r := by
  rcases hq.eq_or_lt with rfl | hpos
  · rw [rounded_zero]
    exact rounded_nonneg hqr
  · rcases (unitExponent_mono hpos hqr).eq_or_lt with heq | hlt
    · have h := nearestWhole_mono
        (div_le_div_of_nonneg_right hqr (two_zpow_pos (unitExponent q)).le)
      rw [rounded, rounded, ← heq]
      exact mul_le_mul_of_nonneg_right (Int.cast_le.2 h) (two_zpow_pos _).le
    · -- a power of two lies between numbers that are rounded to different units
      have hu : -1074 ≤ unitExponent q := le_max_right _ _
      calc rounded q ≤ 2 ^ (53 + unitExponent q) := rounded_le_two_zpow hq
        _ ≤ 2 ^ (52 + unitExponent r) := zpow_le_zpow_right₀ one_le_two (by omega)
        _ ≤ rounded r := two_zpow_le_rounded (hpos.trans_le hqr) (by omega)

/-- The share of a number that rounding changes at most. -/
def precision : ℚ :=
  1 / 2 ^ 53

theorem abs_rounded_sub_le (h : 1 ≤ q) : |rounded q - q| ≤ q * precision := by
  have hq : 0 < q := one_pos.trans_le h
  have hu : -1074 < unitExponent q := by
    have : 0 ≤ Int.log 2 q := (two_zpow_le_iff hq).1 (by simpa using h)
    unfold unitExponent
    omega
  set x := q / 2 ^ unitExponent q with hx
  have hqx : q = x * 2 ^ unitExponent q := (div_mul_cancel₀ _ (two_zpow_pos _).ne').symm
  have hle : 2 ^ 52 ≤ x := le_of_unitExponent hq hu
  have hdiff : rounded q - q = (nearestWhole x - x) * 2 ^ unitExponent q := by
    rw [sub_mul, ← hqx, rounded, hx]
  calc |rounded q - q| = |nearestWhole x - x| * 2 ^ unitExponent q := by
        rw [hdiff, abs_mul, abs_of_pos (two_zpow_pos _)]
    _ ≤ x * precision * 2 ^ unitExponent q := by
        refine mul_le_mul_of_nonneg_right ((abs_nearestWhole_sub_le x).trans ?_) (two_zpow_pos _).le
        unfold precision
        linarith
    _ = q * precision := by rw [mul_right_comm, ← hqx]

theorem rounded_le (h : 1 ≤ q) : rounded q ≤ q * (1 + precision) := by
  have := (abs_le.1 (abs_rounded_sub_le h)).2
  linarith

theorem le_rounded (h : 1 ≤ q) : q * (1 - precision) ≤ rounded q := by
  have := (abs_le.1 (abs_rounded_sub_le h)).1
  linarith

theorem one_le_rounded (h : 1 ≤ q) : 1 ≤ rounded q := by
  calc 1 = rounded 1 := by simpa using (rounded_two_pow 0).symm
    _ ≤ rounded q := rounded_mono zero_le_one h

end Formula.Binary64
