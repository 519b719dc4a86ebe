import Mathlib
import Formula.Proofs.Float.Normalize

/-!
# Arithmetic on floats

The operations in terms of the numbers that floats hold, and the rules for infinity, which stands for
all numbers that are too large.

* `nearest_mul`, `nearest_add`, `nearest_div` — a result is the float nearest to the exact one.
* `ofNat_eq` — natural numbers of 53 binary digits are floats.
* `nearest_mul_of_one_le`, `nearest_add_of_rounded` — what is too large stays so.
-/

namespace Formula.Binary64

open Float.Model (Format UnpackedFloat totalExponent)
open Float.Model.UnpackedFloat

variable {p q : ℚ}

/-! ## Operations -/

theorem Representable.unitExponent_le_log (hq : Representable q) (hpos : 0 < q) :
    unitExponent q ≤ Int.log 2 q := by
  rw [← two_zpow_le_iff hpos]
  calc (2 : ℚ) ^ unitExponent q = 1 * 2 ^ unitExponent q := (one_mul _).symm
    _ ≤ mantissa q * 2 ^ unitExponent q := by
      refine mul_le_mul_of_nonneg_right ?_ (two_zpow_pos _).le
      exact_mod_cast Nat.one_le_iff_ne_zero.2 (hq.mantissa_ne_zero hpos)
    _ = q := hq.mantissa_mul

theorem Representable.totalExponent_eq (hq : Representable q) (hpos : 0 < q) :
    totalExponent (mantissa q) (unitExponent q) = Int.log 2 q + 1 := by
  rw [totalExponent, log_eq hpos (hq.mantissa_ne_zero hpos), add_right_comm]
  rfl

theorem log_add_log_le (hp : 0 < p) (hq : 0 < q) :
    Int.log 2 p + Int.log 2 q ≤ Int.log 2 (p * q) := by
  rw [← two_zpow_le_iff (mul_pos hp hq), two_zpow_add]
  exact mul_le_mul ((two_zpow_le_iff hp).2 le_rfl) ((two_zpow_le_iff hq).2 le_rfl)
    (two_zpow_pos _).le hp.le

theorem log_sub_log_le (hp : 0 < p) (hq : 0 < q) :
    Int.log 2 p - Int.log 2 q - 1 ≤ Int.log 2 (p / q) := by
  rw [← two_zpow_le_iff (div_pos hp hq), le_div_iff₀ hq]
  have hlt : q ≤ 2 ^ (Int.log 2 q + 1) := ((lt_two_zpow_iff hq).2 (lt_add_one _)).le
  calc 2 ^ (Int.log 2 p - Int.log 2 q - 1) * q
      ≤ 2 ^ (Int.log 2 p - Int.log 2 q - 1) * 2 ^ (Int.log 2 q + 1) :=
        mul_le_mul_of_nonneg_left hlt (two_zpow_pos _).le
    _ = 2 ^ Int.log 2 p := by rw [← two_zpow_add]; congr 1; omega
    _ ≤ p := (two_zpow_le_iff hp).2 le_rfl

@[simp]
theorem positive_mul_positive : Sign.positive * Sign.positive = Sign.positive :=
  rfl

@[simp]
theorem positive_div_positive : Sign.positive / Sign.positive = Sign.positive :=
  rfl

theorem mul_unpacked (hp : Representable p) (hq : Representable q) :
    mul Format.binary64 (unpacked p) (unpacked q) = unpacked (rounded (p * q)) := by
  rcases hp.nonneg.eq_or_lt with rfl | hp0 <;> rcases hq.nonneg.eq_or_lt with rfl | hq0
  · simp [mul]
  · simp [mul, hq.unpacked_eq hq0]
  · simp [mul, hp.unpacked_eq hp0]
  · rw [hp.unpacked_eq hp0, hq.unpacked_eq hq0]
    refine roundWithAccuracy_eq (mul_pos hp0 hq0) ?_ ?_
    · have := log_add_log_le hp0 hq0
      have := hp.unitExponent_le_log hp0
      have := hq.unitExponent_le_log hq0
      unfold unitExponent at *
      omega
    · rw [← extended_natCast]
      congr 1
      rw [eq_div_iff (two_zpow_pos _).ne', two_zpow_add, Nat.cast_mul, mul_mul_mul_comm,
        hp.mantissa_mul, hq.mantissa_mul]

theorem add_unpacked (hp : Representable p) (hq : Representable q) :
    add Format.binary64 (unpacked p) (unpacked q) = unpacked (rounded (p + q)) := by
  rcases hp.nonneg.eq_or_lt with rfl | hp0 <;> rcases hq.nonneg.eq_or_lt with rfl | hq0
  · simp [add]
  · simp [add, hq.unpacked_eq hq0, hq.rounded]
  · simp [add, hp.unpacked_eq hp0, hp.rounded]
  · rw [hp.unpacked_eq hp0, hq.unpacked_eq hq0]
    set d := min (unitExponent p) (unitExponent q) with hd
    have hsum : p + q = ((mantissa p <<< (unitExponent p - d).toNat +
        mantissa q <<< (unitExponent q - d).toNat : ℕ) : ℚ) * 2 ^ d := by
      rw [Nat.cast_add, add_mul, shiftLeft_mul _ (min_le_left _ _),
        shiftLeft_mul _ (min_le_right _ _), hp.mantissa_mul, hq.mantissa_mul]
    rw [hsum, ← normalize_natCast, Nat.cast_add]
    rfl

theorem div_unpacked (hp : Representable p) (hq : Representable q) (hq0 : 0 < q) :
    div Format.binary64 (unpacked p) (unpacked q) = unpacked (rounded (p / q)) := by
  rcases hp.nonneg.eq_or_lt with rfl | hp0
  · simp [div, hq.unpacked_eq hq0]
  · rw [hp.unpacked_eq hp0, hq.unpacked_eq hq0]
    simp only [div, divCore]
    rw [hp.totalExponent_eq hp0, hq.totalExponent_eq hq0, targetExponent_eq]
    set d := min (unitExponent p - unitExponent q)
      (max (Int.log 2 p + 1 - (Int.log 2 q + 1) - 53) (-1074)) with hd
    have hle : d ≤ unitExponent (p / q) := by
      have := log_sub_log_le hp0 hq0
      unfold unitExponent at *
      omega
    refine roundWithAccuracy_eq (div_pos hp0 hq0) hle ?_
    rw [← extended_div _ (Nat.pos_of_ne_zero (hq.mantissa_ne_zero hq0))]
    congr 1
    have hquotient : p / q = mantissa p * 2 ^ (unitExponent p - unitExponent q) / mantissa q := by
      calc p / q = mantissa p * 2 ^ unitExponent p / (mantissa q * 2 ^ unitExponent q) := by
            rw [hp.mantissa_mul, hq.mantissa_mul]
        _ = mantissa p * 2 ^ (unitExponent p - unitExponent q) / mantissa q := by
            rw [zpow_sub₀ two_ne_zero, mul_comm (mantissa q : ℚ), ← div_div, mul_div_assoc]
    rw [eq_div_iff (two_zpow_pos _).ne', hquotient, div_mul_eq_mul_div,
      shiftLeft_mul _ (min_le_left _ _)]

/-- A product is the float nearest to the exact product. -/
theorem nearest_mul (hp : Representable p) (hq : Representable q) :
    nearest p * nearest q = nearest (p * q) := by
  show Float.ofModel (.pack (mul _ (nearest p).toModel.unpack (nearest q).toModel.unpack)) = _
  rw [hp.unpack_nearest, hq.unpack_nearest, mul_unpacked hp hq, nearest]

theorem nearest_add (hp : Representable p) (hq : Representable q) :
    nearest p + nearest q = nearest (p + q) := by
  show Float.ofModel (.pack (add _ (nearest p).toModel.unpack (nearest q).toModel.unpack)) = _
  rw [hp.unpack_nearest, hq.unpack_nearest, add_unpacked hp hq, nearest]

theorem nearest_div (hp : Representable p) (hq : Representable q) (hq0 : 0 < q) :
    nearest p / nearest q = nearest (p / q) := by
  show Float.ofModel (.pack (div _ (nearest p).toModel.unpack (nearest q).toModel.unpack)) = _
  rw [hp.unpack_nearest, hq.unpack_nearest, div_unpacked hp hq hq0, nearest]

theorem toFloat_eq {n : ℕ} (hn : n < 2 ^ 53) : n.toUInt64.toFloat = nearest n := by
  have hmod : n.toUInt64.toNat = n := Nat.mod_eq_of_lt (by omega)
  show Float.ofModel (.pack (UnpackedFloat.normalize _ n.toUInt64.toNat 0 .positive)) = _
  rw [hmod, normalize_natCast, zpow_zero, mul_one, nearest]

/-- A natural number of 53 digits is a float. -/
theorem ofNat_eq {n : ℕ} (hn : n < 2 ^ 53) : Float.ofNat n = nearest n := by
  have hone : Float.ofBits 0x3FF0000000000000 = nearest (1 : ℕ) := by
    rw [← toFloat_eq (by norm_num)]
    decide
  show Float.ofScientific n false 0 = nearest n
  rw [Float.ofScientific, dif_pos ⟨hn, by decide⟩]
  show n.toUInt64.toFloat * Float.ofBits 0x3FF0000000000000 = nearest n
  rw [toFloat_eq hn, hone,
    nearest_mul (representable_natCast hn) (representable_natCast (by norm_num)),
    Nat.cast_one, mul_one]

theorem nearest_zero : nearest 0 = 0 := by
  rw [← Nat.cast_zero, ← ofNat_eq (by norm_num)]
  rfl

/-! ## Infinity -/

theorem Representable.isFinite_nearest (hq : Representable q) : (nearest q).isFinite = true := by
  show (nearest q).toModel.unpack.isFinite = true
  rw [hq.unpack_nearest, unpacked]
  split <;> rfl

theorem isFinite_inf : Float.inf.isFinite = false := by
  decide

theorem isFinite_nan : Float.nan.isFinite = false := by
  decide

@[simp]
theorem unpack_inf : Float.inf.toModel.unpack = .infinity .positive := by
  rw [inf_eq]
  rfl

theorem nan_eq : Float.nan = .ofModel (.pack .notANumber) := by
  decide

theorem isFinite_nearest_iff (hq : 0 ≤ q) (hr : rounded q = q) :
    (nearest q).isFinite ↔ q < 2 ^ 1024 := by
  constructor
  · intro h
    by_contra hle
    rw [nearest_of_le (hr.symm ▸ not_lt.1 hle), isFinite_inf] at h
    exact Bool.false_ne_true h
  · intro h
    exact Representable.isFinite_nearest ⟨hq, hr, h⟩

@[simp]
theorem nan_mul (f : Float) : Float.nan * f = Float.nan := by
  rw [nan_eq]
  rfl

@[simp]
theorem nan_div (f : Float) : Float.nan / f = Float.nan := by
  rw [nan_eq]
  rfl

theorem zero_eq : nearest 0 = .ofModel (.pack (.zero .positive)) := by
  rw [nearest, rounded_zero, unpacked_zero]

theorem inf_add_nearest (hq : Representable q) : Float.inf + nearest q = Float.inf := by
  show Float.ofModel (.pack (add _ Float.inf.toModel.unpack (nearest q).toModel.unpack)) = _
  rw [unpack_inf, hq.unpack_nearest, unpacked, inf_eq]
  split <;> rfl

theorem inf_mul_nearest (hq : Representable q) (hpos : 0 < q) :
    Float.inf * nearest q = Float.inf := by
  show Float.ofModel (.pack (mul _ Float.inf.toModel.unpack (nearest q).toModel.unpack)) = _
  rw [unpack_inf, hq.unpack_nearest, hq.unpacked_eq hpos, inf_eq]
  rfl

theorem inf_mul_inf : Float.inf * Float.inf = Float.inf := by
  decide

/-- An infinite power does not leave zero as it is. -/
theorem zero_mul_inf : nearest 0 * Float.inf = Float.nan := by
  rw [zero_eq]
  decide

theorem inf_div_nearest (hq : Representable q) : Float.inf / nearest q = Float.inf := by
  show Float.ofModel (.pack (div _ Float.inf.toModel.unpack (nearest q).toModel.unpack)) = _
  rw [unpack_inf, hq.unpack_nearest, unpacked, inf_eq]
  split <;> rfl

theorem nearest_div_inf (hq : Representable q) : nearest q / Float.inf = nearest 0 := by
  show Float.ofModel (.pack (div _ (nearest q).toModel.unpack Float.inf.toModel.unpack)) = _
  rw [unpack_inf, hq.unpack_nearest, unpacked, zero_eq]
  split <;> rfl

theorem inf_div_inf : Float.inf / Float.inf = Float.nan := by
  decide

/-- Infinity stands for all numbers that are too large, and a product with one of them is too large
as well. -/
theorem nearest_mul_of_one_le (hp : 0 ≤ p) (hp' : rounded p = p) (hq : Representable q)
    (h1 : 1 ≤ q) :
    nearest p * nearest q = nearest (p * q) := by
  rcases lt_or_ge p (2 ^ 1024) with hlt | hle
  · exact nearest_mul ⟨hp, hp', hlt⟩ hq
  · have hle' : 2 ^ 1024 ≤ rounded (p * q) := by
      calc 2 ^ 1024 ≤ rounded p := by rwa [hp']
        _ ≤ rounded (p * q) := rounded_mono hp (le_mul_of_one_le_right hp h1)
    rw [nearest_of_le (hp'.symm ▸ hle), inf_mul_nearest hq (one_pos.trans_le h1),
      nearest_of_le hle']

theorem nearest_add_of_rounded (hp : 0 ≤ p) (hp' : rounded p = p) (hq : Representable q) :
    nearest p + nearest q = nearest (p + q) := by
  rcases lt_or_ge p (2 ^ 1024) with hlt | hle
  · exact nearest_add ⟨hp, hp', hlt⟩ hq
  · have hle' : 2 ^ 1024 ≤ rounded (p + q) := by
      calc 2 ^ 1024 ≤ rounded p := by rwa [hp']
        _ ≤ rounded (p + q) := rounded_mono hp (le_add_of_nonneg_right hq.nonneg)
    rw [nearest_of_le (hp'.symm ▸ hle), inf_add_nearest hq, nearest_of_le hle']

end Formula.Binary64
