import Mathlib
import Formula.Proofs.Float.Rounding

/-!
# The float nearest to a number

A float is a word of 64 bits, and an operation reads a mantissa and a unit from the words it is
given.  Here is the word for a number that is not negative, and what is read from it.

* `unpack_nearest` — what is read is the mantissa of the number and its unit.
* `nearest_of_le` — a number that is too large gives infinity.
-/

namespace Formula.Binary64

open Float.Model (Format UnpackedFloat)
open Float.Model.UnpackedFloat

variable {q : ℚ}

/-! ## The mantissa -/

/-- How many whole units there are in `q`. -/
def mantissa (q : ℚ) : ℕ :=
  ⌊q / 2 ^ unitExponent q⌋₊

@[simp]
theorem mantissa_zero : mantissa 0 = 0 := by
  simp [mantissa]

theorem mantissa_lt (hq : 0 ≤ q) : mantissa q < 2 ^ 53 := by
  rcases hq.eq_or_lt with rfl | hpos
  · simp
  · rw [mantissa, Nat.floor_lt (div_nonneg hq (two_zpow_pos _).le)]
    exact_mod_cast lt_of_unitExponent hpos

theorem le_mantissa (hq : 0 < q) (h : -1074 < unitExponent q) : 2 ^ 52 ≤ mantissa q := by
  rw [mantissa, Nat.le_floor_iff (div_nonneg hq.le (two_zpow_pos _).le)]
  exact_mod_cast le_of_unitExponent hq h

/-! ## What a float holds -/

/-- The numbers that floats hold, those below zero left out. -/
structure Representable (q : ℚ) : Prop where
  nonneg : 0 ≤ q
  /-- It has 53 binary digits. -/
  rounded : rounded q = q
  /-- It is not too large. -/
  lt : q < 2 ^ 1024

theorem representable_rounded (hq : 0 ≤ q) (h : rounded q < 2 ^ 1024) : Representable (rounded q) :=
  ⟨rounded_nonneg hq, rounded_rounded hq, h⟩

theorem representable_natCast {n : ℕ} (hn : n < 2 ^ 53) : Representable n where
  nonneg := n.cast_nonneg
  rounded := rounded_natCast hn
  lt := by
    calc (n : ℚ) < 2 ^ 53 := by exact_mod_cast hn
      _ ≤ 2 ^ 1024 := pow_le_pow_right₀ one_le_two (by norm_num)

theorem Representable.zero : Representable 0 := by
  exact_mod_cast representable_natCast (n := 0) (by norm_num)

/-- Nothing of such a number lies between two units. -/
theorem Representable.mantissa_mul (hq : Representable q) :
    mantissa q * 2 ^ unitExponent q = q := by
  obtain ⟨m, -, hm⟩ := exists_rounded hq.nonneg
  rw [hq.rounded] at hm
  have hdiv : q / 2 ^ unitExponent q = m := (div_eq_iff (two_zpow_pos _).ne').2 hm
  rw [mantissa, hdiv, Nat.floor_natCast, ← hm]

theorem Representable.mantissa_ne_zero (hq : Representable q) (hpos : 0 < q) : mantissa q ≠ 0 := by
  intro h
  have := hq.mantissa_mul
  rw [h, Nat.cast_zero, zero_mul] at this
  exact hpos.ne this

theorem Representable.unitExponent_lt (hq : Representable q) (hpos : 0 < q) :
    unitExponent q < 972 := by
  have h : Int.log 2 q < 1024 := (lt_two_zpow_iff hpos).1 (by exact_mod_cast hq.lt)
  unfold unitExponent
  omega

/-! ## The word -/

/-- The mantissa of a number and its unit, as operations on floats read them. -/
def unpacked (q : ℚ) : UnpackedFloat :=
  if h : mantissa q = 0 then .zero .positive
  else .finite .positive (mantissa q) (unitExponent q) (Nat.pos_of_ne_zero h)

@[simp]
theorem unpacked_zero : unpacked 0 = .zero .positive := by
  simp [unpacked]

theorem Representable.unpacked_eq (hq : Representable q) (hpos : 0 < q) :
    unpacked q = .finite .positive (mantissa q) (unitExponent q)
      (Nat.pos_of_ne_zero (hq.mantissa_ne_zero hpos)) :=
  dif_neg (hq.mantissa_ne_zero hpos)

/-- A mantissa with all its digits is stored without the first one, which is known. -/
theorem unpack_pack_normal {m : ℕ} {e : ℤ} (hpos : 0 < m) (hle : 2 ^ 52 ≤ m) (hlt : m < 2 ^ 53)
    (hmin : -1074 ≤ e) (hmax : e < 972) :
    unpack Format.binary64 (UnpackedFloat.pack Format.binary64 (.finite .positive m e hpos)) =
      .finite .positive m e hpos := by
  have hlog : m.log2 = 52 := (Nat.log2_eq_iff hpos.ne').2 ⟨hle, hlt⟩
  obtain ⟨n, rfl⟩ : ∃ n : ℕ, e = n - 1075 := ⟨(e + 1075).toNat, by omega⟩
  have hbiased : ((n : ℤ) - 1075 + Format.binary64.exponentBias + (52 : ℕ)).toNat = n := by
    norm_num [Format.exponentBias]
    omega
  have hones : BitVec.ofNat 11 n ≠ -1#11 := by
    rw [ne_eq, ← BitVec.toNat_inj]
    simp
    omega
  have hzero : BitVec.ofNat 11 n ≠ 0#11 := by
    rw [ne_eq, ← BitVec.toNat_inj]
    simp
    omega
  have hdigits : (1#1 ++ BitVec.ofNat 52 m).toNat = m := by
    rw [BitVec.toNat_append, ← Nat.shiftLeft_add_eq_or_of_lt (BitVec.isLt _), BitVec.toNat_ofNat]
    simp [Nat.shiftLeft_eq]
    omega
  have hpack : UnpackedFloat.pack Format.binary64 (.finite .positive m (n - 1075) hpos) =
      packComponents Format.binary64 .positive (BitVec.ofNat 11 n) (BitVec.ofNat 52 m) := by
    simp only [UnpackedFloat.pack, hbiased, hlog]
    rw [if_neg (by omega), if_pos (by rfl)]
  rw [hpack, unpack]
  simp only [unpackExponent_packComponents, unpackMantissa_packComponents,
    unpackSign_packComponents, Sign.ofBitVec_toBitVec]
  rw [if_neg hones, if_neg hzero]
  congr 1
  simp [Format.exponentBias]
  omega

/-- A mantissa with fewer digits is stored as it is. -/
theorem unpack_pack_subnormal {m : ℕ} (hpos : 0 < m) (hlt : m < 2 ^ 52) :
    unpack Format.binary64 (UnpackedFloat.pack Format.binary64 (.finite .positive m (-1074) hpos)) =
      .finite .positive m (-1074) hpos := by
  have hlog : m.log2 < 52 := (Nat.log2_lt hpos.ne').2 hlt
  have hdigits : (BitVec.ofNat 52 m).toNat = m := Nat.mod_eq_of_lt hlt
  have hzero : BitVec.ofNat 52 m ≠ 0#52 := by
    rw [ne_eq, ← BitVec.toNat_inj, hdigits]
    exact hpos.ne'
  have hpack : UnpackedFloat.pack Format.binary64 (.finite .positive m (-1074) hpos) =
      packComponents Format.binary64 .positive 0#11 (BitVec.ofNat 52 m) := by
    simp only [UnpackedFloat.pack]
    rw [if_neg (by decide), if_neg (by simp [Format.mantissaBits]; omega)]
  rw [hpack, unpack]
  simp only [unpackExponent_packComponents, unpackMantissa_packComponents,
    unpackSign_packComponents, Sign.ofBitVec_toBitVec]
  rw [if_neg (by decide), if_pos trivial, dif_neg hzero]
  congr 1

theorem Representable.unpack_pack (hq : Representable q) :
    unpack Format.binary64 (pack Format.binary64 (unpacked q)) = unpacked q := by
  rcases hq.nonneg.eq_or_lt with rfl | hpos
  · rw [unpacked_zero]
    exact unpack_packedZero
  · have hmin : -1074 ≤ unitExponent q := le_max_right _ _
    have hlt := mantissa_lt hq.nonneg
    have hmax := hq.unitExponent_lt hpos
    rw [hq.unpacked_eq hpos]
    by_cases hle : 2 ^ 52 ≤ mantissa q
    · exact unpack_pack_normal _ hle hlt hmin hmax
    · have he : unitExponent q = -1074 := by
        by_contra hne
        exact hle (le_mantissa hpos (hmin.lt_of_ne' hne))
      simp only [he]
      exact unpack_pack_subnormal _ (not_le.1 hle)

/-- A number that is too large is stored as infinity. -/
theorem pack_unpacked_of_le (h : 2 ^ 1024 ≤ q) :
    pack Format.binary64 (unpacked q) = packedInfinity Format.binary64 .positive := by
  have hpos : 0 < q := (pow_pos two_pos _).trans_le h
  have hlog : 1024 ≤ Int.log 2 q := (two_zpow_le_iff hpos).1 (by exact_mod_cast h)
  have he : 972 ≤ unitExponent q := by
    unfold unitExponent
    omega
  have hm : mantissa q ≠ 0 := by
    have := le_mantissa hpos (by omega)
    omega
  rw [unpacked, dif_neg hm, pack]
  simp only
  rw [if_pos]
  simp [Format.exponentBias]
  omega

/-! ## The float -/

/-- The float nearest to `q`. -/
def nearest (q : ℚ) : Float :=
  .ofModel (.pack (unpacked (rounded q)))

theorem nearest_rounded (hq : 0 ≤ q) : nearest (rounded q) = nearest q := by
  rw [nearest, nearest, rounded_rounded hq]

theorem inf_eq : Float.inf = .ofModel (.pack (.infinity .positive)) := by
  decide

/-- What is too large, rounded as if floats reached farther, is infinite. -/
theorem nearest_of_le (h : 2 ^ 1024 ≤ rounded q) : nearest q = Float.inf := by
  rw [nearest, inf_eq, Float.Model.pack, Float.Model.pack]
  simp only [pack_unpacked_of_le h]
  rfl

/-- What is read of a float. -/
theorem Representable.unpack_nearest (hq : Representable q) :
    (nearest q).toModel.unpack = unpacked q := by
  rw [nearest, hq.rounded]
  exact hq.unpack_pack

end Formula.Binary64
