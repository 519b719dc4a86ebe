import Mathlib
import Formula.Literal.Basic
import Formula.Proofs.Float.Arithmetic

/-!
# Powers of ten in floats

A literal is scaled by the powers of ten that belong to the binary digits of its exponent, and each
of them is the square of the one before it.  The first five are exact.  The next four are rounded,
and from the tenth on they are infinite.

* `applyPowers_eq_foldl` — scaling applies one power after the other.
* `powerOfTen_eq`, `exists_powerOfTen`, `powerOfTen_of_le` — the powers.
* `applyPowers_of_keeps` — what only an infinite power spoils is spoiled from the exponent 512 on.
* `exists_divided` — dividing a float by powers of ten gives a float that is not greater.
-/

namespace Formula.Literal

open Binary64

/-! ## The powers that are applied -/

section

variable {α : Type} [Arithmetic α]

/-- `p` squared `i` times over. -/
def squared (p : α) : ℕ → α
  | 0 => p
  | i + 1 => squared p i * squared p i

theorem squared_square (p : α) (i : ℕ) : squared (p * p) i = squared p (i + 1) := by
  induction i with
  | zero => rfl
  | succ i ih =>
    rw [squared, ih]
    rfl

theorem applyPowers_zero (op : α → α → α) (v p : α) : applyPowers op v p 0 = v := by
  rw [applyPowers, if_pos rfl]

theorem applyPowers_of_ne_zero (op : α → α → α) (v p : α) {n : ℕ} (hn : n ≠ 0) :
    applyPowers op v p n = applyPowers op (if n % 2 = 1 then op v p else v) (p * p) (n / 2) := by
  rw [applyPowers, if_neg hn]

/-- The powers of the binary digits are applied one after the other, the lowest first. -/
theorem applyPowers_eq_foldl (op : α → α → α) (v p : α) (n : ℕ) :
    applyPowers op v p n = (n.bitIndices.map (squared p)).foldl op v := by
  induction n using Nat.strong_induction_on generalizing v p with
  | _ n ih =>
    by_cases hn : n = 0
    · rw [hn, applyPowers_zero, Nat.bitIndices_zero]
      rfl
    · have hsquares : (n / 2).bitIndices.map (squared (p * p)) =
          ((n / 2).bitIndices.map (· + 1)).map (squared p) := by
        rw [List.map_map]
        exact List.map_congr_left fun i _ => squared_square p i
      rw [applyPowers_of_ne_zero op v p hn, ih (n / 2) (by omega), hsquares]
      split
      · next hodd =>
        have hbits : n.bitIndices = 0 :: (n / 2).bitIndices.map (· + 1) := by
          rw [← Nat.bitIndices_two_mul_add_one, (by omega : 2 * (n / 2) + 1 = n)]
        rw [hbits]
        rfl
      · next heven =>
        rw [← Nat.bitIndices_two_mul, (by omega : 2 * (n / 2) = n)]

end

/-! ## The powers of ten -/

/-- The power of ten for the digit `i` of an exponent in binary, as it is computed. -/
def powerOfTen (i : ℕ) : Float :=
  squared (Arithmetic.ofNat 10) i

/-- A power of ten is representable if that of five has 53 digits. -/
theorem representable_ten_pow {k : ℕ} (hk : k ≤ 22) : Representable (10 ^ k) where
  nonneg := by positivity
  rounded := by
    have hsplit : (10 ^ k : ℚ) = (5 ^ k : ℕ) * 2 ^ (k : ℤ) := by
      rw [zpow_natCast, Nat.cast_pow, ← mul_pow]
      norm_num
    have hdigits : 5 ^ k < 2 ^ 53 :=
      (Nat.pow_le_pow_right (by norm_num) hk).trans_lt (by norm_num)
    rw [hsplit]
    exact rounded_mul_two_zpow hdigits (by omega)
  lt := by
    calc (10 : ℚ) ^ k ≤ 10 ^ 22 := pow_le_pow_right₀ (by norm_num) hk
      _ < 2 ^ 80 := by norm_num
      _ ≤ 2 ^ 1024 := pow_le_pow_right₀ one_le_two (by norm_num)

theorem powerOfTen_eq {i : ℕ} (hi : i < 5) : powerOfTen i = nearest (10 ^ 2 ^ i) := by
  induction i with
  | zero =>
    show Float.ofNat 10 = nearest (10 ^ 1)
    rw [ofNat_eq (by norm_num)]
    norm_num
  | succ i ih =>
    have hle : 2 ^ i ≤ 2 ^ 3 := Nat.pow_le_pow_right (by norm_num) (by omega)
    have hten := representable_ten_pow (k := 2 ^ i) (by omega)
    calc powerOfTen (i + 1) = powerOfTen i * powerOfTen i := rfl
      _ = nearest (10 ^ 2 ^ i * 10 ^ 2 ^ i) := by rw [ih (by omega), nearest_mul hten hten]
      _ = nearest (10 ^ 2 ^ (i + 1)) := by rw [← pow_add, ← two_mul, ← pow_succ']

/-- Beyond the exact ones, powers of two on both sides say how large the powers are. -/
theorem powerOfTen_bounds {i : ℕ} (hi : i < 5) :
    ∃ q, Representable q ∧ 2 ^ (53 * 2 ^ i) ≤ q ∧ q ≤ 2 ^ (54 * 2 ^ i) ∧
      powerOfTen (4 + i) = nearest q := by
  induction i with
  | zero =>
    exact ⟨10 ^ 16, representable_ten_pow (by norm_num), by norm_num, by norm_num,
      powerOfTen_eq (by norm_num)⟩
  | succ i ih =>
    obtain ⟨q, hq, hlo, hhi, heq⟩ := ih (by omega)
    have hsq : 0 ≤ q * q := mul_nonneg hq.nonneg hq.nonneg
    have hlo' : 2 ^ (53 * 2 ^ (i + 1)) ≤ rounded (q * q) := by
      rw [← rounded_two_pow]
      refine rounded_mono (by positivity) ?_
      calc (2 : ℚ) ^ (53 * 2 ^ (i + 1)) = 2 ^ (53 * 2 ^ i) * 2 ^ (53 * 2 ^ i) := by ring
        _ ≤ q * q := mul_self_le_mul_self (by positivity) hlo
    have hhi' : rounded (q * q) ≤ 2 ^ (54 * 2 ^ (i + 1)) := by
      rw [← rounded_two_pow]
      refine rounded_mono hsq ?_
      calc q * q ≤ 2 ^ (54 * 2 ^ i) * 2 ^ (54 * 2 ^ i) := mul_self_le_mul_self hq.nonneg hhi
        _ = 2 ^ (54 * 2 ^ (i + 1)) := by ring
    have hsmall : (2 : ℚ) ^ (54 * 2 ^ (i + 1)) < 2 ^ 1024 := by
      have : 2 ^ (i + 1) ≤ 2 ^ 4 := Nat.pow_le_pow_right (by norm_num) (by omega)
      exact pow_lt_pow_right₀ one_lt_two (by omega)
    refine ⟨rounded (q * q), representable_rounded hsq (hhi'.trans_lt hsmall), hlo', hhi', ?_⟩
    calc powerOfTen (4 + (i + 1)) = powerOfTen (4 + i) * powerOfTen (4 + i) := rfl
      _ = nearest (rounded (q * q)) := by rw [heq, nearest_mul hq hq, nearest_rounded hsq]

theorem exists_powerOfTen {i : ℕ} (hi : i < 9) :
    ∃ q, Representable q ∧ 1 ≤ q ∧ powerOfTen i = nearest q := by
  rcases Nat.lt_or_ge i 5 with h | h
  · have hle : 2 ^ i ≤ 2 ^ 4 := Nat.pow_le_pow_right (by norm_num) (by omega)
    exact ⟨10 ^ 2 ^ i, representable_ten_pow (by omega), one_le_pow₀ (by norm_num), powerOfTen_eq h⟩
  · obtain ⟨j, rfl⟩ : ∃ j, i = 4 + j := ⟨i - 4, by omega⟩
    obtain ⟨q, hq, hlo, -, heq⟩ := powerOfTen_bounds (i := j) (by omega)
    exact ⟨q, hq, (one_le_pow₀ one_le_two).trans hlo, heq⟩

/-- The tenth power is too large, and so are those after it. -/
theorem powerOfTen_of_le {i : ℕ} (hi : 9 ≤ i) : powerOfTen i = Float.inf := by
  induction i, hi using Nat.le_induction with
  | base =>
    obtain ⟨q, hq, hlo, -, heq⟩ := powerOfTen_bounds (i := 4) (by norm_num)
    have hlarge : 2 ^ 1024 ≤ rounded (q * q) := by
      rw [← rounded_two_pow]
      refine rounded_mono (by positivity) ?_
      calc (2 : ℚ) ^ 1024 ≤ 2 ^ (53 * 2 ^ 4) * 2 ^ (53 * 2 ^ 4) := by
            rw [← pow_add]
            exact pow_le_pow_right₀ one_le_two (by norm_num)
        _ ≤ q * q := mul_self_le_mul_self (by positivity) hlo
    calc powerOfTen 9 = powerOfTen (4 + 4) * powerOfTen (4 + 4) := rfl
      _ = Float.inf := by rw [heq, nearest_mul hq hq, nearest_of_le hlarge]
  | succ i _ ih =>
    calc powerOfTen (i + 1) = powerOfTen i * powerOfTen i := rfl
      _ = Float.inf := by rw [ih, inf_mul_inf]

/-! ## Scaling -/

theorem applyPowers_ten (op : Float → Float → Float) (v : Float) (n : ℕ) :
    applyPowers op v (Arithmetic.ofNat 10) n = (n.bitIndices.map powerOfTen).foldl op v :=
  applyPowers_eq_foldl op v _ n

theorem scale_neg_natCast (v : Float) (k : ℕ) :
    scale v (-k) = applyPowers (· / ·) v (Arithmetic.ofNat 10) k := by
  rcases k.eq_zero_or_pos with rfl | hk
  · rw [scale, applyPowers_zero]
    exact applyPowers_zero _ _ _
  · rw [scale, if_pos (by omega), Int.natAbs_neg, Int.natAbs_natCast]

/-- Which exponents need an infinite power. -/
theorem exists_le_bitIndices_iff (n : ℕ) : (∃ i ∈ n.bitIndices, 9 ≤ i) ↔ 512 ≤ n := by
  constructor
  · rintro ⟨i, hi, h⟩
    calc 512 = 2 ^ 9 := by norm_num
      _ ≤ 2 ^ i := Nat.pow_le_pow_right (by norm_num) h
      _ ≤ n := Nat.two_pow_le_of_mem_bitIndices hi
  · intro h
    have h : n ≥ 2 ^ 9 := h
    obtain ⟨i, h9, hi⟩ := Nat.exists_ge_and_testBit_of_ge_two_pow h
    exact ⟨i, Nat.mem_bitIndices.2 hi, h9⟩

/-- A value that the finite powers leave as it is, while an infinite one makes it undefined. -/
theorem applyPowers_of_keeps {op : Float → Float → Float} {v : Float}
    (hfinite : ∀ i < 9, op v (powerOfTen i) = v) (hinf : op v Float.inf = Float.nan)
    (hnan : ∀ p, op Float.nan p = Float.nan) (n : ℕ) :
    applyPowers op v (Arithmetic.ofNat 10) n = if n < 512 then v else Float.nan := by
  have hfold_nan : ∀ l : List ℕ, (l.map powerOfTen).foldl op Float.nan = Float.nan := by
    intro l
    induction l with
    | nil => rfl
    | cons i l ih => rw [List.map_cons, List.foldl_cons, hnan, ih]
  have hfold : ∀ l : List ℕ, (l.map powerOfTen).foldl op v =
      if ∃ i ∈ l, 9 ≤ i then Float.nan else v := by
    intro l
    induction l with
    | nil => simp
    | cons i l ih =>
      rw [List.map_cons, List.foldl_cons]
      by_cases h : 9 ≤ i
      · rw [powerOfTen_of_le h, hinf, hfold_nan, if_pos ⟨i, List.mem_cons_self, h⟩]
      · simp [hfinite i (by omega), ih, h]
  rw [applyPowers_ten, hfold]
  simp only [exists_le_bitIndices_iff]
  split_ifs <;> first | rfl | omega

/-- A float that is divided by a power of ten does not become greater. -/
theorem exists_div_powerOfTen {q : ℚ} (hq : Representable q) (i : ℕ) :
    ∃ r, Representable r ∧ r ≤ q ∧ nearest q / powerOfTen i = nearest r := by
  rcases Nat.lt_or_ge i 9 with hi | hi
  · obtain ⟨p, hp, hone, heq⟩ := exists_powerOfTen hi
    have hpos : 0 < p := one_pos.trans_le hone
    have hdiv : 0 ≤ q / p := div_nonneg hq.nonneg hp.nonneg
    have hle : rounded (q / p) ≤ q := by
      calc rounded (q / p) ≤ rounded q := rounded_mono hdiv (div_le_self hq.nonneg hone)
        _ = q := hq.rounded
    refine ⟨rounded (q / p), representable_rounded hdiv (hle.trans_lt hq.lt), hle, ?_⟩
    rw [heq, nearest_div hq hp hpos, nearest_rounded hdiv]
  · exact ⟨0, Representable.zero, hq.nonneg, by rw [powerOfTen_of_le hi, nearest_div_inf hq]⟩

theorem exists_divided {q : ℚ} (hq : Representable q) (n : ℕ) :
    ∃ r, Representable r ∧ r ≤ q ∧
      applyPowers (· / ·) (nearest q) (Arithmetic.ofNat 10) n = nearest r := by
  rw [applyPowers_ten]
  induction n.bitIndices generalizing q with
  | nil => exact ⟨q, hq, le_rfl, rfl⟩
  | cons i l ih =>
    obtain ⟨p, hp, hpq, heq⟩ := exists_div_powerOfTen hq i
    obtain ⟨r, hr, hrp, hfold⟩ := ih hp
    exact ⟨r, hr, hrp.trans hpq, by rw [List.map_cons, List.foldl_cons, heq, hfold]⟩

end Formula.Literal
