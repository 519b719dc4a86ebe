import Mathlib
import Formula.Proofs.Literal.Whole

/-!
# Literals with many digits

The digits before the point and behind it are accumulated together, and what comes of them is scaled
afterwards.  So it is the number of all digits that decides whether the value overflows, and where
the point stands does not matter: a small number that is written with enough digits is read as
infinity.

Every step of the accumulation rounds, but by so little that the limit is almost where it would be
without rounding.

* `accumulate_eq_nearest` — accumulating digits, as if floats reached any distance.
* `approximated_bounds` — how far it is from the integer that the digits spell.
* `next_many_digits` — what is read.
-/

namespace Formula.Literal

open Byte Binary64

/-! ## Accumulation with rounding -/

/-- The number that the digits come to where every step rounds but none overflows. -/
def approximated (digits : List ℕ) : ℚ :=
  digits.foldl (fun q d => rounded (rounded (q * 10) + d)) 0

theorem approximated_concat (digits : List ℕ) (d : ℕ) :
    approximated (digits ++ [d]) = rounded (rounded (approximated digits * 10) + d) := by
  simp [approximated]

theorem approximated_nonneg (digits : List ℕ) : 0 ≤ approximated digits := by
  induction digits using List.reverseRecOn with
  | nil => exact le_rfl
  | append_singleton digits d ih =>
    rw [approximated_concat]
    have := rounded_nonneg (mul_nonneg ih (by norm_num : (0 : ℚ) ≤ 10))
    exact rounded_nonneg (add_nonneg this d.cast_nonneg)

theorem rounded_approximated (digits : List ℕ) :
    rounded (approximated digits) = approximated digits := by
  induction digits using List.reverseRecOn with
  | nil => exact rounded_zero
  | append_singleton digits d _ =>
    have := rounded_nonneg (mul_nonneg (approximated_nonneg digits) (by norm_num : (0 : ℚ) ≤ 10))
    rw [approximated_concat, rounded_rounded (add_nonneg this d.cast_nonneg)]

theorem accumulate_eq_nearest {digits : List ℕ} (h : ∀ d ∈ digits, d ≤ 9) :
    (accumulate digits : Float) = nearest (approximated digits) := by
  induction digits using List.reverseRecOn with
  | nil => exact nearest_zero.symm
  | append_singleton digits d ih =>
    have hd : d ≤ 9 := h d (by simp)
    have ih := ih fun b hb => h b (by simp [hb])
    have hten : Representable (10 : ℕ) := representable_natCast (by norm_num)
    have hq := approximated_nonneg digits
    have hq10 : 0 ≤ approximated digits * (10 : ℕ) := mul_nonneg hq (Nat.cast_nonneg 10)
    have hten' : (Arithmetic.ofNat 10 : Float) = nearest (10 : ℕ) := ofNat_eq (by norm_num)
    have hd' : (Arithmetic.ofNat d : Float) = nearest d := ofNat_eq (by omega)
    calc (accumulate (digits ++ [d]) : Float)
        = accumulate digits * Arithmetic.ofNat 10 + Arithmetic.ofNat d := accumulate_concat digits d
      _ = nearest (approximated digits) * nearest (10 : ℕ) + nearest d := by rw [ih, hten', hd']
      _ = nearest (rounded (approximated digits * (10 : ℕ))) + nearest d := by
          rw [nearest_mul_of_one_le hq (rounded_approximated digits) hten (by norm_num),
            nearest_rounded hq10]
      _ = nearest (rounded (approximated digits * (10 : ℕ)) + d) :=
          nearest_add_of_rounded (rounded_nonneg hq10) (rounded_rounded hq10)
            (representable_natCast (by omega))
      _ = nearest (approximated (digits ++ [d])) := by
          rw [approximated_concat, nearest_rounded]
          · norm_num
          · exact add_nonneg (rounded_nonneg hq10) d.cast_nonneg

/-! ## How far rounding goes -/

theorem ofDigits_concat (digits : List ℕ) (d : ℕ) :
    Nat.ofDigits 10 (digits ++ [d]).reverse = d + 10 * Nat.ofDigits 10 digits.reverse := by
  rw [List.reverse_append, List.reverse_singleton, List.singleton_append, Nat.ofDigits_cons]

theorem one_le_approximated {digits : List ℕ} (h : 0 < Nat.ofDigits 10 digits.reverse) :
    1 ≤ approximated digits := by
  induction digits using List.reverseRecOn with
  | nil => exact absurd h (lt_irrefl _)
  | append_singleton digits d ih =>
    rw [ofDigits_concat] at h
    rw [approximated_concat]
    have h0 := rounded_nonneg (mul_nonneg (approximated_nonneg digits) (by norm_num : (0 : ℚ) ≤ 10))
    have hd : (0 : ℚ) ≤ d := d.cast_nonneg
    refine one_le_rounded ?_
    rcases (Nat.ofDigits 10 digits.reverse).eq_zero_or_pos with hzero | hpos
    · have h1 : (1 : ℚ) ≤ d := by exact_mod_cast (by omega : 1 ≤ d)
      linarith
    · have h1 := one_le_rounded (by linarith [ih hpos] : (1 : ℚ) ≤ approximated digits * 10)
      linarith

theorem one_sub_precision_nonneg : 0 ≤ 1 - precision := by
  norm_num [precision]

theorem one_sub_precision_le_one : 1 - precision ≤ 1 := by
  norm_num [precision]

theorem one_le_one_add_precision : 1 ≤ 1 + precision := by
  norm_num [precision]

/-- One digit more multiplies the bounds by two shares of rounding. -/
theorem approximated_step {a m d : ℚ} {k : ℕ} (ha : 1 ≤ a) (hd : 0 ≤ d)
    (hlo : m * (1 - precision) ^ (2 * k) ≤ a) (hhi : a ≤ m * (1 + precision) ^ (2 * k)) :
    (m * 10 + d) * (1 - precision) ^ (2 * (k + 1)) ≤ rounded (rounded (a * 10) + d) ∧
      rounded (rounded (a * 10) + d) ≤ (m * 10 + d) * (1 + precision) ^ (2 * (k + 1)) := by
  have hε := one_sub_precision_nonneg
  have hε' := one_le_one_add_precision
  have ha1 : 1 ≤ a * 10 := by linarith
  have hr1 : 1 ≤ rounded (a * 10) + d := by linarith [one_le_rounded ha1]
  constructor
  · have hd1 : d * (1 - precision) ^ (2 * k + 1) ≤ d :=
      mul_le_of_le_one_right hd (pow_le_one₀ hε one_sub_precision_le_one)
    calc (m * 10 + d) * (1 - precision) ^ (2 * (k + 1))
        = (m * (1 - precision) ^ (2 * k) * 10 * (1 - precision) +
            d * (1 - precision) ^ (2 * k + 1)) * (1 - precision) := by ring
      _ ≤ (a * 10 * (1 - precision) + d) * (1 - precision) := by gcongr
      _ ≤ (rounded (a * 10) + d) * (1 - precision) := by gcongr; exact le_rounded ha1
      _ ≤ rounded (rounded (a * 10) + d) := le_rounded hr1
  · have hd1 : d ≤ d * (1 + precision) ^ (2 * k + 1) :=
      le_mul_of_one_le_right hd (one_le_pow₀ hε')
    calc rounded (rounded (a * 10) + d)
        ≤ (rounded (a * 10) + d) * (1 + precision) := rounded_le hr1
      _ ≤ (a * 10 * (1 + precision) + d) * (1 + precision) := by gcongr; exact rounded_le ha1
      _ ≤ (m * (1 + precision) ^ (2 * k) * 10 * (1 + precision) +
            d * (1 + precision) ^ (2 * k + 1)) * (1 + precision) := by gcongr
      _ = (m * 10 + d) * (1 + precision) ^ (2 * (k + 1)) := by ring

/-- Each digit of the integer stands for two roundings.  Zeros in front are not digits of it, and
they round nothing. -/
theorem approximated_bounds {digits : List ℕ} (h : ∀ d ∈ digits, d ≤ 9) {n : ℕ}
    (hn : n = Nat.ofDigits 10 digits.reverse) :
    n * (1 - precision) ^ (2 * (Nat.digits 10 n).length) ≤ approximated digits ∧
      approximated digits ≤ n * (1 + precision) ^ (2 * (Nat.digits 10 n).length) := by
  induction digits using List.reverseRecOn generalizing n with
  | nil => simp [hn, approximated]
  | append_singleton digits d ih =>
    have hd : d ≤ 9 := h d (by simp)
    have ih := ih (fun b hb => h b (by simp [hb])) rfl
    rw [ofDigits_concat] at hn
    set m := Nat.ofDigits 10 digits.reverse with hm
    rw [approximated_concat]
    rcases m.eq_zero_or_pos with hzero | hpos
    · -- the first digit that counts is taken as it is
      have ha0 : approximated digits = 0 := by
        rw [hzero, Nat.cast_zero, zero_mul, zero_mul] at ih
        exact ih.2.antisymm ih.1
      have hexact : rounded (rounded (approximated digits * 10) + d) = n := by
        rw [ha0, zero_mul, rounded_zero, zero_add, rounded_natCast (by omega), hn, hzero, mul_zero,
          add_zero]
      rw [hexact]
      exact ⟨mul_le_of_le_one_right n.cast_nonneg
          (pow_le_one₀ one_sub_precision_nonneg one_sub_precision_le_one),
        le_mul_of_one_le_right n.cast_nonneg (one_le_pow₀ one_le_one_add_precision)⟩
    · have hlength : (Nat.digits 10 n).length = (Nat.digits 10 m).length + 1 := by
        rw [hn, Nat.digits_add 10 (by norm_num) d m (by omega) (.inr hpos.ne'), List.length_cons]
      have hcast : (n : ℚ) = m * 10 + d := by
        rw [hn]
        push_cast
        ring
      rw [hlength, hcast]
      exact approximated_step (one_le_approximated (hm ▸ hpos)) d.cast_nonneg ih.1 ih.2

/-! ## The limit -/

theorem one_sub_le_pow (n : ℕ) : 1 - n * precision ≤ (1 - precision) ^ n := by
  have h : -2 ≤ -precision := by norm_num [precision]
  have := one_add_mul_le_pow h n
  simpa [sub_eq_add_neg] using this

/-- How much 309 digits are rounded at most. -/
def tolerance : ℚ :=
  618 * precision

theorem one_add_precision_pow_mul_le_one : (1 + precision) ^ 618 * (1 - tolerance) ≤ 1 := by
  have h0 : 0 ≤ (1 + precision) * (1 - precision) := by norm_num [precision]
  have h1 : (1 + precision) * (1 - precision) ≤ 1 := by norm_num [precision]
  calc (1 + precision) ^ 618 * (1 - tolerance)
      ≤ (1 + precision) ^ 618 * (1 - precision) ^ 618 :=
        mul_le_mul_of_nonneg_left (one_sub_le_pow 618) (by norm_num [precision])
    _ = ((1 + precision) * (1 - precision)) ^ 618 := (mul_pow _ _ _).symm
    _ ≤ 1 := pow_le_one₀ h0 h1

/-- What floats do not hold lies between these two limits. -/
theorem tolerance_bounds : 179 * 10 ^ 306 ≤ 2 ^ 1024 * (1 - tolerance) ∧
    (2 : ℚ) ^ 1024 ≤ 18 * 10 ^ 307 * (1 - tolerance) := by
  -- in powers that can be computed
  have htwo : (2 : ℚ) ^ 1024 = (2 ^ 256) ^ 4 := by rw [← pow_mul]
  have hten : (10 : ℚ) ^ 306 = (10 ^ 153) ^ 2 := by rw [← pow_mul]
  rw [pow_succ (10 : ℚ) 306, htwo, hten]
  norm_num [tolerance, precision]

/-- An integer below this limit does not overflow. -/
theorem approximated_lt {digits : List ℕ} (h : ∀ d ∈ digits, d ≤ 9)
    (hn : Nat.ofDigits 10 digits.reverse < 179 * 10 ^ 306) : approximated digits < 2 ^ 1024 := by
  set n := Nat.ofDigits 10 digits.reverse with hdef
  have hlength : (Nat.digits 10 n).length ≤ 309 := by
    rw [Nat.digits_length_le_iff (by norm_num)]
    calc n < 179 * 10 ^ 306 := hn
      _ ≤ 10 ^ 3 * 10 ^ 306 := Nat.mul_le_mul_right _ (by norm_num)
      _ = 10 ^ 309 := by rw [← pow_add]
  have hcast : (n : ℚ) < 179 * 10 ^ 306 := by exact_mod_cast hn
  calc approximated digits ≤ n * (1 + precision) ^ (2 * (Nat.digits 10 n).length) :=
        (approximated_bounds h rfl).2
    _ ≤ n * (1 + precision) ^ 618 := by
        gcongr
        · exact one_le_one_add_precision
        · omega
    _ < 2 ^ 1024 * (1 - tolerance) * (1 + precision) ^ 618 :=
        mul_lt_mul_of_pos_right (hcast.trans_le tolerance_bounds.1)
          (pow_pos (one_pos.trans_le one_le_one_add_precision) _)
    _ = 2 ^ 1024 * ((1 + precision) ^ 618 * (1 - tolerance)) := by
        rw [mul_assoc, mul_comm (1 - tolerance)]
    _ ≤ 2 ^ 1024 * 1 := by gcongr; exact one_add_precision_pow_mul_le_one
    _ = 2 ^ 1024 := mul_one _

/-- What a further digit takes off by rounding is nothing next to what it adds. -/
theorem le_mul_pow {n j : ℕ} (hn : 18 * 10 ^ 307 ≤ n) (hj : 10 ^ (308 + j) ≤ n) :
    (18 * 10 ^ 307 : ℚ) ≤ n * (1 - precision) ^ (2 * j) := by
  have hε := one_sub_precision_nonneg
  rcases j.eq_zero_or_pos with rfl | hpos
  · rw [mul_zero, pow_zero, mul_one]
    exact_mod_cast hn
  · have hnine : (9 : ℚ) ≤ 10 * (1 - precision) ^ 2 := by norm_num [precision]
    calc (18 * 10 ^ 307 : ℚ) = 10 ^ 307 * 18 := mul_comm _ _
      _ ≤ 10 ^ 307 * (10 * 9) := by gcongr; norm_num
      _ = 10 ^ 308 * 9 := by rw [← mul_assoc, ← pow_succ]
      _ ≤ 10 ^ 308 * (10 * (1 - precision) ^ 2) ^ j := by
          gcongr
          exact hnine.trans (le_self_pow₀ (by linarith) hpos.ne')
      _ = 10 ^ (308 + j) * (1 - precision) ^ (2 * j) := by
          rw [mul_pow, ← pow_mul, pow_add, mul_assoc]
      _ ≤ n * (1 - precision) ^ (2 * j) := by
          gcongr
          exact_mod_cast hj

/-- An integer from this limit on overflows, however many digits it has. -/
theorem le_approximated {digits : List ℕ} (h : ∀ d ∈ digits, d ≤ 9)
    (hn : 18 * 10 ^ 307 ≤ Nat.ofDigits 10 digits.reverse) : 2 ^ 1024 ≤ approximated digits := by
  set n := Nat.ofDigits 10 digits.reverse with hdef
  have hlength : 308 < (Nat.digits 10 n).length := by
    rw [Nat.lt_digits_length_iff (by norm_num)]
    calc 10 ^ 308 = 10 * 10 ^ 307 := pow_succ' 10 307
      _ ≤ 18 * 10 ^ 307 := Nat.mul_le_mul_right _ (by norm_num)
      _ ≤ n := hn
  obtain ⟨j, hj⟩ : ∃ j, (Nat.digits 10 n).length = 308 + j + 1 :=
    ⟨(Nat.digits 10 n).length - 309, by omega⟩
  have hle : 10 ^ (308 + j) ≤ n := by
    rw [← Nat.lt_digits_length_iff (by norm_num), hj]
    exact lt_add_one _
  have htol : 0 ≤ 1 - tolerance := by norm_num [tolerance, precision]
  calc 2 ^ 1024 ≤ 18 * 10 ^ 307 * (1 - tolerance) := tolerance_bounds.2
    _ ≤ n * (1 - precision) ^ (2 * j) * (1 - precision) ^ 618 :=
        mul_le_mul (le_mul_pow hn hle) (one_sub_le_pow 618) htol
          (mul_nonneg n.cast_nonneg (pow_nonneg one_sub_precision_nonneg _))
    _ = n * (1 - precision) ^ (2 * (Nat.digits 10 n).length) := by
        rw [hj, mul_assoc, ← pow_add]
        congr 2
        omega
    _ ≤ approximated digits := (approximated_bounds h rfl).1

/-! ## What is read -/

/-- The integer that the digits before the point spell. -/
def Spelling.integerPart (s : Spelling) : ℕ :=
  Nat.ofDigits 10 (s.whole.map digitValue).reverse

theorem digitValue_le {b : UInt8} (h : isDigit b = true) : digitValue b ≤ 9 := by
  simp only [isDigit, Bool.and_eq_true, decide_eq_true_eq] at h
  have hle : b.toNat ≤ 57 := UInt8.le_iff_toNat_le.1 h.2
  rw [digitValue, UInt8.toNat_sub_of_le _ _ h.1]
  show b.toNat - 48 ≤ 9
  omega

theorem Spelling.places_isDigit (s : Spelling) : ∀ b ∈ s.places, isDigit b := by
  unfold places
  cases s.fraction with
  | none => simp
  | some d => exact d.all_isDigit

theorem Spelling.digits_le (s : Spelling) : ∀ d ∈ s.literal.digits, d ≤ 9 := by
  intro d hd
  obtain ⟨b, hb, rfl⟩ := List.mem_map.1 hd
  refine digitValue_le ?_
  rcases List.mem_append.1 hb with hw | hp
  · exact s.all_isDigit b hw
  · exact s.places_isDigit b hp

theorem Spelling.integer_lt (s : Spelling) :
    s.integer < (s.integerPart + 1) * 10 ^ s.places.length := by
  set places := (s.places.map digitValue).reverse with hplaces
  have hlength : places.length = s.places.length := by simp [hplaces]
  have hlt : Nat.ofDigits 10 places < 10 ^ places.length := by
    refine Nat.ofDigits_lt_base_pow_length (by norm_num) fun d hd => ?_
    obtain ⟨b, hb, rfl⟩ := List.mem_map.1 (List.mem_reverse.1 hd)
    exact Nat.lt_succ_of_le (digitValue_le (s.places_isDigit b hb))
  have hsum : s.integer = Nat.ofDigits 10 places + 10 ^ s.places.length * s.integerPart := by
    rw [integer, literal, List.map_append, List.reverse_append, Nat.ofDigits_append, ← hplaces,
      hlength]
    rfl
  rw [hsum, ← hlength]
  linarith

theorem scale_finite {q : ℚ} (hq : Representable q) (k : ℕ) :
    (scale (nearest q) (-k)).isFinite := by
  obtain ⟨r, hr, -, heq⟩ := exists_divided hq k
  rw [scale_neg_natCast, heq]
  exact hr.isFinite_nearest

theorem scale_inf (k : ℕ) :
    scale Float.inf (-k) = if k < 512 then Float.inf else Float.nan := by
  have hfinite : ∀ i < 9, Float.inf / powerOfTen i = Float.inf := by
    intro i hi
    obtain ⟨p, hp, -, heq⟩ := exists_powerOfTen hi
    rw [heq, inf_div_nearest hp]
  rw [scale_neg_natCast]
  exact applyPowers_of_keeps hfinite inf_div_inf nan_div k

section

variable {s : Spelling} (hpower : s.power = none)

include hpower

theorem value_of_no_power :
    (s.literal.value : Float) =
      scale (nearest (approximated s.literal.digits)) (-s.places.length) := by
  have hexponent : s.literal.exponent = -s.places.length := by
    simp [Spelling.literal, Spelling.written, hpower]
  rw [value, accumulate_eq_nearest s.digits_le, hexponent]

theorem value_of_lt (h : approximated s.literal.digits < 2 ^ 1024) :
    (s.literal.value : Float).isFinite := by
  rw [value_of_no_power hpower]
  exact scale_finite ⟨approximated_nonneg _, rounded_approximated _, h⟩ _

theorem value_of_le (h : 2 ^ 1024 ≤ approximated s.literal.digits) :
    (s.literal.value : Float) = if s.places.length < 512 then Float.inf else Float.nan := by
  rw [value_of_no_power hpower, nearest_of_le ((rounded_approximated _).symm ▸ h), scale_inf]

end

/-- **When many digits overflow.**  A literal without an exponent part is read as a finite number
exactly if its digits, those before the point and those behind it taken together, come to one when
they are accumulated.  They do so if the integer they spell is below `179 * 10 ^ 306`, and then there
may be 293 of them behind a point if no more than 15 stand before it.  From `18 * 10 ^ 307` on they
do not, and the literal is read as infinity although the number may be small. -/
theorem next_many_digits (size : ℕ) {s : Spelling} (hs : s.InRange) {rest : List UInt8}
    (hr : s.Ends rest) (hpower : s.power = none) :
    ∃ v : Float, Token.next size (s.bytes ++ rest) = .ok (.number v) rest ∧
      (v.isFinite ↔ (accumulate s.literal.digits : Float).isFinite) ∧
      (s.integer < 179 * 10 ^ 306 → v.isFinite) ∧
      (s.integerPart < 10 ^ 15 → s.places.length ≤ 293 → v.isFinite) ∧
      (18 * 10 ^ 307 ≤ s.integer → ¬ v.isFinite ∧ (s.places.length < 512 → v = Float.inf)) := by
  have hfinite : (s.literal.value : Float).isFinite ↔
      approximated s.literal.digits < 2 ^ 1024 := by
    refine ⟨fun h => ?_, value_of_lt hpower⟩
    by_contra hle
    rw [value_of_le hpower (not_lt.1 hle)] at h
    split at h
    · exact absurd (isFinite_inf.symm.trans h) Bool.false_ne_true
    · exact absurd (isFinite_nan.symm.trans h) Bool.false_ne_true
  have hinteger : s.integer < 179 * 10 ^ 306 → (s.literal.value : Float).isFinite :=
    fun h => hfinite.2 (approximated_lt s.digits_le h)
  refine ⟨s.literal.value, next_of_inRange hs hr size, ?_, hinteger, ?_, ?_⟩
  · rw [hfinite, accumulate_eq_nearest s.digits_le,
      isFinite_nearest_iff (approximated_nonneg _) (rounded_approximated _)]
  · intro hpart hplaces
    refine hinteger (s.integer_lt.trans_le ?_)
    calc (s.integerPart + 1) * 10 ^ s.places.length ≤ 10 ^ 15 * 10 ^ 293 :=
          Nat.mul_le_mul hpart (Nat.pow_le_pow_right (by norm_num) hplaces)
      _ ≤ 179 * 10 ^ 306 := by decide +kernel
  · intro h
    have hle := le_approximated s.digits_le h
    exact ⟨fun hv => hle.not_gt (hfinite.1 hv),
      fun hk => (value_of_le hpower hle).trans (if_pos hk)⟩

/-- The digit `b`, `n` times behind the point. -/
def Spelling.repeated (b : UInt8) (hb : isDigit b = true) (n : ℕ) (hn : n ≠ 0) : Spelling where
  whole := bytesOf "0"
  all_isDigit := List.all_eq_true.1 (by decide)
  fraction := some ⟨List.replicate n b, fun _ h => List.eq_of_mem_replicate h ▸ hb,
    fun h => hn ((List.replicate_eq_nil_iff b).1 h)⟩
  power := none
  some_digit := .inr rfl

section

variable {b : UInt8} {hb : isDigit b = true} {n : ℕ} {hn : n ≠ 0}

theorem Spelling.bytes_repeated :
    (repeated b hb n hn).bytes = bytesOf "0." ++ List.replicate n b := by
  simp only [bytes, pointBytes, powerBytes, repeated, List.append_nil]
  rfl

theorem Spelling.length_places_repeated : (repeated b hb n hn).places.length = n :=
  List.length_replicate

/-- Digits other than zero count in full. -/
theorem Spelling.pow_le_integer_repeated (hpos : digitValue b ≠ 0) :
    10 ^ n ≤ 10 * (repeated b hb n hn).integer := by
  have hinteger : (repeated b hb n hn).integer =
      Nat.ofDigits 10 (List.replicate n (digitValue b)) := by
    have hzero : (repeated b hb n hn).whole.map digitValue = [0] := rfl
    rw [integer, literal, List.map_append, hzero, List.reverse_append, places]
    simp [repeated, Nat.ofDigits_append]
  have h := Nat.pow_length_le_mul_ofDigits (b := 8) (l := List.replicate n (digitValue b))
    (by simpa using hn) (by simpa using hpos)
  rwa [List.length_replicate, ← hinteger] at h

theorem ends_repeated : (Spelling.repeated b hb n hn).Ends [] :=
  ⟨rfl, fun _ _ => rfl, fun _ => rfl, fun _ => rfl⟩

end

/-- As many digits behind the point as are always allowed. -/
theorem long_fraction_finite :
    ∃ v : Float, Token.next 32 (bytesOf "0." ++ List.replicate 293 0x39) = .ok (.number v) [] ∧
      v.isFinite := by
  let s := Spelling.repeated 0x39 rfl 293 (by norm_num)
  have hplaces : s.places.length = 293 := Spelling.length_places_repeated
  have hbytes : s.bytes = bytesOf "0." ++ List.replicate 293 0x39 := Spelling.bytes_repeated
  have hs : s.InRange := inRange_of_no_power rfl (hplaces.trans_le (by decide))
  obtain ⟨v, hv, -, -, hfinite, -⟩ := next_many_digits 32 hs ends_repeated rfl
  rw [List.append_nil, hbytes] at hv
  exact ⟨v, hv, hfinite (by decide) hplaces.le⟩

/-- One ninth with too many digits. -/
theorem long_fraction_infinite :
    ∃ s : Spelling, s.bytes = bytesOf "0." ++ List.replicate 310 0x31 ∧ s.power = none ∧
      s.integerPart < 10 ^ 15 ∧ Token.next 32 s.bytes = .ok (.number Float.inf) [] ∧
      ¬ Float.inf.isFinite := by
  let s := Spelling.repeated 0x31 rfl 310 (by norm_num)
  have hplaces : s.places.length = 310 := Spelling.length_places_repeated
  have hs : s.InRange := inRange_of_no_power rfl (hplaces.trans_le (by decide))
  have hvalue : (s.literal.value : Float) = Float.inf := by
    have hmany : 18 * 10 ^ 307 ≤ s.integer := by
      refine Nat.le_of_mul_le_mul_left ?_ (by norm_num : 0 < 10)
      have hscale (p : ℕ) : 10 * (18 * p) ≤ 10 ^ 3 * p := by omega
      calc 10 * (18 * 10 ^ 307) ≤ 10 ^ 3 * 10 ^ 307 := hscale _
        _ = 10 ^ 310 := by rw [← pow_add]
        _ ≤ 10 * s.integer := Spelling.pow_le_integer_repeated (by decide)
    have hle := le_approximated s.digits_le hmany
    rw [value_of_le rfl hle, hplaces, if_pos (by norm_num)]
  have hnext := next_of_inRange hs ends_repeated 32
  rw [hvalue, List.append_nil] at hnext
  exact ⟨s, Spelling.bytes_repeated, rfl, by decide, hnext, by decide⟩

end Formula.Literal
