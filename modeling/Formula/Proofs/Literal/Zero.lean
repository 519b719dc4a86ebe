import Mathlib
import Formula.Proofs.Literal.Whole

/-!
# Literals of zeros

No digit of such a literal counts, and its value should be zero whatever its exponent is.  Division
leaves zero as it is, even if a power of ten is infinite.  Multiplication does so only while the
powers are finite: zero times infinity is not a number.

* `next_zero` — what is read.
* `next_zero_large_exponent` — the first exponent that spoils it.
-/

namespace Formula.Literal

open Byte Binary64

theorem Spelling.integer_of_zeros {s : Spelling} (hzero : ∀ b ∈ s.whole ++ s.places, b = 0x30) :
    s.integer = 0 := by
  have hdigits : s.literal.digits = List.replicate (s.whole ++ s.places).length 0 := by
    refine List.eq_replicate_iff.2 ⟨List.length_map _, ?_⟩
    intro d hd
    obtain ⟨b, hb, rfl⟩ := List.mem_map.1 hd
    rw [hzero b hb]
    rfl
  rw [Spelling.integer, hdigits, List.reverse_replicate, Nat.ofDigits_replicate_zero]

theorem scale_zero (exponent : ℤ) :
    scale (nearest 0) exponent = if exponent < 512 then nearest 0 else Float.nan := by
  rw [scale]
  split
  · next hneg =>
    obtain ⟨r, hr, hle, heq⟩ := exists_divided Representable.zero exponent.natAbs
    rw [heq, hle.antisymm hr.nonneg, if_pos (by omega)]
  · next hpos =>
    have hfinite : ∀ i < 9, nearest 0 * powerOfTen i = nearest 0 := by
      intro i hi
      obtain ⟨p, hp, -, heq⟩ := exists_powerOfTen hi
      rw [heq, nearest_mul Representable.zero hp, zero_mul]
    have hbound : exponent.natAbs < 512 ↔ exponent < 512 := by omega
    rw [applyPowers_of_keeps hfinite zero_mul_inf nan_mul]
    simp only [hbound]

theorem value_of_zeros {s : Spelling} (hzero : ∀ b ∈ s.whole ++ s.places, b = 0x30) :
    (s.literal.value : Float) = if s.written - s.places.length < 512 then 0 else Float.nan := by
  have hinteger := s.integer_of_zeros hzero
  have hlt : s.integer < 2 ^ 53 := by
    rw [hinteger]
    norm_num
  rw [value, accumulate_float hlt, ofNat_eq hlt, hinteger, Nat.cast_zero, scale_zero, nearest_zero]
  rfl

/-- **What a literal of zeros is read as.**  However many zeros there are before the point and
behind it, the literal is read as zero if its exponent, less one for each digit behind the point, is
below 512.  From there on it is not read as a number at all. -/
theorem next_zero (size : ℕ) {s : Spelling} (hs : s.InRange) {rest : List UInt8} (hr : s.Ends rest)
    (hzero : ∀ b ∈ s.whole ++ s.places, b = 0x30) :
    Token.next size (s.bytes ++ rest) =
      .ok (.number (if s.written - s.places.length < 512 then 0 else Float.nan)) rest := by
  rw [next_of_inRange hs hr, value_of_zeros hzero]

/-- The last exponent that leaves zero as it is. -/
theorem next_zero_behind_point :
    Token.next 32 (bytesOf "00.000e514)") = .ok (.number 0) (bytesOf ")") := by
  let s : Spelling :=
    ⟨bytesOf "00", List.all_eq_true.1 (by decide),
      some ⟨bytesOf "000", List.all_eq_true.1 (by decide), by decide⟩,
      some ⟨false, none, ⟨bytesOf "514", List.all_eq_true.1 (by decide), by decide⟩⟩, .inr rfl⟩
  have hs : s.InRange := ⟨by decide, by rintro p ⟨⟩; decide, by decide⟩
  have hr : s.Ends (bytesOf ")") := ⟨by decide, nofun, nofun, nofun⟩
  have he : s.written - s.places.length = 511 := by decide
  have hzero : s.whole ++ s.places = List.replicate 5 0x30 := rfl
  have h := next_zero 32 hs hr (hzero ▸ fun b => List.eq_of_mem_replicate)
  rw [he, if_pos (by norm_num)] at h
  exact h

/-- Zero with the next exponent. -/
theorem next_zero_large_exponent :
    Token.next 32 (bytesOf "0e512") = .ok (.number Float.nan) [] ∧ Float.nan ≠ 0 := by
  let s : Spelling :=
    ⟨bytesOf "0", List.all_eq_true.1 (by decide), none,
      some ⟨false, none, ⟨bytesOf "512", List.all_eq_true.1 (by decide), by decide⟩⟩,
      .inl (by decide)⟩
  have hs : s.InRange := ⟨by decide, by rintro p ⟨⟩; decide, by decide⟩
  have hr : s.Ends [] := ⟨by decide, nofun, nofun, nofun⟩
  have he : s.written - s.places.length = 512 := by decide
  have hzero : s.whole ++ s.places = List.replicate 1 0x30 := rfl
  have h := next_of_inRange hs hr 32
  rw [value_of_zeros (hzero ▸ fun b => List.eq_of_mem_replicate), he, if_neg (by norm_num)] at h
  exact ⟨h, by decide⟩

end Formula.Literal
