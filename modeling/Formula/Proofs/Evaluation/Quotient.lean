import Mathlib
import Formula.Proofs.Evaluation.Correctness
import Formula.Proofs.Literal.Whole

/-!
# Literals and quotients

The text of a quotient has literals with division signs between them, and it is evaluated from left
to right, with one rounding for each sign (`evaluate_quotient`).

A literal with digits behind the point is computed like such a quotient.  It is not divided by one
power of ten but by one for each binary digit of the number of places, and each division rounds
(`evaluate_places`).  Only if that number is a power of two is there a single division.
-/

namespace Formula

open Binary64

variable {σ : Type}

/-! ## Quotients -/

/-- The tree of a quotient of several numbers. -/
def Grammar.Product.quotient (a : Float) (divisors : List Float) : Grammar.Product :=
  divisors.foldl (fun left b => .more left .divide (.signed 0 (.number b)))
    (.single (.signed 0 (.number a)))

namespace Grammar.Product

variable (a b : Float) (divisors : List Float)

theorem quotient_concat :
    quotient a (divisors ++ [b]) = .more (quotient a divisors) .divide (.signed 0 (.number b)) := by
  simp [quotient]

theorem tokens_quotient : (quotient a divisors).tokens =
    .number a :: divisors.flatMap fun b => [.times .divide, .number b] := by
  induction divisors using List.reverseRecOn with
  | nil => rfl
  | append_singleton divisors b ih =>
    rw [quotient_concat, tokens, ih, List.flatMap_append]
    rfl

theorem nesting_quotient : (quotient a divisors).nesting = 0 := by
  induction divisors using List.reverseRecOn with
  | nil => rfl
  | append_singleton divisors b ih =>
    rw [quotient_concat, nesting, ih]
    rfl

theorem value_quotient (scope : Scope σ) (host : σ) :
    (quotient a divisors).value scope host = .ok (divisors.foldl (· / ·) a) host := by
  induction divisors using List.reverseRecOn with
  | nil => rfl
  | append_singleton divisors b ih =>
    rw [quotient_concat, value, Step.bind_of_ok ih, List.foldl_append]
    rfl

end Grammar.Product

namespace Literal

/-- The text of a quotient of several literals. -/
def quotientBytes (s : Spelling) (divisors : List Spelling) : List UInt8 :=
  s.bytes ++ divisors.flatMap fun t => 0x2F :: t.bytes

theorem stops_flatMap (divisors : List Spelling) :
    Stops (divisors.flatMap fun t => 0x2F :: t.bytes) := by
  cases divisors with
  | nil => exact ⟨rfl, rfl, rfl, rfl⟩
  | cons t divisors => exact ⟨rfl, rfl, rfl, rfl⟩

theorem sequence_divisors {divisors : List Spelling} (h : ∀ t ∈ divisors, t.InRange) (size : ℕ) :
    Token.sequence size (divisors.flatMap fun t => 0x2F :: t.bytes) =
      (divisors.flatMap fun t => [.times .divide, .number t.literal.value], none) := by
  induction divisors with
  | nil => exact Token.sequence_of_done (Token.next_of_peek peek_nil size)
  | cons t divisors ih =>
    have hsign : Token.next size (0x2F :: (t.bytes ++ divisors.flatMap fun t => 0x2F :: t.bytes)) =
        .ok (.times .divide) (t.bytes ++ divisors.flatMap fun t => 0x2F :: t.bytes) := rfl
    have hnumber := next_of_inRange (h t (by simp)) ((stops_flatMap divisors).ends t) size
    rw [List.flatMap_cons, List.cons_append, Token.sequence_of_ok hsign nofun,
      Token.sequence_of_ok hnumber nofun, ih fun u hu => h u (by simp [hu])]
    rfl

/-- A quotient of literals is evaluated from left to right. -/
theorem evaluate_quotient (scope : Option (Scope σ)) {limits : Limits} (hdepth : 0 < limits.depth)
    (host : σ) {s : Spelling} (hs : s.InRange) {divisors : List Spelling}
    (h : ∀ t ∈ divisors, t.InRange) {text : String}
    (htext : bytesOf text = quotientBytes s divisors) :
    evaluate scope text limits host =
      .ok ((divisors.map fun t => t.literal.value).foldl (· / ·) s.literal.value) host := by
  have hnumber := next_of_inRange hs ((stops_flatMap divisors).ends s) limits.nameSize
  rw [evaluate_eq_ok_iff]
  refine ⟨.single (.quotient s.literal.value (divisors.map fun t => t.literal.value)), ?_, ?_, ?_⟩
  · rw [htext, quotientBytes, Token.sequence_of_ok hnumber nofun, sequence_divisors h,
      Grammar.Sum.tokens, Grammar.Product.tokens_quotient, List.flatMap_map]
  · rw [Grammar.Sum.nesting, Grammar.Product.nesting_quotient]
    omega
  · exact Grammar.Product.value_quotient _ _ _ host

/-- A quotient without divisors is a literal. -/
theorem evaluate_literal (scope : Option (Scope σ)) {limits : Limits} (hdepth : 0 < limits.depth)
    (host : σ) {s : Spelling} (hs : s.InRange) {text : String} (htext : bytesOf text = s.bytes) :
    evaluate scope text limits host = .ok s.literal.value host :=
  evaluate_quotient scope hdepth host hs (List.forall_mem_nil _)
    (htext.trans (List.append_nil _).symm)

/-! ## Digits behind the point -/

/-- A one with `k` zeros. -/
def Spelling.ten (k : ℕ) : Spelling where
  whole := 0x31 :: List.replicate k 0x30
  all_isDigit := by
    intro b hb
    rcases List.mem_cons.1 hb with rfl | hb
    · rfl
    · rw [List.eq_of_mem_replicate hb]
      rfl
  fraction := none
  power := none
  some_digit := .inl (List.cons_ne_nil _ _)

theorem inRange_ten (k : ℕ) : (Spelling.ten k).InRange :=
  inRange_of_no_power rfl (Nat.zero_le _)

section

variable {α : Type} [Arithmetic α] {s : Spelling}

theorem scale_zero_exponent (v : α) : scale v 0 = v := by
  rw [scale]
  exact applyPowers_zero _ _ _

theorem value_of_whole (hfraction : s.fraction = none) (hpower : s.power = none) :
    (s.literal.value : α) = accumulate s.literal.digits := by
  have hexponent : s.literal.exponent = 0 := by
    simp [Spelling.literal, Spelling.written, Spelling.places, hfraction, hpower]
  rw [value, hexponent, scale_zero_exponent]

end

/-- Up to 22 zeros, a power of ten is read exactly. -/
theorem accumulate_ten {k : ℕ} (hk : k ≤ 22) :
    (accumulate (1 :: List.replicate k 0) : Float) = nearest (10 ^ k) := by
  have hone : (accumulate [1] : Float) = Float.ofNat 1 :=
    accumulate_exact exactBelow_float (by norm_num) [1] (by norm_num)
  have hten : (Arithmetic.ofNat 10 : Float) = nearest (10 ^ 1) :=
    powerOfTen_eq (i := 0) (by norm_num)
  have hzero : (Arithmetic.ofNat 0 : Float) = nearest 0 := nearest_zero.symm
  induction k with
  | zero =>
    rw [List.replicate_zero, hone, ofNat_eq (by norm_num), Nat.cast_one, pow_zero]
  | succ k ih =>
    rw [List.replicate_succ', ← List.cons_append, accumulate_concat, ih (by omega), hten, hzero,
      nearest_mul (representable_ten_pow (by omega)) (representable_ten_pow (by norm_num)),
      ← pow_add, nearest_add (representable_ten_pow hk) Representable.zero, add_zero]

theorem value_ten (k : ℕ) :
    ((Spelling.ten k).literal.value : Float) = accumulate (1 :: List.replicate k 0) := by
  have hdigits : (Spelling.ten k).literal.digits = 1 :: List.replicate k 0 := by
    have hone : Byte.digitValue 0x31 = 1 := rfl
    have hzero : Byte.digitValue 0x30 = 0 := rfl
    simp [Spelling.literal, Spelling.ten, Spelling.places, hone, hzero]
  rw [value_of_whole rfl rfl, hdigits]

theorem value_ten_two_pow {i : ℕ} (hi : i < 5) :
    ((Spelling.ten (2 ^ i)).literal.value : Float) = powerOfTen i := by
  have hle : 2 ^ i ≤ 2 ^ 4 := Nat.pow_le_pow_right (by norm_num) (by omega)
  rw [value_ten, accumulate_ten (by omega), powerOfTen_eq hi]

/-- The number with its digits taken as a whole is divided by one power after the other. -/
theorem value_places {s : Spelling} (hpower : s.power = none) (hlt : s.integer < 2 ^ 53) :
    (s.literal.value : Float) =
      (s.places.length.bitIndices.map powerOfTen).foldl (· / ·) (Float.ofNat s.integer) := by
  have hexponent : s.literal.exponent = -s.places.length := by
    simp [Spelling.literal, Spelling.written, hpower]
  rw [value, hexponent, accumulate_float hlt, scale_neg_natCast, applyPowers_ten]

/-! ## Literals as quotients -/

/-- A number with `k` digits behind the point and a whole number that spells the same integer, one of
53 binary digits.  Neither has an exponent part. -/
structure SameDigits (k : ℕ) (s t : Spelling) : Prop where
  power : s.power = none
  places : s.places.length = k
  lt : s.integer < 2 ^ 53
  whole : t.fraction = none ∧ t.power = none
  integer : t.integer = s.integer

theorem SameDigits.inRange {k : ℕ} {s t : Spelling} (h : SameDigits k s t) (hk : k ≤ 22) :
    s.InRange ∧ t.InRange := by
  have hbound : 22 ≤ exponentBound := by decide
  have hwhole : t.places.length = 0 := by rw [Spelling.places, h.whole.1, List.length_nil]
  exact ⟨inRange_of_no_power h.power ((h.places.trans_le hk).trans hbound),
    inRange_of_no_power h.whole.2 (hwhole.trans_le (Nat.zero_le _))⟩

theorem SameDigits.value_whole {k : ℕ} {s t : Spelling} (h : SameDigits k s t) :
    (t.literal.value : Float) = Float.ofNat s.integer := by
  rw [value_of_whole h.whole.1 h.whole.2, accumulate_float (h.integer ▸ h.lt), h.integer]

/-- Every number with `k` digits behind the point has, bit for bit, the value of a quotient, that of
its digits taken as a whole and the given divisors. -/
def IsQuotient (scope : Option (Scope σ)) (limits : Limits) (host : σ) (k : ℕ)
    (divisors : List Spelling) : Prop :=
  ∀ s t, SameDigits k s t → ∀ text quotient, bytesOf text = s.bytes →
    bytesOf quotient = quotientBytes t divisors →
    ∃ v, evaluate scope text limits host = .ok v host ∧
      evaluate scope quotient limits host = .ok v host

section

variable (scope : Option (Scope σ)) {limits : Limits} (hdepth : 0 < limits.depth) (host : σ) {k : ℕ}
  (hk : k ≤ 22)

include hdepth hk

theorem isQuotient_powers :
    IsQuotient scope limits host k (k.bitIndices.map fun i => .ten (2 ^ i)) := by
  intro s t hst text quotient htext hquotient
  obtain ⟨hs, ht⟩ := hst.inRange hk
  have hdivisors : ((k.bitIndices.map fun i => Spelling.ten (2 ^ i)).map
      fun u => u.literal.value) = k.bitIndices.map powerOfTen := by
    rw [List.map_map]
    refine List.map_congr_left fun i hi => value_ten_two_pow ?_
    have hle := Nat.two_pow_le_of_mem_bitIndices hi
    exact (Nat.pow_lt_pow_iff_right (by norm_num)).1 (by omega : 2 ^ i < 2 ^ 5)
  refine ⟨s.literal.value, evaluate_literal scope hdepth host hs htext, ?_⟩
  rw [evaluate_quotient scope hdepth host ht (by simpa using fun i _ => inRange_ten (2 ^ i))
    hquotient, hdivisors, hst.value_whole, value_places hst.power hst.lt, hst.places]

end

/-! ## Divisions by one power of ten -/

theorem lt_of_isDigit {b : UInt8} (h : Byte.isDigit b = true) : b < 128 :=
  Byte.lt_of_isName (by simp [Byte.isName, h])

theorem ascii_of_no_power {s : Spelling} (hpower : s.power = none) : ∀ b ∈ s.bytes, b < 128 := by
  intro b hb
  simp only [Spelling.bytes, Spelling.powerBytes, hpower, List.append_nil, List.mem_append] at hb
  rcases hb with hw | hp
  · exact lt_of_isDigit (s.all_isDigit b hw)
  · unfold Spelling.pointBytes at hp
    cases hf : s.fraction with
    | none => simp [hf] at hp
    | some d =>
      rw [hf] at hp
      rcases List.mem_cons.1 hp with rfl | hd
      · decide
      · exact lt_of_isDigit (d.all_isDigit b hd)

/-- The digit for a number below ten. -/
def digit (d : ℕ) : UInt8 :=
  0x30 + UInt8.ofNat d

theorem digit_spec : ∀ d < 10, Byte.isDigit (digit d) ∧ Byte.digitValue (digit d) = d := by
  decide

/-- The two digits of a number below 100. -/
def twoDigits (n : ℕ) : List UInt8 :=
  [digit (n / 10), digit (n % 10)]

theorem twoDigits_spec {n : ℕ} (hn : n < 100) : (∀ b ∈ twoDigits n, Byte.isDigit b) ∧
    Nat.ofDigits 10 ((twoDigits n).map Byte.digitValue).reverse = n := by
  obtain ⟨htens, htens'⟩ := digit_spec (n / 10) (by omega)
  obtain ⟨hones, hones'⟩ := digit_spec (n % 10) (by omega)
  refine ⟨by simp [twoDigits, htens, hones], ?_⟩
  rw [twoDigits, List.map_cons, List.map_singleton, htens', hones', List.reverse_cons,
    List.reverse_singleton, List.singleton_append, Nat.ofDigits_cons, Nat.ofDigits_singleton,
    Nat.mod_add_div]

/-- Two digits, with zeros in front and a point before them. -/
theorem exists_sameDigits {n k : ℕ} (hn : n < 100) (hk : 2 ≤ k) :
    ∃ s t, SameDigits k s t ∧ s.integer = n := by
  obtain ⟨hdigits, hvalue⟩ := twoDigits_spec hn
  have hplaces : ∀ b ∈ List.replicate (k - 2) 0x30 ++ twoDigits n, Byte.isDigit b := by
    intro b hb
    rcases List.mem_append.1 hb with hz | hd
    · rw [List.eq_of_mem_replicate hz]
      rfl
    · exact hdigits b hd
  let s : Spelling :=
    ⟨[], nofun, some ⟨List.replicate (k - 2) 0x30 ++ twoDigits n, hplaces, by simp [twoDigits]⟩,
      none, .inr rfl⟩
  let t : Spelling := ⟨twoDigits n, hdigits, none, none, .inl (List.cons_ne_nil _ _)⟩
  have ht : t.integer = n := by
    rw [← hvalue]
    simp [Spelling.integer, Spelling.literal, Spelling.places, t]
  have hs : s.integer = n := by
    rw [← hvalue]
    simp [Spelling.integer, Spelling.literal, Spelling.places, s, Byte.digitValue]
  have hlength : s.places.length = k := by
    show (List.replicate (k - 2) 0x30 ++ twoDigits n).length = k
    simp [twoDigits]
    omega
  exact ⟨s, t, ⟨rfl, hlength, by omega, ⟨rfl, rfl⟩, ht.trans hs.symm⟩, hs⟩

/-- For every number of places that is not a power of two, a division by one power of ten is not
always the same. -/
theorem exists_inexact : ∀ k ∈ List.range 23, k = 0 ∨ (∃ i < 5, k = 2 ^ i) ∨ ∃ n ∈ [7, 51],
    (k.bitIndices.map powerOfTen).foldl (· / ·) (Float.ofNat n) ≠
      Float.ofNat n / accumulate (1 :: List.replicate k 0) := by
  decide +kernel

section

variable (scope : Option (Scope σ)) {limits : Limits} (hdepth : 0 < limits.depth) (host : σ) {k : ℕ}

include hdepth

theorem value_of_isQuotient (hk : k ≤ 22) (h : IsQuotient scope limits host k [.ten k])
    {s t : Spelling} (hst : SameDigits k s t) :
    (s.literal.value : Float) = t.literal.value / (Spelling.ten k).literal.value := by
  obtain ⟨hs, ht⟩ := hst.inRange hk
  have htext := bytesOf_ascii (ascii_of_no_power hst.power)
  have hquotient : bytesOf (Byte.ascii (quotientBytes t [.ten k])) = quotientBytes t [.ten k] := by
    refine bytesOf_ascii fun b hb => ?_
    simp only [quotientBytes, List.flatMap_singleton, List.mem_append, List.mem_cons] at hb
    rcases hb with hb | rfl | hb
    · exact ascii_of_no_power hst.whole.2 b hb
    · decide
    · exact ascii_of_no_power rfl b hb
  obtain ⟨v, hu, hv⟩ := h s t hst _ _ htext hquotient
  rw [evaluate_literal scope hdepth host hs htext] at hu
  rw [evaluate_quotient scope hdepth host ht (by simpa using inRange_ten k) hquotient] at hv
  exact (EStateM.Result.ok.inj hu).1.trans (EStateM.Result.ok.inj hv).1.symm

theorem isPowerOfTwo_of_isQuotient (h1 : 1 ≤ k) (hk : k ≤ 22)
    (h : IsQuotient scope limits host k [.ten k]) : ∃ i, k = 2 ^ i := by
  rcases exists_inexact k (List.mem_range.2 (by omega)) with h0 | ⟨i, -, hi⟩ | ⟨n, hn, hne⟩
  · omega
  · exact ⟨i, hi⟩
  · by_cases hone : k = 1
    · exact ⟨0, hone⟩
    · have hn : n < 100 := by
        simp at hn
        omega
      obtain ⟨s, t, hst, hs⟩ := exists_sameDigits hn (k := k) (by omega)
      have hvalue := value_of_isQuotient scope hdepth host hk h hst
      rw [value_places hst.power hst.lt, hst.places, hst.value_whole, hs, value_ten] at hvalue
      exact absurd hvalue hne

end

/-- **A literal is a quotient with several divisors.**  Take any literal with `k` digits behind the
point, at most 22, and no exponent part, and let the integer that all its digits spell have 53 binary
digits.  Its value is, bit for bit, what is evaluated from the text of that integer divided by a one
with `2 ^ i` zeros for each binary digit `i` that is set in `k`, one after the other and the lowest
first.  A single division by a one with `k` zeros always gives the same just for those `k` that are
powers of two. -/
theorem evaluate_places (scope : Option (Scope σ)) {limits : Limits} (hdepth : 0 < limits.depth)
    (host : σ) {k : ℕ} (h1 : 1 ≤ k) (hk : k ≤ 22) :
    IsQuotient scope limits host k (k.bitIndices.map fun i => .ten (2 ^ i)) ∧
      (IsQuotient scope limits host k [.ten k] ↔ ∃ i, k = 2 ^ i) := by
  have hpowers := isQuotient_powers scope hdepth host hk
  refine ⟨hpowers, isPowerOfTwo_of_isQuotient scope hdepth host h1 hk, ?_⟩
  rintro ⟨i, rfl⟩
  rwa [Nat.bitIndices_two_pow] at hpowers

/-- Three places, which are one and two, and two places. -/
theorem evaluate_three_places :
    (∃ v, evaluate (σ := Unit) none "12.345" {} () = .ok v () ∧
      evaluate (σ := Unit) none "12345/10/100" {} () = .ok v ()) ∧
    ∃ v, evaluate (σ := Unit) none "0.25" {} () = .ok v () ∧
      evaluate (σ := Unit) none "25/100" {} () = .ok v () := by
  have hdepth : 0 < ({} : Limits).depth := by decide
  constructor
  · let s : Spelling := ⟨bytesOf "12", List.all_eq_true.1 (by decide),
      some ⟨bytesOf "345", List.all_eq_true.1 (by decide), by decide⟩, none, .inr rfl⟩
    let t : Spelling :=
      ⟨bytesOf "12345", List.all_eq_true.1 (by decide), none, none, .inl (by decide)⟩
    have hst : SameDigits 3 s t := ⟨rfl, by decide, by decide, ⟨rfl, rfl⟩, by decide⟩
    obtain ⟨hchain, -⟩ := evaluate_places (σ := Unit) none hdepth () (k := 3)
      (by norm_num) (by norm_num)
    exact hchain s t hst "12.345" "12345/10/100" (by decide) (by decide)
  · let s : Spelling := ⟨bytesOf "0", List.all_eq_true.1 (by decide),
      some ⟨bytesOf "25", List.all_eq_true.1 (by decide), by decide⟩, none, .inr rfl⟩
    let t : Spelling :=
      ⟨bytesOf "25", List.all_eq_true.1 (by decide), none, none, .inl (by decide)⟩
    have hst : SameDigits 2 s t := ⟨rfl, by decide, by decide, ⟨rfl, rfl⟩, by decide⟩
    obtain ⟨-, hsingle⟩ := evaluate_places (σ := Unit) none hdepth () (k := 2)
      (by norm_num) (by norm_num)
    exact hsingle.2 ⟨1, rfl⟩ s t hst "0.25" "25/100" (by decide) (by decide)

/-- Seven thousandths are not seven divided by a thousand. -/
theorem seven_thousandths :
    ∃ u v, evaluate (σ := Unit) none "0.007" {} () = .ok u () ∧
      evaluate (σ := Unit) none "7/1000" {} () = .ok v () ∧ u ≠ v := by
  let s : Spelling := ⟨bytesOf "0", List.all_eq_true.1 (by decide),
    some ⟨bytesOf "007", List.all_eq_true.1 (by decide), by decide⟩, none, .inr rfl⟩
  let t : Spelling := ⟨bytesOf "7", List.all_eq_true.1 (by decide), none, none, .inl (by decide)⟩
  have hst : SameDigits 3 s t := ⟨rfl, by decide, by decide, ⟨rfl, rfl⟩, by decide⟩
  have hdepth : 0 < ({} : Limits).depth := by decide
  have htext : bytesOf "0.007" = s.bytes := by decide
  have hquotient : bytesOf "7/1000" = quotientBytes t [.ten 3] := by decide
  obtain ⟨hs, ht⟩ := hst.inRange (by norm_num)
  have hu := evaluate_literal (σ := Unit) none hdepth () hs htext
  have hv := evaluate_quotient (σ := Unit) none hdepth () ht (by simpa using inRange_ten 3)
    hquotient
  refine ⟨_, _, hu, hv, ?_⟩
  rw [value_places hst.power hst.lt, List.map_singleton, hst.value_whole, value_ten]
  -- 7 divided by 10 and by 100, and 7 divided by 1000
  decide +kernel

end Literal

end Formula
