import Formula.Proofs.Step
import Formula.Proofs.Token.Next

/-!
# Texts of literals

A text of the grammar `(D+ | D* '.' D+) ([eE] [+-]? D+)?` is kept by its parts (`Spelling`), each
with the conditions that the grammar puts on it.  Any number of digits may stand in each part.

A spelling is read back where nothing goes on with it (`scan_of_inRange`), as the literal of its
digits and its exponent.  Where the exponent leaves its range, the reading fails for that reason and
no other (`scan_of_not_inRange`).
-/

namespace Formula.Literal

open Byte

/-! ## Spellings -/

/-- Digits in a row, at least one. -/
structure Digits where
  bytes : List UInt8
  all_isDigit : ∀ b ∈ bytes, isDigit b
  ne_nil : bytes ≠ []

/-- The sign of an exponent. -/
inductive Sign where
  | plus
  | minus
  deriving DecidableEq, Repr

/-- An exponent as it is written. -/
structure Power where
  /-- Is the exponent mark the capital one? -/
  capital : Bool
  sign : Option Sign
  digits : Digits

/-- A text of the grammar of literals, by its parts. -/
structure Spelling where
  /-- The digits before the point. -/
  whole : List UInt8
  all_isDigit : ∀ b ∈ whole, isDigit b
  /-- The digits behind the point, if there is one. -/
  fraction : Option Digits
  power : Option Power
  some_digit : whole ≠ [] ∨ fraction.isSome

/-- The number that digits spell behind those that spell `n`. -/
def numeral (n : Nat) (digits : List UInt8) : Nat :=
  digits.foldl (fun n b => 10 * n + digitValue b) n

/-- A sign as it is written; without one, nothing is. -/
def signBytes : Option Sign → List UInt8
  | none => []
  | some .plus => [0x2B]
  | some .minus => [0x2D]

namespace Power

/-- The exponent without its sign. -/
def magnitude (p : Power) : Nat :=
  numeral 0 p.digits.bytes

/-- The exponent that is written. -/
def exponent (p : Power) : Int :=
  if p.sign = some .minus then -(p.magnitude : Int) else p.magnitude

/-- The text behind the mark. -/
def unmarked (p : Power) : List UInt8 :=
  signBytes p.sign ++ p.digits.bytes

def bytes (p : Power) : List UInt8 :=
  (if p.capital then 0x45 else 0x65) :: p.unmarked

end Power

namespace Spelling

/-- The digits behind the point. -/
def places (s : Spelling) : List UInt8 :=
  match s.fraction with
  | none => []
  | some d => d.bytes

/-- The point with the digits behind it, if there is one. -/
def pointBytes (s : Spelling) : List UInt8 :=
  match s.fraction with
  | none => []
  | some d => 0x2E :: d.bytes

/-- The exponent with its mark, if there is one. -/
def powerBytes (s : Spelling) : List UInt8 :=
  match s.power with
  | none => []
  | some p => p.bytes

/-- The exponent that is written, 0 if none is. -/
def written (s : Spelling) : Int :=
  match s.power with
  | none => 0
  | some p => p.exponent

/-- The text. -/
def bytes (s : Spelling) : List UInt8 :=
  s.whole ++ s.pointBytes ++ s.powerBytes

/-- The literal that is spelled. -/
def literal (s : Spelling) : Literal where
  digits := (s.whole ++ s.places).map digitValue
  exponent := s.written - (s.places.length : Int)

/-- The exponent stays within its range at every step of reading it: the digits behind the point are
counted, then the exponent is read without its sign, and then the two are taken together.  So the
lowest exponent of all is out of range where it is written as such, though not where it comes of the
digits behind the point. -/
structure InRange (s : Spelling) : Prop where
  places : s.places.length ≤ exponentBound
  magnitude : ∀ p ∈ s.power, p.magnitude < exponentBound
  exponent : inRange s.literal.exponent

end Spelling

/-- Nothing at the front of a text goes on with the digits of a literal before it.  A point does so
where there is none yet. -/
structure Spelling.EndsDigits (s : Spelling) (rest : List UInt8) : Prop where
  digit : isDigit (peek rest) = false
  point : s.fraction = none → (peek rest == 0x2E) = false

/-- Nothing at the front of a text goes on with a literal before it.  What would do so depends on
the parts that the literal has. -/
structure Spelling.Ends (s : Spelling) (rest : List UInt8) : Prop where
  digit : isDigit (peek rest) = false
  point : s.fraction = none → s.power = none → (peek rest == 0x2E) = false
  small : s.power = none → (peek rest == 0x65) = false
  capital : s.power = none → (peek rest == 0x45) = false

/-- Nothing at the front of a text goes on with any literal before it. -/
structure Stops (rest : List UInt8) : Prop where
  digit : isDigit (peek rest) = false
  point : (peek rest == 0x2E) = false
  small : (peek rest == 0x65) = false
  capital : (peek rest == 0x45) = false

theorem Stops.ends {rest : List UInt8} (h : Stops rest) (s : Spelling) : s.Ends rest :=
  ⟨h.digit, fun _ _ => h.point, fun _ => h.small, fun _ => h.capital⟩

/-! ## Reading the parts -/

/-- A scanner fails on a text since a literal is out of range. -/
def OutOfRange {α : Type} (p : Scan α) (bytes : List UInt8) : Prop :=
  ∃ rest, p bytes = .error .literalOutOfRange rest

theorem OutOfRange.bind {α β : Type} {p : Scan α} {bytes : List UInt8} (h : OutOfRange p bytes)
    (f : α → Scan β) : OutOfRange (p >>= f) bytes :=
  h.imp fun _ hr => Step.bind_of_error hr

theorem OutOfRange.bind_of_ok {α β : Type} {p : Scan α} {f : α → Scan β}
    {bytes rest : List UInt8} {a : α} (hp : p bytes = .ok a rest) (h : OutOfRange (f a) rest) : OutOfRange (p >>= f) bytes :=
  h.imp fun _ hr => (Step.bind_of_ok hp).trans hr

theorem numeral_cons (n : Nat) (b : UInt8) (digits : List UInt8) :
    numeral n (b :: digits) = numeral (10 * n + digitValue b) digits := rfl

theorem le_numeral (n : Nat) (digits : List UInt8) : n ≤ numeral n digits := by
  induction digits generalizing n with
  | nil => exact Nat.le_refl n
  | cons b digits ih =>
    have := ih (10 * n + digitValue b)
    rw [numeral_cons]
    omega

theorem beginsWithDigit_digits (d : Digits) (rest : List UInt8) :
    beginsWithDigit (d.bytes ++ rest) = true := by
  obtain ⟨b, bytes, hb⟩ := List.exists_cons_of_ne_nil d.ne_nil
  rw [hb]
  exact d.all_isDigit b (by rw [hb]; exact List.mem_cons_self ..)

section Magnitude

variable {digits rest : List UInt8} {n : Nat}

theorem scanMagnitude_of_lt (hd : ∀ b ∈ digits, isDigit b) (hr : isDigit (peek rest) = false)
    (h : numeral n digits < exponentBound) :
    scanMagnitude n (digits ++ rest) = .ok (numeral n digits) rest := by
  induction digits generalizing n with
  | nil => exact scanMagnitude_of_not_digit hr n
  | cons b digits ih =>
    rw [numeral_cons] at h ⊢
    have := le_numeral (10 * n + digitValue b) digits
    rw [List.cons_append, scanMagnitude, if_pos (hd b (List.mem_cons_self ..)),
      if_pos (by omega), ih (fun c hc => hd c (List.mem_cons_of_mem _ hc)) h]

/-- The reading fails at the digit that takes the magnitude out of range, and not before. -/
theorem scanMagnitude_of_le (hd : ∀ b ∈ digits, isDigit b) (hn : n < exponentBound)
    (h : exponentBound ≤ numeral n digits) : OutOfRange (scanMagnitude n) (digits ++ rest) := by
  induction digits generalizing n with
  | nil => exact absurd hn (Nat.not_lt.2 h)
  | cons b digits ih =>
    rw [numeral_cons] at h
    unfold OutOfRange
    rw [List.cons_append, scanMagnitude, if_pos (hd b (List.mem_cons_self ..))]
    by_cases hb : 10 * n + digitValue b < exponentBound
    · rw [if_pos hb]
      exact ih (fun c hc => hd c (List.mem_cons_of_mem _ hc)) hb h
    · rw [if_neg hb]
      exact ⟨_, rfl⟩

end Magnitude

theorem scanUnsigned_digits (d : Digits) (rest : List UInt8) :
    scanUnsigned (d.bytes ++ rest) = scanMagnitude 0 (d.bytes ++ rest) := by
  rw [scanUnsigned, if_pos (beginsWithDigit_digits d rest)]

theorem ne_of_isDigit {b c : UInt8} (h : isDigit b) (hc : isDigit c = false) :
    (b == c) = false := by
  rw [beq_eq_false_iff_ne]
  rintro rfl
  rw [h] at hc
  cases hc

theorem scanSign_sign (sign : Option Sign) (d : Digits) (rest : List UInt8) :
    scanSign (signBytes sign ++ (d.bytes ++ rest)) =
      .ok (decide (sign = some .minus)) (d.bytes ++ rest) := by
  cases sign with
  | none =>
    have h : isDigit (peek (d.bytes ++ rest)) := by
      rw [← beginsWithDigit_eq, beginsWithDigit_digits]
    exact scanSign_of_ne (ne_of_isDigit h rfl) (ne_of_isDigit h rfl)
  | some sign => cases sign <;> rfl

section Power

variable {p : Power} {rest : List UInt8}

theorem scanSigned_of_lt (h : p.magnitude < exponentBound) (hr : isDigit (peek rest) = false) :
    scanSigned (p.unmarked ++ rest) = .ok p.exponent rest := by
  rw [Power.unmarked, List.append_assoc, scanSigned,
    Step.bind_of_ok (scanSign_sign p.sign p.digits rest),
    Step.bind_of_ok ((scanUnsigned_digits _ _).trans
      (scanMagnitude_of_lt p.digits.all_isDigit hr h))]
  simp only [Power.exponent, Power.magnitude, decide_eq_true_eq]
  rfl

theorem scanSigned_of_le (h : exponentBound ≤ p.magnitude) :
    OutOfRange scanSigned (p.unmarked ++ rest) := by
  rw [Power.unmarked, List.append_assoc]
  refine OutOfRange.bind_of_ok (scanSign_sign p.sign p.digits rest) (OutOfRange.bind ?_ _)
  rw [OutOfRange, scanUnsigned_digits]
  exact scanMagnitude_of_le p.digits.all_isDigit (by decide) h

theorem scanExponent_mark (p : Power) (rest : List UInt8) :
    scanExponent (p.bytes ++ rest) = scanSigned (p.unmarked ++ rest) := by
  rw [Power.bytes]
  split <;> rfl

end Power

/-! ## Reading a literal -/

/-- A literal begins with a digit or the point. -/
theorem Spelling.exists_cons (s : Spelling) :
    ∃ b bytes, s.bytes = b :: bytes ∧ (isDigit b || b == 0x2E) := by
  unfold bytes
  cases hw : s.whole with
  | cons b whole =>
    have hb : isDigit b := s.all_isDigit b (by rw [hw]; exact List.mem_cons_self ..)
    exact ⟨b, _, rfl, by rw [hb, Bool.true_or]⟩
  | nil =>
    -- a literal without digits before the point has some behind it
    obtain ⟨d, hd⟩ := Option.isSome_iff_exists.1 (s.some_digit.resolve_left (absurd hw))
    exact ⟨0x2E, d.bytes ++ s.powerBytes, by rw [pointBytes, hd]; rfl, rfl⟩

section Spelling

variable {s : Spelling} {rest : List UInt8}

/-- An exponent goes on with no digits, nor does what ends the literal. -/
theorem Spelling.Ends.endsDigits (hr : s.Ends rest) : s.EndsDigits (s.powerBytes ++ rest) := by
  unfold Spelling.powerBytes
  split
  · next hp => exact ⟨hr.digit, fun hf => hr.point hf hp⟩
  · rw [Power.bytes]
    split <;> exact ⟨rfl, fun _ => rfl⟩

theorem isDigit_peek_pointBytes (hr : s.EndsDigits rest) :
    isDigit (peek (s.pointBytes ++ rest)) = false := by
  unfold Spelling.pointBytes
  split
  · exact hr.digit
  · rfl

/-- The digits behind a point are read where they can be counted. -/
theorem scanFraction_point (d : Digits) (hr : isDigit (peek rest) = false) :
    scanFraction (0x2E :: (d.bytes ++ rest)) =
      if d.bytes.length ≤ exponentBound then .ok (d.bytes.map digitValue) rest
      else .error .literalOutOfRange ((d.bytes ++ rest).drop (exponentBound + 1)) := by
  rw [scanFraction, if_neg (by rw [beginsWithDigit_digits]; exact Bool.false_ne_true),
    takeWhile_run d.all_isDigit hr, scanDigits_run d.all_isDigit hr]

theorem scanFraction_of_le (h : s.places.length ≤ exponentBound) (hr : s.EndsDigits rest) :
    scanFraction (s.pointBytes ++ rest) = .ok (s.places.map digitValue) rest := by
  unfold Spelling.places at h ⊢
  unfold Spelling.pointBytes
  split
  · next hf => exact scanFraction_of_ne (hr.point hf)
  · next d hf =>
    rw [hf] at h
    rw [List.cons_append, scanFraction_point d hr.digit, if_pos h]

theorem scanFraction_of_lt (h : exponentBound < s.places.length) (hr : s.EndsDigits rest) :
    OutOfRange scanFraction (s.pointBytes ++ rest) := by
  unfold Spelling.places at h
  unfold Spelling.pointBytes
  split
  · next hf =>
    rw [hf] at h
    cases h
  · next d hf =>
    rw [hf] at h
    rw [OutOfRange, List.cons_append, scanFraction_point d hr.digit, if_neg (Nat.not_le.2 h)]
    exact ⟨_, rfl⟩

theorem scanExponent_of_lt (h : ∀ p ∈ s.power, p.magnitude < exponentBound) (hr : s.Ends rest) :
    scanExponent (s.powerBytes ++ rest) = .ok s.written rest := by
  unfold Spelling.powerBytes Spelling.written
  split
  · next hp => exact scanExponent_of_ne (hr.small hp) (hr.capital hp)
  · next p hp => rw [scanExponent_mark, scanSigned_of_lt (h p hp) hr.digit]

theorem scanDigits_whole (s : Spelling) (hr : s.EndsDigits rest) :
    scanDigits (s.whole ++ (s.pointBytes ++ rest)) =
      .ok (s.whole.map digitValue) (s.pointBytes ++ rest) :=
  scanDigits_run s.all_isDigit (isDigit_peek_pointBytes hr)

theorem Spelling.bytes_append (s : Spelling) (rest : List UInt8) :
    s.bytes ++ rest = s.whole ++ (s.pointBytes ++ (s.powerBytes ++ rest)) := by
  rw [Spelling.bytes, List.append_assoc, List.append_assoc]

/-- A literal in range is read back as its digits and its exponent. -/
theorem scan_of_inRange (h : s.InRange) (hr : s.Ends rest) :
    scan (s.bytes ++ rest) = .ok s.literal rest := by
  rw [s.bytes_append, scan, Step.bind_of_ok (scanDigits_whole s hr.endsDigits),
    Step.bind_of_ok (scanFraction_of_le h.places hr.endsDigits),
    Step.bind_of_ok (scanExponent_of_lt h.magnitude hr)]
  have he := h.exponent
  simp only [Spelling.literal, List.length_map, List.map_append] at he ⊢
  rw [if_pos he]
  rfl

/-- A literal with more digits behind the point than can be counted is refused, whatever follows. -/
theorem scan_of_lt (h : exponentBound < s.places.length) (hr : s.EndsDigits rest) :
    OutOfRange scan (s.whole ++ (s.pointBytes ++ rest)) :=
  OutOfRange.bind_of_ok (scanDigits_whole s hr) ((scanFraction_of_lt h hr).bind _)

/-- A literal out of range is refused as such. -/
theorem scan_of_not_inRange (h : ¬ s.InRange) (hr : s.Ends rest) :
    OutOfRange scan (s.bytes ++ rest) := by
  rw [s.bytes_append]
  by_cases hf : s.places.length ≤ exponentBound
  · refine OutOfRange.bind_of_ok (scanDigits_whole s hr.endsDigits) ?_
    refine OutOfRange.bind_of_ok (scanFraction_of_le hf hr.endsDigits) ?_
    by_cases hp : ∀ p ∈ s.power, p.magnitude < exponentBound
    · refine OutOfRange.bind_of_ok (scanExponent_of_lt hp hr) ?_
      have he : ¬ inRange s.literal.exponent := fun he => h ⟨hf, hp, he⟩
      simp only [Spelling.literal] at he
      rw [OutOfRange, List.length_map, if_neg he]
      exact ⟨_, rfl⟩
    · refine OutOfRange.bind ?_ _
      simp only [Classical.not_forall, Nat.not_lt] at hp
      obtain ⟨p, hp, hle⟩ := hp
      rw [OutOfRange, Spelling.powerBytes, hp, scanExponent_mark]
      exact scanSigned_of_le hle
  · exact scan_of_lt (Nat.not_le.1 hf) hr.endsDigits

end Spelling

end Formula.Literal
