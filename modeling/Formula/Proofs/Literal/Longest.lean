import Formula.Proofs.Literal.Phase
import Formula.Proofs.Token.Spelling

/-!
# The longest front part of a literal

The scanner of literals never goes back.  It reads as far as the text can be the beginning of a
literal, and then it is a literal or nothing is: where that longest front part is a literal, the
scanner stops exactly behind it, and where it is not, the literal is invalid (`next_longest`).

A front part ends in one of three ways (`Munched`): with a literal, behind a point without digits,
or behind an exponent mark without digits.  Every text that begins like a literal begins with one of
them (`exists_munched`), which is its longest front part (`Munched.longest`) and says how the text is
read (`Munched.read`).
-/

namespace Formula.Literal

open Byte
open Phase (start through?_cons through?_append through?_digits_of_ne)

/-! ## How a front part ends -/

/-- An exponent mark with a sign behind it, if there is one, and without digits. -/
def markBytes (capital : Bool) (sign : Option Sign) : List UInt8 :=
  (if capital then 0x45 else 0x65) :: signBytes sign

/-- The ways in which a front part of a text ends that no literal goes on with behind it. -/
inductive Munched : List UInt8 → List UInt8 → Prop
  /-- The front part is a literal. -/
  | literal (s : Spelling) {rest : List UInt8} (ends : s.Ends rest) : Munched s.bytes rest
  /-- There is no digit behind the point. -/
  | point {whole rest : List UInt8} (all_isDigit : ∀ b ∈ whole, isDigit b)
      (digit : isDigit (peek rest) = false) : Munched (whole ++ [0x2E]) rest
  /-- There is no digit in the exponent. -/
  | mark (s : Spelling) (digitsOnly : s.power = none) (capital : Bool) (sign : Option Sign)
      {rest : List UInt8} (digit : isDigit (peek rest) = false)
      (signed : sign = none → (peek rest == 0x2B) = false ∧ (peek rest == 0x2D) = false) :
      Munched (s.bytes ++ markBytes capital sign) rest

section Munched

variable {bytes front rest : List UInt8}

/-- A text that begins with digits has all of them before the point, and all behind it, or breaks
off there. -/
theorem exists_digits (hb : isDigit (peek bytes) || peek bytes == 0x2E) :
    (∃ whole rest, bytes = whole ++ [0x2E] ++ rest ∧ (∀ b ∈ whole, isDigit b) ∧
      isDigit (peek rest) = false) ∨
    ∃ (s : Spelling) (rest : List UInt8), bytes = s.bytes ++ rest ∧ s.power = none ∧
      s.EndsDigits rest := by
  obtain ⟨whole, behind, rfl, hw, hstop⟩ := exists_run (p := isDigit) rfl bytes
  cases hp : peek behind == 0x2E with
  | true =>
    obtain ⟨behind, rfl⟩ := exists_cons_of_peek (eq_of_beq hp) (by decide)
    obtain ⟨places, rest, rfl, hd, hr⟩ := exists_run (p := isDigit) rfl behind
    by_cases hne : places = []
    · subst hne
      exact .inl ⟨whole, rest, by simp, hw, hr⟩
    · refine .inr ⟨⟨whole, hw, some ⟨places, hd, hne⟩, none, .inr rfl⟩, rest, ?_, rfl, hr, nofun⟩
      simp [Spelling.bytes, Spelling.pointBytes, Spelling.powerBytes]
  | false =>
    have hne : whole ≠ [] := by
      rintro rfl
      simp [hstop, hp] at hb
    refine .inr ⟨⟨whole, hw, none, none, .inl hne⟩, behind, ?_, rfl, hstop, fun _ => hp⟩
    simp [Spelling.bytes, Spelling.pointBytes, Spelling.powerBytes]

/-- A text begins with a sign or with no sign. -/
theorem exists_sign (bytes : List UInt8) : ∃ sign rest, bytes = signBytes sign ++ rest ∧
    (sign = none → (peek rest == 0x2B) = false ∧ (peek rest == 0x2D) = false) := by
  by_cases hp : peek bytes = 0x2B
  · obtain ⟨rest, rfl⟩ := exists_cons_of_peek hp (by decide)
    exact ⟨some .plus, rest, rfl, nofun⟩
  · by_cases hm : peek bytes = 0x2D
    · obtain ⟨rest, rfl⟩ := exists_cons_of_peek hm (by decide)
      exact ⟨some .minus, rest, rfl, nofun⟩
    · exact ⟨none, bytes, rfl, fun _ => ⟨beq_false_of_ne hp, beq_false_of_ne hm⟩⟩

/-- The exponent goes on with digits, or breaks off. -/
theorem exists_power {s : Spelling} (hs : s.power = none) (capital : Bool) (rest : List UInt8) :
    ∃ front more, s.bytes ++ ((if capital then 0x45 else 0x65) :: rest) = front ++ more ∧
      Munched front more := by
  obtain ⟨sign, rest, rfl, hsign⟩ := exists_sign rest
  obtain ⟨digits, rest, rfl, hd, hr⟩ := exists_run (p := isDigit) rfl rest
  by_cases hne : digits = []
  · subst hne
    exact ⟨s.bytes ++ markBytes capital sign, rest, by simp [markBytes],
      .mark s hs capital sign hr hsign⟩
  · let p : Power := ⟨capital, sign, digits, hd, hne⟩
    let s' : Spelling := { s with power := some p }
    refine ⟨s'.bytes, rest, ?_, .literal s' ⟨hr, nofun, nofun, nofun⟩⟩
    simp [s', p, Spelling.bytes, Spelling.pointBytes, Spelling.powerBytes, hs, Power.bytes,
      Power.unmarked]

theorem exists_munched (hb : isDigit (peek bytes) || peek bytes == 0x2E) :
    ∃ front rest, bytes = front ++ rest ∧ Munched front rest := by
  rcases exists_digits hb with ⟨whole, rest, rfl, hw, hr⟩ | ⟨s, rest, rfl, hs, hr⟩
  · exact ⟨whole ++ [0x2E], rest, rfl, .point hw hr⟩
  · by_cases hl : peek rest = 0x65
    · obtain ⟨rest, rfl⟩ := exists_cons_of_peek hl (by decide)
      exact exists_power hs false rest
    · by_cases hu : peek rest = 0x45
      · obtain ⟨rest, rfl⟩ := exists_cons_of_peek hu (by decide)
        exact exists_power hs true rest
      · refine ⟨s.bytes, rest, rfl, .literal s ⟨hr.digit, fun hf _ => hr.point hf, ?_, ?_⟩⟩
        · exact fun _ => beq_false_of_ne hl
        · exact fun _ => beq_false_of_ne hu

/-! ## A front part that ends is the longest one -/

/-- The digit zero, with which everything that breaks off can be made a literal. -/
def Digits.zero : Digits :=
  ⟨[0x30], by simp [isDigit], nofun⟩

theorem Spelling.Ends.next?_phase {s : Spelling} (hr : s.Ends rest) :
    s.phase.next? (peek rest) = none := by
  unfold Spelling.phase Spelling.digitsPhase
  cases hp : s.power with
  | some p => simp [Phase.next?, hr.digit]
  | none =>
    cases hf : s.fraction with
    | some d => simp [Phase.next?, hr.digit, hr.small hp, hr.capital hp]
    | none => simp [Phase.next?, hr.digit, hr.point hf hp, hr.small hp, hr.capital hp]

theorem through?_point {whole : List UInt8} (hw : ∀ b ∈ whole, isDigit b) :
    start.through? (whole ++ [0x2E]) = some .point := by
  rw [through?_append]
  by_cases hne : whole = []
  · subst hne
    rfl
  · rw [through?_digits_of_ne ⟨whole, hw, hne⟩ start]
    rfl

theorem through?_mark {s : Spelling} (hs : s.power = none) (capital : Bool) (sign : Option Sign) :
    start.through? (s.bytes ++ markBytes capital sign) =
      some (if sign.isSome then .sign else .mark) := by
  rw [through?_append, s.through?_bytes, Option.bind_some, markBytes, through?_cons,
    Spelling.phase_of_none hs, Phase.next?_mark s.digitsPhase_eq, Option.bind_some]
  cases sign with
  | none => rfl
  | some sign => cases sign <;> rfl

theorem Munched.longest (h : Munched front rest) : Longest front (front ++ rest) := by
  cases h with
  | literal s ends =>
    exact longest_of_blocked ⟨[], s, by simp⟩ s.through?_bytes ends.next?_phase
  | @point whole _ all_isDigit digit =>
    let completed : Spelling := ⟨whole, all_isDigit, some .zero, none, .inr rfl⟩
    refine longest_of_blocked ⟨Digits.zero.bytes, completed, ?_⟩ (through?_point all_isDigit) ?_
    · simp [completed, Spelling.bytes, Spelling.pointBytes, Spelling.powerBytes]
    · simp [Phase.next?, digit]
  | mark s digitsOnly capital sign digit signed =>
    let completed : Spelling := { s with power := some ⟨capital, sign, .zero⟩ }
    refine longest_of_blocked ⟨Digits.zero.bytes, completed, ?_⟩
      (through?_mark digitsOnly capital sign) ?_
    · simp [completed, Spelling.bytes, Spelling.pointBytes, Spelling.powerBytes, digitsOnly, markBytes,
        Power.bytes, Power.unmarked]
    · cases sign with
      | some sign => simp [Phase.next?, digit]
      | none => simp [Phase.next?, digit, (signed rfl).1, (signed rfl).2]

end Munched

/-! ## What is read of a front part -/

section Scan

variable {s : Spelling} {rest : List UInt8}

theorem scan_point {whole : List UInt8} (hw : ∀ b ∈ whole, isDigit b)
    (hr : isDigit (peek rest) = false) :
    scan (whole ++ [0x2E] ++ rest) = .error .invalidLiteral rest := by
  have hf : scanFraction (0x2E :: rest) = .error .invalidLiteral rest := by
    rw [scanFraction, beginsWithDigit_eq, hr]
    rfl
  rw [List.append_assoc, scan, Step.bind_of_ok (scanDigits_run hw rfl)]
  exact Step.bind_of_error hf

theorem scanExponent_markBytes {sign : Option Sign} (capital : Bool)
    (hr : isDigit (peek rest) = false)
    (hs : sign = none → (peek rest == 0x2B) = false ∧ (peek rest == 0x2D) = false) :
    scanExponent (markBytes capital sign ++ rest) = .error .invalidLiteral rest := by
  have hm : scanExponent (markBytes capital sign ++ rest) =
      scanSigned (signBytes sign ++ rest) := by
    cases capital <;> rfl
  have hsign : ∃ negative, scanSign (signBytes sign ++ rest) = .ok negative rest := by
    cases sign with
    | none => exact ⟨false, scanSign_of_ne (hs rfl).2 (hs rfl).1⟩
    | some sign => cases sign <;> exact ⟨_, rfl⟩
  have hu : scanUnsigned rest = .error .invalidLiteral rest := by
    rw [scanUnsigned, beginsWithDigit_eq, hr]
    rfl
  obtain ⟨negative, hn⟩ := hsign
  rw [hm, scanSigned, Step.bind_of_ok hn]
  exact Step.bind_of_error hu

theorem endsDigits_markBytes (s : Spelling) (capital : Bool) (sign : Option Sign)
    (rest : List UInt8) : s.EndsDigits (markBytes capital sign ++ rest) := by
  cases capital <;> exact ⟨rfl, fun _ => rfl⟩

/-- An exponent without digits is invalid, unless there were too many digits behind the point to
come so far. -/
theorem scan_mark {sign : Option Sign} (hp : s.power = none) (capital : Bool)
    (hr : isDigit (peek rest) = false)
    (hs : sign = none → (peek rest == 0x2B) = false ∧ (peek rest == 0x2D) = false) :
    (s.places.length ≤ exponentBound ∧
      scan (s.bytes ++ markBytes capital sign ++ rest) = .error .invalidLiteral rest) ∨
    (exponentBound < s.places.length ∧
      OutOfRange scan (s.bytes ++ markBytes capital sign ++ rest)) := by
  have he := endsDigits_markBytes s capital sign rest
  have hb : s.bytes ++ markBytes capital sign ++ rest =
      s.whole ++ (s.pointBytes ++ (markBytes capital sign ++ rest)) := by
    rw [List.append_assoc, s.bytes_append, Spelling.powerBytes, hp, List.nil_append]
  rw [hb]
  rcases Nat.lt_or_ge exponentBound s.places.length with hlt | hle
  · exact .inr ⟨hlt, scan_of_lt hlt he⟩
  · refine .inl ⟨hle, ?_⟩
    rw [scan, Step.bind_of_ok (scanDigits_whole s he), Step.bind_of_ok (scanFraction_of_le hle he)]
    exact Step.bind_of_error (scanExponent_markBytes capital hr hs)

end Scan

/-- A text of the grammar of literals. -/
def IsLiteral (bytes : List UInt8) : Prop :=
  ∃ s : Spelling, s.bytes = bytes

/-- How many digits a text has behind its point, if a point follows the digits that it begins
with. -/
def fractionLength (bytes : List UInt8) : Nat :=
  match bytes.dropWhile isDigit with
  | 0x2E :: behind => (behind.takeWhile isDigit).length
  | _ => 0

theorem fractionLength_mark {s : Spelling} (hs : s.power = none) (capital : Bool)
    (sign : Option Sign) :
    fractionLength (s.bytes ++ markBytes capital sign) = s.places.length := by
  have he := endsDigits_markBytes s capital sign []
  have hr := he.digit
  rw [List.append_nil] at he hr
  rw [fractionLength, s.bytes_append, Spelling.powerBytes, hs, List.nil_append,
    dropWhile_run s.all_isDigit (isDigit_peek_pointBytes he)]
  unfold Spelling.pointBytes Spelling.places
  cases s.fraction with
  | none => cases capital <;> rfl
  | some d => simp only [List.cons_append, takeWhile_run d.all_isDigit hr]

theorem IsLiteral.complete {front : List UInt8} {phase : Phase} (h : IsLiteral front)
    (ht : start.through? front = some phase) : phase.complete := by
  obtain ⟨s, rfl⟩ := h
  rw [s.through?_bytes] at ht
  cases ht
  exact s.complete_phase

theorem next_scan {bytes : List UInt8} (hb : isDigit (peek bytes) || peek bytes == 0x2E)
    (size : Nat) : Token.next size bytes =
      (scan >>= fun l => (pure (.number l.value) : Scan Token)) bytes := by
  cases bytes with
  | nil => cases hb
  | cons b bytes => exact Token.next_number hb size bytes

/-- The ways in which a text is read that begins with a front part that ends. -/
inductive Read (size : Nat) (front rest bytes : List UInt8) : Prop
  /-- The front part is a literal and is read whole. -/
  | number (s : Spelling) (hs : s.bytes = front)
    (h : Token.next size bytes = .ok (.number s.literal.value) rest)
  /-- The front part is a literal out of range. -/
  | outOfRange (hs : IsLiteral front)
    (h : ∃ rest, Token.next size bytes = .error .literalOutOfRange rest)
  /-- The front part is no literal. -/
  | invalid (hs : ¬ IsLiteral front) (h : Token.next size bytes = .error .invalidLiteral rest)
  /-- The front part is no literal and has more digits behind the point than can be counted. -/
  | uncountable (hs : ¬ IsLiteral front) (hl : exponentBound < fractionLength front)
    (h : ∃ rest, Token.next size bytes = .error .literalOutOfRange rest)

theorem Munched.read {front rest : List UInt8} (h : Munched front rest)
    (hb : isDigit (peek (front ++ rest)) || peek (front ++ rest) == 0x2E) (size : Nat) :
    Read size front rest (front ++ rest) := by
  have hn := next_scan hb size
  cases h with
  | literal s ends =>
    by_cases hs : s.InRange
    · exact .number s rfl (hn.trans (Step.bind_of_ok (scan_of_inRange hs ends)))
    · obtain ⟨last, hl⟩ := scan_of_not_inRange hs ends
      exact .outOfRange ⟨s, rfl⟩ ⟨last, hn.trans (Step.bind_of_error hl)⟩
  | point all_isDigit digit =>
    refine .invalid (fun hl => ?_) (hn.trans (Step.bind_of_error (scan_point all_isDigit digit)))
    cases hl.complete (through?_point all_isDigit)
  | mark s digitsOnly capital sign digit signed =>
    have hno : ¬ IsLiteral (s.bytes ++ markBytes capital sign) := by
      intro hl
      have hc := hl.complete (through?_mark digitsOnly capital sign)
      cases sign <;> cases hc
    rcases scan_mark digitsOnly capital digit signed with ⟨-, hs⟩ | ⟨hlt, last, hs⟩
    · exact .invalid hno (hn.trans (Step.bind_of_error hs))
    · refine .uncountable hno ?_ ⟨last, hn.trans (Step.bind_of_error hs)⟩
      rwa [fractionLength_mark digitsOnly]

/-- **The longest front part decides.**  Reading a text that begins with a digit or a point goes by
its longest front part that some literal begins with, and there is one.  If that is a literal, it is
read whole and nothing behind it, or it is out of range.  If it is not, the literal is invalid, which
it is in no other case; the digits behind the point have to be few enough to be counted. -/
theorem next_longest {bytes : List UInt8} (hb : isDigit (peek bytes) || peek bytes == 0x2E)
    (size : Nat) :
    (∃ front, Longest front bytes) ∧ ∀ front, Longest front bytes →
      (IsLiteral front →
        (∃ s : Spelling, ∃ rest, s.bytes = front ∧ bytes = front ++ rest ∧
          Token.next size bytes = .ok (.number s.literal.value) rest) ∨
        ∃ rest, Token.next size bytes = .error .literalOutOfRange rest) ∧
      (¬ IsLiteral front → fractionLength front < exponentBound →
        ∃ rest, Token.next size bytes = .error .invalidLiteral rest) ∧
      ((∃ rest, Token.next size bytes = .error .invalidLiteral rest) → ¬ IsLiteral front) := by
  obtain ⟨front, rest, rfl, hm⟩ := exists_munched hb
  refine ⟨⟨front, hm.longest⟩, fun other ho => ?_⟩
  obtain rfl := hm.longest.eq ho
  rcases hm.read hb size with ⟨s, rfl, h⟩ | ⟨hl, last, h⟩ | ⟨hl, h⟩ | ⟨hl, hlt, last, h⟩
  · refine ⟨fun _ => .inl ⟨s, rest, rfl, rfl, h⟩, fun hl => absurd ⟨s, rfl⟩ hl, ?_⟩
    rintro ⟨_, h'⟩
    cases h.symm.trans h'
  · refine ⟨fun _ => .inr ⟨last, h⟩, fun hn => absurd hl hn, ?_⟩
    rintro ⟨_, h'⟩
    cases h.symm.trans h'
  · exact ⟨fun hs => absurd hs hl, fun _ _ => ⟨rest, h⟩, fun _ => hl⟩
  · exact ⟨fun hs => absurd hs hl, fun _ hle => absurd hlt (Nat.not_lt.2 (Nat.le_of_lt hle)),
      fun _ => hl⟩

/-- The front part of a text up to the sign of an exponent is no literal. -/
theorem longest_breaks_off :
    Longest (bytesOf "1.5e+") (bytesOf "1.5e+x") ∧
      ∃ rest, Token.next 32 (bytesOf "1.5e+x") = .error .invalidLiteral rest := by
  let s : Spelling :=
    ⟨[0x31], List.all_eq_true.1 rfl, some ⟨[0x35], List.all_eq_true.1 rfl, nofun⟩, none, .inl nofun⟩
  have hm : Munched (bytesOf "1.5e+") (bytesOf "x") := .mark s rfl false (some .plus) rfl nofun
  have hl : Longest (bytesOf "1.5e+") (bytesOf "1.5e+x") := hm.longest
  have hno : ¬ IsLiteral (bytesOf "1.5e+") := by
    intro h
    have ht : start.through? (bytesOf "1.5e+") = some .sign := by decide
    cases h.complete ht
  exact ⟨hl, ((next_longest (by decide) 32).2 _ hl).2.1 hno (by decide)⟩

end Formula.Literal
