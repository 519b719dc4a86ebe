import Formula.Proofs.Literal.Spelling

/-!
# Literals that are read

Whatever the scanner of literals accepts is a text of their grammar, in range and followed by the
text that is left (`exists_spelling_of_scan`).  The parts come first: what each scanner has read when
it succeeds.
-/

namespace Formula.Literal

open Byte

variable {bytes rest : List UInt8}

/-! ## The parts -/

theorem digits_of_scanDigits {digits : List Nat} (h : scanDigits bytes = .ok digits rest) :
    ∃ front, bytes = front ++ rest ∧ (∀ b ∈ front, isDigit b) ∧ isDigit (peek rest) = false ∧
      digits = front.map digitValue := by
  obtain ⟨front, back, rfl, hf, hr⟩ := exists_run (p := isDigit) rfl bytes
  rw [scanDigits_run hf hr] at h
  cases h
  exact ⟨front, rfl, hf, hr, rfl⟩

theorem ne_nil_of_beginsWithDigit {front : List UInt8} (h : beginsWithDigit (front ++ rest))
    (hr : isDigit (peek rest) = false) : front ≠ [] := by
  rintro rfl
  rw [List.nil_append, beginsWithDigit_eq, hr] at h
  cases h

theorem digits_of_scanFraction {digits : List Nat} (h : scanFraction bytes = .ok digits rest) :
    ∃ fraction : Option Digits, bytes = (fraction.elim [] fun d => 0x2E :: d.bytes) ++ rest ∧
      digits = (fraction.elim [] Digits.bytes).map digitValue ∧
      (fraction.elim [] Digits.bytes).length ≤ exponentBound ∧
      (fraction.isNone → (peek bytes == 0x2E) = false) := by
  unfold scanFraction at h
  split at h
  · next bytes =>
    obtain ⟨front, back, rfl, hf, hr⟩ := exists_run (p := isDigit) rfl bytes
    rw [takeWhile_run hf hr, scanDigits_run hf hr] at h
    split at h
    · cases h
    · next hd =>
      split at h
      · next hl =>
        cases h
        have hne := ne_nil_of_beginsWithDigit (by simpa using hd) hr
        exact ⟨some ⟨front, hf, hne⟩, rfl, rfl, hl, nofun⟩
      · cases h
  · next hp =>
    cases h
    refine ⟨none, rfl, rfl, Nat.zero_le _, fun _ => beq_false_of_ne fun hb => ?_⟩
    obtain ⟨bytes, rfl⟩ := exists_cons_of_peek hb (by decide)
    exact hp bytes rfl

theorem sign_of_scanSign {negative : Bool} (h : scanSign bytes = .ok negative rest) :
    ∃ sign, bytes = signBytes sign ++ rest ∧ negative = decide (sign = some .minus) := by
  unfold scanSign at h
  split at h <;> cases h
  · exact ⟨some .minus, rfl, rfl⟩
  · exact ⟨some .plus, rfl, rfl⟩
  · exact ⟨none, rfl, rfl⟩

theorem digits_of_scanMagnitude {n magnitude : Nat} (hn : n < exponentBound)
    (h : scanMagnitude n bytes = .ok magnitude rest) :
    ∃ front, bytes = front ++ rest ∧ (∀ b ∈ front, isDigit b) ∧ isDigit (peek rest) = false ∧
      magnitude = numeral n front ∧ magnitude < exponentBound := by
  fun_induction scanMagnitude n bytes with
  | case1 n =>
    cases h
    exact ⟨[], rfl, by simp, rfl, rfl, hn⟩
  | case2 n b bytes hb next hlt ih =>
    obtain ⟨front, rfl, hf, hr, hm, hlt⟩ := ih hlt h
    refine ⟨b :: front, rfl, ?_, hr, hm, hlt⟩
    simpa [hb] using hf
  | case3 => cases h
  | case4 n b bytes hb =>
    cases h
    exact ⟨[], rfl, by simp, by simpa using hb, rfl, hn⟩

theorem digits_of_scanUnsigned {magnitude : Nat} (h : scanUnsigned bytes = .ok magnitude rest) :
    ∃ d : Digits, bytes = d.bytes ++ rest ∧ magnitude = numeral 0 d.bytes ∧
      magnitude < exponentBound := by
  unfold scanUnsigned at h
  split at h
  · next hd =>
    obtain ⟨front, rfl, hf, hr, hm, hlt⟩ := digits_of_scanMagnitude (by decide) h
    exact ⟨⟨front, hf, ne_nil_of_beginsWithDigit hd hr⟩, rfl, hm, hlt⟩
  · cases h

theorem power_of_scanSigned {exponent : Int} (capital : Bool)
    (h : scanSigned bytes = .ok exponent rest) :
    ∃ p : Power, p.capital = capital ∧ bytes = p.unmarked ++ rest ∧ exponent = p.exponent ∧
      p.magnitude < exponentBound := by
  obtain ⟨negative, mid, hs, h⟩ := Step.bind_eq_ok.1 h
  obtain ⟨magnitude, mid', hu, h⟩ := Step.bind_eq_ok.1 h
  obtain ⟨sign, rfl, rfl⟩ := sign_of_scanSign hs
  obtain ⟨d, rfl, rfl, hlt⟩ := digits_of_scanUnsigned hu
  cases h
  refine ⟨⟨capital, sign, d⟩, rfl, by simp [Power.unmarked], ?_, hlt⟩
  simp [Power.exponent, Power.magnitude]

theorem power_of_scanExponent {exponent : Int} (h : scanExponent bytes = .ok exponent rest) :
    ∃ power : Option Power, bytes = power.elim [] Power.bytes ++ rest ∧
      exponent = power.elim 0 Power.exponent ∧ ∀ p ∈ power, p.magnitude < exponentBound := by
  unfold scanExponent at h
  split at h
  · obtain ⟨p, hc, rfl, he, hlt⟩ := power_of_scanSigned false h
    refine ⟨some p, by simp [Power.bytes, hc], he, by simpa using hlt⟩
  · obtain ⟨p, hc, rfl, he, hlt⟩ := power_of_scanSigned true h
    refine ⟨some p, by simp [Power.bytes, hc], he, by simpa using hlt⟩
  · cases h
    exact ⟨none, rfl, rfl, by simp⟩

/-! ## Literals -/

namespace Spelling

variable (s : Spelling)

theorem places_eq : s.places = s.fraction.elim [] Digits.bytes := by
  cases h : s.fraction <;> simp [places, h]

theorem pointBytes_eq : s.pointBytes = s.fraction.elim [] fun d => 0x2E :: d.bytes := by
  cases h : s.fraction <;> simp [pointBytes, h]

theorem powerBytes_eq : s.powerBytes = s.power.elim [] Power.bytes := by
  cases h : s.power <;> simp [powerBytes, h]

theorem written_eq : s.written = s.power.elim 0 Power.exponent := by
  cases h : s.power <;> simp [written, h]

end Spelling

/-- A literal that is read is a text of the grammar that is in range. -/
theorem exists_spelling_of_scan {l : Literal} (hb : isDigit (peek bytes) || peek bytes == 0x2E)
    (h : scan bytes = .ok l rest) :
    ∃ s : Spelling, s.InRange ∧ bytes = s.bytes ++ rest ∧ l = s.literal := by
  obtain ⟨whole, mid, hw, h⟩ := Step.bind_eq_ok.1 h
  obtain ⟨fraction, mid', hf, h⟩ := Step.bind_eq_ok.1 h
  obtain ⟨written, mid'', he, h⟩ := Step.bind_eq_ok.1 h
  obtain ⟨front, rfl, hd, hstop, rfl⟩ := digits_of_scanDigits hw
  obtain ⟨places, rfl, rfl, hp, hpoint⟩ := digits_of_scanFraction hf
  obtain ⟨power, rfl, rfl, hm⟩ := power_of_scanExponent he
  -- a text without digits before the point begins with the point
  have hsome : front ≠ [] ∨ places.isSome := by
    cases front with
    | cons => exact .inl nofun
    | nil =>
      cases places with
      | some => exact .inr rfl
      | none =>
        rw [List.nil_append, hstop, hpoint rfl] at hb
        cases hb
  split at h
  · next hr =>
    cases h
    refine ⟨⟨front, hd, places, power, hsome⟩, ⟨?_, hm, ?_⟩, ?_, ?_⟩
    · rwa [Spelling.places_eq]
    · rw [List.length_map] at hr
      rwa [Spelling.literal, Spelling.places_eq, Spelling.written_eq]
    · simp [Spelling.bytes, Spelling.pointBytes_eq, Spelling.powerBytes_eq]
    · simp [Spelling.literal, Spelling.places_eq, Spelling.written_eq]
  · cases h

end Formula.Literal
