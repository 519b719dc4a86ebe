import Formula.Proofs.Step
import Formula.Proofs.Token.Next

/-!
# Scanners do not read ahead

What a scanner gives depends on the bytes that it steps over and on the one byte behind them, and on
nothing that comes later (`Scan.Local`).  It never steps over a NUL, which it cannot tell from the
end of the text.  This holds of every part of a literal, of names, and of tokens as a whole
(`local_next`).

Within a token the byte behind it matters only if it could belong to the token: bytes that can
belong to no token that has begun are alike for all scanners (`Byte.Alike`), and so each of them
ends a token as the end of the text does (`next_append`).
-/

namespace Formula

namespace Byte

/-- Can the byte belong to no token but as its first byte? -/
def isInert (b : UInt8) : Bool :=
  !(isName b || b == 0x2E || b == 0x2B || b == 0x2D || b == 0x3D)

/-- Two bytes that a scanner cannot tell apart behind what it has read. -/
def Alike (b c : UInt8) : Prop :=
  b = c ∨ isInert b ∧ isInert c

end Byte

/-! ## Scanners that do not read ahead -/

namespace Scan

variable {α β : Type}

/-- On this text the scanner steps over bytes other than NUL, and it gives the same on all texts
that go on behind these bytes with a byte that is alike. -/
def LocalAt (alike : UInt8 → UInt8 → Prop) (p : Scan α) (bytes : List UInt8) : Prop :=
  ∃ front rest, bytes = front ++ rest ∧ 0 ∉ front ∧
    ∀ rest', alike (peek rest) (peek rest') →
      Step.outcome p (front ++ rest') = ((Step.outcome p bytes).1, rest')

/-- The scanner does not read ahead, whatever the text. -/
def Local (alike : UInt8 → UInt8 → Prop) (p : Scan α) : Prop :=
  ∀ bytes, LocalAt alike p bytes

variable {alike : UInt8 → UInt8 → Prop} [hrefl : Std.Refl alike]

instance : Std.Refl (Eq : UInt8 → UInt8 → Prop) := ⟨Eq.refl⟩

theorem LocalAt.of_ok {p : Scan α} {bytes : List UInt8} (front rest : List UInt8) (a : α)
    (hb : bytes = front ++ rest) (h0 : 0 ∉ front)
    (h : ∀ rest', alike (peek rest) (peek rest') → p (front ++ rest') = .ok a rest') :
    LocalAt alike p bytes := by
  refine ⟨front, rest, hb, h0, ?_⟩
  intro rest' hr
  rw [hb, Step.outcome_of_ok (h rest (hrefl.refl _)), Step.outcome_of_ok (h rest' hr)]

theorem LocalAt.of_error {p : Scan α} {bytes : List UInt8} (front rest : List UInt8)
    (fault : Fault) (hb : bytes = front ++ rest) (h0 : 0 ∉ front)
    (h : ∀ rest', alike (peek rest) (peek rest') → p (front ++ rest') = .error fault rest') :
    LocalAt alike p bytes := by
  refine ⟨front, rest, hb, h0, ?_⟩
  intro rest' hr
  rw [hb, Step.outcome_of_error (h rest (hrefl.refl _)), Step.outcome_of_error (h rest' hr)]

omit hrefl in
theorem LocalAt.cons {p q : Scan α} {b : UInt8} {bytes : List UInt8} (hb : b ≠ 0)
    (hp : ∀ bytes, p (b :: bytes) = q bytes) (h : LocalAt alike q bytes) :
    LocalAt alike p (b :: bytes) := by
  obtain ⟨front, rest, rfl, h0, hq⟩ := h
  refine ⟨b :: front, rest, rfl, ?_, fun rest' hr => ?_⟩
  · rw [List.mem_cons, not_or]
    exact ⟨hb.symm, h0⟩
  · simp only [Step.outcome, List.cons_append, hp]
    exact hq rest' hr

theorem Local.pure (a : α) : Local alike (Pure.pure a) :=
  fun bytes => .of_ok [] bytes a rfl List.not_mem_nil fun _ _ => rfl

theorem Local.throw (fault : Fault) : Local alike (MonadExcept.throw fault : Scan α) :=
  fun bytes => .of_error [] bytes fault rfl List.not_mem_nil fun _ _ => rfl

theorem alike_peek_append {rest rest' : List UInt8} (h : alike (peek rest) (peek rest'))
    (front : List UInt8) : alike (peek (front ++ rest)) (peek (front ++ rest')) := by
  cases front with
  | nil => exact h
  | cons b front => exact hrefl.refl b

/-- A scanner does not read ahead where it goes on as one that does not, by the first byte. -/
theorem LocalAt.of_peek {p q : Scan α} {bytes : List UInt8} (h : LocalAt alike q bytes)
    (hp : ∀ bytes', alike (peek bytes) (peek bytes') → p bytes' = q bytes') :
    LocalAt alike p bytes := by
  obtain ⟨front, rest, rfl, h0, hq⟩ := h
  refine ⟨front, rest, rfl, h0, fun rest' hr => ?_⟩
  simp only [Step.outcome, hp _ (hrefl.refl _), hp _ (alike_peek_append hr front)]
  exact hq rest' hr

/-- A scanner that cannot tell alike bytes apart cannot tell equal ones apart. -/
theorem LocalAt.of_alike {p : Scan α} {bytes : List UInt8} (h : LocalAt alike p bytes) :
    LocalAt Eq p bytes := by
  obtain ⟨front, rest, hb, h0, hp⟩ := h
  exact ⟨front, rest, hb, h0, fun rest' hr => hp rest' (hr ▸ hrefl.refl _)⟩

theorem Local.bind {p : Scan α} {f : α → Scan β} (hp : Local alike p)
    (hf : ∀ a, Local alike (f a)) : Local alike (p >>= f) := by
  intro bytes
  -- what the first scanner leaves begins as the second one sees it, whatever comes behind that
  obtain ⟨front, mid, hb, h0, h⟩ := hp bytes
  have hmid := h mid (hrefl.refl _)
  rw [← hb] at hmid
  cases hpb : p bytes with
  | error fault rest =>
    refine .of_error front mid fault hb h0 fun rest' hr => ?_
    have hr' := h rest' hr
    rw [Step.outcome_of_error hpb] at hr'
    exact Step.bind_of_error (Step.outcome_eq_error.1 hr')
  | ok a rest =>
    rw [Step.outcome_of_ok hpb] at h hmid
    obtain rfl : rest = mid := congrArg Prod.snd hmid
    obtain ⟨front₂, rest₂, hr, h0₂, h₂⟩ := hf a rest
    refine ⟨front ++ front₂, rest₂, by rw [List.append_assoc, ← hr]; exact hb, ?_, ?_⟩
    · rw [List.mem_append, not_or]
      exact ⟨h0, h0₂⟩
    intro rest' hr'
    have hpb' := Step.outcome_eq_ok.1
      (h (front₂ ++ rest') (by rw [hr]; exact alike_peek_append hr' front₂))
    have hf' := h₂ rest' hr'
    rw [List.append_assoc]
    simp only [Step.outcome, Step.bind_of_ok hpb, Step.bind_of_ok hpb'] at hf' ⊢
    exact hf'

end Scan

namespace Byte

instance : Std.Refl Alike := ⟨fun _ => .inl rfl⟩

/-- Alike bytes are alike for every class of bytes that tokens go on with. -/
theorem Alike.eq_of_inert {b c : UInt8} (h : Alike b c) {p : UInt8 → Bool}
    (hp : ∀ b, isInert b → p b = false) : p b = p c := by
  rcases h with rfl | ⟨hb, hc⟩
  · rfl
  · rw [hp b hb, hp c hc]

theorem not_name_of_inert {b : UInt8} (h : isInert b) : isName b = false := by
  simp only [isInert, Bool.not_eq_true', Bool.or_eq_false_iff] at h
  exact h.1.1.1.1

theorem not_digit_of_inert {b : UInt8} (h : isInert b) : isDigit b = false := by
  have := not_name_of_inert h
  simp only [isName, Bool.or_eq_false_iff] at this
  exact this.2

theorem ne_of_inert {b c : UInt8} (h : isInert b) (hc : isInert c = false) : (b == c) = false := by
  rw [beq_eq_false_iff_ne]
  rintro rfl
  rw [hc] at h
  cases h

theorem Alike.isDigit {b c : UInt8} (h : Alike b c) : isDigit b = isDigit c :=
  h.eq_of_inert fun _ => not_digit_of_inert

theorem Alike.isName {b c : UInt8} (h : Alike b c) : isName b = isName c :=
  h.eq_of_inert fun _ => not_name_of_inert

/-- A byte that tokens go on with is like no other. -/
theorem Alike.beq {b c : UInt8} (h : Alike b c) {d : UInt8} (hd : isInert d = false) :
    (b == d) = (c == d) :=
  h.eq_of_inert fun _ hb => ne_of_inert hb hd

end Byte

open Byte Scan

/-! ## Literals -/

namespace Literal

theorem local_scanDigits : Local Alike scanDigits := by
  intro bytes
  obtain ⟨front, rest, rfl, hf, hr⟩ := exists_run (p := isDigit) rfl bytes
  refine .of_ok front rest (front.map digitValue) rfl (zero_not_mem rfl hf) fun rest' ha => ?_
  rw [ha.isDigit] at hr
  exact scanDigits_run hf hr

theorem local_scanFraction : Local Alike scanFraction := by
  intro bytes
  by_cases hp : (peek bytes == 0x2E) = false
  · refine .of_ok [] bytes [] rfl List.not_mem_nil fun rest' ha => ?_
    rw [ha.beq (by decide)] at hp
    exact scanFraction_of_ne hp
  obtain ⟨bytes, rfl⟩ := exists_cons_of_peek (b := 0x2E) (by simpa using hp) (by decide)
  by_cases hd : isDigit (peek bytes)
  · obtain ⟨front, rest, rfl, hf, hr⟩ := exists_run (p := isDigit) rfl bytes
    by_cases hl : front.length ≤ exponentBound
    · refine .of_ok (0x2E :: front) rest (front.map digitValue) rfl ?_ fun rest' ha => ?_
      · simpa using zero_not_mem rfl hf
      have hd' := (alike_peek_append ha front).isDigit
      rw [ha.isDigit] at hr
      rw [hd] at hd'
      simp [scanFraction, beginsWithDigit_eq, ← hd', takeWhile_run hf hr, hl, scanDigits_run hf hr]
    · -- the scanner stops behind the first digit that is one too many
      obtain ⟨front, second, rfl, hn⟩ := exists_append (n := exponentBound + 1)
        (Nat.lt_of_not_le hl)
      have hf' : ∀ b ∈ front, isDigit b := fun b hb => hf b (List.mem_append_left _ hb)
      refine .of_error (0x2E :: front) (second ++ rest) .literalOutOfRange (by simp) ?_
        fun rest' _ => ?_
      · simpa using zero_not_mem rfl hf'
      have hlong := length_le_takeWhile hf' rest'
      have hd' : isDigit (peek (front ++ rest')) := by
        cases front with
        | nil => cases hn
        | cons b front => exact hf' b (List.mem_cons_self ..)
      rw [List.cons_append, scanFraction, beginsWithDigit_eq, hd', if_neg (by simp),
        if_neg (by omega), ← hn, List.drop_left]
  · refine .of_error [0x2E] bytes .invalidLiteral rfl (by simp) fun rest' ha => ?_
    rw [ha.isDigit] at hd
    simp [scanFraction, beginsWithDigit_eq, hd]

theorem local_scanSign : Local Alike scanSign := by
  intro bytes
  by_cases hm : (peek bytes == 0x2D) = false
  · by_cases hp : (peek bytes == 0x2B) = false
    · refine .of_ok [] bytes false rfl List.not_mem_nil fun rest' ha => ?_
      rw [ha.beq (by decide)] at hm hp
      exact scanSign_of_ne hm hp
    · obtain ⟨bytes, rfl⟩ := exists_cons_of_peek (b := 0x2B) (by simpa using hp) (by decide)
      exact .of_ok [0x2B] bytes false rfl (by simp) fun _ _ => rfl
  · obtain ⟨bytes, rfl⟩ := exists_cons_of_peek (b := 0x2D) (by simpa using hm) (by decide)
    exact .of_ok [0x2D] bytes true rfl (by simp) fun _ _ => rfl

theorem local_scanMagnitude (magnitude : Nat) : Local Alike (scanMagnitude magnitude) := by
  intro bytes
  induction bytes generalizing magnitude with
  | nil =>
    refine .of_ok [] [] magnitude rfl List.not_mem_nil fun rest' ha => ?_
    exact scanMagnitude_of_not_digit ha.isDigit.symm magnitude
  | cons b bytes ih =>
    by_cases hd : isDigit b
    · have hb : b ≠ 0 := by rintro rfl; cases hd
      by_cases hm : 10 * magnitude + digitValue b < exponentBound
      · have hs (bytes : List UInt8) : scanMagnitude magnitude (b :: bytes) =
            scanMagnitude (10 * magnitude + digitValue b) bytes := by
          rw [scanMagnitude, if_pos hd, if_pos hm]
        exact .cons hb hs (ih _)
      · refine .of_error [b] bytes .literalOutOfRange rfl (by simpa using hb.symm)
          fun rest' _ => ?_
        rw [List.singleton_append, scanMagnitude, if_pos hd, if_neg hm]
    · refine .of_ok [] (b :: bytes) magnitude rfl List.not_mem_nil fun rest' ha => ?_
      have hd' : isDigit (peek rest') = false := by
        rw [← ha.isDigit]
        simpa using hd
      exact scanMagnitude_of_not_digit hd' magnitude

theorem local_scanUnsigned : Local Alike scanUnsigned := by
  intro bytes
  by_cases hd : isDigit (peek bytes)
  · refine (local_scanMagnitude 0 bytes).of_peek fun bytes' ha => ?_
    rw [ha.isDigit] at hd
    rw [scanUnsigned, beginsWithDigit_eq, if_pos hd]
  · refine .of_error [] bytes .invalidLiteral rfl List.not_mem_nil fun rest' ha => ?_
    rw [ha.isDigit] at hd
    rw [List.nil_append, scanUnsigned, beginsWithDigit_eq, if_neg hd]

theorem local_scanSigned : Local Alike scanSigned :=
  local_scanSign.bind fun _ => local_scanUnsigned.bind fun _ => .pure _

theorem local_scanExponent : Local Alike scanExponent := by
  intro bytes
  by_cases hl : (peek bytes == 0x65) = false
  · by_cases hu : (peek bytes == 0x45) = false
    · refine .of_ok [] bytes 0 rfl List.not_mem_nil fun rest' ha => ?_
      rw [ha.beq (by decide)] at hl hu
      exact scanExponent_of_ne hl hu
    · obtain ⟨bytes, rfl⟩ := exists_cons_of_peek (b := 0x45) (by simpa using hu) (by decide)
      exact .cons (by decide) (fun _ => rfl) (local_scanSigned bytes)
  · obtain ⟨bytes, rfl⟩ := exists_cons_of_peek (b := 0x65) (by simpa using hl) (by decide)
    exact .cons (by decide) (fun _ => rfl) (local_scanSigned bytes)

theorem local_scan : Local Alike scan := by
  refine local_scanDigits.bind fun _ => local_scanFraction.bind fun _ =>
    local_scanExponent.bind fun _ => ?_
  dsimp only
  split
  · exact .pure _
  · exact .throw _

end Literal

/-! ## Tokens -/

namespace Token

theorem local_scanName (role : Role) (size : Nat) : Local Alike (scanName role size) := by
  intro bytes
  obtain ⟨front, rest, rfl, hf, hr⟩ := exists_run (p := isName) rfl bytes
  by_cases hl : front.length ≤ size - 1
  · refine .of_ok front rest (.name role (ascii front)) rfl (zero_not_mem rfl hf)
      fun rest' ha => ?_
    rw [ha.isName] at hr
    rw [scanName_run hf hr, if_pos hl]
  · -- the scanner stops in front of the first byte that is one too many
    obtain ⟨front, second, rfl, hn⟩ := exists_append (Nat.le_of_lt (Nat.lt_of_not_le hl))
    have hf' : ∀ b ∈ front, isName b := fun b hb => hf b (List.mem_append_left _ hb)
    refine .of_error front (second ++ rest) .nameTooLong (by simp) (zero_not_mem rfl hf')
      fun rest' ha => ?_
    have hb : isName (peek (second ++ rest)) := by
      cases second with
      | nil => simp [hn] at hl
      | cons b second => exact hf b (by simp)
    rw [ha.isName] at hb
    obtain ⟨b, rest', rfl⟩ : ∃ b tail, rest' = b :: tail := by
      cases rest' with
      | nil => cases hb
      | cons b tail => exact ⟨b, tail, rfl⟩
    have hfb : ∀ c ∈ front ++ [b], isName c := by
      simp only [List.mem_append, List.mem_singleton]
      rintro c (hc | rfl)
      · exact hf' c hc
      · exact hb
    have hlong := length_le_takeWhile hfb rest'
    rw [List.append_assoc, List.singleton_append, List.length_append, List.length_singleton]
      at hlong
    rw [scanName, if_neg (by omega), ← hn, List.drop_left]

theorem local_orEquals (s t : Token) : Local Alike (orEquals s t) := by
  intro bytes
  by_cases h : (peek bytes == 0x3D) = false
  · refine .of_ok [] bytes s rfl List.not_mem_nil fun rest' ha => ?_
    rw [ha.beq (by decide)] at h
    exact orEquals_of_ne h s t
  · obtain ⟨bytes, rfl⟩ := exists_cons_of_peek (b := 0x3D) (by simpa using h) (by decide)
    exact .of_ok [0x3D] bytes t rfl (by simp) fun _ _ => rfl

theorem local_scanSymbol (size : Nat) (b : UInt8) : Local Alike (scanSymbol size b) := by
  unfold scanSymbol
  split
  · exact local_scanName _ _
  · exact local_orEquals _ _
  · exact local_orEquals _ _
  · exact local_orEquals _ _
  iterate 6 exact .pure _
  · exact .throw _

theorem local_scanNumber :
    Local Alike (Literal.scan >>= fun l => (pure (.number l.value) : Scan Token)) :=
  Literal.local_scan.bind fun _ => .pure _

/-- Within a token, the byte behind it matters only if it could belong to the token. -/
theorem localAt_next {b : UInt8} (h0 : b ≠ 0) (hs : ¬ isSeparator b) (size : Nat)
    (bytes : List UInt8) : LocalAt Alike (next size) (b :: bytes) := by
  -- a literal and a name go on by their first byte, which is like no other
  have begins {q : Scan Token} (hq : Local Alike q) (hb : isInert b = false)
      (h : ∀ bytes, next size (b :: bytes) = q (b :: bytes)) :
      LocalAt Alike (next size) (b :: bytes) := by
    refine (hq (b :: bytes)).of_peek fun bytes' ha => ?_
    have hb' : peek bytes' = b := by
      rcases ha with ha | ⟨hi, -⟩
      · exact ha.symm
      · rw [peek_cons, hb] at hi
        cases hi
    obtain ⟨rest, rfl⟩ := exists_cons_of_peek hb' h0
    exact h rest
  by_cases hd : isDigit b || b == 0x2E
  · refine begins local_scanNumber ?_ (next_number hd size)
    simp only [isInert, isName]
    revert hd
    cases isDigit b <;> cases b == 0x2E <;> simp
  by_cases hn : isNameStart b
  · exact begins (local_scanName .function size) (by simp [isInert, isName, hn])
      (next_function hn size)
  · have hb : beginsSymbol b := by simp_all [beginsSymbol]
    exact .cons h0 (next_symbol hb size) (local_scanSymbol size b bytes)

/-- Reading a token does not look behind the byte that ends it. -/
theorem local_next (size : Nat) : Local Eq (next size) := by
  intro bytes
  induction bytes with
  | nil => exact .of_ok [] [] .done rfl List.not_mem_nil fun rest' h => next_of_peek h.symm size
  | cons b bytes ih =>
    by_cases h0 : b = 0
    · refine .of_ok [] (b :: bytes) .done rfl List.not_mem_nil fun rest' h => ?_
      exact next_of_peek (h.symm.trans h0) size
    by_cases hs : isSeparator b
    · exact .cons h0 (next_separator hs size) ih
    · exact (localAt_next h0 hs size bytes).of_alike

theorem append_of_localAt {α : Type} {p : Scan α} {bytes : List UInt8} (h : LocalAt Alike p bytes)
    {c : UInt8} (hc : isInert c) (more : List UInt8) :
    Step.outcome p (bytes ++ c :: more) =
      ((Step.outcome p bytes).1, (Step.outcome p bytes).2 ++ c :: more) := by
  obtain ⟨front, rest, rfl, -, hp⟩ := h
  have ha : Alike (peek rest) (peek (rest ++ c :: more)) := by
    cases rest with
    | nil => exact .inr ⟨by decide, hc⟩
    | cons b rest => exact .inl rfl
  have hl := congrArg Prod.snd (hp rest (.inl rfl))
  rw [List.append_assoc, hp _ ha, hl]

/-- A byte that can only begin a token ends the token in front of it, as the end of the text
does. -/
theorem next_append {size : Nat} {bytes : List UInt8} (h : next size bytes ≠ .ok .done [])
    {c : UInt8} (hc : isInert c) (more : List UInt8) :
    Step.outcome (next size) (bytes ++ c :: more) =
      ((Step.outcome (next size) bytes).1, (Step.outcome (next size) bytes).2 ++ c :: more) := by
  induction bytes with
  | nil => exact absurd rfl h
  | cons b bytes ih =>
    by_cases h0 : b = 0
    · subst h0
      rfl
    by_cases hs : isSeparator b
    · simp only [Step.outcome, List.cons_append, next_separator hs] at h ih ⊢
      exact ih h
    · exact append_of_localAt (localAt_next h0 hs size bytes) hc more

end Token

end Formula
