import Formula.Proofs.Token.Append
import Formula.Proofs.Token.Faults

/-!
# Tokens within limits

More room for names changes a token only where there was too little of it, and there is enough of it
for a text that is shorter than the room.  The tokens of a text are therefore a front part of the
tokens that there are with more room, all of them unless a name is too long (`sequence_of_le`).
-/

namespace Formula.Token

open Byte

variable {size size' : Nat} {bytes rest : List UInt8}

/-! ## More room for names -/

/-- A step is the same as another one or finds a name too long. -/
def OrTooLong (p q : Scan Token) : Prop :=
  ∀ bytes, p bytes = q bytes ∨ ∃ rest, p bytes = .error .nameTooLong rest

theorem scanName_of_le (h : size ≤ size') (role : Role) :
    OrTooLong (scanName role size) (scanName role size') := by
  intro bytes
  unfold scanName
  split
  · next hl => exact .inl (if_pos (by omega)).symm
  · exact .inr ⟨_, rfl⟩

theorem scanSymbol_of_le (h : size ≤ size') (b : UInt8) :
    OrTooLong (scanSymbol size b) (scanSymbol size' b) := by
  intro bytes
  by_cases hb : Char.ofUInt8 b = '$'
  · simp only [scanSymbol, hb]
    exact scanName_of_le h .variable bytes
  · have he : scanSymbol size b = scanSymbol size' b := by
      unfold scanSymbol
      split
      · next hc => exact absurd hc hb
      all_goals rfl
    exact .inl (congrFun he bytes)

theorem next_of_le (h : size ≤ size') : OrTooLong (next size) (next size') := by
  intro bytes
  induction bytes with
  | nil => exact .inl rfl
  | cons b bytes ih =>
    unfold next
    split
    · exact .inl rfl
    · split
      · exact ih
      · split
        · exact .inl rfl
        · split
          · exact scanName_of_le h .function _
          · exact scanSymbol_of_le h b bytes

/-- The tokens of a text are the same as others, or a front part of them, cut short by a name that
is too long. -/
inductive CutShort : List Token × Option Fault → List Token × Option Fault → Prop
  | same (s : List Token × Option Fault) : CutShort s s
  | nameTooLong (front more : List Token) (fault : Option Fault) :
    CutShort (front, some .nameTooLong) (front ++ more, fault)

theorem CutShort.cons {s s' : List Token × Option Fault} (h : CutShort s s') (token : Token) :
    CutShort (token :: s.1, s.2) (token :: s'.1, s'.2) := by
  cases h with
  | same => exact .same _
  | nameTooLong front more fault => exact .nameTooLong (token :: front) more fault

theorem CutShort.of_cons {token : Token} {tokens : List Token} {fault : Option Fault}
    {s : List Token × Option Fault} (h : CutShort (token :: tokens, fault) s) :
    ∃ more fault', s = (token :: more, fault') ∧ CutShort (tokens, fault) (more, fault') := by
  cases h with
  | same => exact ⟨tokens, fault, rfl, .same _⟩
  | nameTooLong front more fault' => exact ⟨tokens ++ more, fault', rfl, .nameTooLong _ _ _⟩

/-- With more room for names the tokens are the same, or there are more of them behind a name that
was too long. -/
theorem sequence_of_le (h : size ≤ size') (bytes : List UInt8) :
    CutShort (sequence size bytes) (sequence size' bytes) := by
  fun_induction sequence size bytes with
  | case1 bytes fault rest hn =>
    rcases next_of_le h bytes with he | ⟨rest', he⟩
    · rw [sequence_of_error (he ▸ hn)]
      exact .same _
    · cases hn.symm.trans he
      exact .nameTooLong [] _ _
  | case2 bytes rest hn =>
    rcases next_of_le h bytes with he | ⟨rest', he⟩
    · rw [sequence_of_done (he ▸ hn)]
      exact .same _
    · cases hn.symm.trans he
  | case3 bytes token rest hn ht hl tokens fault hs ih =>
    rw [hs] at ih
    rcases next_of_le h bytes with he | ⟨rest', he⟩
    · rw [sequence_of_ok (he ▸ hn) ht]
      exact ih.cons token
    · cases hn.symm.trans he

/-! ## Enough room for names -/

/-- A step finds a name too long only in a text that does not fit in the room for names. -/
def Fits (size : Nat) (p : Scan Token) : Prop :=
  ∀ bytes rest, p bytes = .error .nameTooLong rest → size ≤ bytes.length

theorem fits_scanName (role : Role) (size : Nat) : Fits size (scanName role size) := by
  intro bytes rest h
  unfold scanName at h
  split at h
  · cases h
  · have := (List.takeWhile_prefix isName (l := bytes)).length_le
    omega

theorem fits_scanSymbol (size : Nat) (b : UInt8) : Fits size (scanSymbol size b) := by
  have ho (s t : Token) : Fits size (orEquals s t) := by
    intro bytes rest h
    unfold orEquals at h
    split at h <;> cases h
  unfold scanSymbol
  split
  · exact fits_scanName _ _
  · exact ho _ _
  · exact ho _ _
  · exact ho _ _
  all_goals exact nofun

theorem fits_next (size : Nat) : Fits size (next size) := by
  intro bytes rest h
  fun_induction next size bytes with
  | case1 => cases h
  | case2 => cases h
  | case3 b bytes h0 hs ih => exact Nat.le_succ_of_le (ih h)
  | case4 => cases (Literal.failsWith_scan.bind fun _ _ _ _ => .pure _) _ _ _ h
  | case5 => exact fits_scanName _ _ _ _ h
  | case6 => exact Nat.le_succ_of_le (fits_scanSymbol _ _ _ _ h)

/-- Enough room for the text is enough for its names. -/
theorem fault_ne_nameTooLong (h : bytes.length < size) :
    (sequence size bytes).2 ≠ some .nameTooLong := by
  fun_induction sequence size bytes with
  | case1 bytes fault rest hn =>
    rintro ⟨⟩
    exact Nat.not_le.2 h (fits_next size bytes rest hn)
  | case2 => exact (Option.some_ne_none _).symm
  | case3 bytes token rest hn ht hl tokens fault hs ih =>
    rw [hs] at ih
    exact ih (Nat.lt_trans hl h)

/-! ## Brackets -/

theorem next_eq_openBracket (h : next size bytes = .ok .openBracket rest) :
    ∃ gap, bytes = gap ++ 0x28 :: rest := by
  fun_induction next size bytes with
  | case1 => cases h
  | case2 => cases h
  | case3 b bytes h0 hs ih =>
    obtain ⟨gap, rfl⟩ := ih h
    exact ⟨b :: gap, rfl⟩
  | case4 =>
    obtain ⟨l, mid, -, hl⟩ := Step.bind_eq_ok.1 h
    cases hl
  | case5 =>
    obtain ⟨text, ht⟩ := gives_scanName _ _ _ _ _ h
    cases ht
  | case6 b bytes =>
    have hc := (gives_scanSymbol _ _ _ _ _ h).2 rfl
    have hb : b = 0x28 := UInt8.toNat_inj.1 (congrArg Char.toNat hc)
    subst hb
    cases h
    exact ⟨[], rfl⟩

/-- A text has no more brackets to open than bytes that stand for one. -/
theorem count_openBracket_le (size : Nat) (bytes : List UInt8) :
    (sequence size bytes).1.count .openBracket ≤ bytes.count 0x28 := by
  fun_induction sequence size bytes with
  | case1 => exact Nat.zero_le _
  | case2 => exact Nat.zero_le _
  | case3 bytes token rest hn ht hl tokens fault hs ih =>
    have ih : tokens.count .openBracket ≤ rest.count 0x28 := by rwa [hs] at ih
    by_cases hb : token = .openBracket
    · subst hb
      obtain ⟨gap, rfl⟩ := next_eq_openBracket hn
      simp only [List.count_append, List.count_cons_self]
      omega
    · obtain ⟨front, he, -⟩ := exists_front size bytes
      rw [Step.outcome_of_ok hn] at he
      simp only [List.count_cons_of_ne hb, he, List.count_append]
      omega

end Formula.Token
