import Formula.Proofs.Byte
import Formula.Proofs.Step
import Formula.Token.Scan

/-!
# Reading one token

What each scanner does, by the next byte (`peek`) and by the run of bytes of one kind that the text
begins with.  The end of a text reads as NUL.

* `scanDigits_run`, `scanName_run` — a run is taken whole.
* `next_of_peek`, `next_separators`, `next_number`, `next_function`, `next_symbol` — the ways in
  which a token begins, and `next_eq_done` — where the end is read.
-/

namespace Formula

/-- The next byte; the end of the text reads as NUL. -/
def peek (bytes : List UInt8) : UInt8 :=
  bytes.headD 0

@[simp]
theorem peek_nil : peek [] = 0 := rfl

@[simp]
theorem peek_cons (b : UInt8) (bytes : List UInt8) : peek (b :: bytes) = b := rfl

theorem exists_cons_of_peek {bytes : List UInt8} {b : UInt8} (h : peek bytes = b) (hb : b ≠ 0) :
    ∃ rest, bytes = b :: rest := by
  cases bytes with
  | nil => exact absurd h.symm hb
  | cons c rest =>
    cases h
    exact ⟨rest, rfl⟩

/-! ## Runs of bytes of a kind -/

section Runs

variable {p : UInt8 → Bool} {front rest : List UInt8}

theorem takeWhile_run (hf : ∀ b ∈ front, p b) (hr : p (peek rest) = false) :
    (front ++ rest).takeWhile p = front := by
  rw [List.takeWhile_append_of_pos hf]
  cases rest with
  | nil => simp
  | cons b rest => rw [List.takeWhile_cons_of_neg (by simpa using hr), List.append_nil]

theorem dropWhile_run (hf : ∀ b ∈ front, p b) (hr : p (peek rest) = false) :
    (front ++ rest).dropWhile p = rest := by
  rw [List.dropWhile_append_of_pos hf]
  cases rest with
  | nil => rfl
  | cons b rest => exact List.dropWhile_cons_of_neg (by simpa using hr)

/-- Every text begins with a run, possibly empty, of the bytes of a kind. -/
theorem exists_run (h0 : p 0 = false) (bytes : List UInt8) :
    ∃ front rest, bytes = front ++ rest ∧ (∀ b ∈ front, p b) ∧ p (peek rest) = false := by
  refine ⟨bytes.takeWhile p, bytes.dropWhile p, List.takeWhile_append_dropWhile.symm,
    List.all_eq_true.1 List.all_takeWhile, ?_⟩
  have h := List.head?_dropWhile_not p bytes
  cases hd : bytes.dropWhile p with
  | nil => exact h0
  | cons b rest =>
    rw [hd] at h
    exact h

theorem exists_append {n : Nat} (h : n ≤ front.length) :
    ∃ first second, front = first ++ second ∧ first.length = n :=
  ⟨front.take n, front.drop n, (List.take_append_drop n front).symm, List.length_take_of_le h⟩

theorem zero_not_mem (h0 : p 0 = false) (hf : ∀ b ∈ front, p b) : 0 ∉ front := by
  intro h
  rw [hf 0 h] at h0
  cases h0

theorem length_le_takeWhile (hf : ∀ b ∈ front, p b) (rest : List UInt8) :
    front.length ≤ ((front ++ rest).takeWhile p).length := by
  rw [List.takeWhile_append_of_pos hf, List.length_append]
  exact Nat.le_add_right _ _

end Runs

open Byte

/-! ## Literals -/

namespace Literal

theorem beginsWithDigit_eq (bytes : List UInt8) : beginsWithDigit bytes = isDigit (peek bytes) := by
  cases bytes <;> rfl

theorem scanFraction_of_ne {bytes : List UInt8} (h : (peek bytes == 0x2E) = false) :
    scanFraction bytes = .ok [] bytes := by
  unfold scanFraction
  split
  · cases h
  · rfl

theorem scanSign_of_ne {bytes : List UInt8} (hm : (peek bytes == 0x2D) = false)
    (hp : (peek bytes == 0x2B) = false) : scanSign bytes = .ok false bytes := by
  unfold scanSign
  split
  · cases hm
  · cases hp
  · rfl

theorem scanExponent_of_ne {bytes : List UInt8} (hl : (peek bytes == 0x65) = false)
    (hu : (peek bytes == 0x45) = false) : scanExponent bytes = .ok 0 bytes := by
  unfold scanExponent
  split
  · cases hl
  · cases hu
  · rfl

theorem scanMagnitude_of_not_digit {bytes : List UInt8} (h : isDigit (peek bytes) = false)
    (magnitude : Nat) : scanMagnitude magnitude bytes = .ok magnitude bytes := by
  cases bytes with
  | nil => rfl
  | cons b bytes => rw [scanMagnitude, if_neg (by simpa using h)]

theorem scanDigits_run {front rest : List UInt8} (hf : ∀ b ∈ front, isDigit b)
    (hr : isDigit (peek rest) = false) :
    scanDigits (front ++ rest) = .ok (front.map digitValue) rest := by
  rw [scanDigits, takeWhile_run hf hr, dropWhile_run hf hr]

end Literal

/-! ## Tokens -/

namespace Token

theorem orEquals_of_ne {bytes : List UInt8} (h : (peek bytes == 0x3D) = false) (s t : Token) :
    orEquals s t bytes = .ok s bytes := by
  unfold orEquals
  split
  · cases h
  · rfl

theorem scanName_run {front rest : List UInt8} (hf : ∀ b ∈ front, isName b)
    (hr : isName (peek rest) = false) (role : Role) (size : Nat) :
    scanName role size (front ++ rest) =
      if front.length ≤ size - 1 then .ok (.name role (ascii front)) rest
      else .error .nameTooLong ((front ++ rest).drop (size - 1)) := by
  rw [scanName, takeWhile_run hf hr, dropWhile_run hf hr]

/-- A name that fits is read whole where no byte of a name follows it. -/
theorem scanName_text {text : String} {rest : List UInt8} {size : Nat}
    (ht : ∀ b ∈ bytesOf text, isName b) (hl : (bytesOf text).length ≤ size - 1)
    (hr : isName (peek rest) = false) (role : Role) :
    scanName role size (bytesOf text ++ rest) = .ok (.name role text) rest := by
  rw [scanName_run ht hr, if_pos hl, ascii_bytesOf fun b hb => lt_of_isName (ht b hb)]

theorem next_of_peek {bytes : List UInt8} (h : peek bytes = 0) (size : Nat) :
    next size bytes = .ok .done bytes := by
  cases bytes with
  | nil => rfl
  | cons b bytes =>
    cases h
    rfl

theorem next_separator {b : UInt8} (h : isSeparator b) (size : Nat) (bytes : List UInt8) :
    next size (b :: bytes) = next size bytes := by
  have h0 : b ≠ 0 := by rintro rfl; cases h
  rw [next, if_neg h0, if_pos h]

theorem next_number {b : UInt8} (h : isDigit b || b == 0x2E) (size : Nat) (bytes : List UInt8) :
    next size (b :: bytes) =
      (Literal.scan >>= fun l => (pure (.number l.value) : Scan Token)) (b :: bytes) := by
  have h0 : b ≠ 0 := by rintro rfl; cases h
  have hs : ¬ isSeparator b := by
    simp only [isDigit, isSeparator] at h ⊢
    grind
  rw [next, if_neg h0, if_neg hs, if_pos h]

theorem next_function {b : UInt8} (h : isNameStart b) (size : Nat) (bytes : List UInt8) :
    next size (b :: bytes) = scanName .function size (b :: bytes) := by
  have h0 : b ≠ 0 := by rintro rfl; cases h
  have hs : ¬ isSeparator b := by
    simp only [isNameStart, isLetter, isSeparator] at h ⊢
    grind
  have hd : ¬ (isDigit b || b == 0x2E) := by
    simp only [isNameStart, isLetter, isDigit] at h ⊢
    grind
  rw [next, if_neg h0, if_neg hs, if_neg hd, if_pos h]

/-- Is it a byte that only a symbol or an illegal character begins with? -/
def beginsSymbol (b : UInt8) : Bool :=
  !(b == 0 || isSeparator b || isDigit b || b == 0x2E || isNameStart b)

theorem next_symbol {b : UInt8} (h : beginsSymbol b) (size : Nat) (bytes : List UInt8) :
    next size (b :: bytes) = scanSymbol size b bytes := by
  simp only [beginsSymbol, Bool.not_eq_true', Bool.or_eq_false_iff, beq_eq_false_iff_ne] at h
  obtain ⟨⟨⟨⟨h0, hs⟩, hd⟩, hp⟩, hn⟩ := h
  rw [next, if_neg h0, if_neg (by simp [hs]), if_neg (by simp [hd, hp]), if_neg (by simp [hn])]

theorem next_separators {gap : List UInt8} (h : ∀ b ∈ gap, isSeparator b) (size : Nat)
    (bytes : List UInt8) : next size (gap ++ bytes) = next size bytes := by
  induction gap with
  | nil => rfl
  | cons b gap ih =>
    rw [List.cons_append, next_separator (h b (List.mem_cons_self ..)),
      ih fun c hc => h c (List.mem_cons_of_mem _ hc)]

theorem gives_scanName (role : Role) (size : Nat) :
    Step.Gives (fun t => ∃ text, t = .name role text) (scanName role size) := by
  intro bytes t rest h
  unfold scanName at h
  split at h <;> cases h
  exact ⟨_, rfl⟩

theorem gives_orEquals (s t : Token) : Step.Gives (fun u => u = s ∨ u = t) (orEquals s t) := by
  intro bytes u rest h
  unfold orEquals at h
  split at h <;> cases h
  · exact .inr rfl
  · exact .inl rfl

/-- No symbol is the end, and only one is an opening bracket. -/
theorem gives_scanSymbol (size : Nat) (b : UInt8) :
    Step.Gives (fun t => t ≠ .done ∧ (t = .openBracket → Char.ofUInt8 b = '('))
      (scanSymbol size b) := by
  have ho (op op' : ProductOp) : Step.Gives
      (fun t => t ≠ .done ∧ (t = .openBracket → Char.ofUInt8 b = '('))
      (orEquals (.times op) (.times op')) := by
    intro bytes t rest h
    rcases gives_orEquals _ _ _ _ _ h with rfl | rfl <;> exact ⟨nofun, nofun⟩
  unfold scanSymbol
  split
  · intro bytes t rest h
    obtain ⟨text, rfl⟩ := gives_scanName _ _ _ _ _ h
    exact ⟨nofun, nofun⟩
  · exact ho _ _
  · exact ho _ _
  · exact ho _ _
  iterate 4 exact .pure ⟨nofun, nofun⟩
  · next h => exact .pure ⟨nofun, fun _ => h⟩
  · exact .pure ⟨nofun, nofun⟩
  · exact .throw _

/-- The end is read in front of a NUL or the end of the text, with nothing but separators before
it. -/
theorem next_eq_done {size : Nat} {bytes rest : List UInt8} (h : next size bytes = .ok .done rest) :
    ∃ gap, bytes = gap ++ rest ∧ (∀ b ∈ gap, isSeparator b) ∧ peek rest = 0 := by
  fun_induction next size bytes with
  | case1 => cases h; exact ⟨[], rfl, by simp, rfl⟩
  | case2 bytes => cases h; exact ⟨[], rfl, by simp, rfl⟩
  | case3 b bytes h0 hs ih =>
    obtain ⟨gap, rfl, hg, hr⟩ := ih h
    exact ⟨b :: gap, rfl, by simpa [hs] using hg, hr⟩
  | case4 =>
    obtain ⟨l, mid, -, hl⟩ := Step.bind_eq_ok.1 h
    cases hl
  | case5 =>
    obtain ⟨text, ht⟩ := gives_scanName _ _ _ _ _ h
    cases ht
  | case6 => exact absurd rfl (gives_scanSymbol _ _ _ _ _ h).1

end Token

end Formula
