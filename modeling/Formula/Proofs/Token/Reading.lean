import Formula.Proofs.Literal.Reading
import Formula.Proofs.Token.Locality
import Formula.Proofs.Token.Spelling

/-!
# Tokens that are read

Lexing reads spellings and nothing else: a token that is read, other than the end, stands in the text
in one of its spellings, with only separators before it (`exists_spelling_of_next`).  A token is
therefore read again where something else stands behind its spelling that does not go on with it
(`next_of_delimits`), and the names of a text are spelled as names are (`name_of_mem_sequence`).
-/

namespace Formula.Token

open Byte

variable {size : Nat} {t : Token} {bytes rest : List UInt8}

/-! ## Names and symbols -/

/-- A name that is read is spelled by the bytes of a name that are next, all of them. -/
theorem name_of_scanName {role : Role} (h : scanName role size bytes = .ok t rest) :
    ∃ text, t = .name role text ∧ bytes = bytesOf text ++ rest ∧
      (∀ b ∈ bytesOf text, isName b) ∧ isName (peek rest) = false ∧
      (bytesOf text).length ≤ size - 1 := by
  obtain ⟨front, back, rfl, hf, hr⟩ := exists_run (p := isName) rfl bytes
  rw [scanName_run hf hr] at h
  split at h
  · next hl =>
    cases h
    have hb : bytesOf (ascii front) = front := bytesOf_ascii fun b hb => lt_of_isName (hf b hb)
    refine ⟨ascii front, rfl, ?_⟩
    rw [hb]
    exact ⟨rfl, hf, hr, hl⟩
  · cases h

/-- The second byte of a symbol is an equals sign. -/
theorem equals_of_orEquals {without withEquals : Token}
    (h : orEquals without withEquals bytes = .ok t rest) :
    t = withEquals ∧ bytes = 0x3D :: rest ∨ t = without ∧ bytes = rest := by
  unfold orEquals at h
  split at h <;> cases h
  · exact .inl ⟨rfl, rfl⟩
  · exact .inr ⟨rfl, rfl⟩

theorem eq_of_ofUInt8 {b c : UInt8} (h : Char.ofUInt8 b = Char.ofUInt8 c) : b = c :=
  UInt8.toNat_inj.1 (congrArg Char.toNat h)

/-- Whatever the scanner reads is the rest of a spelling that begins with the byte `b`. -/
def SpellsBehind (size : Nat) (b : UInt8) (p : Scan Token) : Prop :=
  ∀ bytes t rest, p bytes = .ok t rest →
    ∃ spelling, b :: bytes = spelling ++ rest ∧ Spells size t spelling

theorem SpellsBehind.pure {b c : UInt8} (hb : Char.ofUInt8 b = Char.ofUInt8 c)
    (hs : Spells size t [c]) : SpellsBehind size b (Pure.pure t) := by
  rintro bytes _ _ ⟨⟩
  exact ⟨[c], by rw [eq_of_ofUInt8 hb, List.singleton_append], hs⟩

theorem SpellsBehind.orEquals {b c : UInt8} {s : Token} (hb : Char.ofUInt8 b = Char.ofUInt8 c)
    (hs : Spells size s [c]) (ht : Spells size t [c, 0x3D]) :
    SpellsBehind size b (Token.orEquals s t) := by
  intro bytes u rest h
  rw [eq_of_ofUInt8 hb]
  rcases equals_of_orEquals h with ⟨rfl, rfl⟩ | ⟨rfl, rfl⟩
  · exact ⟨[c, 0x3D], rfl, ht⟩
  · exact ⟨[c], rfl, hs⟩

theorem SpellsBehind.scanName {b : UInt8} (hb : Char.ofUInt8 b = Char.ofUInt8 0x24) :
    SpellsBehind size b (Token.scanName .variable size) := by
  intro bytes t rest h
  obtain ⟨text, rfl, rfl, ha, -, hl⟩ := name_of_scanName h
  exact ⟨0x24 :: bytesOf text, by rw [eq_of_ofUInt8 hb, List.cons_append], .variable text ha hl⟩

theorem spellsBehind_scanSymbol (size : Nat) (b : UInt8) :
    SpellsBehind size b (scanSymbol size b) := by
  unfold scanSymbol
  split
  · next hb => exact .scanName hb
  · next hb => exact .orEquals (c := 0x3E) hb .greater .greaterEq
  · next hb => exact .orEquals (c := 0x3C) hb .less .lessEq
  · next hb => exact .orEquals (c := 0x3D) hb .equal .doubleEqual
  · next hb => exact .pure (c := 0x2B) hb .plus
  · next hb => exact .pure (c := 0x2D) hb .minus
  · next hb => exact .pure (c := 0x2A) hb .multiply
  · next hb => exact .pure (c := 0x2F) hb .divide
  · next hb => exact .pure (c := 0x28) hb .openBracket
  · next hb => exact .pure (c := 0x29) hb .closeBracket
  · exact nofun

/-! ## Tokens -/

/-- **A token is read from one of its spellings**, with only separators before it. -/
theorem exists_spelling_of_next (h : next size bytes = .ok t rest) (ht : t ≠ .done) :
    ∃ gap spelling, bytes = gap ++ (spelling ++ rest) ∧ (∀ b ∈ gap, isSeparator b) ∧
      Spells size t spelling := by
  fun_induction next size bytes with
  | case1 => cases h; exact absurd rfl ht
  | case2 => cases h; exact absurd rfl ht
  | case3 b bytes h0 hs ih =>
    obtain ⟨gap, spelling, rfl, hg, hsp⟩ := ih h
    exact ⟨b :: gap, spelling, rfl, by simpa [hs] using hg, hsp⟩
  | case4 b bytes h0 hs hb =>
    obtain ⟨l, mid, hl, hp⟩ := Step.bind_eq_ok.1 h
    cases hp
    have hp : isDigit (peek (b :: bytes)) || peek (b :: bytes) == 0x2E := hb
    obtain ⟨s, hr, hbytes, rfl⟩ := Literal.exists_spelling_of_scan hp hl
    exact ⟨[], s.bytes, hbytes, by simp, .number s hr⟩
  | case5 b bytes h0 hs hd hn =>
    obtain ⟨text, rfl, hbytes, ha, hr, hl⟩ := name_of_scanName h
    -- the byte that the name begins with belongs to it
    have hf : isNameStart (peek (bytesOf text)) := by
      cases htext : bytesOf text with
      | nil =>
        rw [htext, List.nil_append] at hbytes
        simp [← hbytes, isName, hn] at hr
      | cons c more =>
        rw [htext] at hbytes
        exact (List.cons.inj hbytes).1 ▸ hn
    exact ⟨[], bytesOf text, hbytes, by simp, .function text hf ha hl⟩
  | case6 b bytes h0 hs hd hn =>
    obtain ⟨spelling, hbytes, hsp⟩ := spellsBehind_scanSymbol size b bytes t rest h
    exact ⟨[], spelling, hbytes, by simp, hsp⟩

/-- A token is read again in front of the byte that ends it. -/
theorem next_of_peek_eq {front rest' : List UInt8} (h : next size (front ++ rest) = .ok t rest)
    (hr : peek rest = peek rest') : next size (front ++ rest') = .ok t rest' := by
  obtain ⟨front', mid, hb, -, hl⟩ := local_next size (front ++ rest)
  have hmid := hl mid rfl
  rw [← hb, Step.outcome_of_ok h] at hmid
  obtain rfl : rest = mid := congrArg Prod.snd hmid
  obtain rfl := List.append_cancel_right hb
  have ho := hl rest' hr
  rw [Step.outcome_of_ok h] at ho
  exact Step.outcome_eq_ok.1 ho

/-- A token is read again in front of anything that does not go on with it. -/
theorem next_of_delimits {front rest' : List UInt8} (h : next size (front ++ rest) = .ok t rest)
    (ht : t ≠ .done) (hr : Byte.delimits (peek rest')) :
    next size (front ++ rest') = .ok t rest' := by
  obtain ⟨gap, spelling, hf, hg, hs⟩ := exists_spelling_of_next h ht
  rw [← List.append_assoc] at hf
  rw [List.append_cancel_right hf, List.append_assoc, next_separators hg]
  exact next_of_spells hs (.inr hr)

/-! ## The names of a text -/

/-- The bytes of a name, and the room for it. -/
theorem Spells.name {role : Role} {name : String} {spelling : List UInt8}
    (h : Spells size (.name role name) spelling) :
    (∀ b ∈ bytesOf name, isName b) ∧ (bytesOf name).length ≤ size - 1 := by
  cases h with
  | function _ _ all fits => exact ⟨all, fits⟩
  | «variable» _ all fits => exact ⟨all, fits⟩

theorem name_of_mem_sequence {role : Role} {name : String}
    (h : .name role name ∈ (sequence size bytes).1) :
    (∀ b ∈ bytesOf name, isName b) ∧ (bytesOf name).length ≤ size - 1 := by
  fun_induction sequence size bytes with
  | case1 => cases h
  | case2 => cases h
  | case3 bytes token rest hn ht hlt tokens fault hs ih =>
    obtain ⟨gap, spelling, -, -, hsp⟩ := exists_spelling_of_next hn ht
    rcases List.mem_cons.1 h with rfl | h
    · exact hsp.name
    · exact ih (by rwa [hs])

end Formula.Token
