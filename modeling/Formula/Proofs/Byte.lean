import Formula.Byte

/-!
# The bytes of a text

The bytes of texts in a row are those of one text behind those of the other, and texts of ASCII
characters are told by their bytes (`ascii_bytesOf`, `bytesOf_ascii`).
-/

namespace Formula

theorem bytesOf_append (s t : String) : bytesOf (s ++ t) = bytesOf s ++ bytesOf t := by
  simp [bytesOf]

theorem bytesOf_eq (text : String) :
    bytesOf text = text.toList.flatMap String.utf8EncodeChar := by
  have h : bytesOf (String.ofList text.toList) = text.toList.flatMap String.utf8EncodeChar := by
    simp only [bytesOf, String.toUTF8_eq_toByteArray, String.toByteArray_ofList]
    simp [List.utf8Encode]
  rwa [String.ofList_toList] at h

/-- A character beyond ASCII begins with a byte beyond 127. -/
theorem utf8EncodeChar_of_lt {c : Char} (h : ∀ b ∈ String.utf8EncodeChar c, b < 128) :
    String.utf8EncodeChar c = [UInt8.ofNat c.toNat] ∧ c.toNat < 128 := by
  have hv : c.val.toNat = c.toNat := rfl
  by_cases hc : c.toNat ≤ 127
  · refine ⟨?_, by omega⟩
    simp [String.utf8EncodeChar, hv, hc]
  · -- the first byte of two, three or four is 192 or more
    unfold String.utf8EncodeChar at h
    simp only [hv, if_neg hc] at h
    split at h
    · have := h _ (List.mem_cons_self ..)
      simp [UInt8.lt_iff_toNat_lt] at this
      omega
    · split at h
      · have := h _ (List.mem_cons_self ..)
        simp [UInt8.lt_iff_toNat_lt] at this
        omega
      · have := h _ (List.mem_cons_self ..)
        simp [UInt8.lt_iff_toNat_lt] at this
        omega

theorem ofUInt8_ofNat {c : Char} (h : c.toNat < 128) :
    Char.ofUInt8 (UInt8.ofNat c.toNat) = c := by
  apply Char.toNat_inj.1
  show (UInt8.toUInt32 (UInt8.ofNat c.toNat)).toNat = c.toNat
  simp
  omega

theorem map_ofUInt8_utf8 {l : List Char} (h : ∀ b ∈ l.flatMap String.utf8EncodeChar, b < 128) :
    (l.flatMap String.utf8EncodeChar).map Char.ofUInt8 = l := by
  induction l with
  | nil => rfl
  | cons c l ih =>
    simp only [List.flatMap_cons, List.mem_append] at h
    obtain ⟨hc, hlt⟩ := utf8EncodeChar_of_lt fun b hb => h b (.inl hb)
    rw [List.flatMap_cons, List.map_append, ih fun b hb => h b (.inr hb), hc,
      List.map_singleton, ofUInt8_ofNat hlt]
    rfl

/-- A text of ASCII characters is the text that its bytes spell. -/
theorem ascii_bytesOf {text : String} (h : ∀ b ∈ bytesOf text, b < 128) :
    Byte.ascii (bytesOf text) = text := by
  rw [bytesOf_eq] at h ⊢
  rw [Byte.ascii, map_ofUInt8_utf8 h, String.ofList_toList]

theorem utf8EncodeChar_ofUInt8 {b : UInt8} (h : b < 128) :
    String.utf8EncodeChar (Char.ofUInt8 b) = [b] := by
  have hv : (Char.ofUInt8 b).val.toNat = b.toNat := rfl
  have hb : b.toNat ≤ 127 := Nat.le_of_lt_succ h
  simp [String.utf8EncodeChar, hv, hb]

/-- The text that ASCII bytes spell has these bytes. -/
theorem bytesOf_ascii {bytes : List UInt8} (h : ∀ b ∈ bytes, b < 128) :
    bytesOf (Byte.ascii bytes) = bytes := by
  rw [bytesOf_eq, Byte.ascii, String.toList_ofList, List.flatMap_map]
  induction bytes with
  | nil => rfl
  | cons b bytes ih =>
    rw [List.flatMap_cons, utf8EncodeChar_ofUInt8 (h b (List.mem_cons_self ..)),
      ih fun c hc => h c (List.mem_cons_of_mem _ hc), List.singleton_append]

namespace Byte

/-- Names are spelled in ASCII. -/
theorem lt_of_isName {b : UInt8} (h : isName b) : b < 128 := by
  simp only [isName, isNameStart, isLetter, isDigit, Bool.or_eq_true, Bool.and_eq_true,
    decide_eq_true_eq, beq_iff_eq] at h
  grind

end Byte

end Formula
