import Formula.Proofs.Token.Append
import Formula.Proofs.Token.Reading

/-!
# Boundaries between tokens

The places of a text where a token may begin, and the end of the text, are the boundaries of its
tokens (`Boundary`).  Separators change nothing there: whatever is read of the text, and whether or
not reading it fails, is the same with separators put in at a boundary (`sequence_insert`).
-/

namespace Formula.Token

open Byte

/-- The place between two parts of a text is a boundary of its tokens.  The bytes inside of a token
have none between them: not those behind a dollar sign, nor those of a literal. -/
inductive Boundary (size : Nat) : List UInt8 → List UInt8 → Prop
  /-- Only separators stand before it. -/
  | separators {gap : List UInt8} (back : List UInt8) (h : ∀ b ∈ gap, isSeparator b) :
    Boundary size gap back
  /-- It is a boundary of what is left behind the first token. -/
  | token {t : Token} {first front back : List UInt8}
    (h : next size (first ++ (front ++ back)) = .ok t (front ++ back)) (ht : t ≠ .done)
    (hb : Boundary size front back) : Boundary size (first ++ front) back
  /-- It is the end of the text. -/
  | textEnd (front : List UInt8) : Boundary size front []

variable {size : Nat} {gap front back : List UInt8}

theorem sequence_separators (hg : ∀ b ∈ gap, isSeparator b) (size : Nat) (bytes : List UInt8) :
    sequence size (gap ++ bytes) = sequence size bytes :=
  sequence_congr (next_separators hg size bytes)

theorem isInert_of_isSeparator {b : UInt8} (h : isSeparator b) : isInert b := by
  have hlt := (lt_of_delimits (delimits_of_isSeparator h)).1
  simp only [isSeparator, Bool.and_eq_true, decide_eq_true_eq] at h
  have hne (c : UInt8) (hc : 0x20 < c) : (b == c) = false := beq_false_of_ne (by grind)
  rw [isInert, isName_eq_false hlt, hne 0x2E (by decide), hne 0x2B (by decide),
    hne 0x2D (by decide), hne 0x3D (by decide)]
  rfl

/-- Separators at the end of a text change nothing. -/
theorem sequence_append_separators (hg : ∀ b ∈ gap, isSeparator b) (size : Nat)
    (bytes : List UInt8) : sequence size (bytes ++ gap) = sequence size bytes := by
  cases gap with
  | nil => rw [List.append_nil]
  | cons c gap =>
    have hnil : sequence size (c :: gap) = ([], none) := by
      have h := sequence_separators hg size []
      rw [List.append_nil] at h
      exact h.trans (sequence_of_done rfl)
    rw [sequence_append (isInert_of_isSeparator (hg c (List.mem_cons_self ..))), hnil]
    split
    · next h => rw [List.append_nil, ← h.1]
    · rfl

/-- A token is read again if separators are put in somewhere behind it. -/
theorem next_insert {t : Token} {first : List UInt8}
    (h : next size (first ++ (front ++ back)) = .ok t (front ++ back)) (ht : t ≠ .done)
    (hg : ∀ b ∈ gap, isSeparator b) :
    next size (first ++ (front ++ (gap ++ back))) = .ok t (front ++ (gap ++ back)) := by
  cases front with
  | nil =>
    cases gap with
    | nil => exact h
    | cons c gap =>
      exact next_of_delimits h ht (delimits_of_isSeparator (hg c (List.mem_cons_self ..)))
  | cons c front =>
    -- the separators stand behind the byte that ends the token
    exact next_of_peek_eq h rfl

/-- **Separators at boundaries of tokens change nothing** that is read. -/
theorem sequence_insert (hb : Boundary size front back) (hg : ∀ b ∈ gap, isSeparator b) :
    sequence size (front ++ (gap ++ back)) = sequence size (front ++ back) := by
  induction hb with
  | separators back h =>
    rw [sequence_separators h, sequence_separators hg, sequence_separators h]
  | @token t first front back h ht hb ih =>
    rw [List.append_assoc, List.append_assoc, sequence_of_ok (next_insert h ht hg) ht, ih,
      sequence_of_ok h ht]
  | textEnd front => rw [List.append_nil, List.append_nil, sequence_append_separators hg]

end Formula.Token
