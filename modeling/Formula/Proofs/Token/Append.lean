import Formula.Proofs.Token.Locality
import Formula.Proofs.Token.Sequence

/-!
# The tokens of texts in a row

If a text goes on with a byte that can only begin a token, the tokens of the two parts follow one
another, unless reading the first part has come to a fault or a NUL (`sequence_append`).
-/

namespace Formula.Token

open Byte

variable {size : Nat} {bytes rest : List UInt8}

/-- What a token leaves is what stands behind bytes other than NUL. -/
theorem exists_front (size : Nat) (bytes : List UInt8) : ∃ front,
    bytes = front ++ (Step.outcome (next size) bytes).2 ∧ 0 ∉ front := by
  obtain ⟨front, rest, hb, h0, h⟩ := local_next size bytes
  have hl := congrArg Prod.snd (h rest rfl)
  rw [← hb] at hl
  exact ⟨front, by rw [hl]; exact hb, h0⟩

theorem zero_mem_iff_of_next {token : Token} (h : next size bytes = .ok token rest) :
    0 ∈ bytes ↔ 0 ∈ rest := by
  obtain ⟨front, hb, h0⟩ := exists_front size bytes
  rw [Step.outcome_of_ok h] at hb
  rw [hb, List.mem_append, or_iff_right h0]

theorem sequence_congr {bytes' : List UInt8} (h : next size bytes = next size bytes') :
    sequence size bytes = sequence size bytes' := by
  cases hn : next size bytes' with
  | error fault rest => rw [sequence_of_error hn, sequence_of_error (h.trans hn)]
  | ok token rest =>
    by_cases ht : token = done
    · subst ht
      rw [sequence_of_done hn, sequence_of_done (h.trans hn)]
    · rw [sequence_of_ok hn ht, sequence_of_ok (h.trans hn) ht]

theorem sequence_append {c : UInt8} (hc : isInert c) (size : Nat) (bytes more : List UInt8) :
    sequence size (bytes ++ c :: more) =
      if (sequence size bytes).2 = none ∧ 0 ∉ bytes then
        ((sequence size bytes).1 ++ (sequence size (c :: more)).1,
          (sequence size (c :: more)).2)
      else sequence size bytes := by
  induction hl : bytes.length using Nat.strongRecOn generalizing bytes with
  | ind n ih =>
    subst hl
    by_cases hend : next size bytes = .ok .done []
    · -- nothing but separators stands in front of the byte
      obtain ⟨gap, hb, hg, -⟩ := next_eq_done hend
      obtain rfl : bytes = gap := by rw [hb, List.append_nil]
      have h0 : 0 ∉ bytes := zero_not_mem (p := isSeparator) rfl hg
      rw [sequence_congr (next_separators hg size _), sequence_of_done hend, if_pos ⟨rfl, h0⟩]
      rfl
    have ha := next_append hend hc more
    cases hn : next size bytes with
    | error fault rest =>
      rw [Step.outcome_of_error hn, Step.outcome_eq_error] at ha
      rw [sequence_of_error ha, sequence_of_error hn, if_neg (by simp)]
    | ok token rest =>
      rw [Step.outcome_of_ok hn, Step.outcome_eq_ok] at ha
      have hz := zero_mem_iff_of_next hn
      by_cases ht : token = done
      · subst ht
        obtain ⟨gap, -, -, hp⟩ := next_eq_done hn
        have h0 : 0 ∈ bytes := by
          rw [hz]
          cases rest with
          | nil => exact absurd hn hend
          | cons b rest => cases hp; exact List.mem_cons_self ..
        rw [sequence_of_done ha, sequence_of_done hn, if_neg (fun h => h.2 h0)]
      · rw [sequence_of_ok ha ht, sequence_of_ok hn ht,
          ih rest.length (length_lt_of_next hn ht) rest rfl]
        simp only [hz]
        split <;> rfl

end Formula.Token
