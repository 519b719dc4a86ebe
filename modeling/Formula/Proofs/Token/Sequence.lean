import Formula.Token.Sequence

/-!
# Reading a text token by token

`Token.sequence` unrolled by one token: what it is where the next token is the end, where it is
another one, and where reading it fails.  The tokens of the sequence, with the end behind them, are
what the first readings of a token give (`fetched_of_sequence`).
-/

namespace Formula.Token

variable {size : Nat} {bytes rest : List UInt8}

theorem sequence_of_error {fault : Fault} (h : next size bytes = .error fault rest) :
    sequence size bytes = ([], some fault) := by
  rw [sequence]
  split
  · next hn => cases h.symm.trans hn; rfl
  · next hn => cases h.symm.trans hn

theorem sequence_of_done (h : next size bytes = .ok done rest) :
    sequence size bytes = ([], none) := by
  rw [sequence]
  split
  · next hn => cases h.symm.trans hn
  · next hn => cases h.symm.trans hn; rfl

theorem sequence_of_ok {token : Token} (h : next size bytes = .ok token rest)
    (ht : token ≠ done) :
    sequence size bytes = (token :: (sequence size rest).1, (sequence size rest).2) := by
  rw [sequence]
  split
  · next hn => cases h.symm.trans hn
  · next hn => cases h.symm.trans hn; rw [dif_neg ht]

/-- What the next reading gives, by the first of the tokens that follow. -/
theorem next_of_sequence_cons {token : Token} {tokens : List Token} {fault : Option Fault}
    (h : sequence size bytes = (token :: tokens, fault)) :
    ∃ rest, next size bytes = .ok token rest ∧ token ≠ done ∧
      sequence size rest = (tokens, fault) := by
  cases hn : next size bytes with
  | error fault rest => cases h.symm.trans (sequence_of_error hn)
  | ok token rest =>
    by_cases ht : token = done
    · subst ht
      cases h.symm.trans (sequence_of_done hn)
    · cases h.symm.trans (sequence_of_ok hn ht)
      exact ⟨rest, rfl, ht, rfl⟩

theorem next_of_sequence_nil (h : sequence size bytes = ([], none)) :
    ∃ rest, next size bytes = .ok done rest := by
  cases hn : next size bytes with
  | error fault rest => cases h.symm.trans (sequence_of_error hn)
  | ok token rest =>
    by_cases ht : token = done
    · exact ⟨rest, ht ▸ rfl⟩
    · cases h.symm.trans (sequence_of_ok hn ht)

theorem next_of_sequence_fault {fault : Fault} (h : sequence size bytes = ([], some fault)) :
    ∃ rest, next size bytes = .error fault rest := by
  cases hn : next size bytes with
  | error fault rest => cases h.symm.trans (sequence_of_error hn); exact ⟨rest, rfl⟩
  | ok token rest =>
    by_cases ht : token = done
    · subst ht
      cases h.symm.trans (sequence_of_done hn)
    · cases h.symm.trans (sequence_of_ok hn ht)

theorem done_not_mem_sequence (size : Nat) (bytes : List UInt8) :
    done ∉ (sequence size bytes).1 := by
  fun_induction sequence size bytes with
  | case1 => simp
  | case2 => simp
  | case3 bytes token rest hn ht hl tokens fault hs ih =>
    rw [hs] at ih
    rw [List.mem_cons, not_or]
    exact ⟨fun h => ht h.symm, ih⟩

/-- The tokens of a text with the end behind them, unless reading fails before the end. -/
def withEnd (tokens : List Token) : Option Fault → List Token
  | none => tokens ++ [done]
  | some _ => tokens

@[simp]
theorem withEnd_cons (token : Token) (tokens : List Token) (fault : Option Fault) :
    withEnd (token :: tokens) fault = token :: withEnd tokens fault := by
  cases fault <;> rfl

theorem length_withEnd_le (tokens : List Token) (fault : Option Fault) :
    (withEnd tokens fault).length ≤ tokens.length + 1 := by
  cases fault <;> simp [withEnd]

/-- What the first `n` readings of a token give, up to one that fails. -/
def fetched (size : Nat) : Nat → List UInt8 → List Token
  | 0, _ => []
  | n + 1, bytes => match next size bytes with
    | .ok token rest => token :: fetched size n rest
    | .error _ _ => []

theorem fetched_of_ok {token : Token} {n : Nat} (h : next size bytes = .ok token rest) :
    fetched size (n + 1) bytes = token :: fetched size n rest := by
  rw [fetched, h]

theorem fetched_of_sequence {tokens : List Token} {fault : Option Fault} {token : Token} {n : Nat}
    (hs : sequence size bytes = (tokens, fault)) (h : (withEnd tokens fault)[n]? = some token) :
    fetched size (n + 1) bytes = tokens.take n ++ [token] := by
  induction n generalizing bytes tokens with
  | zero =>
    cases tokens with
    | nil =>
      cases fault with
      | some fault => cases h
      | none =>
        cases h
        obtain ⟨rest, hn⟩ := next_of_sequence_nil hs
        rw [fetched_of_ok hn]
        rfl
    | cons first tokens =>
      obtain ⟨rest, hn, -, -⟩ := next_of_sequence_cons hs
      rw [withEnd_cons] at h
      cases h
      rw [fetched_of_ok hn]
      rfl
  | succ n ih =>
    cases tokens with
    | nil => cases fault <;> cases h
    | cons first tokens =>
      obtain ⟨rest, hn, -, hs⟩ := next_of_sequence_cons hs
      rw [withEnd_cons, List.getElem?_cons_succ] at h
      rw [fetched_of_ok hn, ih hs h]
      rfl

end Formula.Token
