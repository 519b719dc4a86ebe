import Mathlib
import Formula.Proofs.Evaluation.Failing
import Formula.Proofs.Token.Faults

/-!
# Faults of misplaced tokens

Four faults are about a token that cannot stand where it does.  An evaluation raises them at the
earliest token there is: the tokens before it are the front part of a sentence, and with it they
are not; and which of the four it is depends on the tokens before it alone (`misplaced_token`).
-/

namespace Formula

open Grammar

variable {σ : Type}

/-- Is it a fault of a token that cannot stand where it does? -/
def Fault.isMisplaced : Fault → Bool
  | expectedTerm | expectedOpenBracket | expectedCloseBracket | unexpectedCharacter => true
  | _ => false

/-- The faults that have nothing to do with the place of a token. -/
abbrev Fault.Unrelated (fault : Fault) : Prop :=
  fault.isMisplaced = false

/-- The callbacks of a scope do not fail with faults of misplaced tokens.  If they do not fail at
all, this is so. -/
structure Scope.Honest (scope : Scope σ) : Prop where
  /-- No variable fails so. -/
  value : ∀ name, Step.FailsWith Fault.Unrelated (scope.value name)
  /-- No function that is found fails so. -/
  call : ∀ name host callback u, scope.function name host = (some callback, u) →
    ∀ x, Step.FailsWith Fault.Unrelated (callback x)

theorem Scope.Honest.failsWith {scope : Scope σ} (hs : scope.Honest) :
    scope.FailsWith Fault.Unrelated where
  find name := (failsWith_find scope name).mono fun _ h => h ▸ rfl
  call name host callback u h := by
    unfold Scope.find at h
    split at h
    · next hf =>
      cases h
      exact hs.call _ _ _ _ hf
    · cases h
  value := hs.value

theorem Grammar.Fragment.failsWith_value {scope : Scope σ} (hs : scope.Honest) {P : Fragment}
    {before : List Token} (hP : start.through? before = some P) :
    Step.FailsWith Fault.Unrelated (P.value scope) :=
  hs.failsWith.fragment hP

/-! ## The tokens that have been fetched -/

/-- The state behind readings of tokens that have all succeeded. -/
theorem State.skip_of_fetched {nameSize n : Nat} {s : State σ} {front : List Token} {token : Token}
    (h : Token.fetched nameSize (n + 1) s.rest = front ++ [token]) (hl : front.length = n) :
    (s.skip nameSize (n + 1)).token = token ∧
      (s.skip nameSize (n + 1)).fetched = s.fetched + (n + 1) := by
  induction n generalizing s front with
  | zero =>
    cases List.length_eq_zero_iff.1 hl
    cases hn : Token.next nameSize s.rest with
    | error fault rest => simp [Token.fetched, hn] at h
    | ok first rest =>
      rw [Token.fetched_of_ok hn] at h
      cases h
      simp [skip, fetch, Evaluation.advance, hn]
  | succ n ih =>
    cases front with
    | nil => cases hl
    | cons first front =>
      cases hn : Token.next nameSize s.rest with
      | error fault rest => simp [Token.fetched, hn] at h
      | ok first rest =>
        rw [Token.fetched_of_ok hn] at h
        obtain ⟨-, h⟩ := List.cons.inj h
        have hr : (s.fetch nameSize).rest = rest := by simp [fetch, Evaluation.advance, hn]
        have hf : (s.fetch nameSize).fetched = s.fetched + 1 := by
          simp [fetch, Evaluation.advance, hn]
        obtain ⟨ht, hc⟩ := ih (hr ▸ h) (Nat.succ.inj hl)
        rw [hf] at hc
        exact ⟨ht, hc.trans (by omega)⟩

/-- What the tokens of a reading that has stopped at a misplaced token tell about it. -/
theorem fetched_of_stopped {limits : Limits} {text : String} {fault : Fault}
    (h : (Reading.ofText limits text).ending = .error fault) (hf : fault.isMisplaced) :
    ∃ before token P, Fragment.start.through? before = some P ∧ P.next? token = none ∧
      (token = .done → P.tree? = none) ∧ fault = P.fault ∧
      before.length = (Reading.ofText limits text).used ∧
      Token.fetched limits.nameSize (before.length + 1) (bytesOf text) = before ++ [token] := by
  have hdone := Token.done_not_mem_sequence limits.nameSize (bytesOf text)
  rcases hs : Token.sequence limits.nameSize (bytesOf text) with ⟨tokens, lexical⟩
  have hP := Fragment.start.through?_take_used limits.depth tokens lexical
  simp only [Reading.ofText, hs] at h hdone ⊢
  rcases Fragment.stopped_of_read hdone h with hl | rfl | ⟨token, ht, hn, hd, hp⟩
  · have := Token.lexical_of_sequence (by rw [hs]; exact hl)
    cases fault <;> cases hf <;> cases this
  · cases hf
  · obtain ⟨hlt, -⟩ := List.getElem?_eq_some_iff.1 ht
    have hle := Token.length_withEnd_le tokens lexical
    have hl : (tokens.take (Fragment.start.read limits.depth tokens lexical).used).length =
        (Fragment.start.read limits.depth tokens lexical).used := by
      rw [List.length_take]
      omega
    refine ⟨_, token, _, hP, hn, hd, hp, hl, ?_⟩
    rw [hl]
    exact Token.fetched_of_sequence hs ht

/-- **The first fault comes at the earliest token.**  If an evaluation fails with a fault of a
misplaced token that no callback has raised, the token held is the misplaced one: the tokens fetched
before it are the front part of a sentence, and with it they are not, even if the end is counted to
the sentence.  Behind a whole sentence it is unexpected, behind a function name an opening bracket
is expected, behind a term in a bracket that is still open a closing bracket, and everywhere else a
term. -/
theorem misplaced_token {scope : Option (Scope σ)} (hs : (scope.getD .empty).Honest)
    {text : String} {limits : Limits} {host : σ} {fault : Fault} {s : State σ}
    (h : run { scope, limits } text host = .error fault s) (hf : fault.isMisplaced) :
    ∃ before, s.fetched = before.length + 1 ∧
      Token.fetched limits.nameSize s.fetched (bytesOf text) = before ++ [s.token] ∧
      (∃ tree : Grammar.Sum, before <+: tree.tokens) ∧
      (∀ tree : Grammar.Sum, ¬ before ++ [s.token] <+: tree.tokens ++ [.done]) ∧
      (fault = .unexpectedCharacter ↔ ∃ tree : Grammar.Sum, tree.tokens = before) ∧
      (fault = .expectedOpenBracket ↔ ∃ name, before.getLast? = some (.name .function name)) ∧
      (fault = .expectedCloseBracket ↔
        EndsWithTerm before ∧ before.count .closeBracket < before.count .openBracket) ∧
      (fault = .expectedTerm ↔ (¬ ∃ tree : Grammar.Sum, tree.tokens = before) ∧
        (¬ ∃ name, before.getLast? = some (.name .function name)) ∧
        ¬ (EndsWithTerm before ∧ before.count .closeBracket < before.count .openBracket)) := by
  have he := run_ends { scope, limits } text host
  rw [h] at he
  cases he with
  | failed hv =>
    have hP := Fragment.start.through?_take_used limits.depth
      (Token.sequence limits.nameSize (bytesOf text)).1
      (Token.sequence limits.nameSize (bytesOf text)).2
    have hu := Fragment.failsWith_value hs hP _ _ _ hv
    cases hu.symm.trans hf
  | stopped hv hr ht =>
    obtain ⟨before, token, P, hP, hn, hd, rfl, hl, hb⟩ := fetched_of_stopped hr hf
    have hstate := State.skip_of_fetched (s := .start (bytesOf text) s.host) hb rfl
    simp only [← hl] at ht
    rw [ht] at hstate
    obtain ⟨rfl, hc⟩ := hstate
    rw [State.start, Nat.zero_add] at hc
    have h₁ := Fragment.fault_unexpectedCharacter_iff hP
    have h₂ := Fragment.fault_expectedOpenBracket_iff hP
    have h₃ := Fragment.fault_expectedCloseBracket_iff hP
    refine ⟨before, hc, by rw [hc]; exact hb, Fragment.exists_viable hP, Fragment.not_viable hP hn hd,
      h₁, h₂, h₃, ?_⟩
    rw [← h₁, ← h₂, ← h₃]
    cases hp : P.fault <;> simp [hp, Fault.isMisplaced] at hf ⊢

/-- A scope in which every name has a meaning and no callback fails. -/
def Scope.lenient : Scope Unit where
  function _ := pure (some pure)
  value _ := pure 0

theorem Scope.honest_lenient : lenient.Honest where
  value _ := .pure 0
  call _ _ _ _ h x := by
    cases h
    exact .pure x

/-- A variable behind another one is misplaced: the bracket has to be closed there. -/
theorem misplaced_variable :
    run { scope := some .lenient, limits := {} } "f($x $y" () = .error .expectedCloseBracket
        { rest := [], token := .name .variable "y", depth := 0, fetched := 4, host := () } ∧
      ∃ before, 4 = before.length + 1 ∧
        Token.fetched 32 4 (bytesOf "f($x $y") = before ++ [.name .variable "y"] ∧
        (∃ tree : Grammar.Sum, before <+: tree.tokens) ∧
        (∀ tree : Grammar.Sum, ¬ before ++ [.name .variable "y"] <+: tree.tokens ++ [.done]) ∧
        EndsWithTerm before ∧ before.count .closeBracket < before.count .openBracket := by
  have h : run { scope := some .lenient, limits := {} } "f($x $y" () =
      .error .expectedCloseBracket
        { rest := [], token := .name .variable "y", depth := 0, fetched := 4, host := () } := by
    cbv
  obtain ⟨before, hl, hb, hv, hn, -, -, hc, -⟩ :=
    @misplaced_token _ (some .lenient) Scope.honest_lenient _ _ _ _ _ h rfl
  obtain ⟨ht, ho⟩ := hc.1 rfl
  exact ⟨h, before, hl, hb, hv, hn, ht, ho⟩

end Formula
