import Formula.Proofs.Grammar.Reading
import Formula.Proofs.Grammar.Viable
import Formula.Proofs.Token.Limits

/-!
# Readings within limits

Greater limits do not change what is read of a text up to where a smaller limit has stopped the
reading, and they change nothing if no limit has (`ofText_within`).  No limit stops the reading of a
text for which there is room enough (`ofText_fits`).
-/

namespace Formula

/-- Is it a fault of a limit? -/
def Fault.isOfLimits : Fault → Bool
  | stackOverflow | nameTooLong => true
  | _ => false

namespace Grammar

/-- A reading is as another one, or a limit has stopped it within what the other one reads. -/
inductive Reading.Within (R R' : Reading) : Prop
  | same (hf : R.fragment = R'.fragment) (he : R.ending = R'.ending)
  | stopped {fault : Fault} {more : List Token} (he : R.ending = .error fault)
    (hl : fault.isOfLimits) (hf : R.fragment.through? more = some R'.fragment)

/-- What has been read is the front part of what the other reading reads. -/
theorem Reading.Within.exists_more {R R' : Reading} (h : R.Within R') :
    ∃ more, R.fragment.through? more = some R'.fragment := by
  cases h with
  | same hf he => exact ⟨[], congrArg some hf⟩
  | stopped he hl hf => exact ⟨_, hf⟩

namespace Fragment

variable {depth depth' : Nat} {P Q : Fragment} {token : Token} {tokens : List Token}
  {fault : Option Fault}

/-- What is stopped at once by a limit is stopped within what can be read from there. -/
theorem within_stopped {stopped : Fault} (hl : stopped.isOfLimits) (used : Nat) (depth' : Nat)
    (tokens' : List Token) (fault' : Option Fault) :
    Reading.Within { fragment := P, used, ending := .error stopped }
      (P.read depth' tokens' fault') :=
  .stopped rfl hl (P.through?_take_used depth' tokens' fault')

/-- Where more brackets may be open, a whole formula ends the same or a limit has been met. -/
theorem within_finish (hd : depth ≤ depth') (P : Fragment) (fault : Option Fault) :
    (P.read depth [] fault).Within (P.read depth' [] fault) := by
  cases fault with
  | some fault => exact .same rfl rfl
  | none =>
    by_cases hlt : P.outer.length < depth
    · refine .same rfl ?_
      have hlt' := Nat.lt_of_lt_of_le hlt hd
      simp only [read, finish, if_pos hlt, if_pos hlt', stop_of_lt hlt, stop_of_lt hlt']
    · rw [read, finish_none_of_le (Nat.not_lt.1 hlt)]
      exact within_stopped rfl 0 depth' [] none

/-- Fewer open brackets and less room for names only stop a reading. -/
theorem within_read (hd : depth ≤ depth') {tokens' : List Token} {fault' : Option Fault}
    (ht : Token.CutShort (tokens, fault) (tokens', fault')) (P : Fragment) :
    (P.read depth tokens fault).Within (P.read depth' tokens' fault') := by
  induction tokens generalizing P tokens' with
  | nil =>
    cases ht with
    | same => exact within_finish hd P fault
    | nameTooLong => exact within_stopped rfl 0 depth' _ fault'
  | cons token tokens ih =>
    obtain ⟨more, _, hs, ht⟩ := ht.of_cons
    cases hs
    by_cases hlt : P.outer.length < depth
    · have hlt' := Nat.lt_of_lt_of_le hlt hd
      cases hn : P.next? token with
      | none =>
        have hg (d : Nat) : P.grow? d token = none := by rw [grow?, hn, ite_self]
        rw [read_cons_none (hg depth), read_cons_none (hg depth'), stop_of_lt hlt, stop_of_lt hlt']
        exact .same rfl rfl
      | some Q =>
        rw [read_cons_some (grow?_eq_some.2 ⟨hlt, hn⟩), read_cons_some (grow?_eq_some.2 ⟨hlt', hn⟩)]
        cases ih ht Q with
        | same hf he => exact .same hf he
        | stopped he hl hf => exact .stopped he hl hf
    · rw [read_cons_none (if_neg hlt), stop_of_le (Nat.not_lt.1 hlt)]
      exact within_stopped rfl 0 depth' _ fault'

end Fragment

/-- Greater limits change nothing, or go on where a smaller one has stopped the reading. -/
theorem ofText_within {low high : Limits} (hn : low.nameSize ≤ high.nameSize)
    (hd : low.depth ≤ high.depth) (text : String) :
    (Reading.ofText low text).Within (Reading.ofText high text) :=
  Fragment.within_read hd (Token.sequence_of_le hn (bytesOf text)) .start

/-! ## Room enough -/

/-- What is wrong with a misplaced token has nothing to do with limits. -/
theorem Fragment.isOfLimits_fault (P : Fragment) : P.fault.isOfLimits = false := by
  match P with
  | ⟨.operand _, _⟩ => rfl
  | ⟨.opening _ _, _⟩ => rfl
  | ⟨.operator _ _, []⟩ => rfl
  | ⟨.operator _ _, _ :: _⟩ => rfl

/-- The limit on open brackets stops a reading only where there are as many open ones. -/
theorem Fragment.depth_le_of_read {depth : Nat} {P : Fragment} {tokens : List Token}
    {fault : Option Fault} (hf : fault ≠ some .stackOverflow)
    (h : (P.read depth tokens fault).ending = .error .stackOverflow) :
    depth ≤ (P.read depth tokens fault).fragment.outer.length := by
  have hstop {P : Fragment} (h : P.stop depth = .stackOverflow) : depth ≤ P.outer.length := by
    refine Nat.le_of_not_lt fun hlt => ?_
    have hl := P.isOfLimits_fault
    rw [← stop_of_lt hlt, h] at hl
    cases hl
  induction tokens generalizing P with
  | nil =>
    cases fault with
    | some fault => cases h; exact absurd rfl hf
    | none =>
      simp only [read, finish] at h
      split at h
      · cases h
      · exact hstop (Except.error.inj h)
  | cons token tokens ih =>
    cases hg : P.grow? depth token with
    | none =>
      rw [read_cons_none hg] at h ⊢
      exact hstop (Except.error.inj h)
    | some Q =>
      rw [read_cons_some hg] at h ⊢
      exact ih h

/-- No limit stops the reading of a text that has fewer brackets than may be open, and fewer bytes
than there is room for in a name. -/
theorem ofText_fits {limits : Limits} {text : String}
    (hd : (bytesOf text).count 0x28 < limits.depth) (hn : (bytesOf text).length < limits.nameSize)
    {fault : Fault} (h : (Reading.ofText limits text).ending = .error fault) :
    fault.isOfLimits = false := by
  have hname := Token.fault_ne_nameTooLong hn
  have hcount := Token.count_openBracket_le limits.nameSize (bytesOf text)
  have hdone := Token.done_not_mem_sequence limits.nameSize (bytesOf text)
  have hlexical (fault : Fault) := @Token.lexical_of_sequence limits.nameSize (bytesOf text) fault
  unfold Reading.ofText at h
  generalize Token.sequence limits.nameSize (bytesOf text) = tokens at h hname hcount hdone hlexical
  rcases Fragment.stopped_of_read hdone h with hf | rfl | ⟨token, -, -, -, rfl⟩
  · have := hlexical fault hf
    cases fault with
    | nameTooLong => exact absurd hf hname
    | stackOverflow => cases this
    | _ => rfl
  · -- as many brackets are open as there are in the text at most
    have hdepth := Fragment.depth_le_of_read (fun hf => nomatch hlexical _ hf) h
    have hopen := Fragment.count_of_through?
      (Fragment.start.through?_take_used limits.depth tokens.1 tokens.2)
    have htake := ((List.take_sublist (Fragment.start.read limits.depth tokens.1 tokens.2).used
      tokens.1).count_le .openBracket)
    rw [show Fragment.start.outer.length = 0 from rfl] at hopen
    omega
  · exact Fragment.isOfLimits_fault _

end Grammar

end Formula
