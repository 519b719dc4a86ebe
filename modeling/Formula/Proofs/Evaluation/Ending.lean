import Formula.Proofs.Evaluation.Fragment
import Formula.Proofs.Token.Sequence

/-!
# How an evaluation ends

An evaluation reads its text from left to right, and how far it comes is a matter of the tokens
alone: it is the reading of the text.  What the callbacks answer enters in two ways only, into the
value and into whether one of them fails before the reading ends (`run_ends`).
-/

namespace Formula

open Evaluation Grammar

variable {σ : Type}

/-- The state behind one more reading of a token, whether or not it succeeds. -/
def State.fetch (nameSize : Nat) (s : State σ) : State σ :=
  match advance nameSize s with
  | .ok _ t => t
  | .error _ t => t

/-- The state behind several readings of a token. -/
def State.skip (nameSize : Nat) : Nat → State σ → State σ
  | 0, s => s
  | n + 1, s => skip nameSize n (s.fetch nameSize)

theorem State.rest_fetch (nameSize : Nat) (s : State σ) :
    (s.fetch nameSize).rest = match Token.next nameSize s.rest with
      | .ok _ rest => rest
      | .error _ rest => rest := by
  unfold fetch advance
  cases Token.next nameSize s.rest <;> rfl

/-- How far the text is read has nothing to do with the data of the host. -/
theorem State.rest_skip_congr {τ : Type} (nameSize n : Nat) {s : State σ} {t : State τ}
    (h : s.rest = t.rest) : (s.skip nameSize n).rest = (t.skip nameSize n).rest := by
  induction n generalizing s t with
  | zero => exact h
  | succ n ih =>
    refine ih ?_
    rw [rest_fetch, rest_fetch, h]

/-- The ways in which a run can end that has been read as given.  `reached` is the state where the
reading ends, by the data of the host. -/
inductive Ends (scope : Scope σ) (host : σ) (R : Reading) (reached : σ → State σ) :
    EStateM.Result Fault (State σ) Float → Prop
  /-- A callback fails. -/
  | failed {fault : Fault} {t : State σ} (h : R.fragment.value scope host = .error fault t.host) :
    Ends scope host R reached (.error fault t)
  /-- No callback fails, and the reading stops. -/
  | stopped {fault : Fault} {pending : Pending σ} {t : State σ}
    (h : R.fragment.value scope host = .ok pending t.host) (hr : R.ending = .error fault)
    (ht : reached t.host = t) : Ends scope host R reached (.error fault t)
  /-- No callback fails, and a whole formula has been read. -/
  | finished {tree : Grammar.Sum} {pending : Pending σ} {x : Float} {t : State σ}
    (h : R.fragment.value scope host = .ok pending t.host) (hr : R.ending = .ok tree)
    (hx : tree.value scope host = .ok x t.host) (ht : reached t.host = t) :
    Ends scope host R reached (.ok x t)

/-- The end of a run that has been read one token more. -/
theorem Ends.cons {scope : Scope σ} {host : σ} {R : Reading} {reached : σ → State σ}
    {r : EStateM.Result Fault (State σ) Float} (h : Ends scope host R reached r) :
    Ends scope host { R with used := R.used + 1 } reached r := by
  cases h with
  | failed h => exact .failed h
  | stopped h hr ht => exact .stopped h hr ht
  | finished h hr hx ht => exact .finished h hr hx ht

namespace Grammar.Fragment

/-- A callback that fails within a fragment fails within every fragment read from it. -/
theorem value_error_of_through? (env : Setting σ) {P Q : Fragment} {tokens : List Token}
    {host u : σ} {fault : Fault} (h : P.through? tokens = some Q)
    (hv : P.value env.names host = .error fault u) :
    Q.value env.names host = .error fault u := by
  induction tokens generalizing P with
  | nil =>
    cases h
    exact hv
  | cons token tokens ih =>
    rw [through?_cons] at h
    obtain ⟨R, hR, hQ⟩ := Option.bind_eq_some_iff.1 h
    refine ih hQ ?_
    rw [← value_of_next? hR]
    exact Step.bind_of_error hv

/-- What fails in a fragment fails in what is read from it on. -/
theorem value_of_read_error {env : Setting σ} {host u : σ} {fault : Fault} {P : Fragment}
    {depth : Nat} {tokens : List Token} {ending : Option Fault}
    (h : P.value env.names host = .error fault u) :
    (P.read depth tokens ending).fragment.value env.names host = .error fault u :=
  value_error_of_through? env (P.through?_take_used depth tokens ending) h

/-- A whole formula is evaluated by evaluating the fragment that it has been read to. -/
theorem value_of_tree? {scope : Scope σ} {P : Fragment} {tree : Sum} (ht : P.tree? = some tree) :
    tree.value scope = P.value scope >>= fun pending => pure (pending.total?.getD 0) := by
  match P, ht with
  | ⟨.operator sum product, []⟩, rfl =>
    simp [Fragment.value, valueOuter, Sum.value_join, Pending.total?]

/-- A whole formula has the value that is pending behind it. -/
theorem total_of_tree? {scope : Scope σ} {P : Fragment} {tree : Sum} {pending : Pending σ}
    {host u : σ} (ht : P.tree? = some tree) (h : P.value scope host = .ok pending u) :
    ∃ x, pending.total? = some x ∧ tree.value scope host = .ok x u := by
  rw [value_of_tree? ht, Step.bind_of_ok h]
  match P, ht with
  | ⟨.operator sum product, []⟩, rfl =>
    obtain ⟨outer, u₁, ho, h⟩ := Step.bind_eq_ok.1 h
    cases ho
    obtain ⟨stage, u₂, hs, h⟩ := Step.bind_eq_ok.1 h
    cases h
    obtain ⟨held, u₃, -, hs⟩ := Step.bind_eq_ok.1 hs
    obtain ⟨x, u₄, -, hs⟩ := Step.bind_eq_ok.1 hs
    cases hs
    exact ⟨_, rfl, rfl⟩

theorem total_of_tree?_none {scope : Scope σ} {P : Fragment} {pending : Pending σ} {host u : σ}
    (ht : P.tree? = none) (h : P.value scope host = .ok pending u) : pending.total? = none := by
  have hl := length_of_value h
  obtain ⟨place, outer⟩ := P
  obtain ⟨around, u₁, ho, h⟩ := Step.bind_eq_ok.1 h
  obtain ⟨stage, u₂, hs, h⟩ := Step.bind_eq_ok.1 h
  cases h
  cases place with
  | operand level =>
    obtain ⟨held, u₃, -, hs⟩ := Step.bind_eq_ok.1 hs
    cases hs
    rfl
  | opening level function =>
    obtain ⟨held, u₃, -, hs⟩ := Step.bind_eq_ok.1 hs
    obtain ⟨callback, u₄, -, hs⟩ := Step.bind_eq_ok.1 hs
    cases hs
    rfl
  | operator sum product =>
    cases outer with
    | nil => cases ht
    | cons frame outer =>
      obtain ⟨held, u₃, -, hs⟩ := Step.bind_eq_ok.1 hs
      obtain ⟨x, u₄, -, hs⟩ := Step.bind_eq_ok.1 hs
      cases hs
      cases around with
      | nil => cases hl
      | cons => rfl

end Grammar.Fragment

/-! ## A run follows its reading -/

section Advance

variable {nameSize : Nat} {s : State σ} {rest : List UInt8}

/-- A token that can be read is held next, and nothing but the text and the token has changed.  The
host's data have no part in it. -/
theorem advance_of_ok {token : Token} (h : Token.next nameSize s.rest = .ok token rest) :
    ∃ t, advance nameSize s = .ok () t ∧ t.rest = rest ∧ t.token = token ∧ t.depth = s.depth ∧
      t.host = s.host ∧ ∀ u : σ, State.fetch nameSize { s with host := u } = { t with host := u } := by
  refine ⟨{ s with rest, token, fetched := s.fetched + 1 }, ?_, rfl, rfl, rfl, rfl, ?_⟩
  · rw [advance, h]
  · intro u
    simp only [State.fetch, advance, h]

theorem advance_of_error {fault : Fault} (h : Token.next nameSize s.rest = .error fault rest) :
    ∃ t, advance nameSize s = .error fault t ∧ t.host = s.host ∧
      ∀ u : σ, State.fetch nameSize { s with host := u } = { t with host := u } := by
  refine ⟨{ s with rest, fetched := s.fetched + 1 }, ?_, rfl, ?_⟩
  · rw [advance, h]
  · intro u
    simp only [State.fetch, advance, h]

end Advance

variable {env : Setting σ} {host : σ}

/-- Where a token cannot stand, or stands too deep, the evaluation fails as the reading does. -/
theorem resume_of_blocked {P : Fragment} {pending : Pending σ} {s : State σ} (hd : s.depth = 0)
    (hP : P.value env.names host = .ok pending s.host)
    (hg : P.grow? env.limits.depth s.token = none)
    (hf : s.token = .done → P.outer.length < env.limits.depth → P.tree? = none) :
    pending.resume env s = .error (P.stop env.limits.depth) s := by
  have hl := Fragment.length_of_value hP
  by_cases hle : env.limits.depth ≤ P.outer.length
  · rw [Fragment.stop_of_le hle, Pending.resume, if_pos (by rwa [hl])]
  · have hlt := Nat.not_le.1 hle
    have hn : P.next? s.token = none := by rwa [Fragment.grow?, if_pos hlt] at hg
    have hstep : pending.step env s.token s.host = .error P.fault s.host := by
      rw [← Step.bind_of_ok (f := fun pending => pending.step env s.token) hP,
        Fragment.value_of_blocked hn, Step.bind_of_ok hP]
      rfl
    rw [Fragment.stop_of_lt hlt, resume_step hd (by rwa [hl])
      fun ht => Fragment.total_of_tree?_none (hf ht hlt) hP]
    exact proceed_of_error hstep

/-- A run from pending operations on ends as the reading from their fragment on says. -/
theorem advance_resume_ends {tokens : List Token} {fault : Option Fault} {P : Fragment}
    {pending : Pending σ} {s : State σ} (hd : s.depth = 0)
    (hs : Token.sequence env.limits.nameSize s.rest = (tokens, fault))
    (hP : P.value env.names host = .ok pending s.host) :
    Ends env.names host (P.read env.limits.depth tokens fault)
      (fun u => State.skip env.limits.nameSize
        ((P.read env.limits.depth tokens fault).used + 1) { s with host := u })
      ((advance env.limits.nameSize >>= fun _ => pending.resume env) s) := by
  induction tokens generalizing P pending s with
  | nil =>
    cases fault with
    | some fault =>
      obtain ⟨rest, hn⟩ := Token.next_of_sequence_fault hs
      obtain ⟨t, ha, hh, hf⟩ := advance_of_error hn
      rw [← hh] at hP
      rw [Step.bind_of_error ha]
      exact .stopped hP rfl (hf _)
    | none =>
      obtain ⟨rest, hn⟩ := Token.next_of_sequence_nil hs
      obtain ⟨t, ha, -, htoken, hdt, hh, hf⟩ := advance_of_ok hn
      rw [hd] at hdt
      rw [← hh] at hP
      -- the end is held: it ends a whole formula, or it is misplaced, or too many brackets are open
      have hg : P.grow? env.limits.depth t.token = none := by
        rw [htoken, Fragment.grow?, Fragment.next?_done, ite_self]
      rw [Step.bind_of_ok ha]
      by_cases hlt : P.outer.length < env.limits.depth
      · cases ht : P.tree? with
        | none =>
          rw [resume_of_blocked hdt hP hg fun _ _ => ht, Fragment.stop_of_lt hlt]
          exact .stopped hP (Fragment.finish_none_of_tree? hlt ht) (hf _)
        | some tree =>
          obtain ⟨x, hx, hv⟩ := Fragment.total_of_tree? ht hP
          rw [resume_total hdt (by rwa [Fragment.length_of_value hP]) htoken hx]
          exact .finished hP (Fragment.finish_eq_ok.2 ⟨rfl, hlt, ht⟩) hv (hf _)
      · have hle := Nat.not_lt.1 hlt
        rw [resume_of_blocked hdt hP hg fun _ h => absurd h hlt, Fragment.stop_of_le hle]
        exact .stopped hP (Fragment.finish_none_of_le hle) (hf _)
  | cons token tokens ih =>
    obtain ⟨rest, hn, ht, hs⟩ := Token.next_of_sequence_cons hs
    obtain ⟨t, ha, hrest, htoken, hdt, hh, hf⟩ := advance_of_ok hn
    rw [hd] at hdt
    rw [← hh] at hP
    rw [← htoken] at ht
    rw [Step.bind_of_ok ha]
    cases hg : P.grow? env.limits.depth token with
    | none =>
      rw [Fragment.read_cons_none hg,
        resume_of_blocked hdt hP (by rwa [htoken]) fun h => absurd h ht]
      exact .stopped hP rfl (hf _)
    | some Q =>
      obtain ⟨hlt, hQ⟩ := Fragment.grow?_eq_some.1 hg
      -- the step of the token is what the fragment with the token does beyond the one without it
      have hstep : pending.step env t.token t.host = Q.value env.names host := by
        rw [← Fragment.value_of_next? hQ, Step.bind_of_ok hP, htoken]
      rw [Fragment.read_cons_some hg, resume_step hdt (by rwa [Fragment.length_of_value hP])
        fun h => absurd h ht]
      refine Ends.cons ?_
      cases hv : Q.value env.names host with
      | error fault u =>
        rw [proceed_of_error (hstep.trans hv)]
        exact .failed (Fragment.value_of_read_error hv)
      | ok pending u =>
        rw [proceed_of_ok (hstep.trans hv)]
        simp only [State.skip, hf]
        exact @ih Q pending { t with host := u } hdt (hrest ▸ hs) hv

/-- A run reads the first token and resumes with no operation pending. -/
theorem run_eq_resume (env : Setting σ) (text : String) (host : σ) :
    run env text host = (advance env.limits.nameSize >>= fun _ => Pending.start.resume env)
      (.start (bytesOf text) host) := by
  rw [run, formula]
  cases ha : advance env.limits.nameSize (.start (bytesOf text) host) with
  | error fault t => rw [Step.bind_of_error ha, Step.bind_of_error ha]
  | ok _ t =>
    rw [Step.bind_of_ok ha, Step.bind_of_ok ha]
    exact expression_finish (depth_of_advance ha)

/-- A run ends with a failing callback, or where the reading of its text ends and as it does
there. -/
theorem run_ends (env : Setting σ) (text : String) (host : σ) :
    Ends env.names host (.ofText env.limits text)
      (fun u => State.skip env.limits.nameSize ((Reading.ofText env.limits text).used + 1)
        (.start (bytesOf text) u)) (run env text host) := by
  rw [run_eq_resume]
  exact advance_resume_ends (P := .start) (s := .start (bytesOf text) host) rfl rfl rfl

end Formula
