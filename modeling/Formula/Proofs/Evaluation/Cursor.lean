import Mathlib
import Formula.Proofs.Evaluation.Record
import Formula.Proofs.Token.Locality

/-!
# Evaluations do not read ahead

An evaluation reads a token only when the one before it is used, and reading a token looks at no
byte behind the one that ends it.  So the course of a run depends on the bytes that it has stepped
over, and on the one byte behind them, and on nothing that comes later (`evaluate_local`).

* `LocalAt` — an evaluation that does not read ahead from a state on; steps in a row do not either
  if each of them does not (`LocalAt.bind`).
* `localAt_resume` — whatever is pending, the rest of an evaluation is such a one.
* `Setting.Confuses` — two texts that a host cannot tell apart.
-/

namespace Formula

open Evaluation

variable {σ α β : Type}

/-- The state with other bytes behind the token held. -/
def State.withRest (s : State σ) (rest : List UInt8) : State σ :=
  { s with rest }

/-- The end of an evaluation with other bytes left. -/
def leaving (r : EStateM.Result Fault (State σ) α) (rest : List UInt8) :
    EStateM.Result Fault (State σ) α :=
  match r with
  | .ok a t => .ok a (t.withRest rest)
  | .error fault t => .error fault (t.withRest rest)

namespace Evaluation

/-- From this state the evaluation steps over bytes other than NUL, and it ends alike on all texts
that go on behind these bytes with the same byte. -/
def LocalAt (p : Evaluation σ α) (s : State σ) : Prop :=
  ∃ front rest, s.rest = front ++ rest ∧ 0 ∉ front ∧
    ∀ rest', peek rest = peek rest' →
      p (s.withRest (front ++ rest')) = leaving (p s) rest'

theorem LocalAt.of_const {p : Evaluation σ α} {s : State σ}
    (h : ∀ rest, p (s.withRest rest) = leaving (p s) rest) : LocalAt p s :=
  ⟨[], s.rest, rfl, List.not_mem_nil, fun rest' _ => h rest'⟩

/-- An evaluation does not read ahead where it is one that does not. -/
theorem LocalAt.congr {p q : Evaluation σ α} {s : State σ} (h : LocalAt q s)
    (hp : ∀ rest, p (s.withRest rest) = q (s.withRest rest)) : LocalAt p s := by
  obtain ⟨front, rest, hs, h0, hq⟩ := h
  have he : p s = q s := hp s.rest
  exact ⟨front, rest, hs, h0, fun rest' hr => by rw [hp, hq rest' hr, he]⟩

theorem LocalAt.bind {p : Evaluation σ α} {f : α → Evaluation σ β} {s : State σ}
    (hp : LocalAt p s) (hf : ∀ a t, p s = .ok a t → LocalAt (f a) t) : LocalAt (p >>= f) s := by
  obtain ⟨front, mid, hs, h0, h⟩ := hp
  have hmid : p s = leaving (p s) mid := by
    rw [← h mid rfl, ← hs]
    rfl
  cases hps : p s with
  | error fault t =>
    rw [hps] at h
    refine ⟨front, mid, hs, h0, fun rest' hr => ?_⟩
    rw [Step.bind_of_error (h rest' hr), Step.bind_of_error hps]
    rfl
  | ok a t =>
    rw [hps] at h hmid
    obtain rfl : t.rest = mid := congrArg State.rest (EStateM.Result.ok.inj hmid).2
    obtain ⟨front₂, rest, ht, h0₂, h₂⟩ := hf a t hps
    refine ⟨front ++ front₂, rest, by rw [List.append_assoc, ← ht, hs], ?_, fun rest' hr => ?_⟩
    · rw [List.mem_append, not_or]
      exact ⟨h0, h0₂⟩
    · have hp' := h (front₂ ++ rest') (by rw [ht]; exact Scan.alike_peek_append hr front₂)
      rw [List.append_assoc, Step.bind_of_ok hp', Step.bind_of_ok hps]
      exact h₂ rest' hr

theorem localAt_onHost (action : Step σ α) (s : State σ) : LocalAt (onHost action) s := by
  refine .of_const fun rest => ?_
  cases h : action s.host with
  | ok a u =>
    rw [onHost, Step.onPart_of_ok (s := s) h]
    exact Step.onPart_of_ok (s := s.withRest rest) h
  | error fault u =>
    rw [onHost, Step.onPart_of_error (s := s) h]
    exact Step.onPart_of_error (s := s.withRest rest) h

theorem localAt_advance (nameSize : Nat) (s : State σ) : LocalAt (advance nameSize) s := by
  obtain ⟨front, rest, hs, h0, h⟩ := Token.local_next nameSize s.rest
  refine ⟨front, rest, hs, h0, fun rest' hr => ?_⟩
  have h' := h rest' hr
  unfold advance
  cases hn : Token.next nameSize s.rest with
  | ok token mid =>
    rw [Step.outcome_of_ok hn, Step.outcome_eq_ok] at h'
    simp only [State.withRest, h', leaving]
  | error fault mid =>
    rw [Step.outcome_of_error hn, Step.outcome_eq_error] at h'
    simp only [State.withRest, h', leaving]

/-- Whatever is pending, the rest of an evaluation does not read ahead. -/
theorem localAt_resume {env : Setting σ} {pending : Pending σ} {s : State σ} (hs : s.depth = 0) :
    LocalAt (pending.resume env) s := by
  induction hn : s.ahead using Nat.strongRecOn generalizing pending s with
  | ind n ih =>
    subst hn
    by_cases hle : env.limits.depth ≤ pending.outer.length
    · have hd (t : State σ) : pending.resume env t = .error .stackOverflow t := if_pos hle
      exact .of_const fun rest => by rw [hd, hd]; rfl
    have hlt := Nat.not_le.1 hle
    by_cases hend : s.token = .done ∧ pending.total?.isSome
    · obtain ⟨ht, hx⟩ := hend
      obtain ⟨x, hx⟩ := Option.isSome_iff_exists.1 hx
      exact (localAt_onHost (pure x) s).congr fun rest => resume_total hs hlt ht hx
    have hf : s.token = .done → pending.total? = none := by
      intro ht
      simpa [ht] using hend
    have hstep : LocalAt (Pending.proceed env (pending.step env s.token)) s := by
      refine (localAt_onHost _ s).bind fun next t hnext => ?_
      refine (localAt_advance _ t).bind fun _ u hu => ?_
      obtain ⟨host, hhost, rfl⟩ := Step.onPart_eq_ok.1 hnext
      have hlt := ahead_lt_of_advance (s := { s with host }) (ne_done_of_step hhost) hu
      exact ih u.ahead hlt ((depth_of_advance hu).trans hs) rfl
    exact hstep.congr fun rest => resume_step hs hlt hf

/-- A run steps over bytes other than NUL, and it ends alike on all texts that go on behind these
bytes with the same byte. -/
theorem localAt_run (env : Setting σ) (text : String) (host : σ) :
    ∃ front rest, bytesOf text = front ++ rest ∧ 0 ∉ front ∧
      ∀ other rest', bytesOf other = front ++ rest' → peek rest = peek rest' →
        run env other host = leaving (run env text host) rest' := by
  have hstart : LocalAt (advance env.limits.nameSize >>= fun _ => Pending.start.resume env)
      (.start (bytesOf text) host) :=
    (localAt_advance _ _).bind fun _ _ h => localAt_resume (depth_of_advance h)
  obtain ⟨front, rest, hs, h0, h⟩ := hstart
  refine ⟨front, rest, hs, h0, fun other rest' ho hr => ?_⟩
  rw [run_eq_resume, run_eq_resume, ho]
  exact h rest' hr

end Evaluation

@[simp]
theorem rest_leaving (r : EStateM.Result Fault (State σ) Float) (rest : List UInt8) :
    (finalState (leaving r rest)).rest = rest := by
  cases r <;> rfl

@[simp]
theorem host_leaving (r : EStateM.Result Fault (State σ) Float) (rest : List UInt8) :
    (finalState (leaving r rest)).host = (finalState r).host := by
  cases r <;> rfl

/-! ## What a host can tell of a text -/

/-- How many bytes of a text a run has stepped over when it ends. -/
def Setting.cursor (env : Setting σ) (text : String) (host : σ) : Nat :=
  (bytesOf text).length - (finalState (run env text host)).rest.length

/-- The byte at a position of a text; the end of the text reads as NUL. -/
def byteAt (text : String) (i : Nat) : UInt8 :=
  (bytesOf text).getD i 0

/-- A host cannot tell two texts apart. -/
structure Setting.Confuses (env : Setting σ) (host : σ) (text other : String) : Prop where
  /-- The results are the same, and so are the data in the end. -/
  result : evaluate env.scope other env.limits host = evaluate env.scope text env.limits host
  /-- The same is asked and answered. -/
  events : env.events other host = env.events text host
  /-- The texts are read as far as one another. -/
  cursor : env.cursor other host = env.cursor text host

/-- A text that agrees with another one up to and with the byte behind a front part without NUL
begins with this part and goes on with this byte. -/
theorem exists_rest {front rest bytes : List UInt8} (h0 : 0 ∉ front)
    (h : ∀ i ≤ front.length, bytes.getD i 0 = (front ++ rest).getD i 0) :
    ∃ rest', bytes = front ++ rest' ∧ peek rest = peek rest' := by
  induction front generalizing bytes with
  | nil =>
    refine ⟨bytes, rfl, ?_⟩
    have hb := h 0 (Nat.le_refl 0)
    cases bytes <;> cases rest <;> exact hb.symm
  | cons b front ih =>
    rw [List.mem_cons, not_or] at h0
    have hb := h 0 (Nat.zero_le _)
    cases bytes with
    | nil => exact absurd hb h0.1
    | cons c bytes =>
      obtain rfl : c = b := hb
      obtain ⟨rest', rfl, hr⟩ := ih h0.2 fun i hi => h (i + 1) (Nat.succ_le_succ hi)
      exact ⟨rest', rfl, hr⟩

theorem evaluate_of_leaving {env : Setting σ} {text other : String} {host : σ}
    {rest : List UInt8} (h : run env other host = leaving (run env text host) rest) :
    evaluate env.scope other env.limits host = evaluate env.scope text env.limits host := by
  unfold evaluate
  rw [h]
  cases run env text host <;> rfl

/-- Where a run ends, with a record or without. -/
theorem exists_front (env : Setting σ) (text : String) (host : σ) :
    ∃ front rest, bytesOf text = front ++ rest ∧ 0 ∉ front ∧
      env.cursor text host = front.length ∧
      ∀ other rest', bytesOf other = front ++ rest' → peek rest = peek rest' →
        env.Confuses host text other := by
  obtain ⟨front, rest, ht, h0, h⟩ := localAt_run env text host
  obtain ⟨front', rest', ht', -, h'⟩ := localAt_run env.recorded text { host }
  have hr : (finalState (run env text host)).rest = rest := by
    rw [h text rest ht rfl, rest_leaving]
  have hc : env.cursor text host = front.length := by
    rw [Setting.cursor, hr, ht, List.length_append, Nat.add_sub_cancel]
  -- the run with the record ends at the same place
  obtain rfl : rest' = rest := by
    rw [← hr, ← rest_recorded, h' text rest' ht' rfl, rest_leaving]
  obtain rfl : front' = front := List.append_cancel_right (ht'.symm.trans ht)
  refine ⟨front', rest', ht, h0, hc, fun other more ho hp => ⟨?_, ?_, ?_⟩⟩
  · exact evaluate_of_leaving (h other more ho hp)
  · rw [Setting.events, Setting.events, h' other more ho hp, host_leaving]
  · rw [hc, Setting.cursor, h other more ho hp, rest_leaving, ho, List.length_append,
      Nat.add_sub_cancel]

/-- **No reading ahead.**  A run has stepped over no NUL, and the result, all that is asked and
answered, the data in the end and how far the text is read depend on the bytes that the run has
stepped over and on the one byte behind them.  So a NUL ends a text as its end does. -/
theorem evaluate_local (env : Setting σ) (text : String) (host : σ) :
    env.cursor text host ≤ (bytesOf text).length ∧
      (∀ i < env.cursor text host, byteAt text i ≠ 0) ∧
      (∀ other, (∀ i ≤ env.cursor text host, byteAt other i = byteAt text i) →
        env.Confuses host text other) ∧
      ∀ more, env.Confuses host text (text ++ "\x00" ++ more) := by
  obtain ⟨front, rest, ht, h0, hc, h⟩ := exists_front env text host
  have hagree (other : String) (ho : ∀ i ≤ front.length, byteAt other i = byteAt text i) :
      env.Confuses host text other := by
    unfold byteAt at ho
    rw [ht] at ho
    obtain ⟨rest', ho, hr⟩ := exists_rest h0 ho
    exact h other rest' ho hr
  rw [hc]
  refine ⟨by simp [ht], ?_, hagree, ?_⟩
  · intro i hi
    rw [byteAt, ht, List.getD_append _ _ _ _ hi, List.getD_eq_getElem _ _ hi]
    exact fun h => h0 (h ▸ List.getElem_mem hi)
  · intro more
    refine hagree _ fun i hi => ?_
    have hb : bytesOf (text ++ "\x00" ++ more) = bytesOf text ++ 0 :: bytesOf more := by
      have hz : bytesOf "\x00" = [0] := rfl
      simp [bytesOf_append, hz]
    rw [byteAt, byteAt, hb]
    by_cases hl : i < (bytesOf text).length
    · rw [List.getD_append _ _ _ _ hl]
    · -- the front part is the whole text
      obtain rfl : i = (bytesOf text).length := by
        rw [ht, List.length_append] at hl ⊢
        omega
      simp

/-- A bracket behind a whole formula is unexpected, whatever comes behind the next byte. -/
theorem confuses_behind_bracket :
    let scope : Scope Unit := .layer (fun _ => none) (fun _ => some 3) .empty
    let env : Setting Unit := { scope := some scope, limits := {} }
    env.cursor "$x)ab" () = 3 ∧ evaluate env.scope "$x)ab" env.limits () =
      .error .unexpectedCharacter () ∧ env.Confuses () "$x)ab" "$x)a((" := by
  intro scope env
  have hc : env.cursor "$x)ab" () = 3 := by cbv
  refine ⟨hc, by cbv, (evaluate_local env "$x)ab" ()).2.2.1 "$x)a((" ?_⟩
  intro i hi
  rw [hc] at hi
  interval_cases i <;> rfl

end Formula
