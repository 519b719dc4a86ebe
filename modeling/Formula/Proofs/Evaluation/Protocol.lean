import Formula.Proofs.Evaluation.Correctness
import Formula.Proofs.Evaluation.Questions

/-!
# The questions of a run

Whatever a scope answers, an evaluation asks it what the text says and nothing else, and it stops
asking at the first answer that is a fault (`evaluate_protocol`).
-/

namespace Formula

open Grammar

variable {σ : Type}

/-- What the record of an evaluation shows, beside the tokens of its text and its result. -/
structure Protocol (tokens : List Token) (result : Except Fault Float) (events : List Event) :
    Prop where
  /-- The names that are looked up are those of the text, from its beginning on. -/
  names : (events.map Event.query).filterMap Query.name? <+: tokens.filterMap Token.name?
  /-- If there is a value, all names of the text have been looked up. -/
  names_of_ok : result.isOk → (events.map Event.query).filterMap Query.name? =
    tokens.filterMap Token.name?
  /-- Look-ups and calls are the front part of a sequence in which each call closes, as a bracket
  does, the look-up that its function comes from. -/
  brackets : ∃ more, unclosed 0 [] (events ++ more) = some []
  /-- If there is a value, no look-up is left open. -/
  brackets_of_ok : result.isOk → unclosed 0 [] events = some []
  /-- If there is a value, every function that was found has been called once. -/
  calls_of_ok : result.isOk → (events.filterMap Event.closing?).Perm (openings 0 events)
  /-- An answer that is a fault is the last one, and the result is this fault. -/
  failure : ∀ front event rest fault, events = front ++ event :: rest →
    event.fault? = some fault → rest = [] ∧ result = .error fault

section

variable {queries : List Query} {names : List String} {events : List Event} {tokens : List Token}
  {fault : Fault}

theorem exists_closing_of_unclosed {left : List (Nat × String)}
    (h : unclosed 0 [] events = some left) : ∃ more, unclosed 0 [] (events ++ more) = some [] := by
  obtain ⟨more, hm⟩ := exists_closing (0 + events.length) left
  refine ⟨more, ?_⟩
  rw [unclosed_append, h, Option.bind_some, hm]

/-- The record of an evaluation to a value. -/
theorem Answered.protocol_of_ok {x : Float} (h : Answered 0 queries [] events)
    (hn : queries.filterMap Query.name? = tokens.filterMap Token.name?) :
    Protocol tokens (.ok x) events := by
  obtain ⟨left, hl, hs⟩ := h.found
  obtain rfl := List.map_eq_nil_iff.1 hl
  have hu : unclosed 0 [] events = some [] := hs []
  have hq : (events.map Event.query).filterMap Query.name? = tokens.filterMap Token.name? := by
    rw [h.asked, hn]
  refine ⟨hq ▸ List.prefix_rfl, fun _ => hq, exists_closing_of_unclosed hu, fun _ => hu, ?_, ?_⟩
  · intro _
    have hp := closings_perm hu
    rwa [List.append_nil, List.append_nil] at hp
  · rintro front event rest fault rfl he
    rw [h.good event (by simp)] at he
    cases he

/-- The record of an evaluation that fails without the fault of an answer. -/
theorem Answered.protocol_of_error (h : Answered 0 queries names events)
    (hn : queries.filterMap Query.name? <+: tokens.filterMap Token.name?) :
    Protocol tokens (.error fault) events := by
  obtain ⟨left, -, hs⟩ := h.found
  refine ⟨?_, nofun, exists_closing_of_unclosed (hs []), nofun, nofun, ?_⟩
  · rwa [h.asked]
  · rintro front event rest fault rfl he
    rw [h.good event (by simp)] at he
    cases he

/-- The record of an evaluation that fails with the fault of an answer. -/
theorem Refused.protocol (h : Refused 0 queries fault events)
    (hn : queries.filterMap Query.name? <+: tokens.filterMap Token.name?) :
    Protocol tokens (.error fault) events := by
  obtain ⟨left, hu⟩ := Option.isSome_iff_exists.1 (h.found [])
  refine ⟨(h.asked.filterMap _).trans hn, nofun, exists_closing_of_unclosed hu, nofun, nofun, ?_⟩
  intro front event rest fault' hs he
  -- only the last answer is a fault, so nothing comes behind an answer that is one
  obtain ⟨good, last, rfl, hl, hg⟩ := h.last
  rcases List.eq_nil_or_concat rest with rfl | ⟨rest, final, rfl⟩
  · obtain ⟨-, hs⟩ := List.append_inj' hs rfl
    cases hs
    rw [Option.some.inj (hl.symm.trans he)]
    exact ⟨rfl, rfl⟩
  · rw [List.concat_eq_append, ← List.cons_append, ← List.append_assoc] at hs
    obtain ⟨rfl, -⟩ := List.append_inj' hs rfl
    rw [hg event (by simp)] at he
    cases he

end

/-- The names of the questions of a reading are those of the tokens, from the first one on. -/
theorem names_ofText (limits : Limits) (text : String) :
    (Reading.ofText limits text).fragment.queries.filterMap Query.name? <+:
      (Token.sequence limits.nameSize (bytesOf text)).1.filterMap Token.name? := by
  rw [Fragment.names_queries, Reading.ofText, Fragment.tokens_of_read, Fragment.tokens_start,
    List.nil_append]
  exact (List.take_prefix _ _).filterMap _

/-- **The protocol of callbacks.**  Evaluating a text with a record gives what evaluating it without
one gives, and the record shows that no look-up and no call is lost, repeated or out of order. -/
theorem evaluate_protocol (scope : Scope σ) (text : String) (limits : Limits) (host : σ) :
    ∃ result r,
      Step.outcome (evaluate (some scope.recorded) text limits) { host } = (result, r) ∧
      Step.outcome (evaluate (some scope) text limits) host = (result, r.host) ∧
      Protocol (Token.sequence limits.nameSize (bytesOf text)).1 result r.events.toList := by
  rw [evaluate_eq, evaluate_eq]
  cases hr : (Reading.ofText limits text).ending with
  | ok tree =>
    obtain ⟨ht, -⟩ := ending_eq_ok_iff.1 hr
    have hn : tree.queries.filterMap Query.name? =
        (Token.sequence limits.nameSize (bytesOf text)).1.filterMap Token.name? := by
      rw [names_sum]
      exact congrArg _ (congrArg Prod.fst ht).symm
    have h := follows_sum scope tree { host }
    simp only [Step.outcome, Option.getD_some]
    generalize tree.value scope.recorded { host } = p, tree.value scope host = q at h
    cases h with
    | ok hx h =>
      subst hx
      refine ⟨_, _, rfl, rfl, ?_⟩
      rw [Recorded.events_extend_start]
      exact h.protocol_of_ok hn
    | error h =>
      refine ⟨_, _, rfl, rfl, ?_⟩
      rw [Recorded.events_extend_start]
      exact h.protocol (hn ▸ List.prefix_rfl)
  | error fault =>
    have hn := names_ofText limits text
    have h := (Reading.ofText limits text).fragment.follows_value scope { host }
    simp only [Step.outcome, Option.getD_some]
    generalize hp : (Reading.ofText limits text).fragment.value scope.recorded { host } = p,
      hq : (Reading.ofText limits text).fragment.value scope host = q at h
    cases h with
    | ok hx h =>
      rw [Step.bind_of_ok hp, Step.bind_of_ok hq]
      refine ⟨_, _, rfl, rfl, ?_⟩
      rw [Recorded.events_extend_start]
      exact h.protocol_of_error hn
    | error h =>
      rw [Step.bind_of_error hp, Step.bind_of_error hq]
      refine ⟨_, _, rfl, rfl, ?_⟩
      rw [Recorded.events_extend_start]
      exact h.protocol hn

end Formula
