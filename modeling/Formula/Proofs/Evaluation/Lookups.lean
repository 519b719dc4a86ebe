import Formula.Proofs.Evaluation.Protocol
import Formula.Proofs.Evaluation.Record

/-!
# How often variables are looked up

An evaluation looks up no more variables than its text has, and exactly as many if it gives a value
(`lookups_le`, `lookups_eq`).  Variables are names of their kind, and names are looked up in the
order of the text, so this is counting in a list and in a front part of it.
-/

namespace Formula

open Grammar

/-- Is a variable looked up? -/
def Event.isLookup : Event → Bool
  | .value _ _ => true
  | _ => false

/-- Is the token a variable? -/
def Token.isVariable : Token → Bool
  | .name .variable _ => true
  | _ => false

/-- How many variables are looked up. -/
def variableLookups (events : List Event) : Nat :=
  events.countP Event.isLookup

/-- How many variables a text has, up to the first token that cannot be read. -/
def variableTokens (limits : Limits) (text : String) : Nat :=
  (Token.sequence limits.nameSize (bytesOf text)).1.countP Token.isVariable

/-- How many names are those of variables. -/
def variableNames (names : List (Role × String)) : Nat :=
  names.countP fun name => name.1 = .variable

theorem lookups_eq_variableNames (events : List Event) :
    variableLookups events = variableNames ((events.map Event.query).filterMap Query.name?) := by
  rw [variableLookups, variableNames, List.filterMap_map, List.countP_filterMap]
  congr 1
  funext event
  cases event <;> rfl

theorem countP_isVariable (tokens : List Token) :
    tokens.countP Token.isVariable = variableNames (tokens.filterMap Token.name?) := by
  rw [variableNames, List.countP_filterMap]
  congr 1
  funext token
  cases token with
  | name role name => cases role <;> rfl
  | _ => rfl

@[simp]
theorem lookups_append (front events : List Event) :
    variableLookups (front ++ events) = variableLookups front + variableLookups events :=
  List.countP_append

section

variable {σ : Type} {scope : Scope σ} {limits : Limits}

/-- The names that are looked up are those of the text, from the first one on. -/
theorem names_record (scope : Scope σ) (text : String) (limits : Limits) (host : σ) :
    ((record scope text limits host).map Event.query).filterMap Query.name? <+:
      (Token.sequence limits.nameSize (bytesOf text)).1.filterMap Token.name? := by
  have hq : (record scope text limits host).map Event.query <+:
      (Reading.ofText limits text).fragment.queries := by
    rcases run_course scope text limits host with ⟨-, -, hq⟩ | ⟨hq, -⟩
    · exact hq ▸ List.prefix_rfl
    · exact hq
  exact (hq.filterMap Query.name?).trans (names_ofText limits text)

/-- No more variables are looked up than there are. -/
theorem lookups_le (scope : Scope σ) (text : String) (limits : Limits) (host : σ) :
    variableLookups (record scope text limits host) ≤ variableTokens limits text := by
  rw [lookups_eq_variableNames, variableTokens, countP_isVariable]
  exact (names_record scope text limits host).sublist.countP_le

/-- If there is a value, all variables of the text have been looked up. -/
theorem lookups_eq {text : String} {host u : σ} {x : Float}
    (h : evaluate (some scope) text limits host = .ok x u) :
    variableLookups (record scope text limits host) = variableTokens limits text := by
  rw [lookups_eq_variableNames, variableTokens, countP_isVariable, record_eq]
  rw [evaluate_eq] at h ⊢
  cases hr : (Reading.ofText limits text).ending with
  | error fault =>
    rw [hr] at h
    obtain ⟨pending, t, -, h⟩ := Step.bind_eq_ok.1 h
    cases h
  | ok tree =>
    rw [hr] at h
    obtain ⟨ht, -⟩ := ending_eq_ok_iff.1 hr
    have hf := follows_sum scope tree { host }
    change tree.value scope host = .ok x u at h
    rw [h] at hf
    simp only [Step.outcome, Option.getD_some]
    generalize tree.value scope.recorded { host } = p at hf
    cases hf with
    | ok hx ha =>
      rw [Recorded.events_extend_start, ha.asked, names_sum]
      exact congrArg (fun s => variableNames (s.1.filterMap Token.name?)) ht.symm

end

end Formula
