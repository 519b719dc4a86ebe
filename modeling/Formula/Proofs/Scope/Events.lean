import Formula.Scope.Recorded
import Formula.Token.Basic

/-!
# What a record shows

A record of answers shows what was asked, which answer was a fault, and which of the functions found
have not been called yet.

* `Event.query`, `Event.fault?` — the two sides of an event: the question without its answer, and
  the fault that the answer may be.
* `unclosed` — calls as closing brackets: each one closes the look-up that was opened last.
* `Answered`, `Refused` — the events of a step that asks given questions, if all the answers are
  good, and if the last one is a fault.
-/

namespace Formula

/-- What is asked of a scope or of one of its functions. -/
inductive Query where
  /-- Which function has a name? -/
  | function (name : String)
  /-- Which value has a variable? -/
  | value (name : String)
  /-- Which value has the function that was found under a name? -/
  | call (name : String)
  deriving DecidableEq

/-- The name that a question looks up, with its kind.  A call looks nothing up. -/
def Query.name? : Query → Option (Role × String)
  | .function name => some (.function, name)
  | .value name => some (.variable, name)
  | .call _ => none

/-- The name that a token is, with its kind. -/
def Token.name? : Token → Option (Role × String)
  | .name role text => some (role, text)
  | _ => none

namespace Event

/-- The question of an event. -/
def query : Event → Query
  | .function name _ => .function name
  | .value name _ => .value name
  | .call _ name _ _ => .call name

/-- The fault that the answer of an event is, if it is one. -/
def fault? : Event → Option Fault
  | .function _ false => some .undefinedFunction
  | .value _ (.error fault) => some fault
  | .call _ _ _ (.error fault) => some fault
  | _ => none

/-- What the event numbered `n` does to the functions found and not called since, each given with
the number of its look-up, the latest one first.  Only the latest one can be called. -/
def follow (n : Nat) (found : List (Nat × String)) : Event → Option (List (Nat × String))
  | .function name true => some ((n, name) :: found)
  | .call opened name _ _ => match found with
    | [] => none
    | latest :: found => if latest = (opened, name) then some found else none
  | _ => some found

end Event

/-- The functions found and not called since, behind events that are numbered from `n` on. -/
def unclosed (n : Nat) (found : List (Nat × String)) : List Event → Option (List (Nat × String))
  | [] => some found
  | event :: events => (event.follow n found).bind fun found => unclosed (n + 1) found events

theorem unclosed_append (n : Nat) (found : List (Nat × String)) (front events : List Event) :
    unclosed n found (front ++ events) =
      (unclosed n found front).bind fun found => unclosed (n + front.length) found events := by
  induction front generalizing n found with
  | nil => rfl
  | cons event front ih =>
    rw [List.cons_append, unclosed, unclosed, Option.bind_assoc]
    congr 1
    funext found
    rw [ih, List.length_cons, Nat.add_right_comm, Nat.add_assoc]

/-- The functions that have been found can all be called in the end. -/
theorem exists_closing (n : Nat) (found : List (Nat × String)) :
    ∃ events, unclosed n found events = some [] := by
  induction found generalizing n with
  | nil => exact ⟨[], rfl⟩
  | cons latest found ih =>
    obtain ⟨events, h⟩ := ih (n + 1)
    refine ⟨.call latest.1 latest.2 0 (.ok 0) :: events, ?_⟩
    rw [unclosed, Event.follow, if_pos rfl]
    exact h

/-! ## Every look-up is called once -/

/-- The functions that events numbered from `n` on have found, each with the number of its
look-up. -/
def openings (n : Nat) : List Event → List (Nat × String)
  | [] => []
  | .function name true :: events => (n, name) :: openings (n + 1) events
  | _ :: events => openings (n + 1) events

/-- The function that an event has called, with the number of its look-up. -/
def Event.closing? : Event → Option (Nat × String)
  | .call opened name _ _ => some (opened, name)
  | _ => none

/-- A function that was found has been called once, or it is left over. -/
theorem closings_perm {n : Nat} {found left : List (Nat × String)} {events : List Event}
    (h : unclosed n found events = some left) :
    (events.filterMap Event.closing? ++ left).Perm (openings n events ++ found) := by
  induction events generalizing n found with
  | nil =>
    cases h
    exact .refl _
  | cons event events ih =>
    obtain ⟨middle, hm, h⟩ := Option.bind_eq_some_iff.1 h
    have hp := ih h
    cases event with
    | function name answer =>
      cases answer <;> cases hm
      · exact hp
      · exact hp.trans List.perm_middle
    | value name result =>
      cases hm
      exact hp
    | call opened name x result =>
      cases found with
      | nil => cases hm
      | cons latest found =>
        simp only [Event.follow, Option.ite_none_right_eq_some, Option.some.injEq] at hm
        obtain ⟨rfl, rfl⟩ := hm
        exact (hp.cons _).trans List.perm_middle.symm

/-! ## The events of a step -/

/-- The events of a step, numbered from `n` on, that has asked all its questions and got an answer
to each.  `names` are those of the functions that it has found and not called, the latest first. -/
structure Answered (n : Nat) (queries : List Query) (names : List String)
    (events : List Event) : Prop where
  /-- These are the questions. -/
  asked : events.map Event.query = queries
  /-- No answer is a fault. -/
  good : ∀ event ∈ events, event.fault? = none
  /-- The functions found are left over. -/
  found : ∃ left, left.map Prod.snd = names ∧
    ∀ stack, unclosed n stack events = some (left ++ stack)

/-- The events of a step, numbered from `n` on, that has come in its questions to one whose answer
is a fault. -/
structure Refused (n : Nat) (queries : List Query) (fault : Fault) (events : List Event) :
    Prop where
  /-- The questions begin like this. -/
  asked : events.map Event.query <+: queries
  /-- The last answer is the fault, and no other answer is one. -/
  last : ∃ front event, events = front ++ [event] ∧ event.fault? = some fault ∧
    ∀ event ∈ front, event.fault? = none
  /-- No call has closed anything but the latest look-up. -/
  found : ∀ stack, (unclosed n stack events).isSome

theorem Answered.nil (n : Nat) : Answered n [] [] [] where
  asked := rfl
  good := by simp
  found := ⟨[], rfl, fun _ => rfl⟩

variable {n : Nat} {queries more : List Query} {names others : List String}
  {front events : List Event} {fault : Fault}

theorem Answered.append (h : Answered n queries names front)
    (h' : Answered (n + front.length) more others events) :
    Answered n (queries ++ more) (others ++ names) (front ++ events) where
  asked := by rw [List.map_append, h.asked, h'.asked]
  good := by
    intro event he
    rcases List.mem_append.1 he with he | he
    · exact h.good event he
    · exact h'.good event he
  found := by
    obtain ⟨left, hl, hs⟩ := h.found
    obtain ⟨left', hl', hs'⟩ := h'.found
    refine ⟨left' ++ left, by rw [List.map_append, hl, hl'], ?_⟩
    intro stack
    rw [unclosed_append, hs, Option.bind_some, hs', List.append_assoc]

theorem Answered.append_refused (h : Answered n queries names front)
    (h' : Refused (n + front.length) more fault events) :
    Refused n (queries ++ more) fault (front ++ events) where
  asked := by
    rw [List.map_append, h.asked]
    exact (List.prefix_append_right_inj _).2 h'.asked
  last := by
    obtain ⟨good, event, rfl, he, hg⟩ := h'.last
    refine ⟨front ++ good, event, (List.append_assoc _ _ _).symm, he, ?_⟩
    intro event he
    rcases List.mem_append.1 he with he | he
    · exact h.good event he
    · exact hg event he
  found := by
    intro stack
    obtain ⟨left, -, hs⟩ := h.found
    rw [unclosed_append, hs, Option.bind_some]
    exact h'.found _

/-- The questions that were not asked any more may be any. -/
theorem Refused.append_right (h : Refused n queries fault events) (more : List Query) :
    Refused n (queries ++ more) fault events :=
  { h with asked := h.asked.trans (List.prefix_append _ _) }

/-- One question with a good answer that finds no function. -/
theorem Answered.value (n : Nat) (name : String) (x : Float) :
    Answered n [.value name] [] [.value name (.ok x)] where
  asked := rfl
  good := by simp [Event.fault?]
  found := ⟨[], rfl, fun _ => rfl⟩

theorem Answered.function (n : Nat) (name : String) :
    Answered n [.function name] [name] [.function name true] where
  asked := rfl
  good := by simp [Event.fault?]
  found := ⟨[(n, name)], rfl, fun _ => rfl⟩

/-- A question whose answer is a fault. -/
theorem Refused.single {query : Query} {event : Event} (hq : event.query = query)
    (he : event.fault? = some fault) (hf : ∀ stack, event.follow n stack = some stack) :
    Refused n [query] fault [event] where
  asked := by
    subst hq
    exact List.prefix_rfl
  last := ⟨[], event, rfl, he, by simp⟩
  found := by
    intro stack
    rw [unclosed, hf]
    rfl

/-- The argument of a function has its value between the look-up and the call. -/
theorem unclosed_call {name : String} {x : Float} {result : Except Fault Float}
    (h : Answered (n + 1) queries [] events) (stack : List (Nat × String)) :
    unclosed n stack (.function name true :: (events ++ [.call n name x result])) =
      some stack := by
  obtain ⟨left, hl, hs⟩ := h.found
  obtain rfl := List.map_eq_nil_iff.1 hl
  change unclosed (n + 1) ((n, name) :: stack) (events ++ [.call n name x result]) = some stack
  rw [unclosed_append, hs, List.nil_append, Option.bind_some, unclosed, Event.follow, if_pos rfl]
  rfl

theorem Answered.call {name : String} {x y : Float} (h : Answered (n + 1) queries [] events) :
    Answered n (.function name :: (queries ++ [.call name])) []
      (.function name true :: (events ++ [.call n name x (.ok y)])) where
  asked := by
    rw [List.map_cons, List.map_append, h.asked]
    rfl
  good := by
    intro event he
    rcases List.mem_cons.1 he with rfl | he
    · rfl
    rcases List.mem_append.1 he with he | he
    · exact h.good event he
    · rw [List.mem_singleton.1 he]
      rfl
  found := ⟨[], rfl, unclosed_call h⟩

theorem Refused.call {name : String} {x : Float} (h : Answered (n + 1) queries [] events) :
    Refused n (.function name :: (queries ++ [.call name])) fault
      (.function name true :: (events ++ [.call n name x (.error fault)])) where
  asked := by
    rw [List.map_cons, List.map_append, h.asked]
    exact List.prefix_rfl
  last := by
    refine ⟨.function name true :: events, .call n name x (.error fault), rfl, rfl, ?_⟩
    intro event he
    rcases List.mem_cons.1 he with rfl | he
    · rfl
    · exact h.good event he
  found := by
    intro stack
    rw [unclosed_call h]
    rfl

end Formula
