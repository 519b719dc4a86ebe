import Formula.Table.Basic
import Formula.Token.Basic

/-!
# Tables and their edits

Every edit is about one slot of a table, that of a name in a role, and leaves the answers to all other
names alone (`edit_agreeOn`).  After any edits a slot holds what the last edit of the slot has put
there, and what it held before if there is none (`value?_edits`, `function?_edits`).
-/

namespace Formula.Table

variable {σ β : Type}

/-- What is done to a table. -/
inductive Edit (σ : Type) where
  /-- Enters a value. -/
  | set (name : String) (value : Float)
  /-- Takes out a value. -/
  | remove (name : String)
  /-- Enters a function. -/
  | register (name : String) (callback : Callback σ)

/-- The slot that an edit is about. -/
def Edit.slot : Edit σ → Role × String
  | set name _ | remove name => (.variable, name)
  | register name _ => (.function, name)

/-- The table after an edit. -/
def edit (t : Table σ) : Edit σ → Table σ
  | .set name value => t.set name value
  | .remove name => t.remove name
  | .register name callback => t.register name callback

/-- The table after edits, the first one first. -/
def edits (t : Table σ) (es : List (Edit σ)) : Table σ :=
  es.foldl edit t

/-! ## The answers of a table -/

/-- A name that the table has no value of falls back on what is built in, if the table does. -/
theorem toScope_value (t : Table σ) (name : String) : t.toScope.value name =
    ((t.value? name).or (if t.builtins then Builtin.constant? name else none)).elim
      (throw .undefinedVariable) pure := by
  unfold toScope
  cases hv : t.value? name with
  | some v => simp [Scope.layer, hv]
  | none =>
    cases t.builtins with
    | false => simp [Scope.layer, hv, Scope.empty]
    | true =>
      cases hc : Builtin.constant? name <;>
        simp [Scope.layer, hv, hc, Scope.builtin, Scope.empty]

theorem toScope_function (t : Table σ) (name : String) : t.toScope.function name =
    pure ((t.function? name).or
      (if t.builtins then (Builtin.function? name).map Callback.ofFloat else none)) := by
  unfold toScope
  cases hf : t.function? name with
  | some f => simp [Scope.layer, hf]
  | none =>
    cases t.builtins with
    | false => simp [Scope.layer, hf, Scope.empty]
    | true =>
      cases hc : Builtin.function? name <;>
        simp [Scope.layer, hf, hc, Scope.builtin, Scope.empty]

/-- Two tables answer alike to a name in a role, both with what they have of their own and as
scopes. -/
def AgreeOn (t u : Table σ) : Role → String → Prop
  | .function, name =>
    t.function? name = u.function? name ∧ t.toScope.function name = u.toScope.function name
  | .variable, name =>
    t.value? name = u.value? name ∧ t.toScope.value name = u.toScope.value name

theorem AgreeOn.refl (t : Table σ) (role : Role) (name : String) : t.AgreeOn t role name := by
  cases role <;> exact ⟨rfl, rfl⟩

theorem AgreeOn.trans {t u v : Table σ} {role : Role} {name : String} (h : t.AgreeOn u role name)
    (h' : u.AgreeOn v role name) : t.AgreeOn v role name := by
  cases role <;> exact ⟨h.1.trans h'.1, h.2.trans h'.2⟩

/-! ## One edit -/

/-- The value that an edit leaves in its slot. -/
def Edit.value? : Edit σ → Option Float
  | set _ value => some value
  | remove _ | register _ _ => none

/-- The function that an edit leaves in its slot. -/
def Edit.function? : Edit σ → Option (Callback σ)
  | register _ callback => some callback
  | set _ _ | remove _ => none

section

variable (t : Table σ) (e : Edit σ) (name : String)

@[simp]
theorem builtins_edit : (t.edit e).builtins = t.builtins := by
  cases e <;> rfl

theorem value?_edit : (t.edit e).value? name =
    if e.slot = (.variable, name) then e.value? else t.value? name := by
  cases e <;> simp [edit, Edit.slot, Edit.value?]

theorem function?_edit : (t.edit e).function? name =
    if e.slot = (.function, name) then e.function? else t.function? name := by
  cases e <;> simp [edit, Edit.slot, Edit.function?]

end

/-- An edit is seen in its slot alone. -/
theorem edit_agreeOn {t : Table σ} {e : Edit σ} {role : Role} {name : String}
    (h : e.slot ≠ (role, name)) : (t.edit e).AgreeOn t role name := by
  cases role with
  | function =>
    have hf : (t.edit e).function? name = t.function? name := by rw [function?_edit, if_neg h]
    exact ⟨hf, by rw [toScope_function, toScope_function, hf, builtins_edit]⟩
  | «variable» =>
    have hv : (t.edit e).value? name = t.value? name := by rw [value?_edit, if_neg h]
    exact ⟨hv, by rw [toScope_value, toScope_value, hv, builtins_edit]⟩

/-! ## Edits in a row -/

/-- An edit is one of a list, and no later one of the list is of the same slot. -/
def Last (es : List (Edit σ)) (e : Edit σ) : Prop :=
  ∃ before after, es = before ++ e :: after ∧ ∀ other ∈ after, other.slot ≠ e.slot

theorem last_nil (e : Edit σ) : ¬ Last [] e := by
  rintro ⟨before, after, he, -⟩
  simp at he

theorem last_cons {es : List (Edit σ)} {e last : Edit σ} :
    Last (e :: es) last ↔
      Last es last ∨ e = last ∧ ∀ other ∈ es, other.slot ≠ last.slot := by
  constructor
  · rintro ⟨before, after, he, ha⟩
    cases before with
    | nil =>
      obtain ⟨rfl, rfl⟩ := List.cons.inj he
      exact .inr ⟨rfl, ha⟩
    | cons first before => exact .inl ⟨before, after, (List.cons.inj he).2, ha⟩
  · rintro (⟨before, after, rfl, ha⟩ | ⟨rfl, ha⟩)
    · exact ⟨e :: before, after, rfl, ha⟩
    · exact ⟨[], es, rfl, ha⟩

@[simp]
theorem builtins_edits (t : Table σ) (es : List (Edit σ)) : (t.edits es).builtins = t.builtins := by
  induction es generalizing t with
  | nil => rfl
  | cons e es ih => exact (ih (t.edit e)).trans (builtins_edit t e)

/-- A slot that every edit of it fills anew holds what the last edit of it has left there. -/
theorem answer_edits {answer : Table σ → Option β} {left : Edit σ → Option β}
    {slot : Role × String}
    (h : ∀ t e, answer (t.edit e) = if e.slot = slot then left e else answer t)
    (t : Table σ) (es : List (Edit σ)) (b : β) : answer (t.edits es) = some b ↔
      (∃ e, Last es e ∧ e.slot = slot ∧ left e = some b) ∨
        (∀ e ∈ es, e.slot ≠ slot) ∧ answer t = some b := by
  induction es generalizing t with
  | nil =>
    constructor
    · intro ht
      exact .inr ⟨nofun, ht⟩
    · rintro (⟨e, hl, -⟩ | ⟨-, ht⟩)
      · exact absurd hl (last_nil e)
      · exact ht
  | cons e es ih =>
    show answer ((t.edit e).edits es) = some b ↔ _
    rw [ih (t.edit e), h]
    -- an edit of the slot is the last one unless one of the others is of the slot, too
    by_cases hs : e.slot = slot
    · rw [if_pos hs]
      constructor
      · rintro (⟨last, hl, hr⟩ | ⟨hn, hb⟩)
        · exact .inl ⟨last, last_cons.2 (.inl hl), hr⟩
        · exact .inl ⟨e, last_cons.2 (.inr ⟨rfl, hs ▸ hn⟩), hs, hb⟩
      · rintro (⟨last, hl, hr, hb⟩ | ⟨hn, -⟩)
        · rcases last_cons.1 hl with hl | ⟨rfl, hn⟩
          · exact .inl ⟨last, hl, hr, hb⟩
          · exact .inr ⟨hr ▸ hn, hb⟩
        · exact absurd hs (hn e (List.mem_cons_self ..))
    · rw [if_neg hs, List.forall_mem_cons]
      constructor
      · rintro (⟨last, hl, hr⟩ | ⟨hn, ht⟩)
        · exact .inl ⟨last, last_cons.2 (.inl hl), hr⟩
        · exact .inr ⟨⟨hs, hn⟩, ht⟩
      · rintro (⟨last, hl, hr, hb⟩ | ⟨⟨-, hn⟩, ht⟩)
        · rcases last_cons.1 hl with hl | ⟨rfl, -⟩
          · exact .inl ⟨last, hl, hr, hb⟩
          · exact absurd hr hs
        · exact .inr ⟨hn, ht⟩

section

variable {t : Table σ} {es : List (Edit σ)} {name : String}

/-- A value is the one entered last and not taken out since, or one from before. -/
theorem value?_edits {v : Float} : (t.edits es).value? name = some v ↔
    Last es (.set name v) ∨ (∀ e ∈ es, e.slot ≠ (.variable, name)) ∧ t.value? name = some v := by
  have h := @answer_edits σ Float (fun t => t.value? name) Edit.value? (.variable, name)
    (fun t e => value?_edit t e name) t es v
  refine h.trans (or_congr_left ⟨?_, fun hl => ⟨_, hl, rfl, rfl⟩⟩)
  rintro ⟨e, hl, hs, hv⟩
  cases e with
  | set =>
    cases hs
    cases hv
    exact hl
  | remove => cases hv
  | register => cases hs

/-- A function is the one entered last, or one from before. -/
theorem function?_edits {callback : Callback σ} : (t.edits es).function? name = some callback ↔
    Last es (.register name callback) ∨
      (∀ e ∈ es, e.slot ≠ (.function, name)) ∧ t.function? name = some callback := by
  have h := @answer_edits σ (Callback σ) (fun t => t.function? name) Edit.function?
    (.function, name) (fun t e => function?_edit t e name) t es callback
  refine h.trans (or_congr_left ⟨?_, fun hl => ⟨_, hl, rfl, rfl⟩⟩)
  rintro ⟨e, hl, hs, hf⟩
  cases e with
  | register =>
    cases hs
    cases hf
    exact hl
  | set | remove => cases hs

end

end Formula.Table
