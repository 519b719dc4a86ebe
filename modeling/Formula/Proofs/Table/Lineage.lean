import Formula.Proofs.Table.Edits
import Formula.Table.Shelf

/-!
# The tables on a shelf and their histories

Behind every table on a shelf there is a line of edits: its own, and before them those of the table
that it was copied from, up to the copying.  `Shelf.lineages` follows these lines through the
commands and looks at no table.

* `Table.Answers` — a table answers as its line says.
* `Shelf.apply_tables`, `Shelf.ofCommands_eq` — one command, and any number of them, edit tables as
  they edit lines.
* `Shelf.apply_agreeOn`, `Shelf.foldl_agreeOn` — one command, and any number of them, leave the
  answers alone that they are not about.
* `Shelf.ofCommands_answers` — both together, for every shelf that commands put up.
-/

namespace Formula

open Table

variable {σ : Type}

/-! ## Lines of tables -/

/-- What a line of tables begins with. -/
inductive Origin where
  /-- Nothing at all. -/
  | empty
  /-- What is built in. -/
  | builtins
  /-- The variables of a context, and what is built in. -/
  | context (context : Context)

namespace Origin

/-- The first table of a line. -/
def table : Origin → Table σ
  | empty => .empty
  | builtins => .withBuiltins
  | context c => .ofContext c

/-- The variables that a line begins with. -/
def values : Origin → Context
  | empty | builtins => ∅
  | context c => c

/-- The constant that a line falls back on. -/
def constant? : Origin → String → Option Float
  | empty, _ => none
  | builtins, name | context _, name => Builtin.constant? name

/-- The function that a line falls back on. -/
def function? : Origin → String → Option (Callback σ)
  | empty, _ => none
  | builtins, name | context _, name => (Builtin.function? name).map Callback.ofFloat

end Origin

/-- A line of tables: its origin and all edits since, the first one first. -/
structure Lineage (σ : Type) where
  /-- The beginning. -/
  origin : Origin
  /-- The edits. -/
  edits : List (Edit σ) := []

namespace Lineage

/-- The line with one more edit. -/
def andThen (line : Lineage σ) (e : Edit σ) : Lineage σ :=
  { line with edits := line.edits ++ [e] }

/-- The last table of a line. -/
def table (line : Lineage σ) : Table σ :=
  line.origin.table.edits line.edits

/-- A name has a value in a line: that entered last if it was not taken out since, and that of the
context if it was neither entered nor taken out. -/
def Gives (line : Lineage σ) (name : String) (v : Float) : Prop :=
  Last line.edits (.set name v) ∨
    (∀ e ∈ line.edits, e.slot ≠ (.variable, name)) ∧ line.origin.values[name]? = some v

end Lineage

/-- A table answers as its line says. -/
structure Table.Answers (t : Table σ) (line : Lineage σ) : Prop where
  /-- The values of its own are those that the line gives. -/
  value? : ∀ name v, t.value? name = some v ↔ line.Gives name v
  /-- The functions of its own are those entered last. -/
  function? : ∀ name callback,
    t.function? name = some callback ↔ Last line.edits (.register name callback)
  /-- A variable is a value of the table's own, or else the constant behind it, or undefined. -/
  value : ∀ name, t.toScope.value name =
    ((t.value? name).or (line.origin.constant? name)).elim (throw .undefinedVariable) pure
  /-- A function is one of the table's own, or else the one behind it, if there is one. -/
  function : ∀ name, t.toScope.function name =
    pure ((t.function? name).or (line.origin.function? name))

theorem Lineage.answers_table (line : Lineage σ) : line.table.Answers line := by
  obtain ⟨origin, es⟩ := line
  refine ⟨fun name v => ?_, fun name callback => ?_, fun name => ?_, fun name => ?_⟩
  · refine value?_edits.trans (or_congr_right (and_congr_right fun _ => ?_))
    cases origin <;> rfl
  · have hf : (origin.table : Table σ).function? name = none := by
      cases origin <;> exact Std.HashMap.getElem?_empty
    refine function?_edits.trans ⟨?_, .inl⟩
    rintro (hl | ⟨-, h⟩)
    · exact hl
    · rw [hf] at h
      cases h
  · rw [toScope_value, Lineage.table, builtins_edits]
    cases origin <;> rfl
  · rw [toScope_function, Lineage.table, builtins_edits]
    cases origin <;> rfl

namespace Shelf

/-! ## Commands -/

/-- The lines of the tables on a shelf after a command. -/
def record (lines : Array (Lineage σ)) : Command σ → Array (Lineage σ)
  | .create => lines.push { origin := .empty }
  | .createWithBuiltins => lines.push { origin := .builtins }
  | .createFrom context => lines.push { origin := .context context }
  | .copy index => match lines[index]? with
    | some line => lines.push line
    | none => lines
  | .set index name value => lines.modify index (·.andThen (.set name value))
  | .remove index name => lines.modify index (·.andThen (.remove name))
  | .register index name callback => lines.modify index (·.andThen (.register name callback))

/-- The lines of the tables that commands put on the empty shelf. -/
def lineages (commands : List (Command σ)) : Array (Lineage σ) :=
  commands.foldl record #[]

/-- The slot of a table that a command is about, if it is not about a new table. -/
def Command.slot? : Command σ → Option (Nat × Role × String)
  | .set index name _ | .remove index name => some (index, .variable, name)
  | .register index name _ => some (index, .function, name)
  | .create | .createWithBuiltins | .createFrom _ | .copy _ => none

/-- The last table of a line is edited as the line is. -/
theorem modify_tables (lines : Array (Lineage σ)) (index : Nat) (e : Edit σ) :
    (lines.map Lineage.table).modify index (·.edit e) =
      (lines.modify index (·.andThen e)).map Lineage.table := by
  have he (line : Lineage σ) : (line.andThen e).table = line.table.edit e := by
    simp [Lineage.andThen, Lineage.table, edits]
  apply Array.ext_getElem?
  intro i
  rw [Array.getElem?_modify, Array.getElem?_map, Array.getElem?_map, Array.getElem?_modify]
  split
  · cases lines[i]? with
    | none => rfl
    | some line => exact congrArg some (he line).symm
  · rfl

theorem apply_tables (lines : Array (Lineage σ)) (command : Command σ) :
    apply (lines.map Lineage.table) command = (record lines command).map Lineage.table := by
  cases command with
  | create | createWithBuiltins | createFrom =>
    rw [record, Array.map_push]
    rfl
  | copy index =>
    simp only [apply, record, Array.getElem?_map]
    cases lines[index]? with
    | none => rfl
    | some line => exact Array.map_push.symm
  | set index name value => exact modify_tables lines index (.set name value)
  | remove index name => exact modify_tables lines index (.remove name)
  | register index name callback => exact modify_tables lines index (.register name callback)

/-- Commands put up the last tables of the lines that they draw. -/
theorem ofCommands_eq (commands : List (Command σ)) :
    ofCommands commands = (lineages commands).map Lineage.table := by
  have hstart : (#[] : Shelf σ) = (#[] : Array (Lineage σ)).map Lineage.table := by simp
  rw [ofCommands, hstart]
  exact List.foldl_hom (Array.map Lineage.table) apply_tables

/-! ## Answers -/

section

variable {shelf : Shelf σ} {index : Nat} {t : Table σ}

theorem getElem?_push_of_eq (h : shelf[index]? = some t) (other : Table σ) :
    (shelf.push other)[index]? = some t := by
  obtain ⟨hlt, -⟩ := Array.getElem?_eq_some_iff.1 h
  rw [Array.getElem?_push, if_neg (Nat.ne_of_lt hlt), h]

theorem modify_agreeOn (h : shelf[index]? = some t) (i : Nat) (e : Edit σ) :
    ∃ next, (shelf.modify i (·.edit e))[index]? = some next ∧
      ∀ role name, some (i, e.slot) ≠ some (index, role, name) → next.AgreeOn t role name := by
  rw [Array.getElem?_modify, h]
  by_cases hi : i = index
  · refine ⟨t.edit e, if_pos hi, fun role name hn => edit_agreeOn fun hs => hn ?_⟩
    rw [hi, hs]
  · exact ⟨t, if_neg hi, fun role name _ => .refl t role name⟩

/-- After a command every table is still there, with the same answers but to the name that the
command is about. -/
theorem apply_agreeOn (h : shelf[index]? = some t) (command : Command σ) :
    ∃ next, (shelf.apply command)[index]? = some next ∧
      ∀ role name, command.slot? ≠ some (index, role, name) → next.AgreeOn t role name := by
  have kept {after : Shelf σ} (ha : after[index]? = some t) : ∃ next, after[index]? = some next ∧
      ∀ role name, command.slot? ≠ some (index, role, name) → next.AgreeOn t role name :=
    ⟨t, ha, fun role name _ => .refl t role name⟩
  cases command with
  | create | createWithBuiltins | createFrom => exact kept (getElem?_push_of_eq h _)
  | copy i =>
    simp only [apply]
    cases shelf[i]? with
    | none => exact kept h
    | some original => exact kept (getElem?_push_of_eq h original)
  | set i name value => exact modify_agreeOn h i (.set name value)
  | remove i name => exact modify_agreeOn h i (.remove name)
  | register i name callback => exact modify_agreeOn h i (.register name callback)

/-- After commands every table is still there, with the same answers to all names that none of them
is about. -/
theorem foldl_agreeOn (more : List (Command σ)) (h : shelf[index]? = some t) :
    ∃ next, (more.foldl apply shelf)[index]? = some next ∧ ∀ role name,
      (∀ command ∈ more, command.slot? ≠ some (index, role, name)) → next.AgreeOn t role name := by
  induction more generalizing shelf t with
  | nil => exact ⟨t, h, fun role name _ => .refl t role name⟩
  | cons command more ih =>
    obtain ⟨mid, hm, ha⟩ := apply_agreeOn h command
    obtain ⟨next, hn, hb⟩ := ih hm
    refine ⟨next, hn, fun role name hc => ?_⟩
    rw [List.forall_mem_cons] at hc
    exact (hb role name hc.2).trans (ha role name hc.1)

end

theorem ofCommands_append (commands more : List (Command σ)) :
    ofCommands (commands ++ more) = more.foldl apply (ofCommands commands) :=
  List.foldl_append

/-- **The last edit counts, and copies are independent.**  There is a table for every line that the
commands draw, and it answers as the line says.  Taking a value out hands over the one that the table
had, and leaves the table that the command leaves.  Further commands change no answer of a table but
those to the names, in their roles, that a command about this very table mentions. -/
theorem ofCommands_answers (commands : List (Command σ)) :
    (∀ index : Nat,
      Option.Rel Table.Answers (ofCommands commands)[index]? (lineages commands)[index]?) ∧
    ∀ (index : Nat) (t : Table σ), (ofCommands commands)[index]? = some t →
      (∀ name, (t.take name).1 = t.value? name ∧
        (ofCommands (commands ++ [.remove index name]))[index]? = some (t.take name).2) ∧
      ∀ more, ∃ next, (ofCommands (commands ++ more))[index]? = some next ∧ ∀ role name,
        (∀ command ∈ more, command.slot? ≠ some (index, role, name)) →
          next.AgreeOn t role name := by
  refine ⟨fun index => ?_, fun index t ht => ⟨fun name => ⟨rfl, ?_⟩, fun more => ?_⟩⟩
  · rw [ofCommands_eq, Array.getElem?_map]
    cases (lineages commands)[index]? with
    | none => exact .none
    | some line => exact .some line.answers_table
  · rw [ofCommands_append, List.foldl_cons, List.foldl_nil, apply, Array.getElem?_modify,
      if_pos rfl, ht]
    rfl
  · rw [ofCommands_append]
    exact foldl_agreeOn more ht

/-- A value that was there when a copy was made is taken out of one of the two tables only. -/
theorem copy_keeps :
    let commands : List (Command Unit) := [.createWithBuiltins, .set 0 "PI" 3, .copy 0]
    let shelf := ofCommands (commands ++ [.remove 0 "PI"])
    ∃ original copy, shelf[0]? = some original ∧ original.value? "PI" = none ∧
      shelf[1]? = some copy ∧ copy.value? "PI" = some 3 := by
  intro commands shelf
  obtain ⟨ha, hc⟩ := ofCommands_answers commands
  have hl : (lineages commands)[1]? = some ⟨.builtins, [.set "PI" 3]⟩ := rfl
  have ho : (ofCommands commands)[0]? = some (Table.withBuiltins.set "PI" 3) := rfl
  have h := ha 1
  rw [hl] at h
  generalize ht : (ofCommands commands)[1]? = answer at h
  cases h with
  | @some t _ h =>
    have hv : t.value? "PI" = some 3 := (h.value? "PI" 3).2 (.inl ⟨[], [], rfl, nofun⟩)
    obtain ⟨copy, hcopy, hagree⟩ := (hc 1 t ht).2 [.remove 0 "PI"]
    obtain ⟨-, horiginal⟩ := (hc 0 _ ho).1 "PI"
    refine ⟨_, copy, horiginal, ?_, hcopy, ?_⟩
    · simp [take]
    · exact (hagree .variable "PI" (by simp [Command.slot?])).1.trans hv

end Shelf

end Formula
