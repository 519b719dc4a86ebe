import Formula.Table.Basic

/-!
# Shelves of tables

A shelf is a row of tables, numbered from 0 in the order in which they were put there.  A command
puts a table at the end of the row or edits one of the tables; nothing is taken off.
-/

namespace Formula

/-- A row of tables. -/
abbrev Shelf (σ : Type) := Array (Table σ)

namespace Shelf

variable {σ : Type}

/-- What is done to a shelf. -/
inductive Command (σ : Type) where
  /-- Puts up a table without entries. -/
  | create
  /-- Puts up a table without entries of its own and all that is built in. -/
  | createWithBuiltins
  /-- Puts up the table of a context. -/
  | createFrom (context : Context)
  /-- Puts up a copy of a table. -/
  | copy (index : Nat)
  /-- Enters a value in a table. -/
  | set (index : Nat) (name : String) (value : Float)
  /-- Takes a value out of a table. -/
  | remove (index : Nat) (name : String)
  /-- Enters a function in a table. -/
  | register (index : Nat) (name : String) (callback : Callback σ)

/-- The shelf after a command.  A command about a table that is not there does nothing. -/
def apply (shelf : Shelf σ) : Command σ → Shelf σ
  | .create => shelf.push .empty
  | .createWithBuiltins => shelf.push .withBuiltins
  | .createFrom context => shelf.push (.ofContext context)
  | .copy index => match shelf[index]? with
    | some table => shelf.push table
    | none => shelf
  | .set index name value => shelf.modify index (·.set name value)
  | .remove index name => shelf.modify index (·.remove name)
  | .register index name callback => shelf.modify index (·.register name callback)

/-- The empty shelf after commands, the first one first. -/
def ofCommands (commands : List (Command σ)) : Shelf σ :=
  commands.foldl apply #[]

end Shelf

end Formula
