import Formula.Scope.Context

/-!
# Tables: scopes that are edited

A table keeps functions and values of its own and may have all that is built in behind them.  Of two
entries under one name the later one counts; functions and values are kept apart.  A table is a
value: a copy of it stays as it is when the table is edited.
-/

namespace Formula

/-- Functions and values by name, with or without the built-in ones behind them. -/
structure Table (σ : Type) where
  /-- The table's own functions. -/
  functions : Std.HashMap String (Callback σ) := ∅
  /-- The table's own values. -/
  values : Context := ∅
  /-- Does the table fall back on what is built in? -/
  builtins : Bool := false

namespace Table

variable {σ : Type}

/-- The table without entries. -/
def empty : Table σ := {}

/-- The table without entries of its own that falls back on what is built in. -/
def withBuiltins : Table σ := { builtins := true }

/-- The table of the variables of a context and all that is built in. -/
def ofContext (context : Context) : Table σ := { values := context, builtins := true }

/-- Enters a function under a name. -/
def register (t : Table σ) (name : String) (callback : Callback σ) : Table σ :=
  { t with functions := t.functions.insert name callback }

/-- Enters a value under a name. -/
def set (t : Table σ) (name : String) (value : Float) : Table σ :=
  { t with values := t.values.insert name value }

/-- Takes out the table's own value of a name. -/
def remove (t : Table σ) (name : String) : Table σ :=
  { t with values := t.values.erase name }

/-- Takes out the table's own value of a name and hands it over. -/
def take (t : Table σ) (name : String) : Option Float × Table σ :=
  (t.values[name]?, t.remove name)

/-- The table's own value of a name. -/
def value? (t : Table σ) (name : String) : Option Float :=
  t.values[name]?

/-- The table's own function of a name. -/
def function? (t : Table σ) (name : String) : Option (Callback σ) :=
  t.functions[name]?

/-- The scope of a table. -/
def toScope (t : Table σ) : Scope σ :=
  Scope.layer t.function? t.value? (if t.builtins then Scope.builtin else Scope.empty)

/-! ## What an entry changes -/

variable (t : Table σ) (name other : String)

@[simp]
theorem value?_set (value : Float) :
    (t.set name value).value? other = if name = other then some value else t.value? other := by
  simp [set, value?, Std.HashMap.getElem?_insert]

@[simp]
theorem value?_remove :
    (t.remove name).value? other = if name = other then none else t.value? other := by
  simp [remove, value?, Std.HashMap.getElem?_erase]

@[simp]
theorem value?_register (callback : Callback σ) :
    (t.register name callback).value? other = t.value? other := rfl

@[simp]
theorem function?_register (callback : Callback σ) :
    (t.register name callback).function? other =
      if name = other then some callback else t.function? other := by
  simp [register, function?, Std.HashMap.getElem?_insert]

@[simp]
theorem function?_set (value : Float) :
    (t.set name value).function? other = t.function? other := rfl

@[simp]
theorem function?_remove : (t.remove name).function? other = t.function? other := rfl

end Table

end Formula
