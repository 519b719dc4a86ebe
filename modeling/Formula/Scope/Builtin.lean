import Formula.Scope.Basic

/-!
# The built-in functions and constants

There are thirteen functions and three constants.  Names are told apart by case and no two entries
of a table have the same name.
-/

namespace Formula

namespace Builtin

/-- The nearest integer; halves go up, also below zero. -/
def round (x : Float) : Float :=
  (x + 0.5).floor

/-- The built-in functions by name.  `log` is the natural logarithm, and angles are in radians. -/
def functions : List (String × (Float → Float)) :=
  [ ("cos", Float.cos),
    ("sin", Float.sin),
    ("tan", Float.tan),
    ("acos", Float.acos),
    ("asin", Float.asin),
    ("atan", Float.atan),
    ("exp", Float.exp),
    ("log", Float.log),
    ("log10", Float.log10),
    ("sqrt", Float.sqrt),
    ("ceil", Float.ceil),
    ("floor", Float.floor),
    ("round", round) ]

/-- The built-in constants by name. -/
def constants : List (String × Float) :=
  [ ("INFINITY", 1.0 / 0.0),
    ("NAN", 0.0 / 0.0),
    ("PI", 3.141592653589793) ]

/-- The built-in function of a name. -/
def function? (name : String) : Option (Float → Float) :=
  functions.lookup name

/-- The built-in constant of a name. -/
def constant? (name : String) : Option Float :=
  constants.lookup name

end Builtin

/-- The scope of the built-in functions and constants. -/
def Scope.builtin {σ : Type} : Scope σ :=
  Scope.layer (fun name => (Builtin.function? name).map Callback.ofFloat) Builtin.constant?
    Scope.empty

end Formula
