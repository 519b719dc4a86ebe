/-!
# Tokens

The relations stand on the tier of multiplication and division and give 1 or 0, so they are
operators of products like these.
-/

namespace Formula

/-- An operator between the products of a sum. -/
inductive SumOp where
  | add
  | subtract
  deriving DecidableEq, Repr

/-- An operator between the factors of a product. -/
inductive ProductOp where
  | multiply
  | divide
  | less
  | lessEq
  | greater
  | greaterEq
  | equal
  deriving DecidableEq, Repr

/-- The two ways of writing a name: bare for a function, behind a dollar sign for a variable. -/
inductive Role where
  | function
  | variable
  deriving DecidableEq, Repr

/-- The smallest units of a formula. -/
inductive Token where
  /-- The end of the text. -/
  | done
  | plus
  | minus
  /-- An operator of a product. -/
  | times (op : ProductOp)
  | openBracket
  | closeBracket
  /-- A literal, by its value. -/
  | number (value : Float)
  /-- A name, without the dollar sign. -/
  | name (role : Role) (text : String)
  deriving DecidableEq

/-- The sum or difference of two values. -/
def SumOp.apply : SumOp → Float → Float → Float
  | add, a, b => a + b
  | subtract, a, b => a - b

/-- A truth value as a number. -/
def truth (holds : Bool) : Float :=
  if holds then 1.0 else 0.0

/-- The product or quotient of two values, or whether a relation holds between them. -/
def ProductOp.apply : ProductOp → Float → Float → Float
  | multiply, a, b => a * b
  | divide, a, b => a / b
  | less, a, b => truth (a < b)
  | lessEq, a, b => truth (a ≤ b)
  | greater, a, b => truth (b < a)
  | greaterEq, a, b => truth (b ≤ a)
  | equal, a, b => truth (a == b)

/-- The operator that a token is between two products. -/
def Token.sumOp? : Token → Option SumOp
  | plus => some .add
  | minus => some .subtract
  | _ => none

/-- The operator that a token is between two factors. -/
def Token.productOp? : Token → Option ProductOp
  | times op => some op
  | _ => none

theorem Token.ne_done_of_sumOp? {t : Token} {op : SumOp} (h : t.sumOp? = some op) :
    t ≠ done := by
  rintro rfl
  cases h

theorem Token.ne_done_of_productOp? {t : Token} {op : ProductOp} (h : t.productOp? = some op) :
    t ≠ done := by
  rintro rfl
  cases h

end Formula
