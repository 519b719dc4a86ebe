import Formula.Scope.Basic
import Formula.Token.Basic

/-!
# The grammar of formulas

A formula as a tree, one type for each level of the grammar.  A tree spells a sequence of tokens
(`tokens`), nests brackets to some depth (`nesting`) and has a value under a scope (`value`); none
of the three refers to how formulas are read.
-/

namespace Formula.Grammar

mutual

/-- Products with signs of addition and subtraction between them. -/
inductive Sum where
  | single (product : Product)
  | more (left : Sum) (op : SumOp) (right : Product)

/-- Signed terms with operators of a product between them. -/
inductive Product where
  | single (factor : Signed)
  | more (left : Product) (op : ProductOp) (right : Signed)

/-- A term behind any number of minus signs. -/
inductive Signed where
  | signed (minuses : Nat) (term : Term)

/-- What operators stand between. -/
inductive Term where
  | number (value : Float)
  | bracket (inner : Sum)
  | call (function : String) (argument : Sum)
  | variable (name : String)

end

/-! ## Spelling -/

mutual

/-- The tokens of a sum. -/
def Sum.tokens : Sum → List Token
  | .single product => product.tokens
  | .more left .add right => left.tokens ++ .plus :: right.tokens
  | .more left .subtract right => left.tokens ++ .minus :: right.tokens

/-- The tokens of a product. -/
def Product.tokens : Product → List Token
  | .single factor => factor.tokens
  | .more left op right => left.tokens ++ .times op :: right.tokens

/-- The tokens of a signed term. -/
def Signed.tokens : Signed → List Token
  | .signed minuses term => List.replicate minuses .minus ++ term.tokens

/-- The tokens of a term. -/
def Term.tokens : Term → List Token
  | .number value => [.number value]
  | .bracket inner => .openBracket :: (inner.tokens ++ [.closeBracket])
  | .call function argument =>
    .name .function function :: .openBracket :: (argument.tokens ++ [.closeBracket])
  | .variable name => [.name .variable name]

end

/-! ## Nesting -/

mutual

/-- How many brackets of a sum are nested in one another at most. -/
def Sum.nesting : Sum → Nat
  | .single product => product.nesting
  | .more left _ right => max left.nesting right.nesting

/-- How many brackets of a product are nested in one another at most. -/
def Product.nesting : Product → Nat
  | .single factor => factor.nesting
  | .more left _ right => max left.nesting right.nesting

/-- How many brackets of a signed term are nested in one another at most. -/
def Signed.nesting : Signed → Nat
  | .signed _ term => term.nesting

/-- How many brackets of a term are nested in one another at most. -/
def Term.nesting : Term → Nat
  | .number _ => 0
  | .bracket inner => inner.nesting + 1
  | .call _ argument => argument.nesting + 1
  | .variable _ => 0

end

/-! ## Value -/

variable {σ : Type}

mutual

/-- The value of a sum, from left to right. -/
def Sum.value (scope : Scope σ) : Sum → Step σ Float
  | .single product => product.value scope
  | .more left op right => do
    let a ← left.value scope
    let b ← right.value scope
    return op.apply a b

/-- The value of a product, from left to right. -/
def Product.value (scope : Scope σ) : Product → Step σ Float
  | .single factor => factor.value scope
  | .more left op right => do
    let a ← left.value scope
    let b ← right.value scope
    return op.apply a b

/-- The value of a signed term: that of the term, negated if the number of signs is odd. -/
def Signed.value (scope : Scope σ) : Signed → Step σ Float
  | .signed minuses term => do
    let a ← term.value scope
    return if minuses % 2 = 1 then -a else a

/-- The value of a term.  A function is looked up before its argument has a value and called with
that value. -/
def Term.value (scope : Scope σ) : Term → Step σ Float
  | .number value => pure value
  | .bracket inner => inner.value scope
  | .call function argument => do
    let callback ← scope.find function
    let x ← argument.value scope
    callback x
  | .variable name => scope.value name

end

end Formula.Grammar
