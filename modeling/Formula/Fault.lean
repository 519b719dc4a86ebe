/-!
# Faults: what can stop an evaluation

There are eleven faults and no nesting of causes: the first one met ends the evaluation, and a
fault raised by a host's callback is passed on as it is.  Every fault has a number, a title and a
message, and a number determines its fault (`ofCode?_code`, `code_of_ofCode?`).
-/

namespace Formula

/-- What can stop an evaluation. -/
inductive Fault where
  /-- A byte that no token can begin with. -/
  | illegalCharacter
  /-- A literal that breaks off: digits are missing after the point or in the exponent. -/
  | invalidLiteral
  /-- A literal whose decimal exponent does not fit in 64 bits. -/
  | literalOutOfRange
  /-- A name that does not fit in the size given to names. -/
  | nameTooLong
  /-- A complete expression followed by something else. -/
  | unexpectedCharacter
  /-- A token that cannot begin a term, where a term has to stand. -/
  | expectedTerm
  /-- More nested expressions than the limit allows. -/
  | stackOverflow
  /-- A function that nothing defines. -/
  | undefinedFunction
  /-- A variable that nothing defines. -/
  | undefinedVariable
  /-- A function name that is not followed by an opening bracket. -/
  | expectedOpenBracket
  /-- An expression inside a bracket that is not followed by the closing one. -/
  | expectedCloseBracket
  deriving DecidableEq, Repr

namespace Fault

/-- The number of a fault, from 1 to 11; 0 stands for success. -/
def code : Fault → Nat
  | illegalCharacter => 1
  | invalidLiteral => 2
  | literalOutOfRange => 3
  | nameTooLong => 4
  | unexpectedCharacter => 5
  | expectedTerm => 6
  | stackOverflow => 7
  | undefinedFunction => 8
  | undefinedVariable => 9
  | expectedOpenBracket => 10
  | expectedCloseBracket => 11

/-- The fault with the given number. -/
def ofCode? : Nat → Option Fault
  | 1 => some illegalCharacter
  | 2 => some invalidLiteral
  | 3 => some literalOutOfRange
  | 4 => some nameTooLong
  | 5 => some unexpectedCharacter
  | 6 => some expectedTerm
  | 7 => some stackOverflow
  | 8 => some undefinedFunction
  | 9 => some undefinedVariable
  | 10 => some expectedOpenBracket
  | 11 => some expectedCloseBracket
  | _ => none

theorem ofCode?_code (f : Fault) : ofCode? f.code = some f := by
  cases f <;> rfl

theorem code_of_ofCode? {n : Nat} {f : Fault} (h : ofCode? n = some f) : f.code = n := by
  unfold ofCode? at h
  split at h <;> cases h <;> rfl

/-- The fault in words. -/
def message : Fault → String
  | illegalCharacter => "illegal character"
  | invalidLiteral => "invalid literal"
  | literalOutOfRange => "literal out-of-range"
  | nameTooLong => "name too long"
  | unexpectedCharacter => "unexpected character"
  | expectedTerm => "expected term"
  | stackOverflow => "stack overflow"
  | undefinedFunction => "undefined function"
  | undefinedVariable => "undefined variable"
  | expectedOpenBracket => "expected open bracket"
  | expectedCloseBracket => "expected close bracket"

/-- The fault as a single word, for lists of results. -/
def title : Fault → String
  | illegalCharacter => "IllegalCharacter"
  | invalidLiteral => "InvalidLiteral"
  | literalOutOfRange => "LiteralOutOfRange"
  | nameTooLong => "NameTooLong"
  | unexpectedCharacter => "UnexpectedCharacter"
  | expectedTerm => "ExpectedTerm"
  | stackOverflow => "StackOverflow"
  | undefinedFunction => "UndefinedFunction"
  | undefinedVariable => "UndefinedVariable"
  | expectedOpenBracket => "ExpectedOpenBracket"
  | expectedCloseBracket => "ExpectedCloseBracket"

/-- A result number in words: 0 is success, and a number of no fault is reported as such. -/
def messageOfCode (n : Nat) : String :=
  if n = 0 then "ok" else ((ofCode? n).map message).getD "undefined error"

end Fault

end Formula
