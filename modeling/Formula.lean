import Formula.Byte
import Formula.Decimal.Positional
import Formula.Decimal.Shortest
import Formula.Demonstration
import Formula.Evaluation.Bounded
import Formula.Evaluation.Rules
import Formula.Evaluation.Run
import Formula.Evaluation.State
import Formula.Fault
import Formula.Grammar
import Formula.Host.Callback
import Formula.Host.Sensors
import Formula.Host.Tally
import Formula.Limits
import Formula.Literal.Basic
import Formula.Literal.Scan
import Formula.Proofs.Byte
import Formula.Proofs.Evaluation.Activations
import Formula.Proofs.Evaluation.Correctness
import Formula.Proofs.Evaluation.Cursor
import Formula.Proofs.Evaluation.Depth
import Formula.Proofs.Evaluation.Ending
import Formula.Proofs.Evaluation.Failing
import Formula.Proofs.Evaluation.Fragment
import Formula.Proofs.Evaluation.Independence
import Formula.Proofs.Evaluation.Invariant
import Formula.Proofs.Evaluation.Limits
import Formula.Proofs.Evaluation.Lookups
import Formula.Proofs.Evaluation.Misplaced
import Formula.Proofs.Evaluation.Names
import Formula.Proofs.Evaluation.Pending
import Formula.Proofs.Evaluation.Protocol
import Formula.Proofs.Evaluation.Questions
import Formula.Proofs.Evaluation.Quotient
import Formula.Proofs.Evaluation.Record
import Formula.Proofs.Evaluation.Relation
import Formula.Proofs.Evaluation.Separators
import Formula.Proofs.Evaluation.Substitution
import Formula.Proofs.Evaluation.Termination
import Formula.Proofs.Evaluation.Variables
import Formula.Proofs.Evaluation.WholeNames
import Formula.Proofs.Float.Arithmetic
import Formula.Proofs.Float.Nearest
import Formula.Proofs.Float.Normalize
import Formula.Proofs.Float.Rounding
import Formula.Proofs.Grammar.Continuation
import Formula.Proofs.Grammar.Fragment
import Formula.Proofs.Grammar.Limits
import Formula.Proofs.Grammar.Reading
import Formula.Proofs.Grammar.Sentence
import Formula.Proofs.Grammar.Viable
import Formula.Proofs.Host.Sensors
import Formula.Proofs.Literal.Longest
import Formula.Proofs.Literal.Overflow
import Formula.Proofs.Literal.Phase
import Formula.Proofs.Literal.Powers
import Formula.Proofs.Literal.Range
import Formula.Proofs.Literal.Reading
import Formula.Proofs.Literal.Spelling
import Formula.Proofs.Literal.Value
import Formula.Proofs.Literal.Whole
import Formula.Proofs.Literal.Zero
import Formula.Proofs.Scope.Events
import Formula.Proofs.Scope.Recorded
import Formula.Proofs.Step
import Formula.Proofs.Table.Edits
import Formula.Proofs.Table.Lineage
import Formula.Proofs.Token.Append
import Formula.Proofs.Token.Boundary
import Formula.Proofs.Token.Faults
import Formula.Proofs.Token.Limits
import Formula.Proofs.Token.Locality
import Formula.Proofs.Token.Next
import Formula.Proofs.Token.Reading
import Formula.Proofs.Token.Sequence
import Formula.Proofs.Token.Spelling
import Formula.Proofs.Token.Tiling
import Formula.Proofs.Token.WholeName
import Formula.Scan
import Formula.Scope.Basic
import Formula.Scope.Builtin
import Formula.Scope.Context
import Formula.Scope.Recorded
import Formula.Scope.Scripted
import Formula.Step
import Formula.Table.Basic
import Formula.Table.Shelf
import Formula.Token.Basic
import Formula.Token.Scan
import Formula.Token.Sequence
