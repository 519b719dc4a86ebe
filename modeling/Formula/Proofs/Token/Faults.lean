import Formula.Proofs.Step
import Formula.Token.Sequence

/-!
# What can be wrong with a token

Reading a token fails with one of four faults, none of which any other part of an evaluation raises
by itself (`failsWith_next`).
-/

namespace Formula

/-- Is it a fault of a text that does not spell a token? -/
def Fault.isLexical : Fault → Bool
  | illegalCharacter | invalidLiteral | literalOutOfRange | nameTooLong => true
  | _ => false

/-- The faults of a text that does not spell a token. -/
abbrev Fault.Lexical (fault : Fault) : Prop :=
  fault.isLexical

/-- Is it a fault of a text that does not spell a literal? -/
def Fault.isOfLiteral : Fault → Bool
  | invalidLiteral | literalOutOfRange => true
  | _ => false

/-- The faults of a text that does not spell a literal. -/
abbrev Fault.OfLiteral (fault : Fault) : Prop :=
  fault.isOfLiteral

theorem Fault.lexical_of_literal (fault : Fault) (h : fault.OfLiteral) : fault.Lexical := by
  cases fault <;> first | rfl | cases h

open Step

namespace Literal

theorem failsWith_scanFraction : FailsWith Fault.OfLiteral scanFraction := by
  intro bytes fault rest h
  unfold scanFraction at h
  split at h
  · split at h
    · cases h
      rfl
    · split at h
      · cases h
      · cases h
        rfl
  · cases h

theorem failsWith_scanMagnitude (magnitude : Nat) :
    FailsWith Fault.OfLiteral (scanMagnitude magnitude) := by
  intro bytes fault rest h
  fun_induction scanMagnitude magnitude bytes with
  | case1 => cases h
  | case2 _ _ _ _ _ _ ih => exact ih h
  | case3 => cases h; rfl
  | case4 => cases h

theorem failsWith_scanUnsigned : FailsWith Fault.OfLiteral scanUnsigned := by
  intro bytes fault rest h
  unfold scanUnsigned at h
  split at h
  · exact failsWith_scanMagnitude 0 _ _ _ h
  · cases h
    rfl

theorem failsWith_scanSign : FailsWith Fault.OfLiteral scanSign := by
  intro bytes fault rest h
  unfold scanSign at h
  split at h <;> cases h

theorem failsWith_scanSigned : FailsWith Fault.OfLiteral scanSigned :=
  failsWith_scanSign.bind fun _ _ _ _ => failsWith_scanUnsigned.bind fun _ _ _ _ => .pure _

theorem failsWith_scanExponent : FailsWith Fault.OfLiteral scanExponent := by
  intro bytes fault rest h
  unfold scanExponent at h
  split at h
  · exact failsWith_scanSigned _ _ _ h
  · exact failsWith_scanSigned _ _ _ h
  · cases h

theorem failsWith_scan : FailsWith Fault.OfLiteral scan := by
  have hd : FailsWith Fault.OfLiteral scanDigits := by
    intro bytes fault rest h
    cases h
  refine hd.bind fun _ whole _ _ => failsWith_scanFraction.bind fun _ fraction _ _ =>
    failsWith_scanExponent.bind fun _ written _ _ => ?_
  dsimp only
  split
  · exact .pure _
  · exact .throw rfl

end Literal

namespace Token

theorem failsWith_scanName (role : Role) (size : Nat) :
    FailsWith Fault.Lexical (scanName role size) := by
  intro bytes fault rest h
  unfold scanName at h
  split at h <;> cases h
  rfl

theorem failsWith_scanSymbol (size : Nat) (b : UInt8) :
    FailsWith Fault.Lexical (scanSymbol size b) := by
  have ho (s t : Token) : FailsWith Fault.Lexical (orEquals s t) := by
    intro bytes fault rest h
    unfold orEquals at h
    split at h <;> cases h
  unfold scanSymbol
  split
  · exact failsWith_scanName _ _
  · exact ho _ _
  · exact ho _ _
  · exact ho _ _
  iterate 6 exact .pure _
  · exact .throw rfl

theorem failsWith_next (size : Nat) : FailsWith Fault.Lexical (next size) := by
  intro bytes fault rest h
  fun_induction next size bytes with
  | case1 => cases h
  | case2 => cases h
  | case3 _ _ _ _ ih => exact ih h
  | case4 =>
    have hl := Literal.failsWith_scan.mono Fault.lexical_of_literal
    exact (hl.bind fun _ _ _ _ => .pure _) _ _ _ h
  | case5 => exact failsWith_scanName _ _ _ _ _ h
  | case6 => exact failsWith_scanSymbol _ _ _ _ _ h

theorem lexical_of_sequence {size : Nat} {bytes : List UInt8} {fault : Fault}
    (h : (sequence size bytes).2 = some fault) : fault.Lexical := by
  fun_induction sequence size bytes with
  | case1 bytes fault' rest hn =>
    cases h
    exact failsWith_next size _ _ _ hn
  | case2 => cases h
  | case3 bytes token rest hn ht hl tokens fault' hs ih =>
    rw [hs] at ih
    exact ih h

end Token

end Formula
