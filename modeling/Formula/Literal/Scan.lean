import Formula.Byte
import Formula.Literal.Basic
import Formula.Scan

/-!
# Reading literals

The grammar of literals is `(D+ | D* '.' D+) ([eE] [+-]? D+)?` with `D` a digit.  The scanner never
goes back: once the point, the exponent mark or the sign is read, digits have to follow.  The
exponent is kept within 64 bits with a sign; leaving that range at any digit is a fault.

Every part of a literal is read by a scanner of its own, and each steps forward only; a literal as a
whole takes at least one byte (`length_lt_of_scan`).
-/

namespace Formula.Literal

/-- The bound on decimal exponents, two to the power 63: they lie in the range from
`-exponentBound` up to, and without, `exponentBound`. -/
def exponentBound : Nat := 0x8000000000000000

/-- Does the text go on with a digit? -/
def beginsWithDigit : List UInt8 → Bool
  | [] => false
  | b :: _ => Byte.isDigit b

/-- Reads a run of digits, possibly empty. -/
def scanDigits : Scan (List Nat) := fun bytes =>
  .ok ((bytes.takeWhile Byte.isDigit).map Byte.digitValue) (bytes.dropWhile Byte.isDigit)

/-- Reads the digits behind a point, if there is one.  More of them than a 64-bit exponent can
count are out of range. -/
def scanFraction : Scan (List Nat)
  | 0x2E :: bytes =>
    if !beginsWithDigit bytes then .error .invalidLiteral bytes
    else if (bytes.takeWhile Byte.isDigit).length ≤ exponentBound then scanDigits bytes
    else .error .literalOutOfRange (bytes.drop (exponentBound + 1))
  | bytes => .ok [] bytes

/-- Reads the sign of an exponent, if there is one; the answer is whether it is a minus. -/
def scanSign : Scan Bool
  | 0x2D :: bytes => .ok true bytes
  | 0x2B :: bytes => .ok false bytes
  | bytes => .ok false bytes

/-- Reads the digits of an exponent behind those that spell `magnitude`, and stops at the digit
that takes it out of range. -/
def scanMagnitude (magnitude : Nat) : Scan Nat
  | [] => .ok magnitude []
  | b :: bytes =>
    if Byte.isDigit b then
      let magnitude := 10 * magnitude + Byte.digitValue b
      if magnitude < exponentBound then scanMagnitude magnitude bytes
      else .error .literalOutOfRange bytes
    else .ok magnitude (b :: bytes)

/-- Reads the digits of an exponent, at least one. -/
def scanUnsigned : Scan Nat := fun bytes =>
  if beginsWithDigit bytes then scanMagnitude 0 bytes else .error .invalidLiteral bytes

/-- Reads an exponent behind its mark. -/
def scanSigned : Scan Int := do
  let negative ← scanSign
  let magnitude ← scanUnsigned
  return if negative then -(magnitude : Int) else magnitude

/-- Reads an exponent with its mark, if there is one; without a mark the exponent is 0. -/
def scanExponent : Scan Int
  | 0x65 :: bytes => scanSigned bytes
  | 0x45 :: bytes => scanSigned bytes
  | bytes => .ok 0 bytes

/-- Does an exponent lie in the range of exponents? -/
def inRange (exponent : Int) : Bool :=
  -(exponentBound : Int) ≤ exponent && exponent < exponentBound

/-- Reads a literal; the text has to begin with a digit or a point. -/
def scan : Scan Literal := do
  let whole ← scanDigits
  let fraction ← scanFraction
  let written ← scanExponent
  let exponent := written - (fraction.length : Int)
  if inRange exponent then return { digits := whole ++ fraction, exponent }
  else throw .literalOutOfRange

/-! ## Reading a literal steps forward -/

theorem leaves_scanDigits : scanDigits.Leaves := by
  intro bytes a rest h
  cases h
  exact List.dropWhile_suffix _

theorem leaves_scanFraction : scanFraction.Leaves := by
  intro bytes a rest h
  unfold scanFraction at h
  split at h
  · split at h
    · cases h
    · split at h
      · exact (leaves_scanDigits _ _ _ h).trans (List.suffix_cons _ _)
      · cases h
  · cases h; exact List.suffix_refl _

theorem leaves_scanSign : scanSign.Leaves := by
  intro bytes a rest h
  unfold scanSign at h
  split at h <;> cases h
  · exact List.suffix_cons _ _
  · exact List.suffix_cons _ _
  · exact List.suffix_refl _

theorem leaves_scanMagnitude (magnitude : Nat) : (scanMagnitude magnitude).Leaves := by
  intro bytes a rest h
  fun_induction scanMagnitude magnitude bytes with
  | case1 => cases h; exact List.suffix_refl _
  | case2 _ _ _ _ _ _ ih => exact (ih h).trans (List.suffix_cons _ _)
  | case3 => cases h
  | case4 => cases h; exact List.suffix_refl _

theorem leaves_scanUnsigned : scanUnsigned.Leaves := by
  intro bytes a rest h
  unfold scanUnsigned at h
  split at h
  · exact leaves_scanMagnitude 0 _ _ _ h
  · cases h

theorem leaves_scanSigned : scanSigned.Leaves :=
  leaves_scanSign.bind fun _ => leaves_scanUnsigned.bind fun _ => .pure _

theorem leaves_scanExponent : scanExponent.Leaves := by
  intro bytes a rest h
  unfold scanExponent at h
  split at h
  · exact (leaves_scanSigned _ _ _ h).trans (List.suffix_cons _ _)
  · exact (leaves_scanSigned _ _ _ h).trans (List.suffix_cons _ _)
  · cases h; exact List.suffix_refl _

/-- A literal takes at least the byte that it begins with. -/
theorem length_lt_of_scan {b : UInt8} {bytes rest : List UInt8} {l : Literal}
    (hb : Byte.isDigit b || b == 0x2E) (h : scan (b :: bytes) = .ok l rest) :
    rest.length < (b :: bytes).length := by
  obtain ⟨whole, mid, h₁, h⟩ := Step.bind_eq_ok.1 h
  obtain ⟨fraction, mid₂, h₂, h⟩ := Step.bind_eq_ok.1 h
  obtain ⟨written, mid₃, h₃, h⟩ := Step.bind_eq_ok.1 h
  have hmid : rest = mid₃ := by
    split at h <;> cases h; rfl
  subst hmid
  have hlast := (leaves_scanExponent _ _ _ h₃).length_le
  cases h₁
  by_cases hd : Byte.isDigit b
  · have := (leaves_scanFraction _ _ _ h₂).length_le
    rw [List.dropWhile_cons_of_pos hd] at this
    have := (List.dropWhile_suffix Byte.isDigit (l := bytes)).length_le
    simp only [List.length_cons]
    omega
  · simp only [hd, Bool.false_or, beq_iff_eq] at hb
    subst hb
    simp only [List.dropWhile_cons_of_neg hd, scanFraction] at h₂
    split at h₂
    · cases h₂
    · split at h₂
      · have := (leaves_scanDigits _ _ _ h₂).length_le
        simp only [List.length_cons]
        omega
      · cases h₂

end Formula.Literal
