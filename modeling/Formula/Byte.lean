/-!
# Bytes of a formula

A formula is read as bytes.  Every byte with a meaning is an ASCII character, so the classes below
are ranges of codes; bytes from 128 on, which only occur inside other characters, are in none.
-/

namespace Formula

/-- The bytes of a text in UTF-8. -/
def bytesOf (text : String) : List UInt8 :=
  text.toUTF8.data.toList

namespace Byte

/-- The bytes that stand between tokens: the space and the control characters, except NUL. -/
def isSeparator (b : UInt8) : Bool :=
  0 < b && b ≤ 0x20

/-- The digits `0` to `9`. -/
def isDigit (b : UInt8) : Bool :=
  0x30 ≤ b && b ≤ 0x39

/-- The value of a digit. -/
def digitValue (b : UInt8) : Nat :=
  (b - 0x30).toNat

/-- The letters `A` to `Z` and `a` to `z`. -/
def isLetter (b : UInt8) : Bool :=
  (0x41 ≤ b && b ≤ 0x5A) || (0x61 ≤ b && b ≤ 0x7A)

/-- The bytes that a function name begins with: letters and the underscore. -/
def isNameStart (b : UInt8) : Bool :=
  isLetter b || b == 0x5F

/-- The bytes of a name: letters, the underscore and digits. -/
def isName (b : UInt8) : Bool :=
  isNameStart b || isDigit b

/-- The text spelled by ASCII bytes. -/
def ascii (bytes : List UInt8) : String :=
  String.ofList (bytes.map Char.ofUInt8)

end Byte

end Formula
