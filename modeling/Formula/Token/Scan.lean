import Formula.Literal.Scan
import Formula.Token.Basic

/-!
# Reading tokens

`Token.next` reads one token from the front of the remaining bytes.  A NUL byte ends the text just
as its end does, and is never stepped over, so that the end can be read again and again.  Every
other token takes at least one byte (`length_lt_of_next`).
-/

namespace Formula.Token

/-- Reads a name of fewer than `size` bytes; a longer one is refused, not cut. -/
def scanName (role : Role) (size : Nat) : Scan Token := fun bytes =>
  if (bytes.takeWhile Byte.isName).length ≤ size - 1 then
    .ok (.name role (Byte.ascii (bytes.takeWhile Byte.isName))) (bytes.dropWhile Byte.isName)
  else .error .nameTooLong (bytes.drop (size - 1))

/-- Reads one equals sign if there is one, and chooses between two tokens by that. -/
def orEquals (without withEquals : Token) : Scan Token
  | 0x3D :: bytes => .ok withEquals bytes
  | bytes => .ok without bytes

/-- Reads the rest of a token that begins with the byte `b`, neither a literal nor a function
name. -/
def scanSymbol (size : Nat) (b : UInt8) : Scan Token :=
  match Char.ofUInt8 b with
  | '$' => scanName .variable size
  | '>' => orEquals (.times .greater) (.times .greaterEq)
  | '<' => orEquals (.times .less) (.times .lessEq)
  | '=' => orEquals (.times .equal) (.times .equal)
  | '+' => pure .plus
  | '-' => pure .minus
  | '*' => pure (.times .multiply)
  | '/' => pure (.times .divide)
  | '(' => pure .openBracket
  | ')' => pure .closeBracket
  | _ => throw .illegalCharacter

/-- Reads the next token.  `size` is the room for a name. -/
def next (size : Nat) : Scan Token
  | [] => .ok .done []
  | b :: bytes =>
    if b = 0 then .ok .done (b :: bytes)
    else if Byte.isSeparator b then next size bytes
    else if Byte.isDigit b || b == 0x2E then
      (Literal.scan >>= fun l => pure (.number l.value)) (b :: bytes)
    else if Byte.isNameStart b then scanName .function size (b :: bytes)
    else scanSymbol size b bytes

/-! ## Reading a token steps forward -/

theorem leaves_scanName (role : Role) (size : Nat) : (scanName role size).Leaves := by
  intro bytes t rest h
  unfold scanName at h
  split at h <;> cases h
  exact List.dropWhile_suffix _

theorem leaves_orEquals (s t : Token) : (orEquals s t).Leaves := by
  intro bytes t rest h
  unfold orEquals at h
  split at h <;> cases h
  · exact List.suffix_cons _ _
  · exact List.suffix_refl _

theorem leaves_scanSymbol (size : Nat) (b : UInt8) : (scanSymbol size b).Leaves := by
  unfold scanSymbol
  split
  · exact leaves_scanName _ _
  · exact leaves_orEquals _ _
  · exact leaves_orEquals _ _
  · exact leaves_orEquals _ _
  iterate 6 exact .pure _
  · intro bytes t rest h; cases h

/-- How many bytes a token has at least: none for the end and one for every other token. -/
def weight : Token → Nat
  | done => 0
  | _ => 1

theorem weight_le_one (t : Token) : t.weight ≤ 1 := by
  cases t <;> simp [weight]

theorem weight_add_length_le_of_next {size : Nat} {bytes rest : List UInt8} {t : Token}
    (h : next size bytes = .ok t rest) : t.weight + rest.length ≤ bytes.length := by
  have one := weight_le_one t
  fun_induction next size bytes with
  | case1 => cases h; simp [weight]
  | case2 => cases h; simp [weight]
  | case3 _ _ _ _ ih => have := ih h; simp only [List.length_cons]; omega
  | case4 b bytes _ _ hb =>
    obtain ⟨l, mid, hl, hp⟩ := Step.bind_eq_ok.1 h
    cases hp
    have := Literal.length_lt_of_scan hb hl
    omega
  | case5 b bytes _ _ _ hb =>
    have hn : Byte.isName b := by simp [Byte.isName, hb]
    unfold scanName at h
    split at h <;> cases h
    have := (List.dropWhile_suffix Byte.isName (l := bytes)).length_le
    simp only [List.dropWhile_cons_of_pos hn, List.length_cons]
    omega
  | case6 =>
    have := (leaves_scanSymbol _ _ _ _ _ h).length_le
    simp only [List.length_cons]
    omega

/-- Every token but the end takes at least one byte. -/
theorem length_lt_of_next {size : Nat} {bytes rest : List UInt8} {t : Token}
    (h : next size bytes = .ok t rest) (ht : t ≠ done) : rest.length < bytes.length := by
  have hw : t.weight = 1 := by
    cases t <;> simp_all [weight]
  have := weight_add_length_le_of_next h
  omega

end Formula.Token
