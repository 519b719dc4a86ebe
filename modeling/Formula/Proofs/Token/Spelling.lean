import Formula.Proofs.Literal.Spelling
import Formula.Proofs.Token.Sequence

/-!
# Texts of tokens

Every token but the end has its spellings (`Spells`), and a list of tokens is written by joining
spellings with separators in between (`Joined`).  Separators may be left out only next to one of
`+`, `-`, `*`, `/` and the brackets (`Token.delimits`): no other token goes on with these, and they
go on with nothing.

* `next_of_spells` — a spelling is read whole and as its token where nothing goes on with it.
* `fetched_of_spelling` — lexing undoes spelling: readings of a token give the tokens that were
  written and then the end, again and again.
-/

namespace Formula

open Byte

/-- The bytes that no whole token before them goes on with: the separators, `+`, `-`, `*`, `/` and
the brackets, and NUL, which ends the text. -/
def Byte.delimits (b : UInt8) : Bool :=
  b ≤ 0x20 || (0x28 ≤ b && b ≤ 0x2B) || b == 0x2D || b == 0x2F

namespace Byte

theorem lt_of_delimits {b : UInt8} (h : delimits b) : b < 0x30 ∧ b ≠ 0x2E := by
  simp only [delimits, Bool.or_eq_true, Bool.and_eq_true, decide_eq_true_eq, beq_iff_eq] at h
  grind

theorem delimits_of_isSeparator {b : UInt8} (h : isSeparator b) : delimits b := by
  simp only [isSeparator, Bool.and_eq_true, decide_eq_true_eq] at h
  simp [delimits, h.2]

/-- The bytes of names, digits among them, are from the first digit on. -/
theorem isName_eq_false {b : UInt8} (h : b < 0x30) : isName b = false := by
  simp only [isName, isNameStart, isLetter, isDigit, Bool.or_eq_false_iff, Bool.and_eq_false_iff,
    decide_eq_false_iff_not, beq_eq_false_iff_ne]
  grind

theorem isDigit_eq_false {b : UInt8} (h : b < 0x30) : isDigit b = false :=
  (Bool.or_eq_false_iff.1 (isName_eq_false h)).2

theorem ne_zero_of_isNameStart {b : UInt8} (h : isNameStart b) : b ≠ 0 := by
  rintro rfl
  cases h

end Byte

theorem Literal.stops_of_delimits {rest : List UInt8} (h : Byte.delimits (peek rest)) :
    Literal.Stops rest := by
  obtain ⟨hlt, hne⟩ := lt_of_delimits h
  refine ⟨isDigit_eq_false hlt, beq_false_of_ne hne, ?_, ?_⟩
  all_goals
    rw [beq_eq_false_iff_ne]
    grind

namespace Token

/-! ## Spellings -/

/-- The tokens that need no separator before or behind them: `+`, `-`, `*`, `/` and the brackets. -/
def delimits : Token → Bool
  | plus | minus | times .multiply | times .divide | openBracket | closeBracket => true
  | _ => false

/-- The spellings of a token, where there is room for names of less than `size` bytes.  Equality may
be written with one equals sign or two, and the name of a variable may be empty. -/
inductive Spells (size : Nat) : Token → List UInt8 → Prop
  | plus : Spells size .plus [0x2B]
  | minus : Spells size .minus [0x2D]
  | multiply : Spells size (.times .multiply) [0x2A]
  | divide : Spells size (.times .divide) [0x2F]
  | openBracket : Spells size .openBracket [0x28]
  | closeBracket : Spells size .closeBracket [0x29]
  | less : Spells size (.times .less) [0x3C]
  | lessEq : Spells size (.times .lessEq) [0x3C, 0x3D]
  | greater : Spells size (.times .greater) [0x3E]
  | greaterEq : Spells size (.times .greaterEq) [0x3E, 0x3D]
  | equal : Spells size (.times .equal) [0x3D]
  | doubleEqual : Spells size (.times .equal) [0x3D, 0x3D]
  | number (s : Literal.Spelling) (h : s.InRange) : Spells size (.number s.literal.value) s.bytes
  | function (text : String) (first : isNameStart (peek (bytesOf text)))
      (all : ∀ b ∈ bytesOf text, isName b) (fits : (bytesOf text).length ≤ size - 1) :
      Spells size (.name .function text) (bytesOf text)
  | variable (text : String) (all : ∀ b ∈ bytesOf text, isName b)
      (fits : (bytesOf text).length ≤ size - 1) :
      Spells size (.name .variable text) (0x24 :: bytesOf text)

/-- Texts that spell a list of tokens, each with separators behind it, and with none only next to a
token that needs none or at the end. -/
inductive Joined (size : Nat) : List Token → List UInt8 → Prop
  | nil : Joined size [] []
  | cons {t : Token} {tokens : List Token} {spelling rest : List UInt8} (gap : List UInt8)
      (spells : Spells size t spelling) (separators : ∀ b ∈ gap, isSeparator b)
      (apart : gap = [] → t.delimits ∨ ∀ u ∈ tokens.head?, u.delimits)
      (joined : Joined size tokens rest) :
      Joined size (t :: tokens) (spelling ++ (gap ++ rest))

/-! ## Reading a spelling -/

section Spells

variable {size : Nat} {t : Token} {spelling rest : List UInt8}

theorem next_literal (s : Literal.Spelling) (size : Nat) (rest : List UInt8) :
    next size (s.bytes ++ rest) =
      (Literal.scan >>= fun l => (pure (.number l.value) : Scan Token)) (s.bytes ++ rest) := by
  obtain ⟨b, bytes, hs, hb⟩ := s.exists_cons
  rw [hs]
  exact next_number hb size _

/-- A spelling is read as its token where nothing goes on with it. -/
theorem next_of_spells (h : Spells size t spelling)
    (hr : t.delimits ∨ Byte.delimits (peek rest)) : next size (spelling ++ rest) = .ok t rest := by
  cases h with
  | plus | minus | multiply | divide | openBracket | closeBracket => rfl
  | lessEq | greaterEq | doubleEqual => rfl
  | less | greater | equal =>
    have hd := lt_of_delimits (hr.resolve_left nofun)
    exact (next_symbol rfl size rest).trans (orEquals_of_ne (by grind) _ _)
  | number s hs =>
    have hd := Literal.stops_of_delimits (hr.resolve_left nofun)
    rw [next_literal, Step.bind_of_ok (Literal.scan_of_inRange hs (hd.ends s))]
    rfl
  | function text first all fits =>
    have hd := lt_of_delimits (hr.resolve_left nofun)
    obtain ⟨bytes, hb⟩ := exists_cons_of_peek rfl (ne_zero_of_isNameStart first)
    refine Eq.trans ?_ (scanName_text all fits (isName_eq_false hd.1) .function)
    rw [hb]
    exact next_function first size (bytes ++ rest)
  | «variable» text all fits =>
    have hd := lt_of_delimits (hr.resolve_left nofun)
    exact (next_symbol rfl size _).trans (scanName_text all fits (isName_eq_false hd.1) _)

end Spells

/-! ## Reading a list of tokens -/

section Joined

variable {size : Nat} {tokens : List Token} {gap text : List UInt8}

/-- A token that needs no separator is spelled with one byte, which nothing goes on with. -/
theorem Spells.delimits_peek {t : Token} {spelling : List UInt8} (h : Spells size t spelling)
    (ht : t.delimits) (rest : List UInt8) : Byte.delimits (peek (spelling ++ rest)) := by
  cases h with
  | plus | minus | multiply | divide | openBracket | closeBracket => rfl
  | _ => cases ht

/-- What may stand behind a token does not go on with it. -/
theorem Joined.apart (h : Joined size tokens text) (hg : ∀ b ∈ gap, isSeparator b)
    {t : Token} (ha : gap = [] → t.delimits ∨ ∀ u ∈ tokens.head?, u.delimits) :
    t.delimits ∨ Byte.delimits (peek (gap ++ text)) := by
  cases gap with
  | cons b gap => exact .inr (delimits_of_isSeparator (hg b (List.mem_cons_self ..)))
  | nil =>
    refine (ha rfl).imp_right fun hu => ?_
    cases h with
    | nil => rfl
    | cons _ spells => exact spells.delimits_peek (hu _ rfl) _

theorem fetched_separators (hg : ∀ b ∈ gap, isSeparator b) (size n : Nat) (bytes : List UInt8) :
    fetched size n (gap ++ bytes) = fetched size n bytes := by
  cases n with
  | zero => rfl
  | succ n => rw [fetched, fetched, next_separators hg]

theorem fetched_nil (size n : Nat) : fetched size n [] = List.replicate n done := by
  induction n with
  | zero => rfl
  | succ n ih => rw [fetched_of_ok (next_of_peek peek_nil size), ih, List.replicate_succ]

theorem fetched_of_joined (h : Joined size tokens text) (n : Nat) :
    fetched size (tokens.length + n) text = tokens ++ List.replicate n done := by
  induction h with
  | nil => rw [List.length_nil, Nat.zero_add, fetched_nil, List.nil_append]
  | cons gap spells separators apart joined ih =>
    rw [List.length_cons, Nat.add_right_comm,
      fetched_of_ok (next_of_spells spells (joined.apart separators apart)),
      fetched_separators separators, ih, List.cons_append]

/-- Alone, a literal is read as its value where it is in range, and refused where it is not. -/
theorem next_literal_alone (s : Literal.Spelling) (size : Nat) :
    s.InRange ∧ next size s.bytes = .ok (.number s.literal.value) [] ∨
      ¬ s.InRange ∧ ∃ rest, next size s.bytes = .error .literalOutOfRange rest := by
  have hr : s.Ends [] := Literal.Stops.ends ⟨rfl, rfl, rfl, rfl⟩ s
  have hn := next_literal s size []
  by_cases h : s.InRange
  · have hs : next size (s.bytes ++ []) = .ok (.number s.literal.value) [] :=
      hn.trans (Step.bind_of_ok (Literal.scan_of_inRange h hr))
    exact .inl ⟨h, by rwa [List.append_nil] at hs⟩
  · obtain ⟨rest, hs⟩ := Literal.scan_of_not_inRange h hr
    have hs : next size (s.bytes ++ []) = .error .literalOutOfRange rest :=
      hn.trans (Step.bind_of_error hs)
    exact .inr ⟨h, rest, by rwa [List.append_nil] at hs⟩

/-- Lexing undoes spelling.  Tokens that are joined in a text, possibly with separators in front, are
read one after the other, and then the end however often the reading is repeated.  A literal is read
as the number that it gives alone, and it gives one alone exactly if its exponent is in range. -/
theorem fetched_of_spelling (size : Nat) :
    (∀ tokens gap text, (∀ b ∈ gap, isSeparator b) → Joined size tokens text →
      ∀ n, fetched size (tokens.length + n) (gap ++ text) = tokens ++ List.replicate n done) ∧
    ∀ s : Literal.Spelling,
      s.InRange ∧ next size s.bytes = .ok (.number s.literal.value) [] ∨
        ¬ s.InRange ∧ ∃ rest, next size s.bytes = .error .literalOutOfRange rest := by
  refine ⟨fun tokens gap text hg h n => ?_, fun s => next_literal_alone s size⟩
  rw [fetched_separators hg, fetched_of_joined h]

/-- The plus sign of an exponent is no operator, and a dollar sign alone is a token. -/
theorem fetched_power :
    fetched 32 (5 + 2) (bytesOf " $ <=\t1e+5+f ") =
      [.name .variable "", .times .lessEq, .number (Literal.value ⟨[1], 5⟩), .plus,
        .name .function "f", .done, .done] := by
  have all {p : UInt8 → Bool} {bytes : List UInt8} (h : bytes.all p) : ∀ b ∈ bytes, p b :=
    List.all_eq_true.1 h
  have dollar : Spells 32 (.name .variable "") (bytesOf "$") :=
    .variable "" (all rfl) (by decide)
  have power : Spells 32 (.number (Literal.value ⟨[1], 5⟩)) (bytesOf "1e+5") :=
    .number ⟨[0x31], List.all_eq_true.1 rfl, none,
        some ⟨false, some .plus, ⟨[0x35], List.all_eq_true.1 rfl, nofun⟩⟩, .inl nofun⟩
      ⟨by decide, by rintro p ⟨⟩; decide, by decide⟩
  have f : Spells 32 (.name .function "f") (bytesOf "f") :=
    .function "f" rfl (all rfl) (by decide)
  exact (fetched_of_spelling 32).1 _ [0x20] _ (all rfl)
    (.cons [0x20] dollar (all rfl) nofun
      (.cons [0x09] .lessEq (all rfl) nofun
        (.cons [] power nofun (fun _ => .inr (by rintro u ⟨⟩; rfl))
          (.cons [] .plus nofun (fun _ => .inl rfl)
            (.cons [0x20] f (all rfl) nofun .nil))))) 2

end Joined

end Token

end Formula
