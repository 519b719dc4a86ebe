import Formula.Proofs.Grammar.Sentence

/-!
# The token that cannot stand where it does

What has been read of a formula can always be completed, and what has been read with one token more
than can stand there cannot.  What is wrong with that token is told by the tokens before it: by the
last of them, and by how many brackets they leave open.

* `exists_viable`, `not_viable` — what has been read is the front part of a sentence, and with the
  token that cannot stand behind it, it is not.
* `fault_unexpectedCharacter_iff`, `fault_expectedOpenBracket_iff`,
  `fault_expectedCloseBracket_iff` — which fault it is.
-/

namespace Formula

/-- What has to come next in an expression. -/
inductive Next where
  /-- A minus sign or a term. -/
  | operand
  /-- The opening bracket of a call. -/
  | opening
  /-- An operator, a closing bracket or the end. -/
  | operator
  deriving DecidableEq

/-- What has to come next behind a token.  The end has nothing behind it. -/
def Token.following : Token → Next
  | .number _ | .closeBracket | .name .variable _ => .operator
  | .name .function _ => .opening
  | _ => .operand

namespace Grammar

/-- What has to come next at a place. -/
def Place.next : Place → Next
  | .operand _ => .operand
  | .opening _ _ => .opening
  | .operator _ _ => .operator

/-- What has to come next behind tokens. -/
def following (tokens : List Token) : Next :=
  (tokens.getLast?.map Token.following).getD .operand

@[simp]
theorem following_concat (front : List Token) (token : Token) :
    following (front ++ [token]) = token.following := by
  simp [following]

namespace Fragment

variable {P Q : Fragment} {token : Token} {before : List Token}

/-! ## What comes next -/

theorem next_of_next? (h : P.next? token = some Q) : Q.place.next = token.following := by
  cases grows_of_next? h with
  | sign sum product outer op => cases op <;> rfl
  | _ => rfl

/-- The last token decides what has to come next. -/
theorem next_of_through? (h : start.through? before = some P) :
    P.place.next = following before := by
  rcases List.eq_nil_or_concat before with rfl | ⟨front, token, rfl⟩
  · cases h
    rfl
  · rw [List.concat_eq_append, through?_append] at h
    obtain ⟨R, -, hR⟩ := Option.bind_eq_some_iff.1 h
    rw [through?_cons] at hR
    obtain ⟨S, hS, hR⟩ := Option.bind_eq_some_iff.1 hR
    cases hR
    rw [List.concat_eq_append, following_concat, next_of_next? hS]

/-- An opening bracket opens a bracket, a closing one closes it, and no other token does either. -/
theorem count_of_next? (h : P.next? token = some Q) :
    [token].count .openBracket + P.outer.length =
      [token].count .closeBracket + Q.outer.length := by
  cases grows_of_next? h with
  | bracket level outer => simp [Nat.add_comm]
  | call level outer function => simp [Nat.add_comm]
  | close sum product frame outer => simp [Nat.add_comm]
  | sign sum product outer op => cases op <;> simp [SumOp.token]
  | _ => simp

/-- The brackets that are open are those that have not been closed. -/
theorem count_of_through? (h : P.through? before = some Q) :
    before.count .openBracket + P.outer.length = before.count .closeBracket + Q.outer.length := by
  induction before generalizing P with
  | nil =>
    cases h
    rfl
  | cons token before ih =>
    rw [through?_cons] at h
    obtain ⟨R, hR, hQ⟩ := Option.bind_eq_some_iff.1 h
    have hs := count_of_next? hR
    have hc := ih hQ
    rw [← List.singleton_append, List.count_append, List.count_append]
    omega

/-! ## Completions -/

/-- What has been read is the front part of a sentence. -/
theorem exists_viable (h : start.through? before = some P) :
    ∃ tree : Sum, before <+: tree.tokens := by
  obtain ⟨tree, ht⟩ := P.exists_sentence
  rw [tokens_of_through? h, tokens_start, List.nil_append] at ht
  exact ⟨tree, ht⟩

/-- What can be read of a longer sequence can be read of a shorter one. -/
theorem through?_of_prefix {tokens : List Token} (h : start.through? tokens = some Q)
    (hb : before <+: tokens) : ∃ P, start.through? before = some P := by
  obtain ⟨rest, rfl⟩ := hb
  rw [through?_append] at h
  obtain ⟨P, hP, -⟩ := Option.bind_eq_some_iff.1 h
  exact ⟨P, hP⟩

/-- With a token that cannot stand behind it, what has been read is the front part of no sentence,
even if the end is counted to the sentence. -/
theorem not_viable (h : start.through? before = some P) (hn : P.next? token = none)
    (hd : token = .done → P.tree? = none) (tree : Sum) :
    ¬ before ++ [token] <+: tree.tokens ++ [.done] := by
  intro hp
  obtain ⟨Q, hQ, ht⟩ := tokens_eq_iff.1 (rfl : tree.tokens = tree.tokens)
  -- the misplaced token is the end behind the sentence, or it stands within the sentence
  rcases List.prefix_concat_iff.1 hp with he | hp
  · obtain ⟨rfl, hl⟩ := List.append_inj' he rfl
    cases hl
    cases hQ.symm.trans h
    rw [hd rfl] at ht
    cases ht
  · obtain ⟨R, hR⟩ := through?_of_prefix hQ hp
    rw [through?_append, h, Option.bind_some, through?_cons, hn] at hR
    cases hR

/-! ## Which fault it is -/

theorem isSome_tree?_iff (h : start.through? before = some P) :
    P.tree?.isSome ↔ ∃ tree : Sum, tree.tokens = before := by
  constructor
  · intro hs
    obtain ⟨tree, ht⟩ := Option.isSome_iff_exists.1 hs
    exact ⟨tree, tokens_eq_iff.2 ⟨P, h, ht⟩⟩
  · rintro ⟨tree, ht⟩
    obtain ⟨Q, hQ, ht⟩ := tokens_eq_iff.1 ht
    cases hQ.symm.trans h
    rw [ht]
    rfl

/-- A token behind a whole formula is unexpected. -/
theorem fault_unexpectedCharacter_iff (h : start.through? before = some P) :
    P.fault = .unexpectedCharacter ↔ ∃ tree : Sum, tree.tokens = before := by
  rw [← isSome_tree?_iff h]
  match P with
  | ⟨.operand _, _⟩ => simp [fault, tree?]
  | ⟨.opening _ _, _⟩ => simp [fault, tree?]
  | ⟨.operator _ _, []⟩ => simp [fault, tree?]
  | ⟨.operator _ _, _ :: _⟩ => simp [fault, tree?]

theorem following_eq_opening_iff :
    following before = .opening ↔ ∃ name, before.getLast? = some (.name .function name) := by
  unfold following
  rcases before.getLast? with _ | token
  · simp
  · cases token with
    | name role name => cases role <;> simp [Token.following]
    | _ => simp [Token.following]

/-- An opening bracket is expected behind the name of a function. -/
theorem fault_expectedOpenBracket_iff (h : start.through? before = some P) :
    P.fault = .expectedOpenBracket ↔
      ∃ name, before.getLast? = some (.name .function name) := by
  rw [← following_eq_opening_iff, ← next_of_through? h]
  match P with
  | ⟨.operand _, _⟩ => simp [fault, Place.next]
  | ⟨.opening _ _, _⟩ => simp [fault, Place.next]
  | ⟨.operator _ _, []⟩ => simp [fault, Place.next]
  | ⟨.operator _ _, _ :: _⟩ => simp [fault, Place.next]

end Fragment

/-- Do tokens end with those of a term? -/
def EndsWithTerm (tokens : List Token) : Prop :=
  ∃ (front : List Token) (term : Term), tokens = front ++ term.tokens

theorem following_term (front : List Token) (term : Term) :
    following (front ++ term.tokens) = .operator := by
  cases term
  · rw [Term.tokens, following_concat]
    rfl
  · rw [Term.tokens, ← List.cons_append, ← List.append_assoc, following_concat]
    rfl
  · rw [Term.tokens, ← List.cons_append, ← List.cons_append, ← List.append_assoc,
      following_concat]
    rfl
  · rw [Term.tokens, following_concat]
    rfl

theorem Signed.endsWithTerm (front : List Token) (tree : Signed) :
    EndsWithTerm (front ++ tree.tokens) := by
  cases tree with
  | signed minuses term => exact ⟨front ++ List.replicate minuses .minus, term, by simp [tokens]⟩

theorem Product.endsWithTerm (front : List Token) (tree : Product) :
    EndsWithTerm (front ++ tree.tokens) := by
  cases tree with
  | single factor => exact factor.endsWithTerm front
  | more left op right =>
    have h := right.endsWithTerm (front ++ left.tokens ++ [.times op])
    rwa [List.append_assoc, List.append_assoc] at h

namespace Fragment

variable {P : Fragment} {before : List Token}

/-- Behind a term, and only there, an operator has to come next. -/
theorem endsWithTerm_iff (h : start.through? before = some P) :
    EndsWithTerm before ↔ P.place.next = .operator := by
  constructor
  · rintro ⟨front, term, rfl⟩
    rw [next_of_through? h, following_term]
  · intro hn
    have ht := tokens_of_through? h
    rw [tokens_start, List.nil_append] at ht
    obtain ⟨place, outer⟩ := P
    cases place with
    | operand => cases hn
    | opening => cases hn
    | operator sum product =>
      rw [← ht, tokens, Place.tokens_operator, ← List.append_assoc]
      exact product.endsWithTerm _

/-- A closing bracket is expected behind a term in a bracket that is still open. -/
theorem fault_expectedCloseBracket_iff (h : start.through? before = some P) :
    P.fault = .expectedCloseBracket ↔
      EndsWithTerm before ∧ before.count .closeBracket < before.count .openBracket := by
  have hc := count_of_through? h
  rw [show start.outer.length = 0 from rfl] at hc
  rw [endsWithTerm_iff h]
  match P, hc with
  | ⟨.operand _, _⟩, _ => simp [fault, Place.next]
  | ⟨.opening _ _, _⟩, _ => simp [fault, Place.next]
  | ⟨.operator _ _, []⟩, hc =>
    simp only [List.length_nil] at hc
    simp [fault, Place.next]
    omega
  | ⟨.operator _ _, _ :: _⟩, hc =>
    simp only [List.length_cons] at hc
    simp [fault, Place.next]
    omega

end Fragment

end Grammar

end Formula
