import Formula.Limits
import Formula.Proofs.Grammar.Sentence
import Formula.Proofs.Token.Sequence

/-!
# Reading a formula

A formula is read from a sequence of tokens that ends with the text or with a fault of reading it,
and reading stops at the first token that cannot stand where it is, or that is nested too deep.
`Reading` says how far that is and why it stops there; values and names play no part in it.

* `Fragment.read` — the reading of a sequence of tokens, from a fragment on.
* `ending_eq_ok_iff` — reading ends with a tree exactly if the tokens are a sentence that is nested
  within the limit.
-/

namespace Formula.Grammar

/-- How far a formula has been read, and why no further. -/
structure Reading where
  /-- What has been read. -/
  fragment : Fragment
  /-- How many tokens have been read. -/
  used : Nat
  /-- The tree of the whole formula, or what stopped the reading. -/
  ending : Except Fault Sum

/-- What stops a reading, if it does not end with a tree. -/
def Reading.fault? (R : Reading) : Option Fault :=
  match R.ending with
  | .ok _ => none
  | .error fault => some fault

namespace Fragment

/-- What the next token meets: too many open brackets, or a place where it cannot stand. -/
def stop (depth : Nat) (P : Fragment) : Fault :=
  if depth ≤ P.outer.length then .stackOverflow else P.fault

/-- How reading ends where the tokens do: with the tree of a whole formula, with what is wrong with
the end of the text, or with the fault of reading the next token. -/
def finish (depth : Nat) (P : Fragment) : Option Fault → Except Fault Sum
  | some fault => .error fault
  | none => match if P.outer.length < depth then P.tree? else none with
    | some tree => .ok tree
    | none => .error (P.stop depth)

/-- The fragment with one token more, if it may be read and the token can stand there. -/
def grow? (depth : Nat) (P : Fragment) (token : Token) : Option Fragment :=
  if P.outer.length < depth then P.next? token else none

/-- Reads tokens from a fragment on. -/
def read (depth : Nat) (P : Fragment) : List Token → Option Fault → Reading
  | [], fault => { fragment := P, used := 0, ending := P.finish depth fault }
  | token :: tokens, fault => match P.grow? depth token with
    | some Q => { Q.read depth tokens fault with used := (Q.read depth tokens fault).used + 1 }
    | none => { fragment := P, used := 0, ending := .error (P.stop depth) }

end Fragment

/-- The reading of a text within limits. -/
def Reading.ofText (limits : Limits) (text : String) : Reading :=
  Fragment.start.read limits.depth (Token.sequence limits.nameSize (bytesOf text)).1
    (Token.sequence limits.nameSize (bytesOf text)).2

namespace Fragment

variable {depth : Nat} {P Q : Fragment} {token : Token} {tokens : List Token}
  {fault : Option Fault}

theorem grow?_eq_some : P.grow? depth token = some Q ↔
    P.outer.length < depth ∧ P.next? token = some Q := by
  unfold grow?
  split
  · next h => simp [h]
  · next h => simp [h]

theorem stop_of_le (h : depth ≤ P.outer.length) : P.stop depth = .stackOverflow :=
  if_pos h

theorem stop_of_lt (h : P.outer.length < depth) : P.stop depth = P.fault :=
  if_neg (Nat.not_le.2 h)

theorem read_cons_some (h : P.grow? depth token = some Q) :
    P.read depth (token :: tokens) fault =
      { Q.read depth tokens fault with used := (Q.read depth tokens fault).used + 1 } := by
  rw [read, h]

theorem read_cons_none (h : P.grow? depth token = none) :
    P.read depth (token :: tokens) fault =
      { fragment := P, used := 0, ending := .error (P.stop depth) } := by
  rw [read, h]

theorem finish_eq_ok {tree : Sum} : P.finish depth fault = .ok tree ↔
    fault = none ∧ P.outer.length < depth ∧ P.tree? = some tree := by
  by_cases hd : P.outer.length < depth
  · cases fault with
    | some fault => simp [finish]
    | none => cases ht : P.tree? <;> simp [finish, hd, ht]
  · cases fault <;> simp [finish, hd]

/-- The end of the text meets what any other token would meet, except behind a whole formula. -/
theorem finish_none_of_le (h : depth ≤ P.outer.length) :
    P.finish depth none = .error .stackOverflow := by
  rw [finish, if_neg (Nat.not_lt.2 h), stop_of_le h]

theorem finish_none_of_tree? (hd : P.outer.length < depth) (h : P.tree? = none) :
    P.finish depth none = .error P.fault := by
  rw [finish, if_pos hd, h, stop_of_lt hd]

/-! ## Readings that end with a tree -/

theorem nesting_le_of_through? (h : P.through? tokens = some Q) : P.nesting ≤ Q.nesting := by
  induction tokens generalizing P with
  | nil => cases h; exact Nat.le_refl _
  | cons token tokens ih =>
    rw [through?_cons] at h
    obtain ⟨R, hR, hQ⟩ := Option.bind_eq_some_iff.1 h
    have := ih hQ
    have := nesting_of_next? hR
    omega

theorem outer_le_nesting (P : Fragment) : P.outer.length ≤ P.nesting := by
  unfold nesting
  omega

/-- Tokens that can be read are read as long as they are not nested too deep. -/
theorem read_of_through? {tree : Sum} (h : P.through? tokens = some Q) (ht : Q.tree? = some tree)
    (hd : Q.nesting < depth) : P.read depth tokens none =
      { fragment := Q, used := tokens.length, ending := .ok tree } := by
  have hP := nesting_le_of_through? h
  have ho := P.outer_le_nesting
  induction tokens generalizing P with
  | nil =>
    cases h
    rw [read, finish_eq_ok.2 ⟨rfl, by omega, ht⟩]
    rfl
  | cons token tokens ih =>
    rw [through?_cons] at h
    obtain ⟨R, hR, hQ⟩ := Option.bind_eq_some_iff.1 h
    have hg : P.grow? depth token = some R := grow?_eq_some.2 ⟨by omega, hR⟩
    rw [read_cons_some hg, ih hQ (nesting_le_of_through? hQ) R.outer_le_nesting]
    rfl

/-- A reading that ends with a tree has read all tokens, none of them nested too deep. -/
theorem through?_of_read {tree : Sum} (h : (P.read depth tokens fault).ending = .ok tree)
    (hP : P.outer.length < depth → P.nesting < depth) :
    fault = none ∧ ∃ Q, P.through? tokens = some Q ∧ Q.tree? = some tree ∧ Q.nesting < depth := by
  induction tokens generalizing P with
  | nil =>
    obtain ⟨hf, hd, ht⟩ := finish_eq_ok.1 h
    exact ⟨hf, P, rfl, ht, hP hd⟩
  | cons token tokens ih =>
    cases hg : P.grow? depth token with
    | none =>
      rw [read_cons_none hg] at h
      cases h
    | some R =>
      rw [read_cons_some hg] at h
      obtain ⟨hd, hR⟩ := grow?_eq_some.1 hg
      have hn := nesting_of_next? hR
      have := hP hd
      obtain ⟨hf, Q, hQ, ht, hq⟩ := ih h (by omega)
      exact ⟨hf, Q, by rw [through?_cons, hR]; exact hQ, ht, hq⟩

/-- What has been read are the first of the tokens, as many as have been used. -/
theorem through?_take_used (depth : Nat) (P : Fragment) (tokens : List Token)
    (fault : Option Fault) : P.through? (tokens.take (P.read depth tokens fault).used) =
      some (P.read depth tokens fault).fragment := by
  induction tokens generalizing P with
  | nil => rfl
  | cons token tokens ih =>
    cases hg : P.grow? depth token with
    | none =>
      rw [read_cons_none hg]
      rfl
    | some R =>
      rw [read_cons_some hg, List.take_succ_cons, through?_cons, (grow?_eq_some.1 hg).2]
      exact ih R

theorem tokens_of_read (depth : Nat) (P : Fragment) (tokens : List Token) (fault : Option Fault) :
    (P.read depth tokens fault).fragment.tokens =
      P.tokens ++ tokens.take (P.read depth tokens fault).used :=
  tokens_of_through? (P.through?_take_used depth tokens fault)

/-- What has stopped a reading: the fault of reading a token, the limit, or the next token, which
cannot stand where it does. -/
theorem stopped_of_read {stopped : Fault} (ht : .done ∉ tokens)
    (h : (P.read depth tokens fault).ending = .error stopped) :
    fault = some stopped ∨ stopped = .stackOverflow ∨ ∃ token,
      (Token.withEnd tokens fault)[(P.read depth tokens fault).used]? = some token ∧
      (P.read depth tokens fault).fragment.next? token = none ∧
      (token = .done → (P.read depth tokens fault).fragment.tree? = none) ∧
      stopped = (P.read depth tokens fault).fragment.fault := by
  induction tokens generalizing P with
  | nil =>
    cases fault with
    | some fault =>
      cases h
      exact .inl rfl
    | none =>
      by_cases hd : P.outer.length < depth
      · cases hp : P.tree? with
        | some tree =>
          cases h.symm.trans (finish_eq_ok.2 ⟨rfl, hd, hp⟩)
        | none =>
          cases h.symm.trans (finish_none_of_tree? hd hp)
          exact .inr (.inr ⟨.done, rfl, P.next?_done, fun _ => hp, rfl⟩)
      · cases h.symm.trans (finish_none_of_le (Nat.not_lt.1 hd))
        exact .inr (.inl rfl)
  | cons token tokens ih =>
    rw [List.mem_cons, not_or] at ht
    cases hg : P.grow? depth token with
    | none =>
      rw [read_cons_none hg] at h ⊢
      cases h
      by_cases hd : P.outer.length < depth
      · rw [grow?, if_pos hd] at hg
        rw [stop_of_lt hd]
        exact .inr (.inr ⟨token, by simp, hg, fun h => absurd h.symm ht.1, rfl⟩)
      · exact .inr (.inl (stop_of_le (Nat.not_lt.1 hd)))
    | some R =>
      rw [read_cons_some hg] at h ⊢
      rw [Token.withEnd_cons]
      exact ih ht.2 h

/-- A reading that ends with a tree has read a whole formula, and the tree is its own. -/
theorem tree?_of_read {tree : Sum} (h : (P.read depth tokens fault).ending = .ok tree) :
    (P.read depth tokens fault).fragment.tree? = some tree := by
  induction tokens generalizing P with
  | nil => exact (finish_eq_ok.1 h).2.2
  | cons token tokens ih =>
    cases hg : P.grow? depth token with
    | none =>
      rw [read_cons_none hg] at h
      cases h
    | some R =>
      rw [read_cons_some hg] at h ⊢
      exact ih h

end Fragment

/-- Reading ends with a tree exactly if the tokens are those of the tree, which is nested within
the limit. -/
theorem ending_eq_ok_iff {depth : Nat} {tokens : List Token} {fault : Option Fault} {tree : Sum} :
    (Fragment.start.read depth tokens fault).ending = .ok tree ↔
      (tokens, fault) = (tree.tokens, none) ∧ tree.nesting < depth := by
  constructor
  · intro h
    obtain ⟨rfl, Q, hQ, ht, hd⟩ := Fragment.through?_of_read h id
    rw [Fragment.nesting_of_tree? ht] at hd
    rw [tokens_eq_iff.2 ⟨Q, hQ, ht⟩]
    exact ⟨rfl, hd⟩
  · rintro ⟨h, hd⟩
    cases h
    obtain ⟨Q, hQ, ht⟩ := tokens_eq_iff.1 (rfl : tree.tokens = tree.tokens)
    rw [Fragment.read_of_through? hQ ht (by rwa [Fragment.nesting_of_tree? ht])]

end Formula.Grammar
