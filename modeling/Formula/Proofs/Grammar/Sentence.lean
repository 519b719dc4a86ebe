import Formula.Proofs.Grammar.Fragment

/-!
# Sentences of the grammar

A sentence is the token sequence of a tree.  Reading from left to right decides which sequences are
sentences, and which are the front part of one:

* `tokens_eq_iff` — a sequence is a sentence exactly if it can be read to a whole formula, and what
  is read is then the tree of the sentence;
* `Sum.tokens_injective` — so no sentence has two trees;
* `Fragment.exists_sentence` — whatever has been read can be completed to a sentence.
-/

namespace Formula.Grammar

namespace Fragment

/-- Reads tokens one after the other. -/
def through? (P : Fragment) (tokens : List Token) : Option Fragment :=
  tokens.foldlM next? P

@[simp]
theorem through?_nil (P : Fragment) : P.through? [] = some P := rfl

theorem through?_cons (P : Fragment) (token : Token) (tokens : List Token) :
    P.through? (token :: tokens) = (P.next? token).bind fun Q => Q.through? tokens :=
  List.foldlM_cons

theorem through?_append (P : Fragment) (front tokens : List Token) :
    P.through? (front ++ tokens) = (P.through? front).bind fun Q => Q.through? tokens :=
  List.foldlM_append

theorem tokens_of_through? {P Q : Fragment} {tokens : List Token}
    (h : P.through? tokens = some Q) : Q.tokens = P.tokens ++ tokens := by
  induction tokens generalizing P with
  | nil =>
    cases h
    simp
  | cons token tokens ih =>
    rw [through?_cons] at h
    obtain ⟨R, hR, hQ⟩ := Option.bind_eq_some_iff.1 h
    rw [ih hQ, tokens_of_next? hR, List.append_assoc]
    rfl

@[simp]
theorem tokens_start : start.tokens = [] := rfl

end Fragment

open Fragment

/-! ## Every sentence is read to its tree -/

/-- A sum is read to itself, whatever stands around it. -/
theorem through?_sum : ∀ (tree : Sum) (outer : List Frame),
    ∃ sum product, Sum.join sum product = tree ∧
      through? ⟨.operand {}, outer⟩ tree.tokens = some ⟨.operator sum product, outer⟩ := by
  -- a product, a factor and a term are read behind operands that wait for them
  refine @Sum.rec
    (fun tree => ∀ outer, ∃ sum product, Sum.join sum product = tree ∧
      through? ⟨.operand {}, outer⟩ tree.tokens = some ⟨.operator sum product, outer⟩)
    (fun tree => ∀ sum outer,
      through? ⟨.operand { sum }, outer⟩ tree.tokens = some ⟨.operator sum tree, outer⟩)
    (fun tree => ∀ sum product outer,
      through? ⟨.operand { sum, product }, outer⟩ tree.tokens =
        some ⟨.operator sum (.join product tree), outer⟩)
    (fun tree => ∀ level outer,
      through? ⟨.operand level, outer⟩ tree.tokens = some ⟨level.supply tree, outer⟩)
    ?sum_single ?sum_more ?product_single ?product_more ?signed ?number ?bracket ?call ?value
  case sum_single =>
    intro product ih outer
    exact ⟨none, product, rfl, ih none outer⟩
  case sum_more =>
    intro left op right ihl ihr outer
    obtain ⟨sum, product, rfl, hl⟩ := ihl outer
    refine ⟨some (.join sum product, op), right, rfl, ?_⟩
    rw [Sum.tokens_more, through?_append, hl, Option.bind_some, through?_cons]
    rw [show next? ⟨.operator sum product, outer⟩ op.token =
      some ⟨.operand { sum := some (.join sum product, op) }, outer⟩ by cases op <;> rfl]
    exact ihr _ outer
  case product_single =>
    intro factor ih sum outer
    exact ih sum none outer
  case product_more =>
    intro left op right ihl ihr sum outer
    rw [Product.tokens, through?_append, ihl sum outer, Option.bind_some, through?_cons]
    exact ihr sum (some (left, op)) outer
  case signed =>
    intro minuses term ih sum product outer
    have hm (n m : Nat) : through? ⟨.operand { sum, product, minuses := n }, outer⟩
        (List.replicate m .minus) =
        some ⟨.operand { sum, product, minuses := n + m }, outer⟩ := by
      induction m generalizing n with
      | zero => rfl
      | succ m ihm =>
        rw [List.replicate_succ, through?_cons, Nat.add_comm m 1, ← Nat.add_assoc]
        exact ihm (n + 1)
    rw [Signed.tokens, through?_append, hm, Option.bind_some, ih, Level.supply, Nat.zero_add]
  case number => intro value level outer; rfl
  case bracket =>
    intro inner ih level outer
    obtain ⟨sum, product, rfl, hi⟩ := ih (⟨level, none⟩ :: outer)
    rw [Term.tokens, through?_cons]
    change through? ⟨.operand {}, ⟨level, none⟩ :: outer⟩ _ = _
    rw [through?_append, hi]
    rfl
  case call =>
    intro function argument ih level outer
    obtain ⟨sum, product, rfl, hi⟩ := ih (⟨level, some function⟩ :: outer)
    rw [Term.tokens, through?_cons]
    change through? ⟨.opening level function, outer⟩ _ = _
    rw [through?_cons]
    change through? ⟨.operand {}, ⟨level, some function⟩ :: outer⟩ _ = _
    rw [through?_append, hi]
    rfl
  case value => intro name level outer; rfl

/-- A sequence of tokens is a sentence exactly if it can be read to a whole formula. -/
theorem tokens_eq_iff {tree : Sum} {tokens : List Token} :
    tree.tokens = tokens ↔ ∃ Q, start.through? tokens = some Q ∧ Q.tree? = some tree := by
  constructor
  · rintro rfl
    obtain ⟨sum, product, rfl, h⟩ := through?_sum tree []
    exact ⟨_, h, rfl⟩
  · rintro ⟨Q, hQ, ht⟩
    rw [← tokens_of_tree? ht, tokens_of_through? hQ, tokens_start, List.nil_append]

/-- The grammar is unambiguous. -/
theorem Sum.tokens_injective : Function.Injective Sum.tokens := by
  intro s t h
  obtain ⟨P, hP, hs⟩ := tokens_eq_iff.1 h
  obtain ⟨Q, hQ, ht⟩ := tokens_eq_iff.1 (rfl : t.tokens = t.tokens)
  cases hP.symm.trans hQ
  exact Option.some.inj (hs.symm.trans ht)

/-! ## Every fragment is the front part of a sentence -/

/-- A sum that ends with the given term. -/
def Level.complete (level : Level) (term : Term) : Sum :=
  .join level.sum (.join level.product (.signed level.minuses term))

/-- An expression that begins with what has been read of it. -/
def Place.complete : Place → Sum
  | .operand level => level.complete (.number 0)
  | .opening level function => level.complete (.call function (Level.complete {} (.number 0)))
  | .operator sum product => .join sum product

/-- A formula in which the open brackets are closed behind the innermost expression. -/
def closeAll : List Frame → Sum → Sum
  | [], inner => inner
  | frame :: outer, inner => closeAll outer (frame.level.complete (.close frame.function inner))

theorem Level.tokens_complete (level : Level) (term : Term) :
    (level.complete term).tokens = level.tokens ++ term.tokens := by
  simp [complete, tokens, Sum.tokens_join, Product.tokens_join, Signed.tokens]

theorem Place.tokens_prefix_complete (place : Place) : place.tokens <+: place.complete.tokens := by
  cases place with
  | operand level =>
    rw [complete, Level.tokens_complete]
    exact List.prefix_append _ _
  | opening level function =>
    rw [complete, Level.tokens_complete, Term.tokens, tokens_opening]
    exact (List.prefix_append_right_inj _).2 ⟨_, rfl⟩
  | operator sum product =>
    rw [complete, Sum.tokens_join]
    exact List.prefix_rfl

theorem tokens_prefix_closeAll (outer : List Frame) {front : List Token} {inner : Sum}
    (h : front <+: inner.tokens) : spellOuter outer ++ front <+: (closeAll outer inner).tokens := by
  induction outer generalizing front inner with
  | nil => exact h
  | cons frame outer ih =>
    have hf : frame.level.tokens ++ spellOpening frame.function ++ front <+:
        (frame.level.complete (.close frame.function inner)).tokens := by
      rw [Level.tokens_complete, Term.tokens_close, List.append_assoc]
      refine (List.prefix_append_right_inj _).2 ((List.prefix_append_right_inj _).2 ?_)
      exact h.trans (List.prefix_append _ _)
    rw [spellOuter, List.append_assoc]
    exact ih hf

/-- Whatever has been read can be completed to a sentence. -/
theorem Fragment.exists_sentence (P : Fragment) : ∃ tree : Sum, P.tokens <+: tree.tokens :=
  ⟨closeAll P.outer P.place.complete,
    tokens_prefix_closeAll P.outer P.place.tokens_prefix_complete⟩

end Formula.Grammar
