import Formula.Fault
import Formula.Grammar

/-!
# The front part of a formula

A formula is read from left to right, and between two tokens it has been read up to some point: some
of its brackets are open, each behind operands that wait for it, and either an operand, the bracket
of a call or an operator has to come next.  `Fragment` is the tree of such a front part.

* `Fragment.next?` — the fragment that is one token longer, if the token can stand there.
* `Fragment.fault` — what is wrong where it cannot; it depends on the fragment alone.
* `Fragment.tokens`, `tokens_of_next?` — a fragment spells the tokens that it was read from.
* `Fragment.tree?` — the tree of a fragment that is a whole formula.
-/

namespace Formula

/-- The token of an operator between two products. -/
def SumOp.token : SumOp → Token
  | add => .plus
  | subtract => .minus

theorem Token.sumOp?_eq_some {token : Token} {op : SumOp} :
    token.sumOp? = some op ↔ token = op.token := by
  cases token <;> cases op <;> simp [Token.sumOp?, SumOp.token]

theorem Token.productOp?_eq_some {token : Token} {op : ProductOp} :
    token.productOp? = some op ↔ token = .times op := by
  cases token <;> simp [Token.productOp?]

namespace Grammar

/-- The operands of one expression that stand to the left of what is still missing. -/
structure Level where
  /-- A sum and the sign behind it. -/
  sum : Option (Sum × SumOp) := none
  /-- A product and the operator behind it. -/
  product : Option (Product × ProductOp) := none
  /-- The minus signs behind both. -/
  minuses : Nat := 0

/-- An open bracket with what stands in front of it. -/
structure Frame where
  /-- The operands to the left of the term that the bracket is in. -/
  level : Level
  /-- The function that is called, if the bracket is that of a call. -/
  function : Option String

/-- What has to come next in the innermost expression. -/
inductive Place where
  /-- A minus sign or a term. -/
  | operand (level : Level)
  /-- The opening bracket behind a function name. -/
  | opening (level : Level) (function : String)
  /-- An operator, a closing bracket or the end, behind a product. -/
  | operator (sum : Option (Sum × SumOp)) (product : Product)

/-- A formula that has been read up to some point. -/
structure Fragment where
  /-- What has to come next. -/
  place : Place
  /-- The open brackets, innermost first. -/
  outer : List Frame

/-- A product alone or behind a sum and its sign. -/
def Sum.join : Option (Sum × SumOp) → Product → Sum
  | none, product => .single product
  | some (left, op), product => .more left op product

/-- A factor alone or behind a product and its operator. -/
def Product.join : Option (Product × ProductOp) → Signed → Product
  | none, factor => .single factor
  | some (left, op), factor => .more left op factor

/-- An expression in brackets, behind the name of a function if one is given. -/
def Term.close : Option String → Sum → Term
  | none, inner => .bracket inner
  | some function, argument => .call function argument

/-- The place behind a term. -/
def Level.supply (level : Level) (term : Term) : Place :=
  .operator level.sum (.join level.product (.signed level.minuses term))

namespace Fragment

/-- The beginning of every formula. -/
def start : Fragment := { place := .operand {}, outer := [] }

/-- The fragment with one token more, if the token can stand there. -/
def next? : Fragment → Token → Option Fragment
  | ⟨.operand level, outer⟩, token => match token with
    | .minus => some ⟨.operand { level with minuses := level.minuses + 1 }, outer⟩
    | .number value => some ⟨level.supply (.number value), outer⟩
    | .openBracket => some ⟨.operand {}, ⟨level, none⟩ :: outer⟩
    | .name .function name => some ⟨.opening level name, outer⟩
    | .name .variable name => some ⟨level.supply (.variable name), outer⟩
    | _ => none
  | ⟨.opening level function, outer⟩, token =>
    if token = .openBracket then some ⟨.operand {}, ⟨level, some function⟩ :: outer⟩ else none
  | ⟨.operator sum product, outer⟩, token => match token.productOp?, token.sumOp?, outer with
    | some op, _, _ => some ⟨.operand { sum, product := some (product, op) }, outer⟩
    | _, some op, _ => some ⟨.operand { sum := some (.join sum product, op) }, outer⟩
    | _, _, [] => none
    | _, _, ⟨level, function⟩ :: outer =>
      if token = .closeBracket then
        some ⟨level.supply (.close function (.join sum product)), outer⟩
      else none

/-- What is wrong with a token that cannot stand behind a fragment. -/
def fault : Fragment → Fault
  | ⟨.operand _, _⟩ => .expectedTerm
  | ⟨.opening _ _, _⟩ => .expectedOpenBracket
  | ⟨.operator _ _, []⟩ => .unexpectedCharacter
  | ⟨.operator _ _, _ :: _⟩ => .expectedCloseBracket

/-- The tree of a fragment that is a whole formula. -/
def tree? : Fragment → Option Sum
  | ⟨.operator sum product, []⟩ => some (.join sum product)
  | _ => none

/-- Nothing is read behind the end. -/
theorem next?_done (P : Fragment) : P.next? .done = none := by
  obtain ⟨place, outer⟩ := P
  cases place with
  | operand | opening => rfl
  | operator => cases outer <;> rfl

/-- What one token more can do to a fragment. -/
inductive Grows : Fragment → Token → Fragment → Prop
  | minus (level : Level) (outer : List Frame) :
    Grows ⟨.operand level, outer⟩ .minus
      ⟨.operand { level with minuses := level.minuses + 1 }, outer⟩
  | number (level : Level) (outer : List Frame) (value : Float) :
    Grows ⟨.operand level, outer⟩ (.number value) ⟨level.supply (.number value), outer⟩
  | value (level : Level) (outer : List Frame) (name : String) :
    Grows ⟨.operand level, outer⟩ (.name .variable name) ⟨level.supply (.variable name), outer⟩
  | function (level : Level) (outer : List Frame) (name : String) :
    Grows ⟨.operand level, outer⟩ (.name .function name) ⟨.opening level name, outer⟩
  | bracket (level : Level) (outer : List Frame) :
    Grows ⟨.operand level, outer⟩ .openBracket ⟨.operand {}, ⟨level, none⟩ :: outer⟩
  | call (level : Level) (outer : List Frame) (function : String) :
    Grows ⟨.opening level function, outer⟩ .openBracket
      ⟨.operand {}, ⟨level, some function⟩ :: outer⟩
  | times (sum : Option (Sum × SumOp)) (product : Product) (outer : List Frame)
    (op : ProductOp) : Grows ⟨.operator sum product, outer⟩ (.times op)
      ⟨.operand { sum, product := some (product, op) }, outer⟩
  | sign (sum : Option (Sum × SumOp)) (product : Product) (outer : List Frame) (op : SumOp) :
    Grows ⟨.operator sum product, outer⟩ op.token
      ⟨.operand { sum := some (.join sum product, op) }, outer⟩
  | close (sum : Option (Sum × SumOp)) (product : Product) (frame : Frame)
    (outer : List Frame) : Grows ⟨.operator sum product, frame :: outer⟩ .closeBracket
      ⟨frame.level.supply (.close frame.function (.join sum product)), outer⟩

theorem grows_of_next? {P Q : Fragment} {token : Token} (h : P.next? token = some Q) :
    Grows P token Q := by
  unfold next? at h
  split at h
  · next level outer token =>
    split at h <;> cases h
    · exact .minus _ _
    · exact .number _ _ _
    · exact .bracket _ _
    · exact .function _ _ _
    · exact .value _ _ _
  · next level function outer token =>
    split at h
    · next ht => cases h; subst ht; exact .call _ _ _
    · cases h
  · next sum product outer token =>
    split at h
    · next op _ hop =>
      cases h
      obtain rfl := Token.productOp?_eq_some.1 hop
      exact .times _ _ _ _
    · next hop _ =>
      cases h
      obtain rfl := Token.sumOp?_eq_some.1 hop
      exact .sign _ _ _ _
    · cases h
    · split at h
      · next ht => cases h; subst ht; exact .close _ _ ⟨_, _⟩ _
      · cases h

end Fragment

/-! ## Spelling -/

/-- The tokens of operands that wait, if there are any, and of their operator. -/
def spellHeld {α ω : Type} (spell : α → List Token) (token : ω → Token) :
    Option (α × ω) → List Token
  | none => []
  | some (left, op) => spell left ++ [token op]

/-- The tokens of a level. -/
def Level.tokens (level : Level) : List Token :=
  spellHeld Sum.tokens SumOp.token level.sum ++
    (spellHeld Product.tokens .times level.product ++ List.replicate level.minuses .minus)

/-- The tokens that open a bracket, behind the name of a function if one is given. -/
def spellOpening : Option String → List Token
  | none => [.openBracket]
  | some function => [.name .function function, .openBracket]

/-- The tokens of the open brackets and of all that stands in front of them. -/
def spellOuter : List Frame → List Token
  | [] => []
  | frame :: outer => spellOuter outer ++ (frame.level.tokens ++ spellOpening frame.function)

/-- The tokens of the innermost expression so far. -/
def Place.tokens : Place → List Token
  | .operand level => level.tokens
  | .opening level function => level.tokens ++ [.name .function function]
  | .operator sum product => spellHeld Sum.tokens SumOp.token sum ++ product.tokens

@[simp]
theorem Place.tokens_operand (level : Level) : (operand level).tokens = level.tokens := rfl

@[simp]
theorem Place.tokens_opening (level : Level) (function : String) :
    (opening level function).tokens = level.tokens ++ [.name .function function] := rfl

@[simp]
theorem Place.tokens_operator (sum : Option (Sum × SumOp)) (product : Product) :
    (operator sum product).tokens = spellHeld Sum.tokens SumOp.token sum ++ product.tokens := rfl

/-- The tokens of a fragment. -/
def Fragment.tokens (P : Fragment) : List Token :=
  spellOuter P.outer ++ P.place.tokens

theorem Sum.tokens_more (left : Sum) (op : SumOp) (right : Product) :
    (Sum.more left op right).tokens = left.tokens ++ op.token :: right.tokens := by
  cases op <;> simp [Sum.tokens, SumOp.token]

theorem Sum.tokens_join (sum : Option (Sum × SumOp)) (product : Product) :
    (Sum.join sum product).tokens =
      spellHeld Sum.tokens SumOp.token sum ++ product.tokens := by
  rcases sum with _ | ⟨left, op⟩
  · simp [Sum.join, Sum.tokens, spellHeld]
  · simp [Sum.join, Sum.tokens_more, spellHeld]

theorem Product.tokens_join (product : Option (Product × ProductOp)) (factor : Signed) :
    (Product.join product factor).tokens =
      spellHeld Product.tokens .times product ++ factor.tokens := by
  rcases product with _ | ⟨left, op⟩ <;> simp [Product.join, Product.tokens, spellHeld]

theorem Term.tokens_close (function : Option String) (inner : Sum) :
    (Term.close function inner).tokens =
      spellOpening function ++ (inner.tokens ++ [.closeBracket]) := by
  cases function <;> simp [Term.close, Term.tokens, spellOpening]

theorem Level.tokens_supply (level : Level) (term : Term) :
    (level.supply term).tokens = level.tokens ++ term.tokens := by
  simp [Level.supply, Level.tokens, Product.tokens_join, Signed.tokens]

/-- A fragment spells the tokens that it was read from. -/
theorem Fragment.tokens_of_next? {P Q : Fragment} {token : Token}
    (h : P.next? token = some Q) : Q.tokens = P.tokens ++ [token] := by
  cases grows_of_next? h with
  | minus => simp [tokens, Level.tokens, List.replicate_succ']
  | number => simp [tokens, Level.tokens_supply, Term.tokens]
  | value => simp [tokens, Level.tokens_supply, Term.tokens]
  | function => simp [tokens]
  | bracket => simp [tokens, Level.tokens, spellOuter, spellOpening, spellHeld]
  | call => simp [tokens, Level.tokens, spellOuter, spellOpening, spellHeld]
  | times => simp [tokens, Level.tokens, spellHeld]
  | sign => simp [tokens, Level.tokens, spellHeld, Sum.tokens_join]
  | close => simp [tokens, Level.tokens_supply, spellOuter, Term.tokens_close, Sum.tokens_join]

theorem Fragment.tokens_of_tree? {P : Fragment} {tree : Sum} (h : P.tree? = some tree) :
    P.tokens = tree.tokens := by
  match P, h with
  | ⟨.operator sum product, []⟩, rfl => simp [tokens, spellOuter, Sum.tokens_join]

/-! ## Nesting -/

/-- How many brackets are nested in operands that wait, at most. -/
def nestingHeld {α ω : Type} (nesting : α → Nat) : Option (α × ω) → Nat
  | none => 0
  | some (left, _) => nesting left

/-- How many brackets are nested in a level, at most. -/
def Level.nesting (level : Level) : Nat :=
  max (nestingHeld Sum.nesting level.sum) (nestingHeld Product.nesting level.product)

/-- How many brackets are nested in front of open ones at most, those around them included. -/
def nestingOuter : List Frame → Nat
  | [] => 0
  | frame :: outer => max (frame.level.nesting + outer.length) (nestingOuter outer)

/-- How many brackets are nested in the innermost expression so far, at most. -/
def Place.nesting : Place → Nat
  | .operand level => level.nesting
  | .opening level _ => level.nesting
  | .operator sum product => max (nestingHeld Sum.nesting sum) product.nesting

@[simp]
theorem Place.nesting_operand (level : Level) : (operand level).nesting = level.nesting := rfl

@[simp]
theorem Place.nesting_opening (level : Level) (function : String) :
    (opening level function).nesting = level.nesting := rfl

@[simp]
theorem Place.nesting_operator (sum : Option (Sum × SumOp)) (product : Product) :
    (operator sum product).nesting = max (nestingHeld Sum.nesting sum) product.nesting := rfl

/-- How many brackets of a fragment are nested in one another at most. -/
def Fragment.nesting (P : Fragment) : Nat :=
  max (P.place.nesting + P.outer.length) (nestingOuter P.outer)

theorem Sum.nesting_join (sum : Option (Sum × SumOp)) (product : Product) :
    (Sum.join sum product).nesting = max (nestingHeld Sum.nesting sum) product.nesting := by
  rcases sum with _ | ⟨left, op⟩ <;> simp [Sum.join, Sum.nesting, nestingHeld]

theorem Product.nesting_join (product : Option (Product × ProductOp)) (factor : Signed) :
    (Product.join product factor).nesting =
      max (nestingHeld Product.nesting product) factor.nesting := by
  rcases product with _ | ⟨left, op⟩ <;> simp [Product.join, Product.nesting, nestingHeld]

theorem Term.nesting_close (function : Option String) (inner : Sum) :
    (Term.close function inner).nesting = inner.nesting + 1 := by
  cases function <;> simp [Term.close, Term.nesting]

theorem Level.nesting_supply (level : Level) (term : Term) :
    (level.supply term).nesting = max level.nesting term.nesting := by
  simp [Level.supply, Level.nesting, Product.nesting_join, Signed.nesting, Nat.max_assoc]

/-- One token more opens at most one bracket more. -/
theorem Fragment.nesting_of_next? {P Q : Fragment} {token : Token}
    (h : P.next? token = some Q) : Q.nesting = max P.nesting Q.outer.length := by
  cases grows_of_next? h with
  | minus => simp only [nesting, Place.nesting_operand, Level.nesting]; omega
  | number =>
    simp only [nesting, Level.nesting_supply, Place.nesting_operand, Term.nesting]
    omega
  | value =>
    simp only [nesting, Level.nesting_supply, Place.nesting_operand, Term.nesting]
    omega
  | function => simp only [nesting, Place.nesting_operand, Place.nesting_opening]; omega
  | bracket =>
    simp only [nesting, Place.nesting_operand, Level.nesting, nestingOuter, nestingHeld,
      List.length_cons]
    omega
  | call =>
    simp only [nesting, Place.nesting_operand, Place.nesting_opening, Level.nesting,
      nestingOuter, nestingHeld, List.length_cons]
    omega
  | times =>
    simp only [nesting, Place.nesting_operand, Place.nesting_operator, Level.nesting, nestingHeld]
    omega
  | sign =>
    simp only [nesting, Place.nesting_operand, Place.nesting_operator, Level.nesting, nestingHeld,
      Sum.nesting_join]
    omega
  | close =>
    simp only [nesting, Level.nesting_supply, Place.nesting_operator, nestingOuter,
      Term.nesting_close, Sum.nesting_join, List.length_cons]
    omega

theorem Fragment.nesting_of_tree? {P : Fragment} {tree : Sum} (h : P.tree? = some tree) :
    P.nesting = tree.nesting := by
  match P, h with
  | ⟨.operator sum product, []⟩, rfl => simp [nesting, nestingOuter, Sum.nesting_join]

end Grammar

end Formula
