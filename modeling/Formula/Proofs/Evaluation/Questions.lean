import Formula.Proofs.Evaluation.Fragment
import Formula.Proofs.Scope.Recorded

/-!
# The questions of a formula

What evaluating a formula asks of a scope, and in which order, is a matter of its tree alone, and
so is what evaluating the front part of a formula asks.

* `follows_sum`, `Fragment.follows_value` — these are the questions that are asked, with a record
  or without one.
* `names_sum`, `Fragment.names_queries` — the names that are looked up are those of the tokens.
-/

namespace Formula.Grammar

/-! ## The questions of a tree -/

mutual

/-- The questions of a sum. -/
def Sum.queries : Sum → List Query
  | .single product => product.queries
  | .more left _ right => left.queries ++ right.queries

/-- The questions of a product. -/
def Product.queries : Product → List Query
  | .single factor => factor.queries
  | .more left _ right => left.queries ++ right.queries

/-- The questions of a signed term. -/
def Signed.queries : Signed → List Query
  | .signed _ term => term.queries

/-- The questions of a term. -/
def Term.queries : Term → List Query
  | .number _ => []
  | .bracket inner => inner.queries
  | .call function argument => .function function :: (argument.queries ++ [.call function])
  | .variable name => [.value name]

end

section

variable {σ : Type} (scope : Scope σ)

/-- The value of an operation, found from left to right. -/
theorem follows_operation {p q : Step (Recorded σ) Float} {p' q' : Step σ Float}
    {queries more : List Query} (hp : Follows p p' queries [] Eq) (hq : Follows q q' more [] Eq)
    (f : Float → Float → Float) :
    Follows (p >>= fun a => q >>= fun b => pure (f a b))
      (p' >>= fun a => q' >>= fun b => pure (f a b)) (queries ++ more) [] Eq := by
  refine hp.bind_nil ?_
  rintro a _ rfl
  refine hq.map ?_
  rintro b _ rfl
  rfl

mutual

/-- Evaluating a sum asks its questions. -/
theorem follows_sum : ∀ tree : Sum,
    Follows (tree.value scope.recorded) (tree.value scope) tree.queries [] Eq
  | .single product => follows_product product
  | .more left op right => follows_operation (follows_sum left) (follows_product right) op.apply

theorem follows_product : ∀ tree : Product,
    Follows (tree.value scope.recorded) (tree.value scope) tree.queries [] Eq
  | .single factor => follows_signed factor
  | .more left op right => follows_operation (follows_product left) (follows_signed right) op.apply

theorem follows_signed : ∀ tree : Signed,
    Follows (tree.value scope.recorded) (tree.value scope) tree.queries [] Eq
  | .signed _ term => (follows_term term).map fun _ _ h => by rw [h]

theorem follows_term : ∀ tree : Term,
    Follows (tree.value scope.recorded) (tree.value scope) tree.queries [] Eq
  | .number _ => .pure rfl
  | .bracket inner => follows_sum inner
  | .call function argument => follows_call scope (follows_sum argument) function
  | .variable name => follows_value scope name

end

end

mutual

/-- A sum looks up the names of its tokens, from left to right. -/
theorem names_sum : ∀ tree : Sum,
    tree.queries.filterMap Query.name? = tree.tokens.filterMap Token.name?
  | .single product => names_product product
  | .more left op right => by
    rw [Sum.queries, Sum.tokens_more, List.filterMap_append, List.filterMap_append, names_sum left,
      names_product right]
    cases op <;> rfl

theorem names_product : ∀ tree : Product,
    tree.queries.filterMap Query.name? = tree.tokens.filterMap Token.name?
  | .single factor => names_signed factor
  | .more left op right => by
    rw [Product.queries, Product.tokens, List.filterMap_append, List.filterMap_append,
      names_product left, names_signed right]
    rfl

theorem names_signed : ∀ tree : Signed,
    tree.queries.filterMap Query.name? = tree.tokens.filterMap Token.name?
  | .signed minuses term => by
    have hm : (List.replicate minuses Token.minus).filterMap Token.name? = [] :=
      List.filterMap_replicate_of_none rfl
    rw [Signed.queries, Signed.tokens, List.filterMap_append, hm, names_term term]
    rfl

theorem names_term : ∀ tree : Term,
    tree.queries.filterMap Query.name? = tree.tokens.filterMap Token.name?
  | .number _ => rfl
  | .bracket inner => by
    simp [Term.queries, Term.tokens, names_sum inner, Token.name?, List.filterMap_cons]
  | .call function argument => by
    simp [Term.queries, Term.tokens, names_sum argument, Token.name?, Query.name?,
      List.filterMap_cons]
  | .variable name => rfl

end

/-! ## The questions of a fragment -/

/-- The questions of an operand that waits, if there is one. -/
def queriesHeld {α ω : Type} (queries : α → List Query) : Option (α × ω) → List Query
  | none => []
  | some (left, _) => queries left

/-- The questions of the operands of a level. -/
def Level.queries (level : Level) : List Query :=
  queriesHeld Sum.queries level.sum ++ queriesHeld Product.queries level.product

/-- The question that opens a bracket, if there is one. -/
def queriesOpening : Option String → List Query
  | none => []
  | some function => [.function function]

/-- The questions of all that stands in front of open brackets. -/
def queriesOuter : List Frame → List Query
  | [] => []
  | frame :: outer => queriesOuter outer ++ (frame.level.queries ++ queriesOpening frame.function)

/-- The questions of the innermost expression so far. -/
def Place.queries : Place → List Query
  | .operand level => level.queries
  | .opening level function => level.queries ++ [.function function]
  | .operator sum product => queriesHeld Sum.queries sum ++ product.queries

/-- The functions of the innermost expression that are to be called behind a bracket. -/
def Place.functions : Place → List String
  | .opening _ function => [function]
  | _ => []

namespace Fragment

/-- The questions of a fragment. -/
def queries (P : Fragment) : List Query :=
  queriesOuter P.outer ++ P.place.queries

/-- The functions of a fragment that are to be called, the innermost first. -/
def functions (P : Fragment) : List String :=
  P.place.functions ++ P.outer.filterMap Frame.function

end Fragment

section

variable {σ α ω : Type} (scope : Scope σ)

/-- The steps of a fragment have values that are not compared: they hold what is to be called. -/
theorem follows_held {p : α → Step (Recorded σ) Float} {q : α → Step σ Float}
    {queries : α → List Query} (h : ∀ a, Follows (p a) (q a) (queries a) [] Eq)
    (held : Option (α × ω)) : Follows (valueHeld p held) (valueHeld q held)
      (queriesHeld queries held) [] fun _ _ => True := by
  rcases held with _ | ⟨left, op⟩
  · exact .pure trivial
  · exact (h left).map fun _ _ _ => trivial

theorem follows_level (level : Level) : Follows (level.value scope.recorded) (level.value scope)
    level.queries [] fun _ _ => True := by
  refine (follows_held (follows_sum scope) level.sum).bind_nil fun _ _ _ => ?_
  exact (follows_held (follows_product scope) level.product).map fun _ _ _ => trivial

theorem follows_opening (function : Option String) :
    Follows (findClosing scope.recorded function) (findClosing scope function)
      (queriesOpening function) function.toList fun _ _ => True := by
  cases function with
  | none => exact .pure trivial
  | some function => exact follows_find scope function

theorem follows_outer (outer : List Frame) :
    Follows (valueOuter scope.recorded outer) (valueOuter scope outer) (queriesOuter outer)
      (outer.filterMap Frame.function) fun _ _ => True := by
  induction outer with
  | nil => exact .pure trivial
  | cons frame outer ih =>
    have hn : (frame :: outer).filterMap Frame.function =
        frame.function.toList ++ outer.filterMap Frame.function := by
      cases hf : frame.function <;> simp [hf]
    rw [hn]
    refine ih.bind fun _ _ _ => (follows_level scope frame.level).bind_nil fun _ _ _ => ?_
    exact (follows_opening scope frame.function).map fun _ _ _ => trivial

theorem follows_place (place : Place) :
    Follows (place.value scope.recorded) (place.value scope) place.queries place.functions
      fun _ _ => True := by
  cases place with
  | operand level => exact (follows_level scope level).map fun _ _ _ => trivial
  | opening level function =>
    refine (follows_level scope level).bind_nil fun _ _ _ => ?_
    exact (follows_find scope function).map fun _ _ _ => trivial
  | operator sum product =>
    refine (follows_held (follows_sum scope) sum).bind_nil fun _ _ _ => ?_
    exact (follows_product scope product).map fun _ _ _ => trivial

/-- Evaluating a fragment asks its questions. -/
theorem Fragment.follows_value (P : Fragment) :
    Follows (P.value scope.recorded) (P.value scope) P.queries P.functions fun _ _ => True := by
  refine (follows_outer scope P.outer).bind fun _ _ _ => ?_
  exact (follows_place scope P.place).map fun _ _ _ => trivial

end

theorem names_held {α ω : Type} {queries : α → List Query} {spell : α → List Token}
    {token : ω → Token} (h : ∀ a, (queries a).filterMap Query.name? =
      (spell a).filterMap Token.name?) (ht : ∀ op, (token op).name? = none)
    (held : Option (α × ω)) : (queriesHeld queries held).filterMap Query.name? =
      (spellHeld spell token held).filterMap Token.name? := by
  rcases held with _ | ⟨left, op⟩
  · rfl
  · simp [queriesHeld, spellHeld, h, ht]

theorem names_sums {held : Option (Sum × SumOp)} :
    (queriesHeld Sum.queries held).filterMap Query.name? =
      (spellHeld Sum.tokens SumOp.token held).filterMap Token.name? :=
  names_held names_sum (by intro op; cases op <;> rfl) held

theorem names_level (level : Level) :
    level.queries.filterMap Query.name? = level.tokens.filterMap Token.name? := by
  have hp : (queriesHeld Product.queries level.product).filterMap Query.name? =
      (spellHeld Product.tokens .times level.product).filterMap Token.name? :=
    names_held names_product (fun _ => rfl) level.product
  have hm : (List.replicate level.minuses Token.minus).filterMap Token.name? = [] :=
    List.filterMap_replicate_of_none rfl
  rw [Level.queries, Level.tokens, List.filterMap_append, List.filterMap_append,
    List.filterMap_append, names_sums, hp, hm, List.append_nil]

theorem names_outer (outer : List Frame) :
    (queriesOuter outer).filterMap Query.name? = (spellOuter outer).filterMap Token.name? := by
  induction outer with
  | nil => rfl
  | cons frame outer ih =>
    have ho : (queriesOpening frame.function).filterMap Query.name? =
        (spellOpening frame.function).filterMap Token.name? := by
      cases frame.function <;> rfl
    rw [queriesOuter, spellOuter, List.filterMap_append, List.filterMap_append,
      List.filterMap_append, List.filterMap_append, ih, names_level, ho]

/-- A fragment looks up the names of its tokens, from left to right. -/
theorem Fragment.names_queries (P : Fragment) :
    P.queries.filterMap Query.name? = P.tokens.filterMap Token.name? := by
  rw [queries, tokens, List.filterMap_append, List.filterMap_append, names_outer]
  congr 1
  cases P.place with
  | operand level => exact names_level level
  | opening level function =>
    rw [Place.queries, Place.tokens_opening, List.filterMap_append, List.filterMap_append,
      names_level]
    rfl
  | operator sum product =>
    rw [Place.queries, Place.tokens_operator, List.filterMap_append, List.filterMap_append,
      names_sums, names_product]

end Formula.Grammar
