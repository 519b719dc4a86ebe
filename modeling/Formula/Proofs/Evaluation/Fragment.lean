import Formula.Proofs.Evaluation.Pending
import Formula.Proofs.Grammar.Reading

/-!
# The value of the front part of a formula

A fragment has a value as a whole formula has one: the operations that are pending behind it.  It is
found from left to right by looking up and calling what the fragment names, and a fragment that is
one token longer has the value that one step more gives (`value_of_next?`); where a token cannot
stand, the step gives the fault of the fragment (`value_of_blocked`).
-/

namespace Formula

variable {σ α ω : Type}

/-- The meaning of names in a setting; without a scope every name is undefined. -/
def Setting.names (env : Setting σ) : Scope σ :=
  env.scope.getD Scope.empty

theorem Setting.function_eq (env : Setting σ) (name : String) :
    env.function name = env.names.find name := by
  unfold function names
  cases env.scope <;> rfl

theorem Setting.value_eq (env : Setting σ) (name : String) :
    env.value name = env.names.value name := by
  unfold value names
  cases env.scope <;> rfl

namespace Grammar

variable (scope : Scope σ)

/-- The value of an operand that waits, if there is one. -/
def valueHeld (value : α → Step σ Float) : Option (α × ω) → Step σ (Option (Float × ω))
  | none => pure none
  | some (left, op) => do
    let x ← value left
    return some (x, op)

/-- What the operands of a level hold. -/
def Level.value (level : Level) : Step σ Held := do
  let sum ← valueHeld (Sum.value scope) level.sum
  let product ← valueHeld (Product.value scope) level.product
  return { sum, product, negative := level.minuses % 2 = 1 }

/-- The function that is called behind a bracket; a bracket without a name keeps its value. -/
def findClosing : Option String → Step σ (Callback σ)
  | none => pure pure
  | some function => scope.find function

/-- What is pending in the innermost expression. -/
def Place.value : Place → Step σ (Stage σ)
  | .operand level => do
    let held ← level.value scope
    return .operand held
  | .opening level function => do
    let held ← level.value scope
    let callback ← scope.find function
    return .opening held callback
  | .operator sum product => do
    let held ← valueHeld (Sum.value scope) sum
    let x ← product.value scope
    return .operator held x

/-- What is pending around the open brackets. -/
def valueOuter : List Frame → Step σ (List (Held × Callback σ))
  | [] => pure []
  | frame :: outer => do
    let around ← valueOuter outer
    let held ← frame.level.value scope
    let callback ← findClosing scope frame.function
    return (held, callback) :: around

/-- What is pending behind a fragment. -/
def Fragment.value (P : Fragment) : Step σ (Pending σ) := do
  let outer ← valueOuter scope P.outer
  let stage ← P.place.value scope
  return ⟨stage, outer⟩

@[simp]
theorem valueHeld_none (value : α → Step σ Float) :
    valueHeld value (none : Option (α × ω)) = pure none := rfl

@[simp]
theorem valueHeld_some (value : α → Step σ Float) (left : α) (op : ω) :
    valueHeld value (some (left, op)) = value left >>= fun x => pure (some (x, op)) := rfl

@[simp]
theorem Place.value_operand (level : Level) :
    (operand level).value scope = level.value scope >>= fun held => pure (.operand held) := rfl

@[simp]
theorem Place.value_opening (level : Level) (function : String) :
    (opening level function).value scope = (do
      let held ← level.value scope
      let callback ← scope.find function
      return .opening held callback) := rfl

@[simp]
theorem Place.value_operator (sum : Option (Sum × SumOp)) (product : Product) :
    (operator sum product).value scope = (do
      let held ← valueHeld (Sum.value scope) sum
      let x ← product.value scope
      return .operator held x) := rfl

theorem Sum.value_join (sum : Option (Sum × SumOp)) (product : Product) :
    (Sum.join sum product).value scope = (do
      let held ← valueHeld (Sum.value scope) sum
      let x ← product.value scope
      return settle SumOp.apply held x) := by
  rcases sum with _ | ⟨left, op⟩ <;> simp [Sum.join, Sum.value, settle]

theorem Product.value_join (product : Option (Product × ProductOp)) (factor : Signed) :
    (Product.join product factor).value scope = (do
      let held ← valueHeld (Product.value scope) product
      let x ← factor.value scope
      return settle ProductOp.apply held x) := by
  rcases product with _ | ⟨left, op⟩ <;> simp [Product.join, Product.value, settle]

theorem Term.value_close (function : Option String) (inner : Sum) :
    (Term.close function inner).value scope = (do
      let callback ← findClosing scope function
      let x ← inner.value scope
      callback x) := by
  cases function <;> simp [Term.close, Term.value, findClosing]

theorem Level.value_supply (level : Level) (term : Term) :
    (level.supply term).value scope = (do
      let held ← level.value scope
      let x ← term.value scope
      return held.supply x) := by
  simp [Level.supply, Level.value, Product.value_join, Signed.value, Held.supply]

variable {scope}

theorem length_of_valueOuter {outer : List Frame} {around : List (Held × Callback σ)} {s t : σ}
    (h : valueOuter scope outer s = .ok around t) : around.length = outer.length := by
  induction outer generalizing around t with
  | nil => cases h; rfl
  | cons frame outer ih =>
    obtain ⟨around, u, ho, h⟩ := Step.bind_eq_ok.1 h
    obtain ⟨held, v, -, h⟩ := Step.bind_eq_ok.1 h
    obtain ⟨callback, w, -, h⟩ := Step.bind_eq_ok.1 h
    cases h
    rw [List.length_cons, List.length_cons, ih ho]

/-- What is pending behind a fragment has one level for each open bracket. -/
theorem Fragment.length_of_value {P : Fragment} {pending : Pending σ} {s t : σ}
    (h : P.value scope s = .ok pending t) : pending.outer.length = P.outer.length := by
  obtain ⟨outer, u, ho, h⟩ := Step.bind_eq_ok.1 h
  obtain ⟨stage, v, -, h⟩ := Step.bind_eq_ok.1 h
  cases h
  exact length_of_valueOuter ho

/-! ## One token more is one step more -/

/-- A fragment that is one token longer has the value that one step more gives. -/
theorem Fragment.value_of_next? {env : Setting σ} {P Q : Fragment} {token : Token}
    (h : P.next? token = some Q) :
    (P.value env.names >>= fun pending => pending.step env token) = Q.value env.names := by
  cases grows_of_next? h with
  | minus level outer =>
    have hp : decide ((level.minuses + 1) % 2 = 1) = !decide (level.minuses % 2 = 1) := by
      rw [← decide_not, decide_eq_decide]
      omega
    simp [Fragment.value, Level.value, hp]
  | number level outer x => simp [Fragment.value, Level.value_supply, Term.value]
  | value level outer name =>
    simp [Fragment.value, Level.value_supply, Term.value, Setting.value_eq]
  | function level outer name => simp [Fragment.value, Setting.function_eq]
  | bracket level outer => simp [Fragment.value, valueOuter, findClosing, Level.value]
  | call level outer function => simp [Fragment.value, valueOuter, findClosing, Level.value]
  | times sum product outer op => simp [Fragment.value, Level.value]
  | sign sum product outer op =>
    have hop := Token.sumOp?_eq_some.2 (rfl : op.token = op.token)
    simp [Fragment.value, Level.value, Sum.value_join, Pending.step_of_sumOp? hop]
  | close sum product frame outer =>
    simp [Fragment.value, Level.value_supply, valueOuter, Sum.value_join, Term.value_close]

/-- Where a token cannot stand, the step gives the fault of the fragment. -/
theorem Fragment.value_of_blocked {env : Setting σ} {P : Fragment} {token : Token}
    (h : P.next? token = none) :
    (P.value env.names >>= fun pending => pending.step env token) =
      P.value env.names >>= fun _ => throw P.fault := by
  obtain ⟨place, outer⟩ := P
  cases place with
  | operand level =>
    cases token with
    | name role => cases role <;> cases h
    | minus | number | openBracket => cases h
    | done | plus | times | closeBracket => simp [Fragment.value, Pending.step, fault]
  | opening level function =>
    have ht : token ≠ .openBracket := by rintro rfl; cases h
    simp [Fragment.value, Pending.step, fault, ht]
  | operator sum product =>
    cases outer with
    | nil =>
      cases token with
      | plus | minus | times => cases h
      | done | openBracket | closeBracket | number | name =>
        simp [Fragment.value, valueOuter, Pending.step, fault, Token.productOp?, Token.sumOp?]
    | cons frame outer =>
      cases token with
      | plus | minus | times | closeBracket => cases h
      | done | openBracket | number | name =>
        simp [Fragment.value, valueOuter, Pending.step, fault, Token.productOp?, Token.sumOp?]

/-- The value of what has been read from a fragment on is that of the fragment and then the steps of
the tokens. -/
theorem Fragment.value_of_through? {env : Setting σ} {P Q : Fragment} {tokens : List Token}
    (h : P.through? tokens = some Q) :
    (P.value env.names >>= fun pending =>
      tokens.foldlM (fun pending token => pending.step env token) pending) =
      Q.value env.names := by
  induction tokens generalizing P with
  | nil =>
    cases h
    exact bind_pure _
  | cons token tokens ih =>
    rw [through?_cons] at h
    obtain ⟨R, hR, hQ⟩ := Option.bind_eq_some_iff.1 h
    simp only [List.foldlM_cons]
    rw [← bind_assoc, value_of_next? hR]
    exact ih hQ

/-- Fragments of the same value have the same value behind the same tokens. -/
theorem Fragment.value_congr {env : Setting σ} {P P' Q Q' : Fragment} {tokens : List Token}
    (hv : P.value env.names = P'.value env.names) (h : P.through? tokens = some Q)
    (h' : P'.through? tokens = some Q') : Q.value env.names = Q'.value env.names := by
  rw [← value_of_through? h, hv, value_of_through? h']

end Grammar

end Formula
