import Formula.Evaluation.Bounded

/-!
# The rules of evaluation

There is one rule for each level of the grammar

    expression = sum
    sum        = product { ("+" | "-") product }
    product    = signed { ("*" | "/" | "<" | "<=" | ">" | ">=" | "=") signed }
    signed     = { "-" } term
    term       = number | bracketed | function bracketed | "$" variable
    bracketed  = "(" expression ")"

and it yields the value of what it reads: no tree is built.  Operators of one level are applied from
left to right.  A rule starts at its first token and stops at the first token behind what it reads.

The rules are defined together, over the text that is left, as `boundedExpression` and its
companions.  What they are is said by the equations at the end of this file, one for each rule.
-/

namespace Formula

namespace Evaluation

variable {σ : Type}

/-! ## The rules, with what they leave -/

/-- Uses the token held, which is not the end. -/
@[inline]
def boundedConsume {α : Type} (env : Setting σ) (action : Step σ α) (s : State σ)
    (hs : s.token ≠ .done) : Bounded σ α s.ahead :=
  .run (consume env action) s fun _ _ h => ahead_lt_of_consume hs h

/-- Uses an opening bracket. -/
@[inline]
def boundedOpen (env : Setting σ) (s : State σ) : Bounded σ Unit s.ahead :=
  .run (accept env .openBracket .expectedOpenBracket (pure ())) s fun _ _ h =>
    ahead_lt_of_accept (by simp) h

/-- Uses a closing bracket, for a step on the data of the host. -/
@[inline]
def boundedClose (env : Setting σ) (action : Step σ Float) (s : State σ) :
    Bounded σ Float s.ahead :=
  .run (accept env .closeBracket .expectedCloseBracket action) s fun _ _ h =>
    ahead_lt_of_accept (by simp) h

mutual

/-- The rule of expressions: a sum, one level deeper than what surrounds it. -/
def boundedExpression (env : Setting σ) (s : State σ) : Bounded σ Float s.ahead :=
  if env.limits.depth ≤ s.depth then .fail .stackOverflow s
  else (boundedSum env s.enter).leave.weaken (Nat.le_of_eq s.ahead_enter)
termination_by 6 * s.ahead + 5

/-- The rule of sums. -/
def boundedSum (env : Setting σ) (s : State σ) : Bounded σ Float s.ahead :=
  (boundedProduct env s).andThen fun value s₁ h => (boundedSumTail env value s₁).weaken h
termination_by 6 * s.ahead + 4

/-- The rest of a sum behind products that come to `value`. -/
def boundedSumTail (env : Setting σ) (value : Float) (s : State σ) :
    Bounded σ Float (s.ahead + 1) :=
  match ho : s.token.sumOp? with
  | none => .pure value s (Nat.lt_succ_self _)
  | some op =>
    (boundedConsume env (pure ()) s (Token.ne_done_of_sumOp? ho)).andThen fun _ s₁ _ =>
      (boundedProduct env s₁).andThen fun right s₂ _ =>
        (boundedSumTail env (op.apply value right) s₂).weaken (by omega)
termination_by 6 * s.ahead

/-- The rule of products. -/
def boundedProduct (env : Setting σ) (s : State σ) : Bounded σ Float s.ahead :=
  (boundedSigned env false s).andThen fun value s₁ h => (boundedProductTail env value s₁).weaken h
termination_by 6 * s.ahead + 3

/-- The rest of a product behind factors that come to `value`. -/
def boundedProductTail (env : Setting σ) (value : Float) (s : State σ) :
    Bounded σ Float (s.ahead + 1) :=
  match ho : s.token.productOp? with
  | none => .pure value s (Nat.lt_succ_self _)
  | some op =>
    (boundedConsume env (pure ()) s (Token.ne_done_of_productOp? ho)).andThen fun _ s₁ _ =>
      (boundedSigned env false s₁).andThen fun right s₂ _ =>
        (boundedProductTail env (op.apply value right) s₂).weaken (by omega)
termination_by 6 * s.ahead

/-- The rule of signed terms, behind an odd number of minus signs if `negative`. -/
def boundedSigned (env : Setting σ) (negative : Bool) (s : State σ) : Bounded σ Float s.ahead :=
  if hm : s.token = .minus then
    (boundedConsume env (pure ()) s (by simp [hm])).andThen fun _ s₁ h =>
      (boundedSigned env (!negative) s₁).weaken (Nat.le_of_lt h)
  else
    (boundedTerm env s).andThen fun value s₁ h =>
      .pure (if negative then -value else value) s₁ h
termination_by 6 * s.ahead + 2

/-- The rule of terms. -/
def boundedTerm (env : Setting σ) (s : State σ) : Bounded σ Float s.ahead :=
  match ht : s.token with
  | .number value => boundedConsume env (pure value) s (by simp [ht])
  | .openBracket => boundedBracketed env pure s
  | .name .function name =>
    (boundedConsume env (env.function name) s (by simp [ht])).andThen fun callback s₁ h =>
      (boundedBracketed env callback s₁).weaken (Nat.le_of_lt h)
  | .name .variable name => boundedConsume env (env.value name) s (by simp [ht])
  | _ => .fail .expectedTerm s
termination_by 6 * s.ahead + 1

/-- The rule of an expression in brackets, to whose value a function is applied. -/
def boundedBracketed (env : Setting σ) (callback : Callback σ) (s : State σ) :
    Bounded σ Float s.ahead :=
  (boundedOpen env s).andThen fun _ s₁ _ =>
    (boundedExpression env s₁).andThen fun value s₂ _ =>
      (boundedClose env (callback value) s₂).weaken (by omega)
termination_by 6 * s.ahead

end

/-! ## The rules -/

/-- Evaluates an expression. -/
def expression (env : Setting σ) : Evaluation σ Float := fun s => (boundedExpression env s).result

/-- Evaluates a sum. -/
def sum (env : Setting σ) : Evaluation σ Float := fun s => (boundedSum env s).result

/-- Goes on with a sum behind products that come to `value`. -/
def sumTail (env : Setting σ) (value : Float) : Evaluation σ Float := fun s =>
  (boundedSumTail env value s).result

/-- Evaluates a product. -/
def product (env : Setting σ) : Evaluation σ Float := fun s => (boundedProduct env s).result

/-- Goes on with a product behind factors that come to `value`. -/
def productTail (env : Setting σ) (value : Float) : Evaluation σ Float := fun s =>
  (boundedProductTail env value s).result

/-- Evaluates a signed term behind an odd number of minus signs if `negative`. -/
def signed (env : Setting σ) (negative : Bool) : Evaluation σ Float := fun s =>
  (boundedSigned env negative s).result

/-- Evaluates a term. -/
def term (env : Setting σ) : Evaluation σ Float := fun s => (boundedTerm env s).result

/-- Evaluates an expression in brackets and applies a function to its value. -/
def bracketed (env : Setting σ) (callback : Callback σ) : Evaluation σ Float := fun s =>
  (boundedBracketed env callback s).result

/-! ## Every rule uses some of the text -/

section Ahead

variable {env : Setting σ} {s t : State σ} {v : Float}

theorem ahead_lt_of_expression (h : expression env s = .ok v t) : t.ahead < s.ahead :=
  (boundedExpression env s).2 v t h

theorem ahead_lt_of_sum (h : sum env s = .ok v t) : t.ahead < s.ahead :=
  (boundedSum env s).2 v t h

theorem ahead_lt_of_product (h : product env s = .ok v t) : t.ahead < s.ahead :=
  (boundedProduct env s).2 v t h

theorem ahead_lt_of_signed {negative : Bool} (h : signed env negative s = .ok v t) :
    t.ahead < s.ahead :=
  (boundedSigned env negative s).2 v t h

theorem ahead_lt_of_term (h : term env s = .ok v t) : t.ahead < s.ahead :=
  (boundedTerm env s).2 v t h

theorem ahead_lt_of_bracketed {callback : Callback σ} (h : bracketed env callback s = .ok v t) :
    t.ahead < s.ahead :=
  (boundedBracketed env callback s).2 v t h

end Ahead

/-! ## What the rules are -/

/-- An expression inside one more level; the level ends with it, also when it fails. -/
def nested (env : Setting σ) (inner : Evaluation σ Float) : Evaluation σ Float := fun s =>
  if env.limits.depth ≤ s.depth then .error .stackOverflow s
  else match inner s.enter with
    | .ok value t => .ok value t.leave
    | .error fault t => .error fault t.leave

variable (env : Setting σ) (s : State σ)

theorem expression_eq : expression env = nested env (sum env) := by
  funext s
  rw [expression, boundedExpression, nested]
  split
  · rfl
  · rw [Bounded.result_weaken, Bounded.result_leave, sum]
    cases (boundedSum env s.enter).result <;> rfl

theorem sum_eq : sum env = product env >>= sumTail env := by
  funext s
  rw [sum, boundedSum]
  exact Bounded.result_andThen rfl fun _ _ _ => rfl

theorem sumTail_of_none {value : Float} (h : s.token.sumOp? = none) :
    sumTail env value s = .ok value s := by
  rw [sumTail, boundedSumTail]
  split
  · rfl
  · next ho => cases h.symm.trans ho

theorem sumTail_of_some {value : Float} {op : SumOp} (h : s.token.sumOp? = some op) :
    sumTail env value s = (consume env (pure ()) >>= fun _ => product env >>= fun right =>
      sumTail env (op.apply value right)) s := by
  rw [sumTail, boundedSumTail]
  split
  · next ho => cases h.symm.trans ho
  · next ho =>
    cases h.symm.trans ho
    exact Bounded.result_andThen rfl fun _ _ _ => Bounded.result_andThen rfl fun _ _ _ => rfl

theorem product_eq : product env = signed env false >>= productTail env := by
  funext s
  rw [product, boundedProduct]
  exact Bounded.result_andThen rfl fun _ _ _ => rfl

theorem productTail_of_none {value : Float} (h : s.token.productOp? = none) :
    productTail env value s = .ok value s := by
  rw [productTail, boundedProductTail]
  split
  · rfl
  · next ho => cases h.symm.trans ho

theorem productTail_of_some {value : Float} {op : ProductOp} (h : s.token.productOp? = some op) :
    productTail env value s = (consume env (pure ()) >>= fun _ => signed env false >>= fun right =>
      productTail env (op.apply value right)) s := by
  rw [productTail, boundedProductTail]
  split
  · next ho => cases h.symm.trans ho
  · next ho =>
    cases h.symm.trans ho
    exact Bounded.result_andThen rfl fun _ _ _ => Bounded.result_andThen rfl fun _ _ _ => rfl

theorem signed_of_minus {negative : Bool} (h : s.token = .minus) :
    signed env negative s = (consume env (pure ()) >>= fun _ => signed env (!negative)) s := by
  rw [signed, boundedSigned, dif_pos h]
  exact Bounded.result_andThen rfl fun _ _ _ => rfl

theorem signed_of_ne {negative : Bool} (h : s.token ≠ .minus) :
    signed env negative s =
      (term env >>= fun value => pure (if negative then -value else value)) s := by
  rw [signed, boundedSigned, dif_neg h]
  exact Bounded.result_andThen rfl fun _ _ _ => rfl

/-- What a term is depends on its first token alone. -/
theorem term_eq : term env = fun s => match s.token with
    | .number value => consume env (pure value) s
    | .openBracket => bracketed env pure s
    | .name .function name => (consume env (env.function name) >>= bracketed env) s
    | .name .variable name => consume env (env.value name) s
    | _ => .error .expectedTerm s := by
  funext s
  rw [term, boundedTerm]
  obtain ⟨rest, token, depth, fetched, host⟩ := s
  cases token with
  | name role text =>
    cases role
    · exact Bounded.result_andThen rfl fun _ _ _ => rfl
    · rfl
  | _ => rfl

theorem bracketed_eq (callback : Callback σ) :
    bracketed env callback = (accept env .openBracket .expectedOpenBracket (pure ()) >>= fun _ =>
      expression env >>= fun value =>
        accept env .closeBracket .expectedCloseBracket (callback value)) := by
  funext s
  rw [bracketed, boundedBracketed]
  exact Bounded.result_andThen rfl fun _ _ _ => Bounded.result_andThen rfl fun _ _ _ => rfl

end Evaluation

end Formula
