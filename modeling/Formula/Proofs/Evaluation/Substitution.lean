import Mathlib
import Formula.Proofs.Evaluation.Correctness
import Formula.Proofs.Grammar.Continuation
import Formula.Proofs.Token.Append

/-!
# Equals for equals

If a scope leaves the host's data alone, an expression in brackets may be replaced by a variable of
its value, wherever it stands and whatever stands around it (`evaluate_substitute`).  The text
around it need not be a formula.

* `Step.Detached`, `Scope.Detached` — a step, and a scope, that has nothing to do with the data.
* `value_read_congr` — what is read behind two fragments of the same value has the same value, if
  the fragments are read on alike.
-/

namespace Formula

open Grammar

variable {σ α β : Type}

/-! ## Scopes that leave the data alone -/

/-- The step neither looks at the data nor changes them. -/
def Step.Detached (p : Step σ α) : Prop :=
  ∃ result, ∀ s, Step.outcome p s = (result, s)

namespace Step.Detached

theorem pure (a : α) : Step.Detached (Pure.pure a : Step σ α) :=
  ⟨.ok a, fun _ => rfl⟩

theorem throw (fault : Fault) : Step.Detached (MonadExcept.throw fault : Step σ α) :=
  ⟨.error fault, fun _ => rfl⟩

theorem bind {p : Step σ α} {f : α → Step σ β} (h : p.Detached) (hf : ∀ a, (f a).Detached) :
    Step.Detached (p >>= f) := by
  obtain ⟨result, h⟩ := h
  cases result with
  | error fault =>
    refine ⟨.error fault, fun s => ?_⟩
    rw [outcome_of_error (bind_of_error (outcome_eq_error.1 (h s)))]
  | ok a =>
    obtain ⟨result, ha⟩ := hf a
    refine ⟨result, fun s => ?_⟩
    rw [← ha s, outcome, outcome, bind_of_ok (outcome_eq_ok.1 (h s))]

/-- Such a step that succeeds does nothing but give its value. -/
theorem eq_pure {p : Step σ α} {s t : σ} {a : α} (h : p.Detached) (hp : p s = .ok a t) :
    p = Pure.pure a := by
  obtain ⟨result, h⟩ := h
  have hs := h s
  rw [outcome_of_ok hp] at hs
  cases hs
  funext u
  exact outcome_eq_ok.1 (h u)

end Step.Detached

/-- No callback of the scope looks at the data of the host or changes them. -/
structure Scope.Detached (scope : Scope σ) : Prop where
  /-- Which function a name stands for has nothing to do with the data, nor has its value. -/
  function : ∀ name, ∃ found, scope.function name = pure found ∧
    ∀ callback, found = some callback → ∀ x, (callback x).Detached
  /-- No variable has to do with the data. -/
  value : ∀ name, (scope.value name).Detached

namespace Scope.Detached

theorem empty : Scope.Detached (.empty : Scope σ) where
  function _ := ⟨none, rfl, nofun⟩
  value _ := .throw _

theorem layer {functions : String → Option (Callback σ)} {values : String → Option Float}
    {under : Scope σ} (hf : ∀ name callback, functions name = some callback →
      ∀ x, (callback x).Detached) (h : under.Detached) :
    Scope.Detached (.layer functions values under) where
  function name := by
    cases hn : functions name with
    | none =>
      obtain ⟨found, hu, hc⟩ := h.function name
      refine ⟨found, ?_, hc⟩
      simp only [Scope.layer, hn, hu]
    | some callback =>
      refine ⟨some callback, ?_, ?_⟩
      · simp only [Scope.layer, hn]
      · rintro _ ⟨⟩ x
        exact hf name callback hn x
  value name := by
    cases hn : values name with
    | none =>
      simp only [Scope.layer, hn]
      exact h.value name
    | some x =>
      simp only [Scope.layer, hn]
      exact .pure x

/-- All that is built in leaves the data alone. -/
theorem builtin : Scope.Detached (.builtin : Scope σ) := by
  refine layer ?_ empty
  intro name callback h x
  obtain ⟨f, -, rfl⟩ := Option.map_eq_some_iff.1 h
  exact .pure _

theorem ofContext (context : Context) : Scope.Detached (.ofContext context : Scope σ) :=
  layer nofun builtin

end Scope.Detached

section

variable {scope : Scope σ}

theorem detached_call (hs : scope.Detached) (function : String) {argument : Step σ Float}
    (h : argument.Detached) : Step.Detached (do
      let callback ← scope.find function
      let x ← argument
      callback x) := by
  obtain ⟨found, hf, hc⟩ := hs.function function
  cases found with
  | none =>
    have hfind : scope.find function = throw .undefinedFunction := by
      funext host
      rw [Scope.find, hf]
      rfl
    rw [hfind]
    exact .throw _
  | some callback =>
    have hfind : scope.find function = pure callback := by
      funext host
      rw [Scope.find, hf]
      rfl
    rw [hfind, pure_bind]
    exact h.bind (hc callback rfl)

mutual

theorem detached_sum (hs : scope.Detached) : ∀ tree : Grammar.Sum, (tree.value scope).Detached
  | .single product => detached_product hs product
  | .more left _ right => (detached_sum hs left).bind fun _ =>
    (detached_product hs right).bind fun _ => .pure _

theorem detached_product (hs : scope.Detached) : ∀ tree : Product, (tree.value scope).Detached
  | .single factor => detached_signed hs factor
  | .more left _ right => (detached_product hs left).bind fun _ =>
    (detached_signed hs right).bind fun _ => .pure _

theorem detached_signed (hs : scope.Detached) : ∀ tree : Signed, (tree.value scope).Detached
  | .signed _ term => (detached_term hs term).bind fun _ => .pure _

theorem detached_term (hs : scope.Detached) : ∀ tree : Term, (tree.value scope).Detached
  | .number _ => .pure _
  | .bracket inner => detached_sum hs inner
  | .call function argument => detached_call hs function (detached_sum hs argument)
  | .variable name => hs.value name

end

end

/-! ## Readings of the same value -/

namespace Grammar

open Fragment

/-- Fragments that have the same value and are read on alike lead to readings of the same value. -/
theorem value_read_congr {env : Setting σ} {P Q : Fragment}
    (hv : P.value env.names = Q.value env.names) (h : Similar P Q) (depth : Nat) (tokens : List Token)
    (fault : Option Fault) : (P.read depth tokens fault).value env.names =
      (Q.read depth tokens fault).value env.names := by
  obtain ⟨hu, hf⟩ := h.read depth tokens fault
  have hP := P.through?_take_used depth tokens fault
  have hQ := Q.through?_take_used depth tokens fault
  rw [← hu] at hQ
  rw [Reading.value, Reading.value, hf, value_congr hv hP hQ]

/-- What is read behind an expression in brackets depends on the expression by its value alone. -/
theorem value_close_congr {scope : Scope σ} {inner inner' : Sum}
    (hv : inner.value scope = inner'.value scope) (frame : Frame) (outer : List Frame) :
    Fragment.value scope ⟨frame.level.supply (.close frame.function inner), outer⟩ =
      Fragment.value scope ⟨frame.level.supply (.close frame.function inner'), outer⟩ := by
  simp only [Fragment.value, Level.value_supply, Term.value_close, hv]

/-- Where an expression may begin, a whole expression that has a value may stand. -/
theorem value_operator_of_join {scope : Scope σ} {sum : Option (Sum × SumOp)} {product : Product}
    {v : Float} (h : (Sum.join sum product).value scope = pure v) {outer : List Frame} {host u : σ}
    {pending : Pending σ} (hP : Fragment.value scope ⟨.operand {}, outer⟩ host = .ok pending u) :
    ∃ pending, Fragment.value scope ⟨.operator sum product, outer⟩ host = .ok pending u := by
  obtain ⟨around, u₁, ho, hP⟩ := Step.bind_eq_ok.1 hP
  cases hP
  have hv : (Sum.join sum product).value scope u = .ok v u := by
    rw [h]
    rfl
  rw [Sum.value_join] at hv
  obtain ⟨held, u₂, hh, hv⟩ := Step.bind_eq_ok.1 hv
  obtain ⟨x, u₃, hx, hv⟩ := Step.bind_eq_ok.1 hv
  cases hv
  refine ⟨⟨.operator held x, around⟩, Step.bind_eq_ok.2 ⟨around, u, ho, ?_⟩⟩
  rw [Place.value_operator]
  simp only [bind_assoc]
  rw [Step.bind_of_ok hh, Step.bind_of_ok hx]
  rfl

theorem value_read_of_pass? (scope : Scope σ) {depth : Nat} {P Q : Fragment} {front : List Token}
    (h : P.pass? depth front = some Q) (tokens : List Token) (fault : Option Fault) :
    (P.read depth (front ++ tokens) fault).value scope =
      (Q.read depth tokens fault).value scope := by
  rw [read_of_pass? h]
  rfl

/-- If an expression that has a value is nested too deep, that is the fault, unless a callback has
failed before the expression. -/
theorem value_read_of_nested {env : Setting σ} {inner : Sum} {v : Float}
    (hi : inner.value env.names = pure v) {outer : List Frame} {depth : Nat}
    (hp : pass? depth ⟨.operand {}, outer⟩ inner.tokens = none) {tokens : List Token}
    {fault : Option Fault} {host : σ}
    (hso : (Step.outcome ((Fragment.read depth ⟨.operand {}, outer⟩
      (inner.tokens ++ tokens) fault).value env.names) host).1 ≠ .error .stackOverflow) :
    ∃ failure u, Fragment.value env.names ⟨.operand {}, outer⟩ host = .error failure u := by
  obtain ⟨sum, product, rfl, hthrough⟩ := through?_sum inner outer
  obtain ⟨hr, more, hm⟩ := read_of_nested hthrough hp tokens fault
  cases hP : Fragment.value env.names ⟨.operand {}, outer⟩ host with
  | error failure u => exact ⟨failure, u, rfl⟩
  | ok pending u =>
    obtain ⟨pending', hQ⟩ := value_operator_of_join hi hP
    refine absurd ?_ hso
    cases hF : (Fragment.read depth ⟨.operand {}, outer⟩
        ((Sum.join sum product).tokens ++ tokens) fault).fragment.value env.names host with
    | ok pending t =>
      rw [Reading.value, Reading.fault?, hr, Step.outcome, Step.bind_of_ok hF]
      rfl
    | error failure t => cases hQ.symm.trans (value_error_of_through? env hm hF)

theorem pass?_variable {depth : Nat} {frame : Frame} {outer : List Frame}
    (hd : (frame :: outer).length < depth) (x : String) :
    pass? depth ⟨.operand {}, frame :: outer⟩ [.name .variable x, .closeBracket] =
      some ⟨frame.level.supply (.close frame.function (Level.complete {} (.variable x))), outer⟩ := by
  rw [pass?_cons, grow?_eq_some.2 ⟨hd, rfl⟩, Option.bind_some, pass?_cons,
    grow?_eq_some.2 ⟨hd, rfl⟩]
  rfl

/-- In a bracket an expression may stand for a variable of its value, unless it is nested too
deep there. -/
theorem value_read_substitute {env : Setting σ} {inner : Sum} {x : String} {v : Float}
    (hi : inner.value env.names = pure v) (hx : env.names.value x = pure v) (frame : Frame)
    (outer : List Frame) (depth : Nat) (tokens : List Token) (fault : Option Fault) {host : σ}
    (hso : (Step.outcome ((Fragment.read depth ⟨.operand {}, frame :: outer⟩
      (inner.tokens ++ .closeBracket :: tokens) fault).value env.names) host).1 ≠
        .error .stackOverflow) :
    (Fragment.read depth ⟨.operand {}, frame :: outer⟩
      (inner.tokens ++ .closeBracket :: tokens) fault).value env.names host =
    (Fragment.read depth ⟨.operand {}, frame :: outer⟩
      (.name .variable x :: .closeBracket :: tokens) fault).value env.names host := by
  by_cases hlt : (frame :: outer).length < depth
  · cases hp : pass? depth ⟨.operand {}, frame :: outer⟩ inner.tokens with
    | none =>
      obtain ⟨failure, u, hP⟩ := value_read_of_nested hi hp hso
      rw [Reading.value, Reading.value, Step.bind_of_error (value_of_read_error hP),
        Step.bind_of_error (value_of_read_error hP)]
    | some Q =>
      have hv : inner.value env.names = (Level.complete {} (.variable x)).value env.names := by
        rw [hi]
        simp [Level.complete, Sum.value_join, Product.value_join, Signed.value, Term.value, hx,
          settle]
      have hl := value_read_of_pass? env.names hp (.closeBracket :: tokens) fault
      have hr := value_read_of_pass? env.names (pass?_variable hlt x) tokens fault
      rw [read_cons_some (grow?_closeBracket hlt hp)] at hl
      rw [hl]
      have hc := value_read_congr (value_close_congr hv frame outer) (.of_next rfl rfl) depth tokens
        fault
      exact congrFun (Eq.trans hc hr.symm) host
  · rw [read_of_le (Nat.not_lt.1 hlt) (by simp), read_of_le (Nat.not_lt.1 hlt) (by simp)]

/-- The same behind tokens that lead to the bracket, and behind tokens that do not. -/
theorem value_substitute (env : Setting σ) {inner : Sum} {x : String} {v : Float}
    (hi : inner.value env.names = pure v) (hx : env.names.value x = pure v) (P : Fragment)
    (depth : Nat) (front tokens : List Token) (fault : Option Fault) {host : σ}
    (hso : (Step.outcome ((P.read depth (front ++ .openBracket :: (inner.tokens ++
      .closeBracket :: tokens)) fault).value env.names) host).1 ≠ .error .stackOverflow) :
    (P.read depth (front ++ .openBracket :: (inner.tokens ++ .closeBracket :: tokens)) fault).value
      env.names host =
    (P.read depth (front ++ .openBracket :: .name .variable x :: .closeBracket :: tokens)
      fault).value env.names host := by
  cases hp : P.pass? depth front with
  | none => rw [read_of_not_pass? hp _ (.openBracket :: .name .variable x :: .closeBracket :: tokens)]
  | some Q =>
    rw [value_read_of_pass? env.names hp] at hso ⊢
    rw [value_read_of_pass? env.names hp]
    cases hg : Q.grow? depth .openBracket with
    | none => rw [read_cons_none hg, read_cons_none hg]
    | some R =>
      obtain ⟨frame, outer, rfl⟩ := operand_of_open (grow?_eq_some.1 hg).2
      rw [read_cons_some hg] at hso ⊢
      rw [read_cons_some hg]
      exact value_read_substitute hi hx frame outer depth tokens fault hso

end Grammar

/-! ## Texts of the same value -/

namespace Token

variable {size : Nat}

theorem sequence_openBracket (size : Nat) (bytes : List UInt8) : sequence size (0x28 :: bytes) =
    (.openBracket :: (sequence size bytes).1, (sequence size bytes).2) :=
  sequence_of_ok (next_symbol rfl size bytes) nofun

theorem sequence_closeBracket (size : Nat) (bytes : List UInt8) : sequence size (0x29 :: bytes) =
    (.closeBracket :: (sequence size bytes).1, (sequence size bytes).2) :=
  sequence_of_ok (next_symbol rfl size bytes) nofun

theorem sequence_variable {x : String} {rest : List UInt8} (hx : ∀ b ∈ bytesOf x, Byte.isName b)
    (hl : (bytesOf x).length ≤ size - 1) (hr : Byte.isName (peek rest) = false) :
    sequence size (0x24 :: (bytesOf x ++ rest)) =
      (.name .variable x :: (sequence size rest).1, (sequence size rest).2) := by
  refine sequence_of_ok ?_ nofun
  rw [next_symbol rfl]
  exact scanName_text hx hl hr .variable

end Token

/-- The bytes of a text with another one in brackets in it. -/
theorem bytesOf_bracket (p e q : String) : bytesOf (p ++ "(" ++ e ++ ")" ++ q) =
    bytesOf p ++ 0x28 :: (bytesOf e ++ 0x29 :: bytesOf q) := by
  have ho : bytesOf "(" = [0x28] := rfl
  have hc : bytesOf ")" = [0x29] := rfl
  simp [bytesOf_append, ho, hc]

theorem bytesOf_variable (p x q : String) : bytesOf (p ++ "($" ++ x ++ ")" ++ q) =
    bytesOf p ++ 0x28 :: 0x24 :: (bytesOf x ++ 0x29 :: bytesOf q) := by
  have ho : bytesOf "($" = [0x28, 0x24] := rfl
  have hc : bytesOf ")" = [0x29] := rfl
  simp [bytesOf_append, ho, hc]

/-- **Equals for equals.**  Let a scope leave the host's data alone, and let a text without NUL have
the value that a variable has.  Then the text and the variable may be exchanged in brackets, in any
text, unless the first of the two fails because it is nested too deep. -/
theorem evaluate_substitute {scope : Scope σ} (hs : scope.Detached) {limits : Limits}
    {e x : String} {v : Float} {host₀ u : σ} (hn : 0 ∉ bytesOf e)
    (he : evaluate (some scope) e limits host₀ = .ok v u)
    (hx : ∀ b ∈ bytesOf x, Byte.isName b) (hl : (bytesOf x).length ≤ limits.nameSize - 1)
    (hv : scope.value x = pure v) (p q : String) (host : σ)
    (hso : (Step.outcome (evaluate (some scope) (p ++ "(" ++ e ++ ")" ++ q) limits) host).1 ≠
      .error .stackOverflow) :
    evaluate (some scope) (p ++ "(" ++ e ++ ")" ++ q) limits host =
      evaluate (some scope) (p ++ "($" ++ x ++ ")" ++ q) limits host := by
  have hE := Token.sequence_append (c := 0x29) rfl limits.nameSize (bytesOf e) (bytesOf q)
  -- the tokens of the text are those of a tree of its value
  rw [evaluate_eq] at he
  cases hr : (Reading.ofText limits e).ending with
  | error fault =>
    rw [hr] at he
    obtain ⟨pending, t, -, he⟩ := Step.bind_eq_ok.1 he
    cases he
  | ok tree =>
    rw [hr] at he
    have hi := (detached_sum hs tree).eq_pure he
    obtain ⟨ht, -⟩ := ending_eq_ok_iff.1 hr
    rw [if_pos ⟨congrArg Prod.snd ht, hn⟩, congrArg Prod.fst ht, Token.sequence_closeBracket] at hE
    rw [evaluate_eq_value] at hso ⊢
    rw [evaluate_eq_value]
    unfold Reading.ofText at hso ⊢
    rw [bytesOf_bracket, Token.sequence_append rfl, Token.sequence_openBracket, hE] at hso ⊢
    rw [bytesOf_variable, Token.sequence_append rfl, Token.sequence_openBracket,
      Token.sequence_variable hx hl rfl, Token.sequence_closeBracket]
    split at hso
    · next hp =>
      rw [if_pos hp, if_pos hp]
      exact value_substitute { scope := some scope, limits } hi hv .start limits.depth _ _ _ hso
    · next hp =>
      rw [if_neg hp, if_neg hp]

/-- The argument of a built-in function, with the variables of a context, and a variable of the same
value in its place. -/
theorem substitute_argument :
    let scope : Scope Unit := .ofContext (.insert (.insert ∅ "y" 3) "x" (-3))
    evaluate (some scope) "-($y)" {} () = .ok (-3) () ∧
      evaluate (some scope) ("floor" ++ "(" ++ "-($y)" ++ ")" ++ "") {} () =
        .ok (Float.floor (-3)) () ∧
      evaluate (some scope) ("floor" ++ "(" ++ "-($y)" ++ ")" ++ "") {} () =
        evaluate (some scope) ("floor" ++ "($" ++ "x" ++ ")" ++ "") {} () := by
  intro scope
  have he : evaluate (some scope) "-($y)" {} () = .ok (-3) () := by
    simp only [scope]
    cbv
  have hg : evaluate (some scope) ("floor" ++ "(" ++ "-($y)" ++ ")" ++ "") {} () =
      .ok (Float.floor (-3)) () := by
    simp only [scope]
    cbv
  have hx : scope.value "x" = pure (-3) := by
    simp only [scope]
    cbv
  refine ⟨he, hg, evaluate_substitute (.ofContext _) (by decide) he (List.all_eq_true.1 rfl)
    (by decide) hx "floor" "" () ?_⟩
  rw [Step.outcome_of_ok hg]
  rintro ⟨⟩

end Formula
