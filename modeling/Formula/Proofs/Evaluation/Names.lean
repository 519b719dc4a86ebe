import Mathlib
import Formula.Proofs.Evaluation.Correctness
import Formula.Proofs.Evaluation.Record
import Formula.Proofs.Token.Reading

/-!
# Only names that are mentioned matter

An evaluation looks up the names that its text mentions, each in its role, and no others.  What a
scope answers to other names has no part in it (`evaluate_of_agreeOn`).  Names are spelled with
letters, digits and underscores and fit within the limits (`spellable_of_mem_sequence`), so no formula
asks a context for anything under another key (`evaluate_names`).
-/

namespace Formula

open Grammar

variable {σ : Type}

/-! ## Scopes that agree on names -/

/-- Two scopes answer alike to a name in a role: the answer is the same on all data, and so is what
it does to them.  Functions that are found do the same when they are called. -/
def Scope.AgreeOn (scope other : Scope σ) : Role → String → Prop
  | .function, name => scope.function name = other.function name
  | .variable, name => scope.value name = other.value name

variable {scope other : Scope σ}

theorem find_of_agreeOn {name : String} (h : scope.AgreeOn other .function name) :
    scope.find name = other.find name := by
  have hf : scope.function name = other.function name := h
  funext host
  rw [Scope.find, Scope.find, hf]

/-- What a record shows of two answers is the same if the answers are. -/
theorem Scope.AgreeOn.recorded {role : Role} {name : String} (h : scope.AgreeOn other role name) :
    scope.recorded.AgreeOn other.recorded role name := by
  cases role with
  | function =>
    have hf : scope.function name = other.function name := h
    simp only [AgreeOn, Scope.recorded, hf]
  | «variable» =>
    have hv : scope.value name = other.value name := h
    simp only [AgreeOn, Scope.recorded, hv]

/-- Two scopes answer alike to the names of tokens. -/
def AgreeOnTokens (scope other : Scope σ) (tokens : List Token) : Prop :=
  ∀ role name, .name role name ∈ tokens → scope.AgreeOn other role name

/-! ## Steps of tokens whose names have the same meaning -/

section

variable {env env' : Setting σ}

/-- The step of a token asks for no name but that of the token. -/
theorem step_of_agree {token : Token}
    (h : ∀ role name, token = .name role name → env.names.AgreeOn env'.names role name)
    (pending : Pending σ) : pending.step env token = pending.step env' token := by
  obtain ⟨stage, outer⟩ := pending
  cases stage with
  | operand held =>
    cases token with
    | name role name =>
      cases role with
      | function =>
        rw [Pending.step_function, Pending.step_function, env.function_eq, env'.function_eq,
          find_of_agreeOn (h .function name rfl)]
      | «variable» =>
        have hv : env.names.value name = env'.names.value name := h .variable name rfl
        rw [Pending.step_value, Pending.step_value, env.value_eq, env'.value_eq, hv]
    | _ => rfl
  | opening held callback => rfl
  | operator sum product => rfl

theorem steps_of_agree {tokens : List Token} (h : AgreeOnTokens env.names env'.names tokens)
    (pending : Pending σ) :
    tokens.foldlM (fun pending token => pending.step env token) pending =
      tokens.foldlM (fun pending token => pending.step env' token) pending := by
  induction tokens generalizing pending with
  | nil => rfl
  | cons token tokens ih =>
    have hs := step_of_agree (fun role name ht => h role name (ht ▸ List.mem_cons_self ..)) pending
    simp only [List.foldlM_cons, hs]
    congr 1
    funext pending
    exact ih (fun role name ht => h role name (List.mem_cons_of_mem _ ht)) pending

/-- What has been read of a formula has the same value if its names have the same meaning. -/
theorem Grammar.Fragment.value_of_agree {P : Fragment} {tokens : List Token}
    (hP : start.through? tokens = some P) (h : AgreeOnTokens env.names env'.names tokens) :
    P.value env.names = P.value env'.names := by
  rw [← value_of_through? hP, ← value_of_through? hP]
  exact steps_of_agree h Pending.start

end

/-! ## Evaluations -/

section

variable {limits : Limits} {text : String}

theorem evaluate_of_agreeOn (h : AgreeOnTokens scope other
    (Token.sequence limits.nameSize (bytesOf text)).1) :
    evaluate (some scope) text limits = evaluate (some other) text limits := by
  have hP := Fragment.start.through?_take_used limits.depth
    (Token.sequence limits.nameSize (bytesOf text)).1
    (Token.sequence limits.nameSize (bytesOf text)).2
  have hv := @Fragment.value_of_agree _ { scope := some scope, limits }
    { scope := some other, limits } _ _ hP fun role name ht => h role name (List.mem_of_mem_take ht)
  rw [evaluate_eq_value, evaluate_eq_value, Reading.value, Reading.value]
  exact congrArg (· >>= _) hv

theorem events_of_agreeOn (h : AgreeOnTokens scope other
    (Token.sequence limits.nameSize (bytesOf text)).1) (host : σ) :
    Setting.events { scope := some scope, limits } text host =
      Setting.events { scope := some other, limits } text host := by
  have hr : evaluate (some scope.recorded) text limits = evaluate (some other.recorded) text limits :=
    evaluate_of_agreeOn fun role name ht => (h role name ht).recorded
  exact events_congr (congrFun hr { host })

end

/-! ## Names that can be spelled -/

/-- The keys that a formula can mention: letters and digits of ASCII and underscores, and no more of
them than there is room for.  The empty name needs no room. -/
def Limits.Spellable (limits : Limits) (key : String) : Prop :=
  (∀ c ∈ key.toList, c.isAlphanum ∨ c = '_') ∧ key.length < max limits.nameSize 1

/-- The bytes of names are the letters and digits of ASCII and the underscore. -/
theorem Byte.isAlphanum_of_isName {b : UInt8} (h : Byte.isName b) :
    (Char.ofUInt8 b).isAlphanum ∨ Char.ofUInt8 b = '_' := by
  have hv : (Char.ofUInt8 b).val.toNat = b.toNat := rfl
  simp only [Byte.isName, Byte.isNameStart, Byte.isLetter, Byte.isDigit, Bool.or_eq_true,
    Bool.and_eq_true, decide_eq_true_eq, beq_iff_eq, UInt8.le_iff_toNat_le] at h
  simp only [Char.isAlphanum, Char.isAlpha, Char.isUpper, Char.isLower, Char.isDigit,
    Bool.or_eq_true, Bool.and_eq_true, decide_eq_true_eq, ge_iff_le, UInt32.le_iff_toNat_le, hv]
  rcases h with (h | rfl) | h
  · left
    simp at h ⊢
    omega
  · exact .inr rfl
  · left
    simp at h ⊢
    omega

theorem spellable_of_mem_sequence {limits : Limits} {bytes : List UInt8} {role : Role}
    {name : String} (h : .name role name ∈ (Token.sequence limits.nameSize bytes).1) :
    limits.Spellable name := by
  obtain ⟨all, fits⟩ := Token.name_of_mem_sequence h
  have ht : name = Byte.ascii (bytesOf name) :=
    (ascii_bytesOf fun b hb => Byte.lt_of_isName (all b hb)).symm
  have hc : name.toList = (bytesOf name).map Char.ofUInt8 := by
    rw [ht, bytesOf_ascii fun b hb => Byte.lt_of_isName (all b hb), Byte.ascii, String.toList_ofList]
  have hl : name.length = (bytesOf name).length := by
    rw [← String.length_toList, hc, List.length_map]
  refine ⟨fun c h => ?_, by omega⟩
  rw [hc] at h
  obtain ⟨b, hb, rfl⟩ := List.mem_map.1 h
  exact Byte.isAlphanum_of_isName (all b hb)

/-- Contexts with the same entries under all keys that can be spelled. -/
theorem agreeOnTokens_ofContext {limits : Limits} {context others : Context}
    (h : ∀ key, limits.Spellable key → context[key]? = others[key]?) (bytes : List UInt8) :
    AgreeOnTokens (σ := σ) (.ofContext context) (.ofContext others)
      (Token.sequence limits.nameSize bytes).1 := by
  intro role name ht
  cases role with
  | function => rfl
  | «variable» =>
    have hk := h name (spellable_of_mem_sequence ht)
    show (Scope.ofContext context).value name = (Scope.ofContext others).value name
    simp only [Scope.ofContext, Scope.layer, hk]

/-- **Only names that are mentioned matter.**  Scopes that answer alike to every name of the text, in
the role it has there, give the same result, the same questions and answers, and the same data in the
end.  Of a context only the entries under keys that can be spelled within the limits matter, whatever
the text is. -/
theorem evaluate_names (limits : Limits) (text : String) (host : σ) :
    (∀ scope other : Scope σ,
      AgreeOnTokens scope other (Token.sequence limits.nameSize (bytesOf text)).1 →
        evaluate (some scope) text limits host = evaluate (some other) text limits host ∧
          Setting.events { scope := some scope, limits } text host =
            Setting.events { scope := some other, limits } text host) ∧
    (∀ context others : Context,
      (∀ key, limits.Spellable key → context[key]? = others[key]?) →
        evaluate (some (.ofContext context)) text limits host =
            evaluate (some (.ofContext others)) text limits host ∧
          Setting.events { scope := some (.ofContext context), limits } text host =
            Setting.events { scope := some (.ofContext others), limits } text host) ∧
    (∀ context others : Context,
      (∀ key, ({} : Limits).Spellable key → context[key]? = others[key]?) →
        evaluateIn context text = evaluateIn others text) := by
  refine ⟨fun scope other h => ?_, fun context others h => ?_, fun context others h => ?_⟩
  · exact ⟨congrFun (evaluate_of_agreeOn h) host, events_of_agreeOn h host⟩
  · have ha := agreeOnTokens_ofContext (σ := σ) h (bytesOf text)
    exact ⟨congrFun (evaluate_of_agreeOn ha) host, events_of_agreeOn ha host⟩
  · have ha := agreeOnTokens_ofContext (σ := Unit) h (bytesOf text)
    exact congrArg Prod.fst (Step.outcome_congr (congrFun (evaluate_of_agreeOn ha) ()))

/-- A variable is not mentioned where a function of its name is, and keys beyond ASCII or too long for
the limits are never mentioned. -/
theorem names_not_mentioned :
    let scope : Scope Unit := .layer (fun _ => none) (fun name => if name = "y" then some 1 else none)
      .builtin
    let limits : Limits := { nameSize := 3 }
    let context : Context := .insert (.insert ∅ "é" 1) "abc" 2
    evaluate (some scope) "$x + y()" limits () = evaluate (some .builtin) "$x + y()" limits () ∧
      evaluate (some (.ofContext context)) "$é + $abc" limits () =
        evaluate (some (.ofContext ∅)) "$é + $abc" limits () ∧
      evaluateIn (.insert ∅ "é" 1) "$é + $abc" = evaluateIn ∅ "$é + $abc" := by
  intro scope limits context
  obtain ⟨hs, -, -⟩ := @evaluate_names Unit limits "$x + y()" ()
  obtain ⟨-, hc, hi⟩ := @evaluate_names Unit limits "$é + $abc" ()
  have hn : (Token.sequence limits.nameSize (bytesOf "$x + y()")).1 =
      [.name .variable "x", .plus, .name .function "y", .openBracket, .closeBracket] := by
    cbv
  have he (limits : Limits) : ¬ limits.Spellable "é" := fun h =>
    absurd (h.1 'é' (by simp)) (by decide)
  have ha : ¬ limits.Spellable "abc" := fun h => absurd h.2 (by decide)
  refine ⟨(hs scope .builtin ?_).1, (hc context ∅ ?_).1, hi _ ∅ ?_⟩
  · intro role name hm
    simp only [hn, List.mem_cons, Token.name.injEq, reduceCtorEq, List.not_mem_nil, or_false,
      false_or] at hm
    rcases hm with ⟨rfl, rfl⟩ | ⟨rfl, rfl⟩
    · simp [Scope.AgreeOn, scope, Scope.layer]
    · simp [Scope.AgreeOn, scope, Scope.layer]
  · intro key hk
    have h₁ : "é" ≠ key := fun h => he _ (h ▸ hk)
    have h₂ : "abc" ≠ key := fun h => ha (h ▸ hk)
    simp [context, h₁, h₂]
  · intro key hk
    have h₁ : "é" ≠ key := fun h => he _ (h ▸ hk)
    simp [h₁]

end Formula
