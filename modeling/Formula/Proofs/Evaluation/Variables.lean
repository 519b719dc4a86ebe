import Formula.Proofs.Evaluation.Correctness
import Formula.Proofs.Evaluation.Relation
import Formula.Proofs.Table.Edits

/-!
# Ways of giving variables

Variables may be given as a context, as the table of a context, or in a table that is edited until it
has them.  No formula tells these apart (`evaluate_variables`): they are the same scope, as is the
empty table where there is no scope at all.  Nor does a formula over a context tell hosts apart, for
nothing that is built in has to do with the data of a host (`Scope.Related.ofContext`).
-/

namespace Formula

open Table

variable {σ τ ι : Type}

/-! ## Tables that are the same scope -/

/-- A table without functions of its own is the scope of a context of its values. -/
theorem toScope_eq_ofContext {t : Table σ} {context : Context} (hb : t.builtins = true)
    (hf : ∀ name, t.function? name = none) (hv : ∀ name, t.value? name = context[name]?) :
    t.toScope = .ofContext context := by
  rw [toScope, Scope.ofContext, if_pos hb, funext hf, funext hv]

theorem toScope_ofContext (context : Context) :
    (Table.ofContext context : Table σ).toScope = .ofContext context :=
  toScope_eq_ofContext rfl (fun _ => Std.HashMap.getElem?_empty) fun _ => rfl

/-- The table without entries defines nothing. -/
theorem toScope_empty : (Table.empty : Table σ).toScope = .empty := by
  have hf : (Table.empty : Table σ).function? = fun _ => none :=
    funext fun _ => Std.HashMap.getElem?_empty
  have hv : (Table.empty : Table σ).value? = fun _ => none :=
    funext fun _ => Std.HashMap.getElem?_empty
  rw [toScope, hf, hv]
  rfl

theorem ofContext_of_isEmpty {context : Context} (h : context.isEmpty) :
    (Scope.ofContext context : Scope σ) = .builtin := by
  have hc : (fun name => context[name]?) = fun _ : String => none :=
    funext fun _ => Std.HashMap.getElem?_of_isEmpty h
  rw [Scope.ofContext, hc]
  rfl

/-- Values that are entered and taken out, in whatever order, come to the context of those entered
last and not taken out since. -/
theorem toScope_edits {context : Context} {es : List (Edit σ)}
    (hs : ∀ e ∈ es, e.slot.1 = .variable)
    (hc : ∀ name v, context[name]? = some v ↔ Last es (.set name v)) :
    (Table.withBuiltins.edits es).toScope = .ofContext context := by
  refine toScope_eq_ofContext (builtins_edits _ es) (fun name => ?_) (fun name => ?_)
  · rw [Option.eq_none_iff_forall_ne_some]
    intro callback h
    rcases function?_edits.1 h with ⟨before, after, rfl, -⟩ | ⟨-, h⟩
    · cases hs (.register name callback) (by simp)
    · exact absurd h (by simp [withBuiltins, Table.function?])
  · ext v
    rw [hc, value?_edits]
    simp [withBuiltins, Table.value?]

/-! ## Scopes that have nothing to do with the host -/

namespace Scope.Related

variable {H : ι → τ → σ → Prop}

theorem empty : Scope.Related H .empty .empty where
  find _ := .throw _
  value _ := .throw _

theorem layer {functions : String → Option (Callback τ)} {others : String → Option (Callback σ)}
    {under : Scope τ} {below : Scope σ}
    (hf : ∀ name, Option.Rel (Callback.Related H) (functions name) (others name))
    (h : Scope.Related H under below) (values : String → Option Float) :
    Scope.Related H (.layer functions values under) (.layer others values below) where
  find name := by
    have hr := hf name
    generalize hp : functions name = p, hq : others name = q at hr
    cases hr with
    | none =>
      have hu : (Scope.layer functions values under).find name = under.find name := by
        funext host
        simp only [Scope.find, Scope.layer, hp]
      have hb : (Scope.layer others values below).find name = below.find name := by
        funext host
        simp only [Scope.find, Scope.layer, hq]
      rw [hu, hb]
      exact h.find name
    | some hfg =>
      intro i t s hH
      simp only [Scope.find, Scope.layer, hp, hq]
      exact .ok hfg hH
  value name := by
    simp only [Scope.layer]
    cases values name with
    | none => exact h.value name
    | some v => exact .pure rfl

theorem builtin : Scope.Related H .builtin .builtin := by
  refine layer (fun name => ?_) empty _
  cases Builtin.function? name with
  | none => exact .none
  | some f => exact .some fun x => .pure rfl

theorem ofContext (context : Context) : Scope.Related H (.ofContext context) (.ofContext context) :=
  layer (fun _ => .none) builtin _

end Scope.Related

/-- Two hosts that are related by nothing at all get the same results if names have the same
meaning. -/
theorem outcome_of_related {scope : Scope τ} {other : Scope σ}
    (h : Scope.Related (fun (_ : Unit) _ _ => True) scope other) (text : String) (limits : Limits)
    (host : τ) (host' : σ) :
    (Step.outcome (evaluate (some scope) text limits) host).1 =
      (Step.outcome (evaluate (some other) text limits) host').1 := by
  have he : Setting.Related (fun (_ : Unit) _ _ => True) { scope := some scope, limits }
      { scope := some other, limits } := ⟨rfl, h⟩
  exact (agree_evaluate he text (i := ()) trivial).outcome.1

/-! ## Evaluations -/

/-- **The ways of giving variables agree.**  A context, its table, and a table with all that is
built in into which the same variables have been entered, in whatever order and with whatever else
entered and taken out on the way, give the same results and leave the same data, within any limits.
Within the usual ones the result is also that without a host; that of an empty context is the
result with what is built in.  Without a scope the result is that with an empty table. -/
theorem evaluate_variables (context : Context) (text : String) (limits : Limits) (host : σ) :
    evaluate (some (Table.ofContext context).toScope) text limits host =
        evaluate (some (.ofContext context)) text limits host ∧
      (∀ es : List (Edit σ), (∀ e ∈ es, e.slot.1 = .variable) →
        (∀ name v, context[name]? = some v ↔ Last es (.set name v)) →
          evaluate (some (Table.withBuiltins.edits es).toScope) text limits host =
            evaluate (some (.ofContext context)) text limits host) ∧
      (Step.outcome (evaluate (some (.ofContext context)) text) host).1 =
        evaluateIn context text ∧
      (context.isEmpty → evaluate (some (.ofContext context)) text limits host =
        evaluate (some .builtin) text limits host) ∧
      evaluate none text limits host = evaluate (some Table.empty.toScope) text limits host := by
  refine ⟨?_, fun es hs hc => ?_, ?_, fun h => ?_, ?_⟩
  · rw [toScope_ofContext]
  · rw [toScope_edits hs hc]
  · exact outcome_of_related (.ofContext context) text {} host ()
  · rw [ofContext_of_isEmpty h]
  · rw [toScope_empty, evaluate_eq_value, evaluate_eq_value]
    rfl

/-- Entries that are written over or taken out again are no detour. -/
theorem detour_agrees :
    let context : Context := .insert ∅ "x" 3
    let es : List (Edit Unit) := [.set "y" 2, .set "x" 1, .remove "y", .set "x" 3]
    evaluate (some (Table.withBuiltins.edits es).toScope) "$x + $y" {} () =
        evaluate (some (.ofContext context)) "$x + $y" {} () ∧
      evaluate (some (.ofContext ∅)) "$PI" {} () = evaluate (some .builtin) "$PI" {} () := by
  intro context es
  obtain ⟨-, he, -⟩ := evaluate_variables context "$x + $y" {} ()
  obtain ⟨-, -, -, hb, -⟩ := evaluate_variables ∅ "$PI" {} ()
  refine ⟨he es ?_ ?_, hb Std.HashMap.isEmpty_empty⟩
  · simp [es, Edit.slot]
  · intro name v
    by_cases hn : "x" = name
    · subst hn
      simp [context, es, last_cons, last_nil, Edit.slot]
    · simp +contextual [context, es, last_cons, last_nil, Edit.slot, hn]

end Formula
