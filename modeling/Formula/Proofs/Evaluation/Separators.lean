import Mathlib
import Formula.Proofs.Evaluation.Correctness
import Formula.Proofs.Evaluation.Record
import Formula.Proofs.Token.Boundary

/-!
# Separators between tokens

Of its text an evaluation sees the tokens, up to the end or to the fault of reading one of them
(`evaluate_of_sequence`).  Separators that are put in where a token begins, or at the end of the text,
are therefore seen by nobody (`evaluate_insert`): not in the result, nor in what is asked, nor in the
data that are left.
-/

namespace Formula

open Grammar

variable {σ : Type}

/-- Two texts of the same tokens. -/
theorem evaluate_of_sequence {limits : Limits} {text other : String}
    (h : Token.sequence limits.nameSize (bytesOf other) =
      Token.sequence limits.nameSize (bytesOf text)) (scope : Option (Scope σ)) :
    evaluate scope other limits = evaluate scope text limits := by
  rw [evaluate_eq_value, evaluate_eq_value, Reading.ofText, Reading.ofText, h]

theorem events_of_sequence {env : Setting σ} {text other : String}
    (h : Token.sequence env.limits.nameSize (bytesOf other) =
      Token.sequence env.limits.nameSize (bytesOf text)) (host : σ) :
    env.events other host = env.events text host :=
  events_congr (congrFun (evaluate_of_sequence h env.recorded.scope) { host })

/-- **Separators between tokens are seen by nobody.**  Let a text be split at a boundary of its
tokens, and let another text have separators there.  Both are evaluated to the same result, the same
is asked and answered, and the same data are left. -/
theorem evaluate_insert (env : Setting σ) {text other : String} {front gap back : List UInt8}
    (ht : bytesOf text = front ++ back) (ho : bytesOf other = front ++ (gap ++ back))
    (hb : Token.Boundary env.limits.nameSize front back) (hg : ∀ b ∈ gap, Byte.isSeparator b)
    (host : σ) :
    evaluate env.scope other env.limits host = evaluate env.scope text env.limits host ∧
      env.events other host = env.events text host := by
  have hs : Token.sequence env.limits.nameSize (bytesOf other) =
      Token.sequence env.limits.nameSize (bytesOf text) := by
    rw [ht, ho, Token.sequence_insert hb hg]
  exact ⟨congrFun (evaluate_of_sequence hs env.scope) host, events_of_sequence hs host⟩

/-- Separators in front of a literal that breaks off, behind a token that ends there. -/
theorem insert_before_fault :
    let scope : Scope Unit := .layer (fun _ => none) (fun _ => some 3) .empty
    let env : Setting Unit := { scope := some scope, limits := {} }
    evaluate env.scope "$x<=1." env.limits () = .error .invalidLiteral () ∧
      evaluate env.scope "$x<= \t1." env.limits () = .error .invalidLiteral () ∧
      env.events "$x<= \t1." () = env.events "$x<=1." () := by
  intro scope env
  have hx : Token.Boundary 32 (bytesOf "$x<=") (bytesOf "1.") :=
    @Token.Boundary.token _ (.name .variable "x") (bytesOf "$x") (bytesOf "<=") _ (by cbv) nofun
      (@Token.Boundary.token _ (.times .lessEq) (bytesOf "<=") [] _ (by cbv) nofun
        (.separators _ (List.forall_mem_nil _)))
  have hg : ∀ b ∈ bytesOf " \t", Byte.isSeparator b := List.all_eq_true.1 rfl
  have he : evaluate env.scope "$x<=1." env.limits () = .error .invalidLiteral () := by cbv
  obtain ⟨h, hv⟩ := @evaluate_insert _ env "$x<=1." "$x<= \t1." _ _ _ rfl rfl hx hg ()
  exact ⟨he, h.trans he, hv⟩

end Formula
