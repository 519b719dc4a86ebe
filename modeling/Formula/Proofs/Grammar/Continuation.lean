import Formula.Proofs.Grammar.Reading
import Formula.Proofs.Grammar.Viable

/-!
# Reading on

Reading a sequence of tokens is reading its front part and then the rest, as long as nothing in the
front part stops it (`read_of_pass?`, `read_of_not_pass?`).  How the rest is read depends on little
of what stands before it: on what has to come next and on how many brackets are open (`Similar`).
-/

namespace Formula.Grammar.Fragment

variable {depth : Nat} {P Q : Fragment} {front tokens : List Token}

/-! ## The front part of a sequence -/

/-- Reads tokens one after the other, none of them nested too deep. -/
def pass? (depth : Nat) (P : Fragment) (tokens : List Token) : Option Fragment :=
  tokens.foldlM (grow? depth) P

theorem pass?_cons (depth : Nat) (P : Fragment) (token : Token) (tokens : List Token) :
    P.pass? depth (token :: tokens) = (P.grow? depth token).bind fun Q => Q.pass? depth tokens :=
  List.foldlM_cons

theorem through?_of_pass? (h : P.pass? depth tokens = some Q) : P.through? tokens = some Q := by
  induction tokens generalizing P with
  | nil => exact h
  | cons token tokens ih =>
    rw [pass?_cons] at h
    obtain ⟨R, hR, hQ⟩ := Option.bind_eq_some_iff.1 h
    rw [through?_cons, (grow?_eq_some.1 hR).2]
    exact ih hQ

/-- Behind a front part that can be read, reading goes on with the rest. -/
theorem read_of_pass? (h : P.pass? depth front = some Q) (tokens : List Token)
    (fault : Option Fault) : P.read depth (front ++ tokens) fault =
      { Q.read depth tokens fault with
        used := (Q.read depth tokens fault).used + front.length } := by
  induction front generalizing P with
  | nil => cases h; rfl
  | cons token front ih =>
    rw [pass?_cons] at h
    obtain ⟨R, hR, hQ⟩ := Option.bind_eq_some_iff.1 h
    rw [List.cons_append, read_cons_some hR, ih hQ]
    rfl

/-- If a front part cannot be read, the rest has no part in the reading. -/
theorem read_of_not_pass? (h : P.pass? depth front = none) (tokens tokens' : List Token)
    (fault fault' : Option Fault) :
    P.read depth (front ++ tokens) fault = P.read depth (front ++ tokens') fault' := by
  induction front generalizing P with
  | nil => cases h
  | cons token front ih =>
    rw [List.cons_append, List.cons_append]
    cases hg : P.grow? depth token with
    | none => rw [read_cons_none hg, read_cons_none hg]
    | some R =>
      rw [pass?_cons, hg] at h
      rw [read_cons_some hg, read_cons_some hg, ih h]

/-- If tokens that could be read are not, it is because they are nested too deep, and what has been
read of them is the front part of what could be. -/
theorem read_of_nested (h : P.through? front = some Q) (hp : P.pass? depth front = none)
    (tokens : List Token) (fault : Option Fault) :
    (P.read depth (front ++ tokens) fault).ending = .error .stackOverflow ∧
      ∃ more, (P.read depth (front ++ tokens) fault).fragment.through? more = some Q := by
  induction front generalizing P with
  | nil => cases hp
  | cons token front ih =>
    have hthrough := h
    rw [through?_cons] at h
    obtain ⟨R, hR, hQ⟩ := Option.bind_eq_some_iff.1 h
    rw [List.cons_append]
    cases hg : P.grow? depth token with
    | none =>
      have hle : depth ≤ P.outer.length := by
        apply Nat.le_of_not_lt
        intro hlt
        rw [grow?, if_pos hlt, hR] at hg
        cases hg
      rw [read_cons_none hg, stop_of_le hle]
      exact ⟨rfl, token :: front, hthrough⟩
    | some R' =>
      obtain ⟨-, hR'⟩ := grow?_eq_some.1 hg
      cases hR'.symm.trans hR
      rw [pass?_cons, hg] at hp
      rw [read_cons_some hg]
      exact ih hQ hp

/-- Behind as many open brackets as the limit allows nothing is read. -/
theorem read_of_le (h : depth ≤ P.outer.length) (ht : tokens ≠ []) (fault : Option Fault) :
    P.read depth tokens fault =
      { fragment := P, used := 0, ending := .error .stackOverflow } := by
  cases tokens with
  | nil => exact absurd rfl ht
  | cons token tokens =>
    rw [read_cons_none (if_neg (Nat.not_lt.2 h)), stop_of_le h]

/-- Behind an opening bracket an expression begins. -/
theorem operand_of_open (h : P.next? .openBracket = some Q) :
    ∃ frame outer, Q = ⟨.operand {}, frame :: outer⟩ := by
  generalize ht : Token.openBracket = token at h
  cases grows_of_next? h with
  | bracket level outer => exact ⟨_, _, rfl⟩
  | call level outer function => exact ⟨_, _, rfl⟩
  | sign sum product outer op => cases op <;> cases ht
  | _ => cases ht

/-- The bracket that is open is closed behind a whole expression in it. -/
theorem grow?_closeBracket {frame : Frame} {outer : List Frame} {inner : Sum}
    (hd : (frame :: outer).length < depth)
    (hp : pass? depth ⟨.operand {}, frame :: outer⟩ inner.tokens = some Q) :
    Q.grow? depth .closeBracket =
      some ⟨frame.level.supply (.close frame.function inner), outer⟩ := by
  obtain ⟨sum, product, rfl, h⟩ := through?_sum inner (frame :: outer)
  cases h.symm.trans (through?_of_pass? hp)
  exact grow?_eq_some.2 ⟨hd, rfl⟩

/-! ## Fragments that are read on alike -/

/-- Two fragments behind which the same has to come next, with as many brackets open. -/
inductive Similar : Fragment → Fragment → Prop
  | operand {level level' : Level} {outer outer' : List Frame}
    (hd : outer.length = outer'.length) :
    Similar ⟨.operand level, outer⟩ ⟨.operand level', outer'⟩
  | opening {level level' : Level} {function function' : String} {outer outer' : List Frame}
    (hd : outer.length = outer'.length) :
    Similar ⟨.opening level function, outer⟩ ⟨.opening level' function', outer'⟩
  | formula {sum sum' : Option (Sum × SumOp)} {product product' : Product} :
    Similar ⟨.operator sum product, []⟩ ⟨.operator sum' product', []⟩
  | inner {sum sum' : Option (Sum × SumOp)} {product product' : Product} {frame frame' : Frame}
    {outer outer' : List Frame} (hd : outer.length = outer'.length) :
    Similar ⟨.operator sum product, frame :: outer⟩ ⟨.operator sum' product', frame' :: outer'⟩

namespace Similar

theorem of_next (hn : P.place.next = Q.place.next) (hd : P.outer.length = Q.outer.length) :
    Similar P Q := by
  match P, Q, hn, hd with
  | ⟨.operand _, _⟩, ⟨.operand _, _⟩, _, hd => exact .operand hd
  | ⟨.opening _ _, _⟩, ⟨.opening _ _, _⟩, _, hd => exact .opening hd
  | ⟨.operator _ _, []⟩, ⟨.operator _ _, []⟩, _, _ => exact .formula
  | ⟨.operator _ _, _ :: _⟩, ⟨.operator _ _, _ :: _⟩, _, hd => exact .inner (Nat.succ.inj hd)

theorem symm (h : Similar P Q) : Similar Q P := by
  cases h with
  | operand hd => exact .operand hd.symm
  | opening hd => exact .opening hd.symm
  | formula => exact .formula
  | inner hd => exact .inner hd.symm

theorem length (h : Similar P Q) : P.outer.length = Q.outer.length := by
  cases h with
  | operand hd | opening hd => exact hd
  | formula => rfl
  | inner hd => exact congrArg Nat.succ hd

theorem stop (h : Similar P Q) (depth : Nat) : P.stop depth = Q.stop depth := by
  have hf : P.fault = Q.fault := by cases h <;> rfl
  rw [Fragment.stop, Fragment.stop, h.length, hf]

theorem tree? (h : Similar P Q) : P.tree?.isSome = Q.tree?.isSome := by
  cases h <;> rfl

theorem next?_none (h : Similar P Q) {token : Token} (hP : P.next? token = none) :
    Q.next? token = none := by
  cases h with
  | operand =>
    cases token with
    | name role => cases role <;> cases hP
    | minus | number | openBracket => cases hP
    | done | plus | times | closeBracket => rfl
  | opening =>
    have ht : token ≠ .openBracket := by rintro rfl; cases hP
    exact if_neg ht
  | formula =>
    cases token with
    | plus | minus | times => cases hP
    | done | openBracket | closeBracket | number | name => rfl
  | inner =>
    cases token with
    | plus | minus | times | closeBracket => cases hP
    | done | openBracket | number | name => rfl

theorem grow?_none (h : Similar P Q) {token : Token} (hP : P.grow? depth token = none) :
    Q.grow? depth token = none := by
  unfold grow? at hP ⊢
  rw [← h.length]
  by_cases hd : P.outer.length < depth
  · rw [if_pos hd] at hP ⊢
    exact h.next?_none hP
  · exact if_neg hd

/-- The last token decides what has to come next, and how many brackets it opens or closes. -/
theorem of_grow? (h : Similar P Q) {token : Token} {P' Q' : Fragment}
    (hP : P.grow? depth token = some P') (hQ : Q.grow? depth token = some Q') :
    Similar P' Q' := by
  obtain ⟨-, hP⟩ := grow?_eq_some.1 hP
  obtain ⟨-, hQ⟩ := grow?_eq_some.1 hQ
  refine of_next ((next_of_next? hP).trans (next_of_next? hQ).symm) ?_
  have := count_of_next? hP
  have := count_of_next? hQ
  have := h.length
  omega

theorem finish (h : Similar P Q) (depth : Nat) (fault : Option Fault) :
    (P.read depth [] fault).fault? = (Q.read depth [] fault).fault? := by
  have ht := h.tree?
  cases fault with
  | some fault => rfl
  | none =>
    simp only [Fragment.read, Fragment.finish, Reading.fault?, h.length, h.stop]
    by_cases hd : Q.outer.length < depth
    · simp only [if_pos hd]
      cases hP : P.tree? with
      | none =>
        have hQ : Q.tree? = none := by simpa [hP] using ht.symm
        rw [hQ]
      | some tree =>
        rw [hP] at ht
        obtain ⟨tree', hQ⟩ := Option.isSome_iff_exists.1 ht.symm
        rw [hQ]
    · simp only [if_neg hd]

/-- Similar fragments are read on for the same number of tokens, and stopped alike. -/
theorem read (h : Similar P Q) (depth : Nat) (tokens : List Token) (fault : Option Fault) :
    (P.read depth tokens fault).used = (Q.read depth tokens fault).used ∧
      (P.read depth tokens fault).fault? = (Q.read depth tokens fault).fault? := by
  induction tokens generalizing P Q with
  | nil => exact ⟨rfl, h.finish depth fault⟩
  | cons token tokens ih =>
    cases hP : P.grow? depth token with
    | none =>
      rw [read_cons_none hP, read_cons_none (h.grow?_none hP), h.stop]
      exact ⟨rfl, rfl⟩
    | some P' =>
      cases hQ : Q.grow? depth token with
      | none => cases hP.symm.trans (h.symm.grow?_none hQ)
      | some Q' =>
        obtain ⟨hu, hf⟩ := ih (h.of_grow? hP hQ)
        rw [read_cons_some hP, read_cons_some hQ]
        exact ⟨congrArg (· + 1) hu, hf⟩

end Similar

end Formula.Grammar.Fragment
