import Mathlib
import Formula.Proofs.Evaluation.Lookups
import Formula.Proofs.Token.WholeName

/-!
# Scopes are asked for whole names

Every name that an evaluation asks its scope for stands in the text: a reading of a token has come
to it, and it is the whole run of bytes of names that begins there (`NameOf`).  Longer runs than
there is room for never reach a scope, nor do parts of them (`names_whole`).
-/

namespace Formula

open Byte

namespace Token

/-- A name of a text, in its role, as the readings of tokens from the beginning on come to it. -/
inductive NameOf (size : Nat) (bytes : List UInt8) (role : Role) (name : String) : Prop
  /-- One of the readings comes to the name, which is the whole run of bytes of names and fits.  The
  name of a function has a first byte, which is no digit. -/
  | read {n start : Nat} {call : Call} (mem : call ∈ calls size bytes n 0)
    (comes : ComesToName bytes call.before role start)
    (result : call.result = .ok (.name role name))
    (run : bytesOf name = nameRun bytes start) (fits : (bytesOf name).length ≤ size - 1)
    (first : role = .function → bytesOf name ≠ [] ∧ isDigit (peek (bytesOf name)) = false) :
    NameOf size bytes role name

section

variable {role : Role} {name : String} {size cursor : Nat} {bytes : List UInt8} {call : Call}

/-- A token of a text is read by one of the readings. -/
theorem exists_call_of_mem_sequence {t : Token} (hle : cursor ≤ bytes.length)
    (h : t ∈ (sequence size (bytes.drop cursor)).1) :
    ∃ n, ∃ call ∈ calls size bytes n cursor, call.result = .ok t := by
  induction hl : (bytes.drop cursor).length using Nat.strongRecOn generalizing cursor with
  | ind l ih =>
    subst hl
    cases hn : next size (bytes.drop cursor) with
    | error fault rest =>
      rw [sequence_of_error hn] at h
      cases h
    | ok token rest =>
      by_cases ht : token = done
      · subst ht
        rw [sequence_of_done hn] at h
        cases h
      obtain ⟨hr, rfl⟩ := ofCursor_of_next hle hn
      rw [sequence_of_ok hn ht] at h
      rcases List.mem_cons.1 h with rfl | h
      · refine ⟨1, Call.ofCursor size bytes cursor, ?_, hr⟩
        rw [calls_of_ok hr]
        exact List.mem_cons_self ..
      · have hle' := (covers_ofCursor size hle).forward.2.2
        obtain ⟨n, call, hm, hres⟩ := ih _ (length_lt_of_next hn ht) hle' h rfl
        refine ⟨n + 1, call, ?_, hres⟩
        rw [calls_of_ok hr]
        exact List.mem_cons_of_mem _ hm

/-- A reading that gives a name comes to it. -/
theorem exists_comesToName (hc : call.Covers size bytes) (h : call.result = .ok (.name role name)) :
    ∃ start, ComesToName bytes call.before role start := by
  have hd := hc.drop_first
  obtain ⟨-, hs⟩ := hc.token _ h nofun
  generalize call.bytesRead bytes = spelling at hd hs
  cases hs with
  | function _ first =>
    refine ⟨_, .function ?_⟩
    obtain ⟨more, hm⟩ := exists_cons_of_peek rfl (ne_zero_of_isNameStart first)
    rw [hd, hm]
    exact first
  | «variable» =>
    refine ⟨_, .variable ?_⟩
    rw [← List.head?_drop, hd]
    rfl

theorem not_isDigit_of_isNameStart {b : UInt8} (h : isNameStart b) : isDigit b = false := by
  simp only [isNameStart, isLetter, isDigit] at h ⊢
  grind

/-- The first byte of a function name is no digit. -/
theorem first_of_comesToName {start : Nat} (h : ComesToName bytes cursor .function start) :
    nameRun bytes start ≠ [] ∧ isDigit (peek (nameRun bytes start)) = false := by
  cases h with
  | function h =>
    have hr : isName (peek (bytes.drop (firstFrom bytes cursor))) := by simp [isName, h]
    rw [nameRun_of_isName hr, peek_cons]
    exact ⟨List.cons_ne_nil _ _, not_isDigit_of_isNameStart h⟩

/-- A name of a text stands in it as a whole. -/
theorem nameOf_of_mem_sequence (h : .name role name ∈ (sequence size bytes).1) :
    NameOf size bytes role name := by
  obtain ⟨n, call, hm, hr⟩ := @exists_call_of_mem_sequence size 0 bytes _ (Nat.zero_le _) h
  have hc := (tiling_calls (Nat.zero_le _) List.not_mem_nil).covers call hm
  obtain ⟨start, hs⟩ := exists_comesToName hc hr
  have hw := wholeName_of_comesToName hs size
  have ho : (Call.ofCursor size bytes call.before).result = .ok (.name role name) :=
    (congrArg Prod.fst hc.reads).trans hr
  rcases Nat.lt_or_ge (size - 1) (nameRun bytes start).length with hl | hl
  · cases (hw.refused hl).symm.trans ho
  · obtain ⟨text, ht, hrun⟩ := hw.taken hl
    cases ht.symm.trans ho
    refine .read hm hs hr hrun (hrun ▸ hl) ?_
    rintro rfl
    rw [hrun]
    exact first_of_comesToName hs

end

end Token

/-- **Names are taken whole or refused.**  Wherever reading a token comes to a name, the name is the
longest run of bytes of names, or this run is too long and is refused; the bytes that are cut out
always decode.  Every name that a scope is asked for is such a run. -/
theorem names_whole {σ : Type} (scope : Scope σ) (text : String) (limits : Limits) (host : σ) :
    (∀ role cursor start, Token.ComesToName (bytesOf text) cursor role start →
      Token.WholeName role limits.nameSize (bytesOf text) cursor start) ∧
    ∀ event ∈ record scope text limits host, ∀ role name,
      event.query.name? = some (role, name) →
        Token.NameOf limits.nameSize (bytesOf text) role name := by
  refine ⟨fun role cursor start h => Token.wholeName_of_comesToName h _, ?_⟩
  intro event he role name hq
  have hm : (role, name) ∈ ((record scope text limits host).map Event.query).filterMap
      Query.name? := List.mem_filterMap.2 ⟨_, List.mem_map_of_mem he, hq⟩
  obtain ⟨token, ht, hn⟩ := List.mem_filterMap.1 ((names_record scope text limits host).subset hm)
  refine Token.nameOf_of_mem_sequence ?_
  cases token with
  | name role' name' =>
    cases hn
    exact ht
  | _ => cases hn

/-- A name of the greatest length is asked for, also in front of a character beyond ASCII, and a
name of one byte more is refused. -/
theorem names_at_the_limit :
    let scope : Scope Unit := .layer (fun _ => some pure) (fun _ => some 1) .empty
    let text := " _a1($bcdé + $abcd)"
    (record scope text { nameSize := 4 } ()).map Event.query = [.function "_a1", .value "bcd"] ∧
      Token.NameOf 4 (bytesOf text) .variable "bcd" ∧
      (Token.Call.ofCursor 4 (bytesOf text) 13).result = .error .nameTooLong := by
  intro scope text
  obtain ⟨hwhole, hasked⟩ := names_whole scope text { nameSize := 4 } ()
  have hq : (record scope text { nameSize := 4 } ()).map Event.query =
      [.function "_a1", .value "bcd"] := by
    cbv
  refine ⟨hq, ?_, ?_⟩
  · obtain ⟨event, he, hv⟩ : ∃ event ∈ record scope text { nameSize := 4 } (),
        event.query = .value "bcd" := List.mem_map.1 (by rw [hq]; simp)
    exact hasked event he .variable "bcd" (by rw [hv]; rfl)
  · have hs : Token.ComesToName (bytesOf text) 13 .variable 15 := .variable (by decide)
    exact (hwhole _ _ _ hs).refused (by decide)

end Formula
