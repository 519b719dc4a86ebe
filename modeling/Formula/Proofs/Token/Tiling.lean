import Formula.Proofs.Token.Append
import Formula.Proofs.Token.Reading

/-!
# Tokens tile the text

Reading token after token, the cursor goes through the text from its beginning and never back.  Each
reading (`Call`) skips separators and then steps over the bytes of what it reads, all of them and
nothing else (`Call.Covers`), so that the tokens lie in the text one behind the other with nothing
but separators between them (`Tiling`, `calls_tile`).  A NUL is never stepped over: the end is read
in front of it as often as one likes.

* `Call.ofCursor` — one reading, at any place of a text.
* `calls` — readings in a row, up to and with the first one that fails.
-/

namespace Formula

open Byte

/-- What stands in front of the bytes of a name: a dollar sign for the name of a variable. -/
def Role.sigil : Role → List UInt8
  | function => []
  | «variable» => [0x24]

namespace Token

/-- The position of the first byte at the cursor or behind it that is no separator. -/
def firstFrom (bytes : List UInt8) (cursor : Nat) : Nat :=
  cursor + ((bytes.drop cursor).takeWhile isSeparator).length

/-- The reading of a token from a text.  The cursor is a position in the text, also where the
reading fails. -/
structure Call where
  /-- The cursor before the reading. -/
  before : Nat
  /-- What the reading gives. -/
  result : Except Fault Token
  /-- The cursor behind the reading. -/
  after : Nat

namespace Call

/-- The reading of a token at a cursor. -/
def ofCursor (size : Nat) (bytes : List UInt8) (cursor : Nat) : Call where
  before := cursor
  result := (Step.outcome (next size) (bytes.drop cursor)).1
  after := bytes.length - (Step.outcome (next size) (bytes.drop cursor)).2.length

/-- The position of the first byte that is not skipped. -/
def first (bytes : List UInt8) (call : Call) : Nat :=
  firstFrom bytes call.before

/-- The bytes of what is read, without the separators before it. -/
def bytesRead (bytes : List UInt8) (call : Call) : List UInt8 :=
  bytes.extract (call.first bytes) call.after

/-- What a reading covers of a text: separators, and behind them the bytes of a token. -/
structure Covers (size : Nat) (bytes : List UInt8) (call : Call) : Prop where
  /-- The lexer is given the text from the cursor on, and leaves the text from the new cursor on. -/
  reads : Step.outcome (next size) (bytes.drop call.before) = (call.result, bytes.drop call.after)
  /-- The cursor does not go back, and not beyond the text. -/
  forward : call.before ≤ call.first bytes ∧ call.first bytes ≤ call.after ∧
    call.after ≤ bytes.length
  /-- Only separators are skipped. -/
  gap : ∀ b ∈ bytes.extract call.before (call.first bytes), isSeparator b
  /-- No NUL is stepped over. -/
  zero : 0 ∉ bytes.extract call.before call.after
  /-- A token other than the end has a byte at least, and its bytes are one of its spellings. -/
  token : ∀ t, call.result = .ok t → t ≠ done →
    call.first bytes < call.after ∧ Spells size t (call.bytesRead bytes)
  /-- A name is spelled by exactly its bytes, behind the dollar sign if it is that of a variable. -/
  name : ∀ role text, call.result = .ok (.name role text) →
    call.bytesRead bytes = role.sigil ++ bytesOf text
  /-- The end has no bytes, and it is read in front of a NUL or at the end of the text. -/
  done : call.result = .ok done → call.first bytes = call.after ∧
    (call.after = bytes.length ∨ bytes[call.after]? = some 0)

end Call

/-- The first `n` readings of a token from a cursor on, up to and with the first one that fails. -/
def calls (size : Nat) (bytes : List UInt8) : Nat → Nat → List Call
  | 0, _ => []
  | n + 1, cursor =>
    Call.ofCursor size bytes cursor :: match (Call.ofCursor size bytes cursor).result with
      | .ok _ => calls size bytes n (Call.ofCursor size bytes cursor).after
      | .error _ => []

/-! ## One reading -/

section Next

variable {size : Nat} {bytes behind : List UInt8}

/-- No separator is skipped where the text does not begin with one. -/
theorem gap_eq_nil {gap rest : List UInt8} (hg : ∀ b ∈ gap, isSeparator b)
    (h : behind = gap ++ rest) (hb : isSeparator (peek behind) = false) : gap = [] := by
  cases gap with
  | nil => rfl
  | cons b gap =>
    subst h
    rw [List.cons_append, peek_cons, hg b (List.mem_cons_self ..)] at hb
    cases hb

/-- A reading skips separators and steps over the bytes of what it reads. -/
theorem exists_bytes_of_next (size : Nat) (bytes : List UInt8) : ∃ gap front,
    bytes = gap ++ (front ++ (Step.outcome (next size) bytes).2) ∧ (∀ b ∈ gap, isSeparator b) ∧
      isSeparator (peek (front ++ (Step.outcome (next size) bytes).2)) = false ∧ 0 ∉ front ∧
      (∀ t, (Step.outcome (next size) bytes).1 = .ok t → t ≠ done →
        front ≠ [] ∧ Spells size t front) ∧
      ((Step.outcome (next size) bytes).1 = .ok done →
        front = [] ∧ peek (Step.outcome (next size) bytes).2 = 0) := by
  obtain ⟨gap, behind, rfl, hg, hb⟩ := exists_run (p := isSeparator) rfl bytes
  obtain ⟨front, hf, h0⟩ := exists_front size behind
  have ho : Step.outcome (next size) (gap ++ behind) = Step.outcome (next size) behind := by
    rw [Step.outcome, Step.outcome, next_separators hg]
  refine ⟨gap, front, by rw [ho, ← hf], hg, by rw [ho, ← hf]; exact hb, h0, ?_⟩
  rw [ho]
  cases hn : next size behind with
  | error fault rest =>
    rw [Step.outcome_of_error hn]
    exact ⟨by simp, by simp⟩
  | ok t rest =>
    rw [Step.outcome_of_ok hn] at hf ⊢
    refine ⟨?_, ?_⟩
    · rintro _ ⟨⟩ ht
      obtain ⟨gap', spelling, hs, hg', hsp⟩ := exists_spelling_of_next hn ht
      obtain rfl := gap_eq_nil hg' hs hb
      have hlt := length_lt_of_next hn ht
      obtain rfl := List.append_cancel_right (hf.symm.trans hs)
      refine ⟨?_, hsp⟩
      rintro rfl
      rw [hf, List.nil_append] at hlt
      exact Nat.lt_irrefl _ hlt
    · rintro ⟨⟩
      obtain ⟨gap', hs, hg', hp⟩ := next_eq_done hn
      obtain rfl := gap_eq_nil hg' hs hb
      exact ⟨List.append_cancel_right (hf.symm.trans hs), hp⟩

/-- Where a text goes on with some bytes, the cursor behind them is that many bytes further on. -/
theorem drop_add_length {cursor : Nat} {front rest : List UInt8}
    (h : bytes.drop cursor = front ++ rest) : bytes.drop (cursor + front.length) = rest := by
  rw [← List.drop_drop, h, List.drop_left]

theorem extract_add_length {cursor : Nat} {front rest : List UInt8}
    (h : bytes.drop cursor = front ++ rest) :
    bytes.extract cursor (cursor + front.length) = front := by
  rw [List.extract_eq_take_drop, Nat.add_sub_cancel_left, h, List.take_left]

/-- The next byte reads as NUL where the text has ended or there is a NUL. -/
theorem peek_drop_eq_zero_iff {cursor : Nat} (h : cursor ≤ bytes.length) :
    peek (bytes.drop cursor) = 0 ↔ cursor = bytes.length ∨ bytes[cursor]? = some 0 := by
  rw [← List.head?_drop]
  cases hd : bytes.drop cursor with
  | nil =>
    have hl : bytes.length ≤ cursor := List.drop_eq_nil_iff.1 hd
    simp [Nat.le_antisymm h hl]
  | cons b rest =>
    have hl : cursor ≠ bytes.length := by
      rintro rfl
      simp at hd
    simp [hl]

/-- A name is spelled by its bytes behind its sigil. -/
theorem Spells.eq_sigil_append {role : Role} {text : String} {spelling : List UInt8}
    (h : Spells size (.name role text) spelling) : spelling = role.sigil ++ bytesOf text := by
  cases h <;> rfl

/-- Where a reading stands in a text, by the separators that it skips and the bytes it reads. -/
theorem covers_of_append {call : Call} {gap front rest : List UInt8}
    (hb : bytes.drop call.before = gap ++ (front ++ rest)) (hg : ∀ b ∈ gap, isSeparator b)
    (hp : isSeparator (peek (front ++ rest)) = false) (h0 : 0 ∉ front)
    (hlast : call.after = call.before + (gap ++ front).length) (hle : call.after ≤ bytes.length)
    (hn : Step.outcome (next size) (bytes.drop call.before) = (call.result, rest))
    (ht : ∀ t, call.result = .ok t → t ≠ done → front ≠ [] ∧ Spells size t front)
    (hd : call.result = .ok done → front = [] ∧ peek rest = 0) : call.Covers size bytes := by
  have hfirst : call.first bytes = call.before + gap.length := by
    rw [Call.first, firstFrom, hb, takeWhile_run hg hp]
  have hafter : call.after = call.first bytes + front.length := by
    rw [hlast, hfirst, List.length_append, Nat.add_assoc]
  have hread : call.bytesRead bytes = front := by
    rw [Call.bytesRead, hafter, hfirst]
    exact extract_add_length (drop_add_length hb)
  have hrest : bytes.drop call.after = rest := by
    rw [hafter, hfirst]
    exact drop_add_length (drop_add_length hb)
  refine ⟨by rw [hn, hrest], ⟨by omega, by omega, hle⟩, ?_, ?_, ?_, ?_, ?_⟩
  · rw [hfirst, extract_add_length hb]
    exact hg
  · rw [← List.append_assoc] at hb
    rw [hlast, extract_add_length hb, List.mem_append, not_or]
    exact ⟨zero_not_mem rfl hg, h0⟩
  · intro t hr hne
    obtain ⟨hf, hs⟩ := ht t hr hne
    have := List.length_pos_iff.2 hf
    exact ⟨by omega, hread ▸ hs⟩
  · intro role text hr
    rw [hread]
    exact (ht _ hr nofun).2.eq_sigil_append
  · intro hr
    obtain ⟨rfl, hz⟩ := hd hr
    exact ⟨by simpa using hafter.symm, (peek_drop_eq_zero_iff hle).1 (hrest.symm ▸ hz)⟩

/-- The text from the first byte of what is read on. -/
theorem Call.Covers.drop_first {call : Call} (h : call.Covers size bytes) :
    bytes.drop (firstFrom bytes call.before) = call.bytesRead bytes ++ bytes.drop call.after := by
  have hd : bytes.drop call.after =
      (bytes.drop (call.first bytes)).drop (call.after - call.first bytes) := by
    rw [List.drop_drop, Nat.add_sub_cancel' h.forward.2.1]
  rw [Call.bytesRead, List.extract_eq_take_drop, hd, List.take_append_drop]
  rfl

/-- A reading from a cursor within the text covers what it steps over. -/
theorem covers_ofCursor (size : Nat) {cursor : Nat} (h : cursor ≤ bytes.length) :
    (Call.ofCursor size bytes cursor).Covers size bytes := by
  obtain ⟨gap, front, hb, hg, hp, h0, ht, hd⟩ := exists_bytes_of_next size (bytes.drop cursor)
  have hl := congrArg List.length hb
  simp only [List.length_drop, List.length_append] at hl
  refine covers_of_append hb hg hp h0 ?_ (Nat.sub_le _ _) rfl ht hd
  simp only [Call.ofCursor, List.length_append]
  omega

end Next

/-! ## Readings in a row -/

/-- How the readings of tokens from a cursor on lie in a text, of which the first `n` are given. -/
structure Tiling (size : Nat) (bytes : List UInt8) (n cursor : Nat) (calls : List Call) :
    Prop where
  /-- Every reading covers what it steps over. -/
  covers : ∀ call ∈ calls, call.Covers size bytes
  /-- The first reading begins at the cursor. -/
  begins : ∀ call ∈ calls.head?, call.before = cursor
  /-- Every other reading begins where the one before it has ended. -/
  chain : ∀ i call other, calls[i]? = some call → calls[i + 1]? = some other →
    other.before = call.after
  /-- The bytes that are read stand one behind the other. -/
  ordered : calls.Pairwise fun call other => call.after ≤ other.first bytes
  /-- No NUL is stepped over. -/
  zero : ∀ call ∈ calls, 0 ∉ bytes.take call.after
  /-- Behind the end, the end is read again and the cursor stays. -/
  again : calls.Pairwise fun call other => call.result = .ok done →
    other = { before := call.after, result := .ok done, after := call.after }
  /-- Nothing is read behind a failure. -/
  stops : calls.Pairwise fun call _ => call.result.isOk
  /-- Without a failure there are as many readings as one likes. -/
  goesOn : (∀ call ∈ calls, call.result.isOk) → calls.length = n
  /-- After at most one reading more than there are bytes, it is the end or a failure. -/
  ends : bytes.length < cursor + n → ∃ i call, cursor + i ≤ bytes.length ∧ calls[i]? = some call ∧
    (call.result = .ok done ∨ ∃ fault, call.result = .error fault)

section Calls

variable {size n cursor : Nat} {bytes : List UInt8}

/-- What a reading gives, and the text that it leaves. -/
theorem ofCursor_of_next {t : Token} {rest : List UInt8} (hle : cursor ≤ bytes.length)
    (h : next size (bytes.drop cursor) = .ok t rest) :
    (Call.ofCursor size bytes cursor).result = .ok t ∧
      bytes.drop (Call.ofCursor size bytes cursor).after = rest := by
  have hr : Step.outcome (next size) (bytes.drop cursor) = _ := (covers_ofCursor size hle).reads
  rw [Step.outcome_of_ok h] at hr
  obtain ⟨hr, hd⟩ := Prod.mk.inj hr
  exact ⟨hr.symm, hd.symm⟩

theorem calls_of_ok {t : Token} (h : (Call.ofCursor size bytes cursor).result = .ok t) :
    calls size bytes (n + 1) cursor = Call.ofCursor size bytes cursor ::
      calls size bytes n (Call.ofCursor size bytes cursor).after := by
  rw [calls, h]

theorem calls_of_error {fault : Fault}
    (h : (Call.ofCursor size bytes cursor).result = .error fault) :
    calls size bytes (n + 1) cursor = [Call.ofCursor size bytes cursor] := by
  rw [calls, h]

/-- Where the end is next, it is read and the cursor stays. -/
theorem ofCursor_of_peek (size : Nat) (hle : cursor ≤ bytes.length)
    (hp : peek (bytes.drop cursor) = 0) :
    Call.ofCursor size bytes cursor =
      { before := cursor, result := .ok done, after := cursor } := by
  rw [Call.ofCursor, Step.outcome_of_ok (next_of_peek hp size), List.length_drop,
    Nat.sub_sub_self hle]

theorem calls_of_peek (hle : cursor ≤ bytes.length) (hp : peek (bytes.drop cursor) = 0) :
    ∀ call ∈ calls size bytes n cursor,
      call = { before := cursor, result := .ok done, after := cursor } := by
  have hc := ofCursor_of_peek size hle hp
  induction n with
  | zero => nofun
  | succ n ih =>
    rw [calls_of_ok (congrArg Call.result hc), hc]
    exact List.forall_mem_cons.2 ⟨rfl, ih⟩

/-- No reading begins in front of the cursor. -/
theorem le_before_of_mem_calls (hle : cursor ≤ bytes.length) : ∀ call ∈ calls size bytes n cursor,
    cursor ≤ call.before := by
  induction n generalizing cursor with
  | zero => nofun
  | succ n ih =>
    obtain ⟨-, ⟨hf, hl, hb⟩, -⟩ := covers_ofCursor size hle
    cases hr : (Call.ofCursor size bytes cursor).result with
    | error fault =>
      rw [calls_of_error hr]
      exact List.forall_mem_singleton.2 (Nat.le_refl _)
    | ok t =>
      rw [calls_of_ok hr]
      refine List.forall_mem_cons.2 ⟨Nat.le_refl _, fun call hc => ?_⟩
      exact Nat.le_trans (Nat.le_trans hf hl) (ih hb call hc)

/-- A reading that fails is the last one. -/
theorem Tiling.fails {call : Call} {fault : Fault} (hb : call.before = cursor)
    (hc : call.Covers size bytes) (hr : call.result = .error fault)
    (h0 : 0 ∉ bytes.take call.after) : Tiling size bytes (n + 1) cursor [call] where
  covers := List.forall_mem_singleton.2 hc
  begins := by
    rintro _ ⟨⟩
    exact hb
  chain i := by simp
  ordered := List.pairwise_singleton _ _
  zero := List.forall_mem_singleton.2 h0
  again := List.pairwise_singleton _ _
  stops := List.pairwise_singleton _ _
  goesOn h := by
    have := List.forall_mem_singleton.1 h
    rw [hr] at this
    cases this
  ends _ := by
    have := hc.forward
    exact ⟨0, call, by omega, rfl, .inr ⟨fault, hr⟩⟩

/-- Behind a reading that gives a token the readings go on. -/
theorem Tiling.cons {call : Call} {rest : List Call} {t : Token} (hb : call.before = cursor)
    (hc : call.Covers size bytes) (hr : call.result = .ok t) (h0 : 0 ∉ bytes.take call.after)
    (h : Tiling size bytes n call.after rest) (hle : ∀ other ∈ rest, call.after ≤ other.before)
    (hd : t = done → ∀ other ∈ rest,
      other = { before := call.after, result := .ok done, after := call.after }) :
    Tiling size bytes (n + 1) cursor (call :: rest) where
  covers := List.forall_mem_cons.2 ⟨hc, h.covers⟩
  begins := by
    rintro _ ⟨⟩
    exact hb
  chain := by
    intro i other next hi hn
    cases i with
    | zero =>
      cases hi
      rw [List.getElem?_cons_succ, ← List.head?_eq_getElem?] at hn
      exact h.begins next hn
    | succ i => exact h.chain i other next hi hn
  ordered := List.pairwise_cons.2
    ⟨fun other ho => Nat.le_trans (hle other ho) (h.covers other ho).forward.1, h.ordered⟩
  zero := List.forall_mem_cons.2 ⟨h0, h.zero⟩
  again := List.pairwise_cons.2
    ⟨fun other ho he => hd (Except.ok.inj (hr.symm.trans he)) other ho, h.again⟩
  stops := List.pairwise_cons.2 ⟨fun _ _ => by rw [hr]; rfl, h.stops⟩
  goesOn ho := by
    rw [List.length_cons, h.goesOn (List.forall_mem_cons.1 ho).2]
  ends hn := by
    by_cases ht : t = done
    · have := hc.forward
      exact ⟨0, call, by omega, rfl, .inl (ht ▸ hr)⟩
    · -- a token takes a byte, which pays for its reading
      have hlt := (hc.token t hr ht).1
      have hf := hc.forward
      obtain ⟨i, other, hi, ho, he⟩ := h.ends (by omega)
      exact ⟨i + 1, other, by omega, ho, he⟩

theorem tiling_calls (hle : cursor ≤ bytes.length) (h0 : 0 ∉ bytes.take cursor) :
    Tiling size bytes n cursor (calls size bytes n cursor) := by
  induction n generalizing cursor with
  | zero =>
    refine ⟨nofun, nofun, nofun, .nil, nofun, .nil, .nil, fun _ => rfl, fun h => ?_⟩
    exact absurd h (Nat.not_lt.2 hle)
  | succ n ih =>
    have hc := covers_ofCursor size hle
    have hf := hc.forward
    have hz : 0 ∉ bytes.take (Call.ofCursor size bytes cursor).after := by
      have ha : (Call.ofCursor size bytes cursor).after =
          cursor + ((Call.ofCursor size bytes cursor).after - cursor) :=
        (Nat.add_sub_cancel' (Nat.le_trans hf.1 hf.2.1)).symm
      rw [ha, List.take_add, ← List.extract_eq_take_drop, List.mem_append, not_or]
      exact ⟨h0, hc.zero⟩
    cases hr : (Call.ofCursor size bytes cursor).result with
    | error fault =>
      rw [calls_of_error hr]
      exact .fails rfl hc hr hz
    | ok t =>
      rw [calls_of_ok hr]
      refine .cons rfl hc hr hz (ih hf.2.2 hz) (le_before_of_mem_calls hf.2.2) ?_
      rintro rfl
      exact calls_of_peek hf.2.2 ((peek_drop_eq_zero_iff hf.2.2).2 (hc.done hr).2)

/-- **Tokens tile the text.**  However many tokens are read from the beginning of a text on, each of
them lies behind the one before it with nothing but separators between them, and the end, once it is
read, is read again and again at the same place.  It is reached, or a reading fails, after at most
one reading more than the text has bytes. -/
theorem calls_tile (size : Nat) (bytes : List UInt8) (n : Nat) :
    Tiling size bytes n 0 (calls size bytes n 0) :=
  tiling_calls (Nat.zero_le _) List.not_mem_nil

end Calls

end Token

end Formula
