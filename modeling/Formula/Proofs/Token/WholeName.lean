import Formula.Proofs.Token.Tiling

/-!
# Names are taken whole or refused

Where reading a token comes to a name, there is a longest run of bytes of names (`nameRun`), and the
name is this run or it is too long: no part of it is read alone (`wholeName_of_comesToName`).

A name can be read one byte after the other, with a look at the room before each of them, and then
be cut out of the text and decoded (`cutName`).  This is what reading a name does
(`outcome_scanName`): the cut lies within the text, and it can always be decoded, since names are
spelled in ASCII.
-/

namespace Formula

open Byte

namespace Token

/-- All bytes of names from a position on. -/
def nameRun (bytes : List UInt8) (start : Nat) : List UInt8 :=
  (bytes.drop start).takeWhile isName

/-- Reading a token at the cursor comes to a name in a role, the bytes of which begin at `start`. -/
inductive ComesToName (bytes : List UInt8) (cursor : Nat) : Role → Nat → Prop
  /-- A function name begins with a letter or an underscore. -/
  | function (h : isNameStart (peek (bytes.drop (firstFrom bytes cursor)))) :
    ComesToName bytes cursor .function (firstFrom bytes cursor)
  /-- A variable name begins behind a dollar sign. -/
  | variable (h : bytes[firstFrom bytes cursor]? = some 0x24) :
    ComesToName bytes cursor .variable (firstFrom bytes cursor + 1)

theorem lt_length_of_isName {bytes : List UInt8} {cursor : Nat}
    (h : isName (peek (bytes.drop cursor))) : cursor < bytes.length := by
  rw [← Nat.not_le, ← List.drop_eq_nil_iff]
  intro hd
  rw [hd] at h
  cases h

/-- Steps over bytes of names one by one, as long as there is room for the next one.  The answer is
the position reached, which is that of an error if there is a byte left without room for it. -/
def stepName (size : Nat) (bytes : List UInt8) (start cursor : Nat) : Except Nat Nat :=
  if h : isName (peek (bytes.drop cursor)) then
    if size - 1 ≤ cursor - start then .error cursor
    else stepName size bytes start (cursor + 1)
  else .ok cursor
termination_by bytes.length - cursor
decreasing_by
  have := lt_length_of_isName h
  omega

/-- Reads a name by single bytes, cuts it out of the text and decodes it.  The answer is given with
the position reached. -/
def cutName (role : Role) (size : Nat) (bytes : List UInt8) (start : Nat) :
    Except Fault Token × Nat :=
  match stepName size bytes start start with
  | .error cursor => (.error .nameTooLong, cursor)
  | .ok cursor => match String.fromUTF8? ⟨(bytes.extract start cursor).toArray⟩ with
    | some text => (.ok (.name role text), cursor)
    | none => (.error .illegalCharacter, cursor)

section

variable {role : Role} {size start cursor : Nat} {bytes : List UInt8}

/-! ## Names by single bytes -/

theorem nameRun_of_isName (h : isName (peek (bytes.drop cursor))) :
    nameRun bytes cursor = peek (bytes.drop cursor) :: nameRun bytes (cursor + 1) := by
  have hd := List.drop_eq_getElem_cons (lt_length_of_isName h)
  rw [nameRun, nameRun, hd, peek_cons, List.takeWhile_cons_of_pos (by rwa [hd, peek_cons] at h)]

theorem nameRun_of_not_isName (h : isName (peek (bytes.drop cursor)) = false) :
    nameRun bytes cursor = [] :=
  takeWhile_run (List.forall_mem_nil _) h

theorem stepName_eq (hs : start ≤ cursor) (hr : cursor - start ≤ size - 1) :
    stepName size bytes start cursor =
      if cursor - start + (nameRun bytes cursor).length ≤ size - 1 then
        .ok (cursor + (nameRun bytes cursor).length)
      else .error (start + (size - 1)) := by
  fun_induction stepName size bytes start cursor with
  | case1 cursor h hl =>
    rw [nameRun_of_isName h, List.length_cons, if_neg (by omega)]
    congr 1
    omega
  | case2 cursor h hl ih =>
    have hn : cursor + 1 - start + (nameRun bytes (cursor + 1)).length =
        cursor - start + ((nameRun bytes (cursor + 1)).length + 1) := by omega
    rw [ih (by omega) (by omega), nameRun_of_isName h, List.length_cons, hn, Nat.add_assoc cursor 1,
      Nat.add_comm 1]
  | case3 cursor h =>
    rw [nameRun_of_not_isName (by simpa using h), List.length_nil, Nat.add_zero, if_pos hr,
      Nat.add_zero]

theorem all_isName_nameRun (bytes : List UInt8) (start : Nat) :
    ∀ b ∈ nameRun bytes start, isName b :=
  List.all_eq_true.1 List.all_takeWhile

/-- A run of bytes of names is the text that it spells. -/
theorem bytesOf_nameRun (bytes : List UInt8) (start : Nat) :
    bytesOf (ascii (nameRun bytes start)) = nameRun bytes start :=
  bytesOf_ascii fun b hb => lt_of_isName (all_isName_nameRun bytes start b hb)

/-- The bytes of a text are decoded to it. -/
theorem fromUTF8?_of_bytesOf {text : String} {bytes : List UInt8} (h : bytesOf text = bytes) :
    String.fromUTF8? ⟨bytes.toArray⟩ = some text := by
  subst h
  have hv : text.toUTF8.IsValidUTF8 := text.isValidUTF8
  exact dif_pos hv

theorem extract_nameRun (bytes : List UInt8) (start : Nat) :
    bytes.extract start (start + (nameRun bytes start).length) = nameRun bytes start :=
  extract_add_length (List.takeWhile_append_dropWhile (p := isName)).symm

/-- A run of bytes of names lies within the text. -/
theorem add_length_nameRun_le (h : start ≤ bytes.length) :
    start + (nameRun bytes start).length ≤ bytes.length := by
  have hl := (List.takeWhile_prefix isName (l := bytes.drop start)).length_le
  rw [List.length_drop] at hl
  rw [nameRun]
  omega

theorem stepName_start (size : Nat) (bytes : List UInt8) (start : Nat) :
    stepName size bytes start start =
      if (nameRun bytes start).length ≤ size - 1 then .ok (start + (nameRun bytes start).length)
      else .error (start + (size - 1)) := by
  rw [stepName_eq (Nat.le_refl _) (by omega), Nat.sub_self, Nat.zero_add]

theorem cutName_of_le (role : Role) (h : (nameRun bytes start).length ≤ size - 1) :
    cutName role size bytes start =
      (.ok (.name role (ascii (nameRun bytes start))), start + (nameRun bytes start).length) := by
  rw [cutName, stepName_start, if_pos h]
  simp only [extract_nameRun, fromUTF8?_of_bytesOf (bytesOf_nameRun bytes start)]

theorem cutName_of_lt (role : Role) (h : size - 1 < (nameRun bytes start).length) :
    cutName role size bytes start = (.error .nameTooLong, start + (size - 1)) := by
  rw [cutName, stepName_start, if_neg (Nat.not_le.2 h)]

/-- Reading a name by single bytes is reading it as a run, and the text is left from the position
reached on. -/
theorem outcome_scanName (role : Role) (size : Nat) (bytes : List UInt8) (start : Nat) :
    Step.outcome (scanName role size) (bytes.drop start) =
      ((cutName role size bytes start).1, bytes.drop (cutName role size bytes start).2) := by
  by_cases h : (nameRun bytes start).length ≤ size - 1
  · have hd : (bytes.drop start).dropWhile isName =
        bytes.drop (start + (nameRun bytes start).length) :=
      (drop_add_length (List.takeWhile_append_dropWhile (p := isName)).symm).symm
    rw [cutName_of_le role h, ← hd]
    exact Step.outcome_of_ok (if_pos h)
  · rw [cutName_of_lt role (Nat.lt_of_not_le h), ← List.drop_drop]
    exact Step.outcome_of_error (if_neg h)

/-! ## Names of a text -/

/-- Separators are skipped. -/
theorem next_firstFrom (size : Nat) (bytes : List UInt8) (cursor : Nat) :
    next size (bytes.drop cursor) = next size (bytes.drop (firstFrom bytes cursor)) := by
  obtain ⟨gap, behind, hb, hg, hp⟩ := exists_run (p := isSeparator) rfl (bytes.drop cursor)
  have hf : firstFrom bytes cursor = cursor + gap.length := by
    rw [firstFrom, hb, takeWhile_run hg hp]
  rw [hf, drop_add_length hb, hb, next_separators hg]

/-- Where reading a token comes to a name, it goes on as reading a name. -/
theorem next_of_comesToName (h : ComesToName bytes cursor role start) (size : Nat) :
    next size (bytes.drop cursor) = scanName role size (bytes.drop start) := by
  rw [next_firstFrom]
  cases h with
  | function h =>
    obtain ⟨rest, hr⟩ := exists_cons_of_peek rfl (ne_zero_of_isNameStart h)
    rw [hr]
    exact next_function h size rest
  | «variable» h =>
    obtain ⟨hl, hv⟩ := List.getElem?_eq_some_iff.1 h
    rw [List.drop_eq_getElem_cons hl, hv]
    exact next_symbol rfl size _

/-- The bytes of a name that reading a token comes to begin within the text or at its end. -/
theorem le_length_of_comesToName (h : ComesToName bytes cursor role start) :
    start ≤ bytes.length := by
  cases h with
  | function h =>
    refine Nat.le_of_lt (lt_length_of_isName ?_)
    rw [isName, h]
    rfl
  | «variable» h => exact (List.getElem?_eq_some_iff.1 h).1

/-- What is read of a name that begins at a position. -/
structure WholeName (role : Role) (size : Nat) (bytes : List UInt8) (cursor start : Nat) :
    Prop where
  /-- The name is read by single bytes, cut out and decoded. -/
  reads : Call.ofCursor size bytes cursor =
    { before := cursor, result := (cutName role size bytes start).1,
      after := (cutName role size bytes start).2 }
  /-- The cut lies within the text. -/
  within : ∀ stop, stepName size bytes start start = .ok stop →
    start ≤ stop ∧ stop ≤ bytes.length
  /-- The cut can be decoded. -/
  decodes : ∀ stop, stepName size bytes start start = .ok stop →
    ∃ text, String.fromUTF8? ⟨(bytes.extract start stop).toArray⟩ = some text
  /-- So no byte is refused as illegal. -/
  legal : (Call.ofCursor size bytes cursor).result ≠ .error .illegalCharacter
  /-- A run that fits is the name. -/
  taken : (nameRun bytes start).length ≤ size - 1 →
    ∃ text, (Call.ofCursor size bytes cursor).result = .ok (.name role text) ∧
      bytesOf text = nameRun bytes start
  /-- A longer run is refused. -/
  refused : size - 1 < (nameRun bytes start).length →
    (Call.ofCursor size bytes cursor).result = .error .nameTooLong

theorem ofCursor_of_comesToName (h : ComesToName bytes cursor role start) (size : Nat) :
    Call.ofCursor size bytes cursor =
      { before := cursor, result := (cutName role size bytes start).1,
        after := (cutName role size bytes start).2 } := by
  have hs := le_length_of_comesToName h
  have hl := add_length_nameRun_le hs
  have hc : (cutName role size bytes start).2 ≤ bytes.length := by
    by_cases hr : (nameRun bytes start).length ≤ size - 1
    · rw [cutName_of_le role hr]
      exact hl
    · rw [cutName_of_lt role (Nat.lt_of_not_le hr)]
      dsimp only
      omega
  have ho : Step.outcome (next size) (bytes.drop cursor) =
      Step.outcome (scanName role size) (bytes.drop start) := by
    rw [Step.outcome, Step.outcome, next_of_comesToName h]
  rw [Call.ofCursor, ho, outcome_scanName, List.length_drop, Nat.sub_sub_self hc]

/-- A name that reading a token comes to is taken whole, or it is refused. -/
theorem wholeName_of_comesToName (h : ComesToName bytes cursor role start) (size : Nat) :
    WholeName role size bytes cursor start := by
  have hc := ofCursor_of_comesToName h size
  have hstop {stop : Nat} (hs : stepName size bytes start start = .ok stop) :
      stop = start + (nameRun bytes start).length := by
    rw [stepName_start] at hs
    split at hs <;> cases hs
    rfl
  have htaken (hl : (nameRun bytes start).length ≤ size - 1) :
      (Call.ofCursor size bytes cursor).result =
        .ok (.name role (ascii (nameRun bytes start))) := by
    rw [hc, cutName_of_le role hl]
  have hrefused (hl : size - 1 < (nameRun bytes start).length) :
      (Call.ofCursor size bytes cursor).result = .error .nameTooLong := by
    rw [hc, cutName_of_lt role hl]
  refine ⟨hc, ?_, ?_, ?_, fun hl => ⟨_, htaken hl, bytesOf_nameRun bytes start⟩, hrefused⟩
  · intro stop hs
    rw [hstop hs]
    exact ⟨Nat.le_add_right _ _, add_length_nameRun_le (le_length_of_comesToName h)⟩
  · intro stop hs
    rw [hstop hs, extract_nameRun]
    exact ⟨_, fromUTF8?_of_bytesOf (bytesOf_nameRun bytes start)⟩
  · rcases Nat.lt_or_ge (size - 1) (nameRun bytes start).length with hl | hl
    · rw [hrefused hl]
      nofun
    · rw [htaken hl]
      nofun

end

end Token

end Formula
