import Formula.Proofs.Literal.Spelling

/-!
# How far a text has come in the grammar of literals

The grammar of literals as an automaton, with one step for each byte.  A text that some literal
begins with (`Viable`) goes through it (`Viable.through?`), and a literal ends in a phase that is
complete (`Spelling.through?_bytes`, `Spelling.complete_phase`).  So where the automaton has no step
for the byte behind a front part of a text, no longer front part is viable (`longest_of_blocked`).
-/

namespace Formula.Literal

open Byte

/-! ## How far a text has come -/

/-- How far a text has come in the grammar of literals, by what it ends with. -/
inductive Phase where
  /-- Nothing yet. -/
  | start
  /-- A digit before the point. -/
  | whole
  /-- The point. -/
  | point
  /-- A digit behind the point. -/
  | fraction
  /-- The exponent mark. -/
  | mark
  /-- The sign of the exponent. -/
  | sign
  /-- A digit of the exponent. -/
  | power
  deriving DecidableEq, Repr

namespace Phase

/-- Is a text that has come so far a literal? -/
def complete : Phase → Bool
  | whole | fraction | power => true
  | start | point | mark | sign => false

/-- One digit more.  Digits may stand everywhere. -/
def digit : Phase → Phase
  | start | whole => whole
  | point | fraction => fraction
  | mark | sign | power => power

/-- One byte more, if a literal goes on with it. -/
def next? (phase : Phase) (b : UInt8) : Option Phase :=
  if isDigit b then some phase.digit
  else if b == 0x2E then if phase = start ∨ phase = whole then some point else none
  else if b == 0x65 || b == 0x45 then if phase = whole ∨ phase = fraction then some mark else none
  else if b == 0x2B || b == 0x2D then if phase = mark then some sign else none
  else none

/-- Some bytes more, if a literal goes on with all of them. -/
def through? (phase : Phase) (bytes : List UInt8) : Option Phase :=
  bytes.foldlM next? phase

variable {phase : Phase} {bytes : List UInt8}

theorem through?_nil (phase : Phase) : phase.through? [] = some phase := rfl

theorem through?_cons (phase : Phase) (b : UInt8) (bytes : List UInt8) :
    phase.through? (b :: bytes) = (phase.next? b).bind fun phase => phase.through? bytes := rfl

theorem through?_append (phase : Phase) (front bytes : List UInt8) :
    phase.through? (front ++ bytes) =
      (phase.through? front).bind fun phase => phase.through? bytes :=
  List.foldlM_append

@[simp]
theorem digit_digit (phase : Phase) : phase.digit.digit = phase.digit := by
  cases phase <;> rfl

theorem next?_digit {b : UInt8} (h : isDigit b) (phase : Phase) :
    phase.next? b = some phase.digit := by
  simp [next?, h]

theorem through?_digits (hd : ∀ b ∈ bytes, isDigit b) (h : phase.digit = phase) :
    phase.through? bytes = some phase := by
  induction bytes with
  | nil => rfl
  | cons b bytes ih =>
    rw [through?_cons, next?_digit (hd b (List.mem_cons_self ..)), h]
    exact ih fun c hc => hd c (List.mem_cons_of_mem _ hc)

theorem through?_digits_of_ne (d : Digits) (phase : Phase) :
    phase.through? d.bytes = some phase.digit := by
  obtain ⟨b, bytes, hb⟩ := List.exists_cons_of_ne_nil d.ne_nil
  have hd := d.all_isDigit
  rw [hb] at hd ⊢
  rw [through?_cons, next?_digit (hd b (List.mem_cons_self ..))]
  exact through?_digits (fun c hc => hd c (List.mem_cons_of_mem _ hc)) phase.digit_digit

end Phase

open Phase (start through?_nil through?_cons through?_append through?_digits_of_ne)

/-- An exponent mark follows the digits of a literal only. -/
theorem Phase.next?_mark {phase : Phase} (h : phase = .whole ∨ phase = .fraction)
    (capital : Bool) : phase.next? (if capital then 0x45 else 0x65) = some .mark := by
  rcases h with rfl | rfl <;> cases capital <;> rfl

theorem Power.through?_bytes (p : Power) {phase : Phase} (h : phase = .whole ∨ phase = .fraction) :
    phase.through? p.bytes = some .power := by
  rw [Power.bytes, through?_cons, Phase.next?_mark h, Option.bind_some, Power.unmarked,
    through?_append]
  cases p.sign with
  | none => exact through?_digits_of_ne p.digits .mark
  | some sign => cases sign <;> exact through?_digits_of_ne p.digits .sign

namespace Spelling

/-- What the digits of a literal end with, the exponent apart. -/
def digitsPhase (s : Spelling) : Phase :=
  if s.fraction.isSome then .fraction else .whole

/-- What a literal ends with. -/
def phase (s : Spelling) : Phase :=
  if s.power.isSome then .power else s.digitsPhase

theorem digitsPhase_eq (s : Spelling) : s.digitsPhase = .whole ∨ s.digitsPhase = .fraction := by
  unfold digitsPhase
  split
  · exact .inr rfl
  · exact .inl rfl

theorem phase_of_none {s : Spelling} (h : s.power = none) : s.phase = s.digitsPhase := by
  rw [phase, h]
  rfl

theorem complete_phase (s : Spelling) : s.phase.complete := by
  unfold phase
  split
  · rfl
  · rcases s.digitsPhase_eq with h | h <;> rw [h] <;> rfl

theorem through?_whole (s : Spelling) :
    start.through? s.whole = some (if s.whole = [] then .start else .whole) := by
  by_cases h : s.whole = []
  · simp [h, through?_nil]
  · rw [if_neg h]
    exact through?_digits_of_ne ⟨s.whole, s.all_isDigit, h⟩ start

theorem through?_digits (s : Spelling) :
    start.through? (s.whole ++ s.pointBytes) = some s.digitsPhase := by
  rw [through?_append, s.through?_whole, Option.bind_some]
  unfold pointBytes digitsPhase
  cases hf : s.fraction with
  | none =>
    -- without a point there are digits before it
    have hw : s.whole ≠ [] := by simpa [hf] using s.some_digit
    simp [hw, through?_nil]
  | some d =>
    have hp : Phase.next? (if s.whole = [] then .start else .whole) 0x2E = some .point := by
      split <;> rfl
    simp only [through?_cons, hp, Option.bind_some]
    exact through?_digits_of_ne d .point

theorem through?_bytes (s : Spelling) : start.through? s.bytes = some s.phase := by
  rw [bytes, through?_append, s.through?_digits, Option.bind_some]
  unfold powerBytes phase
  cases s.power with
  | none => rfl
  | some p => exact p.through?_bytes s.digitsPhase_eq

end Spelling

/-! ## Front parts of literals -/

/-- Some literal begins like this. -/
def Viable (front : List UInt8) : Prop :=
  ∃ (more : List UInt8) (s : Spelling), s.bytes = front ++ more

/-- The longest front part of a text that some literal begins with. -/
structure Longest (front bytes : List UInt8) : Prop where
  isFront : front <+: bytes
  viable : Viable front
  longest : ∀ other, other <+: bytes → Viable other → other <+: front

theorem Viable.through? {front : List UInt8} (h : Viable front) :
    ∃ phase, start.through? front = some phase := by
  obtain ⟨more, s, hs⟩ := h
  have ht := s.through?_bytes
  rw [hs, through?_append] at ht
  obtain ⟨phase, hp, -⟩ := Option.bind_eq_some_iff.1 ht
  exact ⟨phase, hp⟩

/-- There is only one longest front part. -/
theorem Longest.eq {front other bytes : List UInt8} (h : Longest front bytes)
    (h' : Longest other bytes) : front = other :=
  (h'.longest _ h.isFront h.viable).eq_of_length_le
    (h.longest _ h'.isFront h'.viable).length_le

/-- A front part is the longest one if no literal goes on with the byte behind it. -/
theorem longest_of_blocked {front rest : List UInt8} {phase : Phase} (hv : Viable front)
    (ht : start.through? front = some phase) (hb : phase.next? (peek rest) = none) :
    Longest front (front ++ rest) := by
  refine ⟨List.prefix_append _ _, hv, fun other ho hother => ?_⟩
  rcases List.prefix_or_prefix_of_prefix ho (List.prefix_append front rest) with h | ⟨more, rfl⟩
  · exact h
  · cases more with
    | nil => simp
    | cons b more =>
      obtain ⟨last, hlast⟩ := (List.prefix_append_right_inj front).1 ho
      have hpeek : peek rest = b := by rw [← hlast]; rfl
      obtain ⟨further, hf⟩ := hother.through?
      rw [through?_append, ht, Option.bind_some, through?_cons, ← hpeek, hb] at hf
      cases hf

end Formula.Literal
