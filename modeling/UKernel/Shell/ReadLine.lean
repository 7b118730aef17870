import UKernel.Library.CString

/-! # Reading a line

`readline` stores each key at the end of the line before it looks at the key, and at the number of
characters. It is an editor of a line, within its buffer, exactly as long as no key is read while
the line fills the buffer (`UKernel.Shell.readline_edits_iff`).
-/

namespace UKernel.Shell

open UKernel.Library

/-! ## The function of the source -/

/-- `'\b'`. -/
def backspace : Byte := 0x08

/-- Ctrl and `l`: `'l' - 'a'`. -/
def ctrlL : Byte := 0x0b

/-- Ctrl and `u`: `'u' - 'a'`. -/
def ctrlU : Byte := 0x14

/-- `'\n'` and `'\r'`. -/
def IsEnter (key : Byte) : Prop := key = 0x0a ∨ key = 0x0d

instance (key : Byte) : Decidable (IsEnter key) :=
  inferInstanceAs (Decidable (key = 0x0a ∨ key = 0x0d))

/-- The buffer, which is `cmd_line`, with how far `pos` is from its start, and the places that were
written. What the screen shows is left out. -/
structure LineState where
  buf : Memory
  pos : Nat
  stores : List Nat

/-- A store. -/
def LineState.store (s : LineState) (i : Nat) (c : Byte) : LineState :=
  { s with buf := Function.update s.buf i c, stores := s.stores ++ [i] }

/-- Whether `readline` goes on. -/
inductive LineOutcome where
  /-- It waits for the next key. -/
  | more
  /-- It returned at the end of a line. -/
  | entered
  /-- It returned because the buffer is full. -/
  | full
  deriving DecidableEq, Repr

/-- The loop for Ctrl and `u`. -/
def eraseLoop : Nat → LineState → LineState
  | 0, s => s
  | pos + 1, s => eraseLoop pos { s.store (pos + 1) 0 with pos := pos }

/-- A round of the loop of `readline`: the read of a key, the test and the switch. -/
def readKey (count : Nat) (s : LineState) (key : Byte) : LineState × LineOutcome :=
  let s := s.store s.pos key
  if s.pos < count then
    if IsEnter key then
      (s.store s.pos 0, .entered)
    else if key = backspace then
      -- at the start of the line the key itself was stored at its first place
      if s.buf 0 ≠ backspace then ({ s with pos := s.pos - 1 }, .more) else (s, .more)
    else if key = ctrlL then
      (s.store s.pos 0, .more)
    else if key = ctrlU then
      (eraseLoop s.pos s, .more)
    else
      ({ s with pos := s.pos + 1 }, .more)
  else
    (s, .full)

/-- `readline` behind its assertion that `count` is positive, up to its return or as far as keys
were typed. -/
def readline (count : Nat) : List Byte → LineState → LineState × LineOutcome
  | [], s => (s, .more)
  | key :: keys, s =>
      match readKey count s key with
      | (s, .more) => readline count keys s
      | (s, .entered) => (s, .entered)
      | (s, .full) => (s, .full)

/-! ## What it is for -/

/-- A key changes the line. -/
def editKey (line : List Byte) (key : Byte) : List Byte :=
  if key = backspace then line.dropLast
  else if key = ctrlL then line
  else if key = ctrlU then []
  else line ++ [key]

/-- The line at its end. -/
def editLine : List Byte → List Byte → List Byte
  | line, [] => line
  | line, key :: keys => if IsEnter key then line else editLine (editKey line key) keys

/-- `readline` stays within its buffer, and what is in it when it returns is the edited line, as far
as it has room. -/
def ReadLineCorrect (count : Nat) (keys : List Byte) : Prop :=
  ∀ buf, let (s, outcome) := readline count keys ⟨buf, 0, []⟩
    (∀ i ∈ s.stores, i < count) ∧
      (outcome ≠ .more → s.buf.StringAt 0 ((editLine [] keys).take (count - 1)))

/-- Each key up to the end of the line is read while the line has fewer characters than the
buffer. -/
def HasRoom (count : Nat) : List Byte → List Byte → Prop
  | _, [] => True
  | line, key :: keys => line.length < count ∧ (IsEnter key ∨ HasRoom count (editKey line key) keys)

/-! ## A key -/

section

variable {s s' : LineState} {count pos : Nat} {line keys : List Byte} {key : Byte}

/-- The buffer holds an edited line, and nothing was written outside. -/
structure Edits (count : Nat) (line : List Byte) (s : LineState) : Prop where
  pos : s.pos = line.length
  holds : s.buf.Holds 0 line
  inside : ∀ i ∈ s.stores, i < count
  clean : 0 ∉ line
  noBackspace : backspace ∉ line

/-- A store behind the line. -/
theorem Edits.store (edits : Edits count line s) (room : line.length < count) (c : Byte) :
    Edits count line (s.store s.pos c) where
  pos := edits.pos
  holds := edits.holds.update (.inr (by rw [edits.pos, Nat.zero_add]))
  inside := by
    intro i member
    rcases List.mem_append.mp member with before | last
    · exact edits.inside i before
    · rw [List.mem_singleton.mp last, edits.pos]
      exact room
  clean := edits.clean
  noBackspace := edits.noBackspace

theorem eraseLoop_edits (empty : s.pos = pos) (inside : ∀ i ∈ s.stores, i < count)
    (room : pos < count) : Edits count [] (eraseLoop pos s) := by
  induction pos generalizing s with
  | zero => exact ⟨empty, Memory.holds_nil, inside, List.not_mem_nil, List.not_mem_nil⟩
  | succ pos ih =>
      apply ih
      case empty => rfl
      case room => omega
      case inside =>
        intro i member
        rcases List.mem_append.mp member with before | last
        · exact inside i before
        · rw [List.mem_singleton.mp last]
          exact room

/-- A key that does not end the line changes it as it changes the edited line. -/
theorem readKey_edits (edits : Edits count line s) (room : line.length < count) (nonzero : key ≠ 0)
    (notEnter : ¬ IsEnter key) :
    ∃ s', readKey count s key = (s', .more) ∧ Edits count (editKey line key) s' := by
  have stored := edits.store room key
  have here : (s.store s.pos key).pos < count := by rwa [stored.pos]
  unfold readKey editKey
  simp only [if_pos here, if_neg notEnter]
  by_cases isBackspace : key = backspace
  · rw [if_pos isBackspace, if_pos isBackspace]
    rcases List.eq_nil_or_concat line with rfl | ⟨front, last, rfl⟩
    · have first : (s.store s.pos key).buf 0 = backspace := by
        have start : s.pos = 0 := edits.pos
        change Function.update s.buf s.pos key 0 = backspace
        rw [start, Function.update_self, isBackspace]
      rw [if_neg (not_not.mpr first)]
      exact ⟨_, rfl, stored⟩
    · rw [List.concat_eq_append] at stored ⊢
      have first : (s.store s.pos key).buf 0 ≠ backspace := by
        intro same
        apply stored.noBackspace
        rw [← same]
        have holds := stored.holds 0 (by simp)
        rw [Nat.zero_add] at holds
        rw [holds]
        exact List.getElem_mem _
      rw [if_pos first, List.dropLast_concat]
      refine ⟨_, rfl, ?_, (Memory.holds_append.mp stored.holds).1, stored.inside, ?_, ?_⟩
      · change s.pos - 1 = front.length
        rw [edits.pos, List.concat_eq_append, List.length_append]
        rfl
      · exact fun zero => stored.clean (List.mem_append_left _ zero)
      · exact fun member => stored.noBackspace (List.mem_append_left _ member)
  · rw [if_neg isBackspace, if_neg isBackspace]
    by_cases isCtrlL : key = ctrlL
    · rw [if_pos isCtrlL, if_pos isCtrlL]
      exact ⟨_, rfl, stored.store room 0⟩
    · rw [if_neg isCtrlL, if_neg isCtrlL]
      by_cases isCtrlU : key = ctrlU
      · rw [if_pos isCtrlU, if_pos isCtrlU]
        exact ⟨_, rfl, eraseLoop_edits rfl stored.inside here⟩
      · rw [if_neg isCtrlU, if_neg isCtrlU]
        refine ⟨_, rfl, ?_, ?_, stored.inside, ?_, ?_⟩
        · change s.pos + 1 = _
          rw [edits.pos, List.length_append]
          rfl
        · exact edits.holds.snoc (by rw [edits.pos, Nat.zero_add])
        · rw [List.mem_append, not_or, List.mem_singleton]
          exact ⟨edits.clean, nonzero.symm⟩
        · rw [List.mem_append, not_or, List.mem_singleton]
          exact ⟨edits.noBackspace, Ne.symm isBackspace⟩

/-- The end of the line is terminated. -/
theorem readKey_enter (edits : Edits count line s) (room : line.length < count)
    (isEnter : IsEnter key) :
    ∃ s', readKey count s key = (s', .entered) ∧ (∀ i ∈ s'.stores, i < count) ∧
      s'.buf.StringAt 0 line := by
  have stored := edits.store room key
  have here : (s.store s.pos key).pos < count := by rwa [stored.pos]
  have ended := stored.store room 0
  unfold readKey
  simp only [if_pos here, if_pos isEnter]
  refine ⟨_, rfl, ended.inside, .of_parts ended.holds ?_ ended.clean⟩
  change Function.update _ _ 0 _ = 0
  rw [stored.pos, Nat.zero_add, Function.update_self]

/-- A key is stored behind a full buffer. -/
theorem readKey_full (edits : Edits count line s) (full : count ≤ line.length) (key : Byte) :
    ∃ s', readKey count s key = (s', .full) ∧ s.pos ∈ s'.stores := by
  have behind : ¬ (s.store s.pos key).pos < count := by
    change ¬ s.pos < count
    rw [edits.pos]
    omega
  unfold readKey
  simp only [if_neg behind]
  exact ⟨_, rfl, List.mem_append_right _ (List.mem_singleton_self _)⟩

/-! ## A run -/

/-- If there is room, `readline` is the editor. -/
theorem readline_edits (edits : Edits count line s) (nonzero : 0 ∉ keys)
    (room : HasRoom count line keys) :
    (∀ i ∈ (readline count keys s).1.stores, i < count) ∧
      ((readline count keys s).2 ≠ .more →
        (readline count keys s).1.buf.StringAt 0 (editLine line keys) ∧
          (editLine line keys).length < count) := by
  induction keys generalizing s line with
  | nil => exact ⟨edits.inside, fun ended => absurd rfl ended⟩
  | cons key keys ih =>
      rw [List.mem_cons, not_or] at nonzero
      obtain ⟨here, later⟩ := room
      rw [readline, editLine]
      by_cases isEnter : IsEnter key
      · obtain ⟨s', ran, inside, string⟩ := readKey_enter edits here isEnter
        rw [ran, if_pos isEnter]
        exact ⟨inside, fun _ => ⟨string, here⟩⟩
      · obtain ⟨s', ran, edits'⟩ := readKey_edits edits here (Ne.symm nonzero.1) isEnter
        rw [ran, if_neg isEnter]
        exact ih edits' nonzero.2 (later.resolve_left isEnter)

/-- If there is none, a key is written outside. -/
theorem readline_outside (edits : Edits count line s) (nonzero : 0 ∉ keys)
    (not : ¬ HasRoom count line keys) : ∃ i ∈ (readline count keys s).1.stores, count ≤ i := by
  induction keys generalizing s line with
  | nil => exact absurd trivial not
  | cons key keys ih =>
      rw [List.mem_cons, not_or] at nonzero
      rw [HasRoom, not_and, not_or] at not
      rw [readline]
      by_cases room : line.length < count
      · obtain ⟨isEnter, later⟩ := not room
        obtain ⟨s', ran, edits'⟩ := readKey_edits edits room (Ne.symm nonzero.1) isEnter
        rw [ran]
        exact ih edits' nonzero.2 later
      · have full := Nat.le_of_not_lt room
        obtain ⟨s', ran, outside⟩ := readKey_full edits full key
        rw [ran]
        exact ⟨s.pos, outside, edits.pos ▸ full⟩

/-! ## The main result -/

theorem edits_start (buf : Memory) : Edits count [] ⟨buf, 0, []⟩ where
  pos := rfl
  holds := Memory.holds_nil
  inside := fun _ member => absurd member List.not_mem_nil
  clean := List.not_mem_nil
  noBackspace := List.not_mem_nil

/-- A line that fills the buffer is written outside of it by the next key. -/
theorem not_correct_of_full (nonzero : 0 ∉ keys) (not : ¬ HasRoom count [] keys) :
    ¬ ReadLineCorrect count keys := by
  intro correct
  obtain ⟨i, member, outside⟩ := readline_outside (edits_start Memory.zeros) nonzero not
  exact absurd ((correct Memory.zeros).1 i member) (Nat.not_lt.mpr outside)

/-- **Reading a line.** For any keys, `readline` stays within its buffer and leaves the edited line
there when it returns exactly if each key, up to the end of the line, is read while the line has
fewer characters than the buffer. -/
theorem readline_edits_iff (nonzero : 0 ∉ keys) :
    ReadLineCorrect count keys ↔ HasRoom count [] keys := by
  constructor
  · intro correct
    by_contra not
    exact not_correct_of_full nonzero not correct
  · intro room buf
    obtain ⟨inside, ended⟩ := readline_edits (edits_start buf) nonzero room
    refine ⟨inside, fun returns => ?_⟩
    obtain ⟨string, short⟩ := ended returns
    rw [List.take_of_length_le (by omega)]
    exact string

end

/-- `ax`, a backspace, `b` and Enter fit into four bytes. -/
theorem readline_edits_small : ReadLineCorrect 4 [0x61, 0x78, backspace, 0x62, 0x0a] := by
  refine (readline_edits_iff (by decide)).mpr ?_
  simp [HasRoom, editKey, backspace, ctrlL, ctrlU, IsEnter]

/-- Enter behind four letters is written behind a buffer of four bytes. -/
theorem readline_full : ¬ ReadLineCorrect 4 [0x61, 0x62, 0x63, 0x64, 0x0a] := by
  refine not_correct_of_full (by decide) ?_
  simp [HasRoom, editKey, backspace, ctrlL, ctrlU, IsEnter]

end UKernel.Shell
