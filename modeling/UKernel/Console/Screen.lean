import UKernel.Library.Bytes
import UKernel.Library.Call
import UKernel.Library.Transition

/-! # The screen

`print_char` reads the cursor from the registers of the screen's controller, writes to the video
memory, and sets the cursor; behind the last cell the rows move up. In every run of calls from a
cursor on the screen, the cursor stays there, all writes lie in the screen, and the rows move up as
they should, if and only if no backspace is printed at the first cell
(`UKernel.Screen.print_char_stays_iff`).
-/

namespace UKernel.Screen

open UKernel.Library

/-! ## The machine -/

/-- The controller's registers with the index of the one that is accessed, the video memory, and the
places in it that were written. -/
structure Video where
  index : Byte
  crtc : Byte → Byte
  memory : Memory
  writes : List Nat

/-- A part of a routine. -/
abbrev VideoCall (α : Type) := Call Video α

/-- `out 0x3d4, al`. -/
def outIndex (al : Byte) : VideoCall Unit := modify fun s => { s with index := al }

/-- `out 0x3d5, al`. -/
def outData (al : Byte) : VideoCall Unit :=
  modify fun s => { s with crtc := Function.update s.crtc s.index al }

/-- `in al, 0x3d5`. -/
def inData : VideoCall Byte := do
  let s ← get
  return s.crtc s.index

/-- A byte is written to the video memory. -/
def Video.write (s : Video) (off : Nat) (value : Byte) : Video :=
  { s with memory := Function.update s.memory off value, writes := s.writes ++ [off] }

/-- The size of the segment of the video memory, from the limit of its descriptor. -/
def segmentSize : Nat := 0x8000

/-- `mov byte [gs:off], value`; a store behind the limit of the segment is an exception. -/
def storeByte (off : Nat) (value : Byte) : VideoCall Unit :=
  if off < segmentSize then modify fun s => s.write off value else throw .outOfBounds

/-! ## The routine -/

/-- Read the cursor. -/
def getCursor : VideoCall (BitVec 16) := do
  outIndex 0x0e
  let ah ← inData
  outIndex 0x0f
  let al ← inData
  return ah ++ al

/-- `.set_cursor`. -/
def setCursor (bx : BitVec 16) : VideoCall Unit := do
  outIndex 0x0e
  outData (bx.extractLsb' 8 8)
  outIndex 0x0f
  outData (bx.extractLsb' 0 8)

/-- `movsd`: four bytes are read, and then written. -/
def movsd (esi edi : Nat) (s : Video) : Video :=
  (((s.write edi (s.memory esi)).write (edi + 1) (s.memory (esi + 1))).write (edi + 2)
    (s.memory (esi + 2))).write (edi + 3) (s.memory (esi + 3))

/-- `rep movsd`, with addresses from the start of the video memory on. -/
def repMovsd : Nat → Nat → Nat → VideoCall Unit
  | 0, _, _ => return ()
  | ecx + 1, esi, edi => do
      modify (movsd esi edi)
      repMovsd ecx (esi + 4) (edi + 4)

/-- `.cls`: the loop that fills cells with spaces. -/
def cls : Nat → Nat → VideoCall Unit
  | 0, _ => return ()
  | ecx + 1, ebx => do
      storeByte ebx 0x20
      storeByte (ebx + 1) 0x07
      cls ecx (ebx + 2)

/-- `.roll_screen`. -/
def rollScreen : VideoCall Unit := do
  repMovsd 960 0xa0 0
  cls 80 3840
  setCursor 1920

/-- `.is_line_feed` and `.is_carriage_return`. -/
def lineFeed (bx : BitVec 16) : VideoCall Unit := do
  let bx := bx - bx % 80
  let bx := bx + 80
  if bx.slt 2000 then setCursor bx else rollScreen

/-- `.is_backspace`. -/
def backspace (bx : BitVec 16) : VideoCall Unit := do
  let bx := bx - 1
  let bx := bx <<< 1
  storeByte bx.toNat 0x20
  let bx := bx + 1
  storeByte bx.toNat 0x07
  setCursor (bx >>> 1)

/-- `.print_other`. -/
def printOther (bx : BitVec 16) (cl : Byte) : VideoCall Unit := do
  let bx := bx <<< 1
  storeByte bx.toNat cl
  let bx := bx + 1
  storeByte bx.toNat 0x07
  let bx := bx >>> 1
  let bx := bx + 1
  if bx.slt 2000 then setCursor bx else lineFeed bx

/-- `print_char`. -/
def printChar (cl : Byte) : VideoCall Unit := do
  let bx ← getCursor
  if cl = 0x0d then lineFeed bx
  else if cl = 0x0a then lineFeed bx
  else if cl = 0x08 then backspace bx
  else printOther bx cl

/-! ## What it should do -/

/-- The cursor in the registers. -/
def Video.cursor (s : Video) : BitVec 16 := s.crtc 0x0e ++ s.crtc 0x0f

/-- The characters that begin a new row. -/
def NewRow (c : Byte) : Prop := c = 0x0d ∨ c = 0x0a

instance (c : Byte) : Decidable (NewRow c) := inferInstanceAs (Decidable (_ ∨ _))

/-- The place for the cursor behind a character, before the rows move up. -/
def placeBehind (cursor : Nat) (c : Byte) : Nat :=
  if NewRow c then (cursor / 80 + 1) * 80 else if c = 0x08 then cursor - 1 else cursor + 1

/-- The video memory with the character, before the rows move up. -/
def written (memory : Memory) (cursor : Nat) (c : Byte) : Memory :=
  if NewRow c then memory
  else Function.update (Function.update memory (2 * cursor) c) (2 * cursor + 1) 0x07

/-- The screen shows the rows of a memory from the second one on, and a blank row. -/
def Rolled (before after : Memory) : Prop :=
  (∀ off < 3840, after off = before (off + 160)) ∧
    ∀ cell < 80, after (3840 + 2 * cell) = 0x20 ∧ after (3840 + 2 * cell + 1) = 0x07

/-- What a call should do: it returns with the cursor on the screen, it writes there only, and if
the cursor passes the last cell then the rows move up. -/
structure Shows (s : Video) (c : Byte) (s' : Video) : Prop where
  cursor : s'.cursor.toNat < 2000
  writes : ∀ off ∈ s'.writes, off ∈ s.writes ∨ off < 4000
  rolled : 2000 ≤ placeBehind s.cursor.toNat c →
    Rolled (written s.memory s.cursor.toNat c) s'.memory

/-! ## Runs -/

/-- Calls of `print_char` one after the other; an exception ends the run. -/
def printing : TransitionSystem (Option Video) Byte where
  initial state := ∃ s, state = some s ∧ s.cursor.toNat < 2000
  step state c next := ∃ s, state = some s ∧
    next = ((printChar c).run s).toOption.map Prod.snd

/-- A step is a call that returned and did what it should. -/
def StepShows (state : Option Video) (c : Byte) (next : Option Video) : Prop :=
  ∀ s, state = some s → ∃ s', next = some s' ∧ Shows s c s'

/-- No backspace is printed at the first cell. -/
def NotBackAtFirst (state : Option Video) (c : Byte) : Prop :=
  ∀ s, state = some s → ¬ (c = 0x08 ∧ s.cursor = 0)

/-! ## The parts of the routine -/

section

variable {s s' : Video} {bx : BitVec 16} {c value : Byte} {off esi edi n : Nat}

/-- The cursor in the registers is set. -/
def Video.withCursor (s : Video) (bx : BitVec 16) : Video :=
  { s with
    index := 0x0f
    crtc := Function.update (Function.update s.crtc 0x0e (bx.extractLsb' 8 8)) 0x0f
      (bx.extractLsb' 0 8) }

@[simp] theorem withCursor_cursor : (s.withCursor bx).cursor = bx := by
  have high : (s.withCursor bx).crtc 0x0e = bx.extractLsb' 8 8 := by
    unfold Video.withCursor
    dsimp only
    rw [Function.update_of_ne (by decide), Function.update_self]
  have low : (s.withCursor bx).crtc 0x0f = bx.extractLsb' 0 8 := by
    unfold Video.withCursor
    dsimp only
    rw [Function.update_self]
  rw [Video.cursor, high, low, BitVec.extractLsb'_append_extractLsb'_eq_extractLsb' (by simp)]
  simp

@[simp] theorem withCursor_memory : (s.withCursor bx).memory = s.memory := rfl

theorem setCursor_run : (setCursor bx).run s = .ok ((), s.withCursor bx) := rfl

theorem getCursor_run : getCursor.run s = .ok (s.cursor, { s with index := 0x0f }) := rfl

theorem storeByte_run (inside : off < segmentSize) :
    (storeByte off value).run s = .ok ((), s.write off value) := by
  rw [storeByte, if_pos inside]
  rfl

theorem storeByte_stops (outside : segmentSize ≤ off) :
    (storeByte off value).run s = .error .outOfBounds := by
  rw [storeByte, if_neg (Nat.not_lt.mpr outside)]
  rfl

/-- What a part of the routine writes. -/
def WritesBelow (bound : Nat) (s s' : Video) : Prop :=
  ∀ off ∈ s'.writes, off ∈ s.writes ∨ off < bound

theorem WritesBelow.trans {bound bound' : Nat} {s'' : Video} (first : WritesBelow bound s s')
    (second : WritesBelow bound' s' s'') (more : bound ≤ bound') : WritesBelow bound' s s'' := by
  intro off member
  rcases second off member with before | below
  · exact (first off before).imp_right fun below => Nat.lt_of_lt_of_le below more
  · exact .inr below

theorem writesBelow_write (below : off < n) : WritesBelow n s (s.write off value) := by
  intro off' member
  rcases List.mem_append.mp member with before | last
  · exact .inl before
  · rw [List.mem_singleton.mp last]
    exact .inr below

theorem movsd_memory : (movsd esi edi s).memory off =
    if edi ≤ off ∧ off < edi + 4 then s.memory (esi + (off - edi)) else s.memory off := by
  change Function.update (Function.update (Function.update (Function.update s.memory edi _)
    (edi + 1) _) (edi + 2) _) (edi + 3) _ off = _
  by_cases inside : edi ≤ off ∧ off < edi + 4
  · rw [if_pos inside]
    obtain ⟨k, rfl⟩ := Nat.exists_eq_add_of_le inside.1
    have small : k < 4 := by omega
    rw [Nat.add_sub_cancel_left]
    interval_cases k <;> simp
  · rw [if_neg inside, Function.update_of_ne (by omega), Function.update_of_ne (by omega),
      Function.update_of_ne (by omega), Function.update_of_ne (by omega)]

theorem writesBelow_movsd : WritesBelow (edi + 4) s (movsd esi edi s) := by
  have one (s : Video) {k : Nat} (small : k < 4) (value : Byte) :
      WritesBelow (edi + 4) s (s.write (edi + k) value) :=
    writesBelow_write (Nat.add_lt_add_left small edi)
  have first := (one s (by decide : 0 < 4) (s.memory esi)).trans
    (one _ (by decide : 1 < 4) (s.memory (esi + 1))) (Nat.le_refl _)
  have second := first.trans (one _ (by decide : 2 < 4) (s.memory (esi + 2))) (Nat.le_refl _)
  exact second.trans (one _ (by decide : 3 < 4) (s.memory (esi + 3))) (Nat.le_refl _)

/-- Bytes are moved to a place in front of them. -/
theorem repMovsd_run (ecx : Nat) : ∃ s',
    (repMovsd ecx (edi + n) edi).run s = .ok ((), s') ∧ WritesBelow (edi + 4 * ecx) s s' ∧
      ∀ off, s'.memory off =
        if edi ≤ off ∧ off < edi + 4 * ecx then s.memory (off + n) else s.memory off := by
  induction ecx generalizing edi s with
  | zero =>
      refine ⟨s, rfl, fun off member => .inl member, fun off => ?_⟩
      rw [if_neg (by omega)]
  | succ ecx ih =>
      obtain ⟨s', ran, below, moved⟩ := @ih (movsd (edi + n) edi s) (edi + 4)
      have next : edi + 4 + n = edi + n + 4 := by omega
      rw [next] at ran
      refine ⟨s', ran, ?_, fun off => ?_⟩
      · have more : edi + 4 * (ecx + 1) = edi + 4 + 4 * ecx := by omega
        rw [more]
        exact writesBelow_movsd.trans below (Nat.le_add_right _ _)
      · rw [moved, movsd_memory, movsd_memory]
        by_cases here : edi ≤ off ∧ off < edi + 4
        · rw [if_neg (by omega), if_pos here, if_pos (by omega)]
          congr 1
          omega
        · by_cases later : edi + 4 ≤ off ∧ off < edi + 4 + 4 * ecx
          · rw [if_pos later, if_neg (by omega), if_pos (by omega)]
          · rw [if_neg later, if_neg here, if_neg (by omega)]

/-- Cells are filled with spaces. -/
theorem cls_run (ecx : Nat) {ebx : Nat} (inside : ebx + 2 * ecx ≤ segmentSize) : ∃ s',
    (cls ecx ebx).run s = .ok ((), s') ∧ WritesBelow (ebx + 2 * ecx) s s' ∧
      (∀ off < ebx, s'.memory off = s.memory off) ∧
      ∀ cell < ecx, s'.memory (ebx + 2 * cell) = 0x20 ∧ s'.memory (ebx + 2 * cell + 1) = 0x07 := by
  induction ecx generalizing ebx s with
  | zero =>
      exact ⟨s, rfl, fun off member => .inl member, fun _ _ => rfl,
        fun _ wrong => absurd wrong (Nat.not_lt_zero _)⟩
  | succ ecx ih =>
      have second : ((s.write ebx 0x20).write (ebx + 1) 0x07).memory =
          Function.update (Function.update s.memory ebx 0x20) (ebx + 1) 0x07 := rfl
      obtain ⟨s', ran, below, same, blank⟩ :=
        @ih ((s.write ebx 0x20).write (ebx + 1) 0x07) (ebx + 2)
        (by omega)
      have more : ebx + 2 * (ecx + 1) = ebx + 2 + 2 * ecx := by omega
      refine ⟨s', ?_, ?_, fun off before => ?_, fun cell small => ?_⟩
      · rw [cls, call_bind_of (storeByte_run (by omega)),
          call_bind_of (storeByte_run (by omega)), ran]
      · rw [more]
        have first : WritesBelow (ebx + 2) s (s.write ebx 0x20) := writesBelow_write (by omega)
        have second : WritesBelow (ebx + 2) (s.write ebx 0x20)
            ((s.write ebx 0x20).write (ebx + 1) 0x07) := writesBelow_write (by omega)
        exact (first.trans second (Nat.le_refl _)).trans below (Nat.le_add_right _ _)
      · rw [same off (by omega), second, Function.update_of_ne (by omega),
          Function.update_of_ne (by omega)]
      · cases cell with
        | zero =>
            rw [Nat.mul_zero, Nat.add_zero, same ebx (by omega), same (ebx + 1) (by omega), second,
              Function.update_self, Function.update_of_ne (by omega), Function.update_self]
            exact ⟨rfl, rfl⟩
        | succ cell =>
            have here := blank cell (by omega)
            have place : ebx + 2 + 2 * cell = ebx + 2 * (cell + 1) := by omega
            rwa [place] at here

/-- The rows move up, and the cursor goes to the last one. -/
theorem rollScreen_run : ∃ s', rollScreen.run s = .ok ((), s') ∧ s'.cursor = 1920 ∧
    WritesBelow 4000 s s' ∧ Rolled s.memory s'.memory := by
  obtain ⟨s₁, moves, below₁, moved⟩ := @repMovsd_run s 0 160 960
  obtain ⟨s₂, clears, below₂, same, blank⟩ := @cls_run s₁ 80 3840 (by decide)
  refine ⟨s₂.withCursor 1920, ?_, withCursor_cursor, ?_, fun off small => ?_, blank⟩
  · rw [rollScreen, call_bind_of moves, call_bind_of clears, setCursor_run]
  · exact below₁.trans below₂ (by decide)
  · rw [withCursor_memory, same off small, moved off, if_pos (by omega)]

/-- A comparison of small numbers does not see the sign. -/
theorem slt_iff (small : bx.toNat < 32768) : bx.slt 2000 = true ↔ bx.toNat < 2000 := by
  rw [BitVec.slt_iff_toInt_lt, BitVec.toInt_eq_toNat_of_lt (by omega)]
  have right : (2000 : BitVec 16).toInt = 2000 := by decide
  rw [right]
  omega

/-- A new row: the cursor goes to its start, or the rows move up. -/
theorem lineFeed_run (small : bx.toNat ≤ 2000) : ∃ s', (lineFeed bx).run s = .ok ((), s') ∧
    s'.cursor.toNat < 2000 ∧ WritesBelow 4000 s s' ∧
      (2000 ≤ (bx.toNat / 80 + 1) * 80 → Rolled s.memory s'.memory) := by
  have place : (bx - bx % 80 + 80).toNat = (bx.toNat / 80 + 1) * 80 := by
    have rest : (bx % 80).toNat = bx.toNat % 80 := by
      rw [BitVec.toNat_umod]
      rfl
    have less : (bx - bx % 80).toNat = bx.toNat - bx.toNat % 80 := by
      rw [BitVec.toNat_sub_of_le (by rw [BitVec.le_def, rest]; exact Nat.mod_le _ _), rest]
    rw [BitVec.toNat_add, less]
    have eighty : (80 : BitVec 16).toNat = 80 := rfl
    rw [eighty]
    omega
  unfold lineFeed
  dsimp only
  by_cases fits : (bx.toNat / 80 + 1) * 80 < 2000
  · rw [if_pos ((slt_iff (by omega)).mpr (place ▸ fits))]
    refine ⟨_, setCursor_run, ?_, fun off member => .inl member, fun wrong => by omega⟩
    rw [withCursor_cursor, place]
    exact fits
  · have notLess : ¬ (bx - bx % 80 + 80).slt 2000 = true := by
      rw [slt_iff (by omega), place]
      exact fits
    rw [if_neg notLess]
    obtain ⟨s', ran, cursor, below, rolled⟩ := @rollScreen_run s
    refine ⟨s', ran, ?_, below, fun _ => rolled⟩
    rw [cursor]
    decide

theorem toNat_next (small : bx.toNat < 65535) : (bx + 1).toNat = bx.toNat + 1 := by
  have one : (1 : BitVec 16).toNat = 1 := rfl
  rw [BitVec.toNat_add, one]
  omega

/-- The place of a cell in the video memory. -/
theorem toNat_cell (small : bx.toNat < 2000) :
    (bx <<< 1).toNat = 2 * bx.toNat ∧ (bx <<< 1 + 1).toNat = 2 * bx.toNat + 1 ∧
      ((bx <<< 1 + 1) >>> 1).toNat = bx.toNat := by
  have double : (bx <<< 1).toNat = 2 * bx.toNat := by
    rw [BitVec.toNat_shiftLeft, Nat.shiftLeft_eq]
    omega
  have color : (bx <<< 1 + 1).toNat = 2 * bx.toNat + 1 := by
    rw [toNat_next (by omega), double]
  refine ⟨double, color, ?_⟩
  rw [BitVec.toNat_ushiftRight, color, Nat.shiftRight_eq_div_pow]
  omega

/-- A cell is written. -/
theorem writeCell_run (small : bx.toNat < 2000) (next : BitVec 16 → VideoCall Unit) :
    (do
      storeByte (bx <<< 1).toNat value
      storeByte (bx <<< 1 + 1).toNat 0x07
      next ((bx <<< 1 + 1) >>> 1)).run s =
      (next bx).run ((s.write (2 * bx.toNat) value).write (2 * bx.toNat + 1) 0x07) := by
  obtain ⟨char, color, back⟩ := toNat_cell small
  have same : (bx <<< 1 + 1) >>> 1 = bx := BitVec.eq_of_toNat_eq back
  have inside : 2 * bx.toNat + 1 < segmentSize := by
    unfold segmentSize
    omega
  rw [char, color, same, call_bind_of (storeByte_run (Nat.lt_of_succ_lt inside)),
    call_bind_of (storeByte_run inside)]

theorem writesBelow_cell (small : bx.toNat < 2000) :
    WritesBelow 4000 s ((s.write (2 * bx.toNat) value).write (2 * bx.toNat + 1) 0x07) := by
  have first : WritesBelow 4000 s (s.write (2 * bx.toNat) value) := writesBelow_write (by omega)
  exact first.trans (writesBelow_write (by omega)) (Nat.le_refl _)

/-- A character is written, and the cursor goes to the next cell; behind the last one there is a new
row. -/
theorem printOther_run (small : bx.toNat < 2000) : ∃ s', (printOther bx c).run s = .ok ((), s') ∧
    s'.cursor.toNat < 2000 ∧ WritesBelow 4000 s s' ∧ (2000 ≤ bx.toNat + 1 →
      Rolled (Function.update (Function.update s.memory (2 * bx.toNat) c) (2 * bx.toNat + 1) 0x07)
        s'.memory) := by
  have next : (bx + 1).toNat = bx.toNat + 1 := toNat_next (by omega)
  have cell : WritesBelow 4000 s ((s.write (2 * bx.toNat) c).write (2 * bx.toNat + 1) 0x07) :=
    writesBelow_cell small
  have ran : (printOther bx c).run s =
      (if (bx + 1).slt 2000 then setCursor (bx + 1) else lineFeed (bx + 1)).run
        ((s.write (2 * bx.toNat) c).write (2 * bx.toNat + 1) 0x07) :=
    writeCell_run small fun bx =>
      if (bx + 1).slt 2000 then setCursor (bx + 1) else lineFeed (bx + 1)
  by_cases fits : bx.toNat + 1 < 2000
  · rw [if_pos ((slt_iff (by omega)).mpr (next ▸ fits)), setCursor_run] at ran
    refine ⟨_, ran, ?_, cell, fun wrong => by omega⟩
    rw [withCursor_cursor, next]
    exact fits
  · have notLess : ¬ (bx + 1).slt 2000 = true := by
      rw [slt_iff (by omega), next]
      exact fits
    rw [if_neg notLess] at ran
    obtain ⟨s', fed, cursor, below, rolled⟩ := @lineFeed_run
      ((s.write (2 * bx.toNat) c).write (2 * bx.toNat + 1) 0x07) (bx + 1) (by omega)
    refine ⟨s', ran.trans fed, cursor, cell.trans below (Nat.le_refl _), fun _ => rolled ?_⟩
    rw [next]
    omega

/-- A backspace behind the first cell clears the cell before the cursor. -/
theorem backspace_run (small : bx.toNat < 2000) (behind : bx ≠ 0) : ∃ s',
    (backspace bx).run s = .ok ((), s') ∧ s'.cursor.toNat < 2000 ∧ WritesBelow 4000 s s' := by
  have positive : bx.toNat ≠ 0 := fun zero => behind (BitVec.eq_of_toNat_eq zero)
  have before : (bx - 1).toNat = bx.toNat - 1 := by
    rw [BitVec.toNat_sub_of_le]
    · rfl
    · rw [BitVec.le_def]
      have one : (1 : BitVec 16).toNat = 1 := rfl
      omega
  have ran : (backspace bx).run s = (setCursor (bx - 1)).run
      ((s.write (2 * (bx - 1).toNat) 0x20).write (2 * (bx - 1).toNat + 1) 0x07) :=
    writeCell_run (by omega) setCursor
  rw [setCursor_run] at ran
  refine ⟨_, ran, ?_, writesBelow_cell (by omega)⟩
  rw [withCursor_cursor, before]
  omega

/-- A backspace at the first cell stores behind the segment. -/
theorem backspace_stops : (backspace 0).run s = .error .outOfBounds := by
  have place : (((0 : BitVec 16) - 1) <<< 1).toNat = 0xfffe := by decide
  rw [backspace]
  dsimp only
  rw [place]
  exact call_bind_error.mpr (.inl (storeByte_stops (by decide)))

/-- A call does what it should, if and only if it is not for a backspace at the first cell. -/
theorem printChar_shows_iff (small : s.cursor.toNat < 2000) :
    (∃ s', (printChar c).run s = .ok ((), s') ∧ Shows s c s') ↔ ¬ (c = 0x08 ∧ s.cursor = 0) := by
  have read : (printChar c).run s = (if c = 0x0d then lineFeed s.cursor
      else if c = 0x0a then lineFeed s.cursor
      else if c = 0x08 then backspace s.cursor
      else printOther s.cursor c).run { s with index := 0x0f } := by
    rw [printChar, call_bind_of getCursor_run]
  by_cases newRow : NewRow c
  · have notBack : c ≠ 0x08 := by
      rintro rfl
      exact absurd newRow (by decide)
    obtain ⟨s', ran, cursor, below, rolled⟩ := @lineFeed_run { s with index := 0x0f } s.cursor
      (Nat.le_of_lt small)
    refine iff_of_true ⟨s', ?_, cursor, below, fun passes => ?_⟩ fun back => notBack back.1
    · rw [read]
      rcases newRow with rfl | rfl
      · exact ran
      · exact ran
    · rw [placeBehind, if_pos newRow] at passes
      rw [written, if_pos newRow]
      exact rolled passes
  · obtain ⟨notReturn, notFeed⟩ := not_or.mp newRow
    rw [if_neg notReturn, if_neg notFeed] at read
    by_cases back : c = 0x08
    · rw [if_pos back] at read
      by_cases first : s.cursor = 0
      · rw [first, backspace_stops] at read
        refine iff_of_false ?_ fun notBack => notBack ⟨back, first⟩
        rintro ⟨s', ran, -⟩
        cases read.symm.trans ran
      · obtain ⟨s', ran, cursor, below⟩ :=
          @backspace_run { s with index := 0x0f } s.cursor small first
        refine iff_of_true ⟨s', read.trans ran, cursor, below, fun passes => ?_⟩ fun both =>
          first both.2
        rw [placeBehind, if_neg newRow, if_pos back] at passes
        omega
    · rw [if_neg back] at read
      obtain ⟨s', ran, cursor, below, rolled⟩ :=
        @printOther_run { s with index := 0x0f } s.cursor c small
      refine iff_of_true ⟨s', read.trans ran, cursor, below, fun passes => ?_⟩ fun both =>
        back both.1
      rw [placeBehind, if_neg newRow, if_neg back] at passes
      rw [written, if_neg newRow]
      exact rolled passes

/-! ## The main result -/

/-- Up to the first backspace at the first cell, the calls return with the cursor on the screen. -/
theorem onScreen_of_reachable {state : Option Video}
    (reachable : (printing.under NotBackAtFirst).Reachable state) :
    ∃ s, state = some s ∧ s.cursor.toNat < 2000 := by
  apply reachable.invariant fun state => ∃ s, state = some s ∧ s.cursor.toNat < 2000
  · exact fun _ start => start
  · rintro _ c next - ⟨s, rfl, small⟩ ⟨admits, s', same, rfl⟩
    cases same
    obtain ⟨s', ran, shows_⟩ := (printChar_shows_iff small).mpr (admits s rfl)
    exact ⟨s', by rw [ran]; rfl, shows_.cursor⟩

/-- **The screen.** From every cursor on the screen, in every sequence of calls of `print_char`,
each call returns with the cursor on the screen, has written there only, and has moved up the rows
if the cursor passed the last cell, if and only if none of them is for a backspace at the first
cell. -/
theorem print_char_stays_iff (small : s.cursor.toNat < 2000) (chars : List Byte) :
    printing.Always (some s) chars StepShows ↔
      printing.Always (some s) chars fun state c _ => NotBackAtFirst state c := by
  have start : printing.initial (some s) := ⟨s, rfl, small⟩
  refine TransitionSystem.always_iff start (fun state c next reached stepped => ?_) chars
  obtain ⟨s, rfl, small⟩ := onScreen_of_reachable reached
  obtain ⟨s', same, rfl⟩ := stepped
  cases same
  have one : StepShows (some s) c (((printChar c).run s).toOption.map Prod.snd) ↔
      ∃ s', (printChar c).run s = .ok ((), s') ∧ Shows s c s' := by
    constructor
    · intro step
      obtain ⟨s', next, shows_⟩ := step s rfl
      obtain ⟨⟨⟨⟩, after⟩, ran, rfl⟩ := Option.map_eq_some_iff.mp next
      exact ⟨after, returned_of_toOption ran, shows_⟩
    · rintro ⟨s', ran, shows_⟩ _ same
      cases same
      exact ⟨s', by rw [ran]; rfl, shows_⟩
  rw [one, printChar_shows_iff small]
  constructor
  · intro notBack _ same
    cases same
    exact notBack
  · intro admits
    exact admits s rfl

/-- The cursor at the last cell of a screen. -/
def lastCell : Video :=
  ⟨0, fun index => if index = 0x0e then 0x07 else if index = 0x0f then 0xcf else 0,
    fun i => BitVec.ofNat 8 i, []⟩

/-- A character there passes the last cell, and so does the new row behind it: the rows move up
twice. -/
theorem print_char_stays_two : printing.Always (some lastCell) [0x61, 0x0a] StepShows := by
  have admits : printing.Always (some lastCell) [0x61, 0x0a] fun state c _ =>
      NotBackAtFirst state c := by
    intro before c behind state next parts _ _ s _ back
    have member : c ∈ ([0x61, 0x0a] : List Byte) := by
      rw [parts]
      simp
    rw [back.1] at member
    exact absurd member (by decide)
  exact (print_char_stays_iff (by decide) [0x61, 0x0a]).mpr admits

/-- The cursor at the first cell of an empty screen. -/
def topLeft : Video := ⟨0, fun _ => 0, Memory.zeros, []⟩

/-- A backspace there. -/
theorem print_char_leaves : ¬ ∀ s : Video, s.cursor.toNat < 2000 → ∀ chars,
    printing.Always (some s) chars StepShows := by
  intro stays
  have small : topLeft.cursor.toNat < 2000 := by decide
  have first : topLeft.cursor = 0 := by decide
  obtain ⟨s', next, shows_⟩ := stays topLeft small [0x08] [] 0x08 [] (some topLeft) _ rfl .nil
    ⟨topLeft, rfl, rfl⟩ topLeft rfl
  obtain ⟨⟨⟨⟩, after⟩, ran, rfl⟩ := Option.map_eq_some_iff.mp next
  exact (printChar_shows_iff small).mp ⟨after, returned_of_toOption ran, shows_⟩ ⟨rfl, first⟩

end

end UKernel.Screen
