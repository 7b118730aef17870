import UKernel.Pipe.Transfer

/-! # The keyboard

The handler of the keyboard's interrupt gets the scan codes byte by byte, and keeps one flag for the
two shift keys, one for the two ctrl keys and one for the two alt keys. A flag is cleared when
either key of its pair is released. In every run in which no key of a pair is released while the
other one is held, the flags tell after each interrupt whether a key of the pair is held, and each
press of a key with a character appends the character that the held keys demand; other runs lose a
held key (`UKernel.Keyboard.keyboard_tracks_iff`).
-/

namespace UKernel.Keyboard

open UKernel.Library UKernel.WakeUp

/-! ## The driver -/

/-- A scan code, together with its prefix. -/
abbrev Scancode := BitVec 16

/-- `shift_l_make`. -/
def shiftLMake : Scancode := 0x2a

/-- `shift_r_make`. -/
def shiftRMake : Scancode := 0x36

/-- `alt_l_make`. -/
def altLMake : Scancode := 0x38

/-- `alt_r_make`. -/
def altRMake : Scancode := 0xe038

/-- `ctrl_l_make`. -/
def ctrlLMake : Scancode := 0x1d

/-- `ctrl_r_make`. -/
def ctrlRMake : Scancode := 0xe01d

/-- `caps_lock_make`. -/
def capsLockMake : Scancode := 0x3a

/-- `char_invisible`, and the characters of the keys that are defined as that. -/
def invisible : Char := Char.ofNat 0

/-- `esc`. -/
def esc : Char := Char.ofNat 0x1b

/-- `backspace`. -/
def backspace : Char := Char.ofNat 0x08

/-- `tab`. -/
def tab : Char := Char.ofNat 0x09

/-- `enter`. -/
def enter : Char := Char.ofNat 0x0d

/-- The single quote. -/
def quote : Char := Char.ofNat 0x27

/-- The double quote. -/
def doubleQuote : Char := Char.ofNat 0x22

/-- The backquote. -/
def backquote : Char := Char.ofNat 0x60

/-- The backslash. -/
def backslash : Char := Char.ofNat 0x5c

/-- `keymap`. -/
def keymap : List (Char × Char) :=
  [(invisible, invisible), (esc, esc), ('1', '!'), ('2', '@'), ('3', '#'), ('4', '$'), ('5', '%'),
    ('6', '^'), ('7', '&'), ('8', '*'), ('9', '('), ('0', ')'), ('-', '_'), ('=', '+'),
    (backspace, backspace), (tab, tab),
    -- 0x10
    ('q', 'Q'), ('w', 'W'), ('e', 'E'), ('r', 'R'), ('t', 'T'), ('y', 'Y'), ('u', 'U'), ('i', 'I'),
    ('o', 'O'), ('p', 'P'), ('[', '{'), (']', '}'), (enter, enter), (invisible, invisible),
    ('a', 'A'), ('s', 'S'),
    -- 0x20
    ('d', 'D'), ('f', 'F'), ('g', 'G'), ('h', 'H'), ('j', 'J'), ('k', 'K'), ('l', 'L'), (';', ':'),
    (quote, doubleQuote), (backquote, '~'), (invisible, invisible), (backslash, '|'), ('z', 'Z'),
    ('x', 'X'), ('c', 'C'), ('v', 'V'),
    -- 0x30
    ('b', 'B'), ('n', 'N'), ('m', 'M'), (',', '<'), ('.', '>'), ('/', '?'), (invisible, invisible),
    ('*', '*'), (invisible, invisible), (' ', ' '), (invisible, invisible)]

/-- A character in a byte. -/
def charByte (c : Char) : Byte := BitVec.ofNat 8 c.toNat

/-- `keymap[index][shift]`. -/
def keyChar (index : Nat) (shift : Bool) : Byte :=
  let row := keymap.getD index (invisible, invisible)
  charByte (if shift then row.2 else row.1)

/-- The static variables of `keyboard.c`. -/
structure KeyStatus where
  ctrlStatus : Bool
  shiftStatus : Bool
  altStatus : Bool
  capsLockStatus : Bool
  extScancode : Bool
  deriving DecidableEq, Repr

/-- What the handler reads and writes: its variables, `kbd_buf`, and what it has printed. -/
structure Console (Tid : Type) where
  keyboard : KeyStatus
  kbdBuf : IoQueue Tid
  screen : List String

/-- A call of the driver. -/
abbrev ConsoleCall (Tid : Type) (α : Type) := Call (Console Tid) α

variable {Tid : Type} [DecidableEq Tid]

/-- Set the variables. -/
def setKeyboard (k : KeyStatus) : ConsoleCall Tid Unit :=
  modify fun s => { s with keyboard := k }

/-- `print_str`. -/
def printStr (message : String) : ConsoleCall Tid Unit :=
  modify fun s => { s with screen := s.screen ++ [message] }

instance (s : IoQueue Tid) : Decidable s.ioqFull :=
  inferInstanceAs (Decidable (nextPos s.head = s.tail))

/-- Put a character into `kbd_buf`, if that is not full. -/
def putKey (curChar : Byte) : ConsoleCall Tid Unit := do
  if ¬ (← get).kbdBuf.ioqFull then
    onPart Console.kbdBuf (fun s kbdBuf => { s with kbdBuf := kbdBuf }) (putByte curChar)

/-- The local variable `shift` for a key. -/
def shiftColumn (scancode : Scancode) (shiftDownLast capsLockLast : Bool) : Bool :=
  if scancode < 0x0e ∨ scancode = 0x29 ∨ scancode = 0x1a ∨ scancode = 0x1b ∨ scancode = 0x2b ∨
      scancode = 0x27 ∨ scancode = 0x28 ∨ scancode = 0x33 ∨ scancode = 0x34 ∨ scancode = 0x35 then
    shiftDownLast
  else if shiftDownLast ∧ capsLockLast then false
  else if shiftDownLast ∨ capsLockLast then true
  else false

/-- The chains of comparisons for the keys that have a flag; that for a released key ends before
caps lock. -/
def setStatus (code : Scancode) (down : Bool) (k : KeyStatus) : KeyStatus :=
  if code = ctrlLMake ∨ code = ctrlRMake then { k with ctrlStatus := down }
  else if code = shiftLMake ∨ code = shiftRMake then { k with shiftStatus := down }
  else if code = altLMake ∨ code = altRMake then { k with altStatus := down }
  else if down ∧ code = capsLockMake then { k with capsLockStatus := !k.capsLockStatus }
  else k

/-- The codes of keys that were pressed which the handler knows. -/
def knownCode (scancode : Scancode) : Bool :=
  decide ((0 < scancode ∧ scancode < 0x3b) ∨ scancode = altRMake ∨ scancode = ctrlRMake)

/-- The part of `intr_keyboard_handler` for a key that was pressed. -/
def handleMake (k : KeyStatus) (scancode : Scancode) : ConsoleCall Tid Unit := do
  let shift := shiftColumn scancode k.shiftStatus k.capsLockStatus
  let scancode := scancode &&& 0x00ff
  let curChar := keyChar scancode.toNat shift
  if curChar ≠ 0 then
    putKey (if k.ctrlStatus ∧ (curChar = charByte 'l' ∨ curChar = charByte 'u') then
      curChar - charByte 'a' else curChar)
  else
    setKeyboard (setStatus scancode true k)

/-- The part of `intr_keyboard_handler` behind the tests for the prefix. -/
def handleCode (k : KeyStatus) (scancode : Scancode) : ConsoleCall Tid Unit :=
  if scancode &&& 0x0080 ≠ 0 then setKeyboard (setStatus (scancode &&& 0xff7f) false k)
  else if knownCode scancode then handleMake k scancode
  else printStr "unknown key\n"

/-- `intr_keyboard_handler`, with the byte that it reads from the port. -/
def intrKeyboardHandler (input : Byte) : ConsoleCall Tid Unit := do
  let k := (← get).keyboard
  let scancode : Scancode := input.setWidth 16
  if scancode = 0xe0 then
    setKeyboard { k with extScancode := true }
  else do
    let scancode := if k.extScancode then 0xe000 ||| scancode else scancode
    let k := { k with extScancode := false }
    setKeyboard k
    handleCode k scancode

/-! ## The keys -/

/-- A key, with its code; the codes of some keys have a prefix. -/
structure Key where
  ext : Bool
  code : Byte
  isCode : 0 < code.toNat ∧ code.toNat < 0x60
  deriving DecidableEq

/-- A key was pressed, or released. -/
structure KeyEvent where
  key : Key
  down : Bool
  deriving DecidableEq

/-- The last byte that a key sends. -/
def KeyEvent.code (e : KeyEvent) : Byte := if e.down then e.key.code else e.key.code ||| 0x80

/-- The event whose prefix is sent in front of the last byte, if there is one. -/
def KeyEvent.leading (e : KeyEvent) : Option KeyEvent := if e.key.ext then some e else none

/-- The keys in pairs. -/
inductive Modifier where
  | shift
  | ctrl
  | alt
  deriving DecidableEq, Repr

/-- The left key of a pair. -/
def Modifier.left : Modifier → Key
  | .shift => ⟨false, 0x2a, by decide⟩
  | .ctrl => ⟨false, 0x1d, by decide⟩
  | .alt => ⟨false, 0x38, by decide⟩

/-- The right key of a pair. -/
def Modifier.right : Modifier → Key
  | .shift => ⟨false, 0x36, by decide⟩
  | .ctrl => ⟨true, 0x1d, by decide⟩
  | .alt => ⟨true, 0x38, by decide⟩

/-- The caps-lock key. -/
def capsLockKey : Key := ⟨false, 0x3a, by decide⟩

/-- The flag of a pair. -/
def KeyStatus.status (k : KeyStatus) : Modifier → Bool
  | .shift => k.shiftStatus
  | .ctrl => k.ctrlStatus
  | .alt => k.altStatus

/-- The keys that are held, and the caps-lock toggle. -/
structure Board where
  held : Key → Bool
  capsLock : Bool

/-- A key of a pair is held. -/
def Board.holds (b : Board) (m : Modifier) : Bool := b.held m.left || b.held m.right

/-- A key was pressed or released. -/
def Board.after (b : Board) (e : KeyEvent) : Board where
  held := Function.update b.held e.key e.down
  capsLock := if e.down ∧ e.key = capsLockKey then !b.capsLock else b.capsLock

/-- The character that a row of the keymap has for the held keys: caps lock is for letters. -/
def demanded (b : Board) (code : Byte) : Byte :=
  let plain := keyChar code.toNat false
  let isLetter := decide (charByte 'a' ≤ plain ∧ plain ≤ charByte 'z')
  keyChar code.toNat (if isLetter then b.holds .shift ^^ b.capsLock else b.holds .shift)

/-- The keys that have a character. -/
def Key.HasChar (k : Key) : Prop := k.ext = false ∧ keyChar k.code.toNat false ≠ 0

/-! ## Runs -/

/-- The driver beside the keyboard, with the event whose prefix was sent; a key is pressed or
released with the last byte that it sends. -/
structure Desk (Tid : Type) where
  console : Console Tid
  board : Board
  coming : Option KeyEvent

/-- What can happen next. -/
inductive Action (Tid : Type) where
  /-- The interrupt for the prefix of a code. -/
  | lead (e : KeyEvent)
  /-- The interrupt for the last byte of a code. -/
  | code (e : KeyEvent)
  /-- A thread calls `ioq_getchar`. -/
  | read (t : Tid)
  /-- A thread that was unblocked goes on. -/
  | resume (t : Tid)

/-- A thread takes a step at `kbd_buf`. -/
def Desk.thread (d : Desk Tid) (op : QueueOp Tid) : Option (Desk Tid) :=
  (queueExec d.console.kbdBuf op).map fun kbdBuf =>
    { d with console := { d.console with kbdBuf := kbdBuf } }

/-- Take one step. -/
def deskExec (d : Desk Tid) : Action Tid → Option (Desk Tid)
  | .lead e =>
      if d.coming = none ∧ e.key.ext then
        ((intrKeyboardHandler 0xe0).run d.console).toOption.map fun result =>
          { d with console := result.2, coming := some e }
      else
        none
  | .code e =>
      if d.coming = e.leading then
        ((intrKeyboardHandler e.code).run d.console).toOption.map fun result =>
          { console := result.2, board := d.board.after e, coming := none }
      else
        none
  | .read t => d.thread (.start t .getchar)
  | .resume t => d.thread (.resume t)

/-- After `keyboard_init`, with no key held. -/
def Desk.init (buf : Nat → Byte) (screen : List String) : Desk Tid where
  console := ⟨⟨false, false, false, false, false⟩, ioqueueInit buf, screen⟩
  board := ⟨fun _ => false, false⟩
  coming := none

/-- The keyboard, its driver and the threads that read from `kbd_buf`. -/
def keyboardDesk (Tid : Type) [DecidableEq Tid] : TransitionSystem (Desk Tid) (Action Tid) where
  initial d := ∃ buf screen, d = Desk.init buf screen
  step d a next := deskExec d a = some next

/-- What a step should do: the flags tell what is held, and a key with a character appends the one
that the held keys demand, if no ctrl key is held and `kbd_buf` is not full. -/
structure Tracks (d : Desk Tid) (a : Action Tid) (next : Desk Tid) : Prop where
  status : ∀ m, next.console.keyboard.status m = next.board.holds m
  typed : ∀ e, a = .code e → e.down = true → e.key.HasChar → d.board.holds .ctrl = false →
    ¬ d.console.kbdBuf.ioqFull →
      next.console.kbdBuf.ring.contents bufsize =
        d.console.kbdBuf.ring.contents bufsize ++ [demanded d.board e.key.code]

/-- A key of a pair is released only while the other one is not held. -/
def ReleasedAlone (d : Desk Tid) (a : Action Tid) : Prop :=
  ∀ e, a = .code e → e.down = false → ∀ m : Modifier,
    (e.key = m.left → d.board.held m.right = false) ∧
      (e.key = m.right → d.board.held m.left = false)

/-! ## Codes -/

section

variable {k : Key} {e : KeyEvent} {m : Modifier} {s s' : Console Tid} {d next : Desk Tid}
  {flags : KeyStatus} {code : Scancode} {down : Bool}

/-- The code of a key together with its prefix. -/
def withPrefix (ext : Bool) (code : Byte) : Scancode :=
  if ext then 0xe000 ||| code.setWidth 16 else code.setWidth 16

/-- The make code of a key. -/
def Key.makeCode (k : Key) : Scancode := withPrefix k.ext k.code

/-- All keys with and without a prefix satisfy a condition. -/
def allCodes (P : Bool → Byte → Prop) [∀ ext code, Decidable (P ext code)] : Bool :=
  (List.range 0x60).all fun n =>
    n = 0 || decide (P false (BitVec.ofNat 8 n)) && decide (P true (BitVec.ofNat 8 n))

theorem forall_codes {P : Bool → Byte → Prop} [∀ ext code, Decidable (P ext code)]
    (each : allCodes P = true) (k : Key) : P k.ext k.code := by
  have here := List.all_eq_true.mp each k.code.toNat (List.mem_range.mpr k.isCode.2)
  have nonzero := Nat.ne_of_gt k.isCode.1
  rw [BitVec.ofNat_toNat, BitVec.setWidth_eq] at here
  simp only [nonzero, decide_false, Bool.false_or, Bool.and_eq_true, decide_eq_true_eq] at here
  cases k.ext with
  | false => exact here.1
  | true => exact here.2

/-- No code of a key is the prefix. -/
theorem code_not_lead (e : KeyEvent) : e.code.setWidth 16 ≠ (0xe0 : Scancode) := by
  have codes := forall_codes (P := fun _ code => code.setWidth 16 ≠ (0xe0 : Scancode) ∧
    (code ||| 0x80).setWidth 16 ≠ (0xe0 : Scancode)) (by decide +kernel) e.key
  unfold KeyEvent.code
  split
  case isTrue => exact codes.1
  case isFalse => exact codes.2

/-- One bit tells whether a key was pressed or released. -/
theorem make_bit (k : Key) : k.makeCode &&& 0x0080 = 0 :=
  forall_codes (P := fun ext code => withPrefix ext code &&& 0x0080 = 0) (by decide +kernel) k

theorem break_bit (k : Key) : withPrefix k.ext (k.code ||| 0x80) &&& 0x0080 ≠ 0 ∧
    withPrefix k.ext (k.code ||| 0x80) &&& 0xff7f = k.makeCode :=
  forall_codes (P := fun ext code => withPrefix ext (code ||| 0x80) &&& 0x0080 ≠ 0 ∧
    withPrefix ext (code ||| 0x80) &&& 0xff7f = withPrefix ext code) (by decide +kernel) k

theorem makeCode_injective : Function.Injective Key.makeCode := by
  intro k k' same
  have parts := forall_codes (P := fun ext code =>
    decide (0xe000 ≤ withPrefix ext code) = ext ∧ (withPrefix ext code).setWidth 8 = code)
    (by decide +kernel)
  have ext : k.ext = k'.ext := by
    rw [← (parts k).1, ← (parts k').1]
    exact congrArg (fun code => decide (0xe000 ≤ code)) same
  have code : k.code = k'.code := by
    rw [← (parts k).2, ← (parts k').2]
    exact congrArg (BitVec.setWidth 8) same
  cases k
  cases k'
  cases ext
  cases code
  rfl

/-- A key of a pair. -/
def Key.IsOf (k : Key) (m : Modifier) : Prop := k = m.left ∨ k = m.right

instance : Decidable (k.IsOf m) := inferInstanceAs (Decidable (_ ∨ _))

theorem Modifier.left_ne_right (m : Modifier) : m.left ≠ m.right := by
  cases m <;> decide

/-- The pairs have no key in common, and the caps-lock key is in none. -/
theorem Key.IsOf.unique {m' : Modifier} (one : k.IsOf m) (other : k.IsOf m') : m = m' := by
  have apart : ∀ m m' : Modifier, m ≠ m' → m.left ≠ m'.left ∧ m.left ≠ m'.right ∧
      m.right ≠ m'.left ∧ m.right ≠ m'.right := by
    rintro (_ | _ | _) (_ | _ | _) different <;> first | contradiction | decide
  by_contra different
  obtain ⟨leftLeft, leftRight, rightLeft, rightRight⟩ := apart m m' different
  rcases one with rfl | rfl
  · exact other.elim leftLeft leftRight
  · exact other.elim rightLeft rightRight

theorem capsLock_not_isOf (m : Modifier) : ¬ capsLockKey.IsOf m := by
  cases m <;> decide

/-- The keys that have a flag are those of the chains of comparisons. -/
theorem setStatus_keys (k : Key) : setStatus k.makeCode down flags =
    if k.IsOf .ctrl then { flags with ctrlStatus := down }
    else if k.IsOf .shift then { flags with shiftStatus := down }
    else if k.IsOf .alt then { flags with altStatus := down }
    else if down ∧ k = capsLockKey then { flags with capsLockStatus := !flags.capsLockStatus }
    else flags := by
  have is (k' : Key) : k.makeCode = k'.makeCode ↔ k = k' := makeCode_injective.eq_iff
  unfold setStatus Key.IsOf
  simp only [← is]
  rfl

/-- A key of a pair sets the flag of the pair, and no other flag. -/
theorem setStatus_status (k : Key) (m : Modifier) : (setStatus k.makeCode down flags).status m =
    if k.IsOf m then down else flags.status m := by
  have other {m' : Modifier} (isOf : k.IsOf m') (apart : m' ≠ m) : ¬ k.IsOf m :=
    fun isOf' => apart (isOf.unique isOf')
  rw [setStatus_keys]
  by_cases ctrl : k.IsOf .ctrl
  · rw [if_pos ctrl]
    cases m with
    | ctrl => exact (if_pos ctrl).symm
    | shift => exact (if_neg (other ctrl (by decide))).symm
    | alt => exact (if_neg (other ctrl (by decide))).symm
  · rw [if_neg ctrl]
    by_cases shift : k.IsOf .shift
    · rw [if_pos shift]
      cases m with
      | ctrl => exact (if_neg ctrl).symm
      | shift => exact (if_pos shift).symm
      | alt => exact (if_neg (other shift (by decide))).symm
    · rw [if_neg shift]
      by_cases alt : k.IsOf .alt
      · rw [if_pos alt]
        cases m with
        | ctrl => exact (if_neg ctrl).symm
        | shift => exact (if_neg shift).symm
        | alt => exact (if_pos alt).symm
      · have none_ : ¬ k.IsOf m := by
          cases m with
          | ctrl => exact ctrl
          | shift => exact shift
          | alt => exact alt
        rw [if_neg alt, if_neg none_]
        split_ifs
        · cases m <;> rfl
        · rfl

theorem setStatus_capsLock (k : Key) : (setStatus k.makeCode down flags).capsLockStatus =
    if down ∧ k = capsLockKey then !flags.capsLockStatus else flags.capsLockStatus := by
  rw [setStatus_keys]
  by_cases isCaps : k = capsLockKey
  · rw [isCaps, if_neg (capsLock_not_isOf _), if_neg (capsLock_not_isOf _),
      if_neg (capsLock_not_isOf _)]
    split_ifs <;> rfl
  · have notCaps : ¬ (down = true ∧ k = capsLockKey) := fun both => isCaps both.2
    rw [if_neg notCaps, if_neg notCaps]
    split_ifs <;> rfl

@[simp] theorem setStatus_ext : (setStatus code down flags).extScancode = flags.extScancode := by
  unfold setStatus
  split_ifs <;> rfl

/-- The codes of the keys that have a flag. -/
def flagCodes : List Scancode :=
  [ctrlLMake, ctrlRMake, shiftLMake, shiftRMake, altLMake, altRMake, capsLockMake]

theorem setStatus_other (other : code ∉ flagCodes) : setStatus code down flags = flags := by
  unfold flagCodes at other
  simp only [List.mem_cons, List.not_mem_nil, or_false, not_or] at other
  obtain ⟨ctrlL, ctrlR, shiftL, shiftR, altL, altR, caps⟩ := other
  rw [setStatus, if_neg (not_or.mpr ⟨ctrlL, ctrlR⟩), if_neg (not_or.mpr ⟨shiftL, shiftR⟩),
    if_neg (not_or.mpr ⟨altL, altR⟩), if_neg fun both => caps both.2]

/-- Of the keys that the handler knows, those with a prefix are the right keys of two pairs; those
that have a character have no flag. -/
theorem known_facts (k : Key) (known : knownCode k.makeCode = true) :
    (k.makeCode &&& 0x00ff = k.makeCode ∨ k.makeCode = altRMake ∨ k.makeCode = ctrlRMake) ∧
      ∀ shift, keyChar (k.makeCode &&& 0x00ff).toNat shift ≠ 0 → k.makeCode ∉ flagCodes :=
  forall_codes (P := fun ext code => knownCode (withPrefix ext code) = true →
    (withPrefix ext code &&& 0x00ff = withPrefix ext code ∨ withPrefix ext code = altRMake ∨
      withPrefix ext code = ctrlRMake) ∧
    ∀ shift, keyChar (withPrefix ext code &&& 0x00ff).toNat shift ≠ 0 →
      withPrefix ext code ∉ flagCodes) (by decide +kernel) k known

/-- The prefix of a key that the handler knows does not matter for its flag. -/
theorem setStatus_low (known : knownCode k.makeCode = true) :
    setStatus (k.makeCode &&& 0x00ff) down flags = setStatus k.makeCode down flags := by
  rcases (known_facts k known).1 with same | alt | ctrl
  · rw [same]
  · rw [alt]
    rfl
  · rw [ctrl]
    rfl

/-- Keys that the handler does not know have no flag. -/
theorem unknown_other (k : Key) (unknown : knownCode k.makeCode = false) :
    k.makeCode ∉ flagCodes :=
  forall_codes (P := fun ext code => knownCode (withPrefix ext code) = false →
    withPrefix ext code ∉ flagCodes) (by decide +kernel) k unknown

/-- The column of the keymap is the right one for each key that has a character. -/
theorem hasChar_facts (hasChar : k.HasChar) : knownCode k.makeCode = true ∧
    (k.makeCode &&& 0x00ff).toNat = k.code.toNat ∧
    ∀ shift caps, keyChar k.code.toNat shift ≠ 0 ∧
      keyChar k.code.toNat (shiftColumn k.makeCode shift caps) =
        keyChar k.code.toNat
          (if charByte 'a' ≤ keyChar k.code.toNat false ∧
            keyChar k.code.toNat false ≤ charByte 'z' then
            shift ^^ caps else shift) :=
  forall_codes (P := fun ext code => ext = false ∧ keyChar code.toNat false ≠ 0 →
    knownCode (withPrefix ext code) = true ∧
    (withPrefix ext code &&& 0x00ff).toNat = code.toNat ∧
    ∀ shift caps, keyChar code.toNat shift ≠ 0 ∧
      keyChar code.toNat (shiftColumn (withPrefix ext code) shift caps) =
        keyChar code.toNat
          (if charByte 'a' ≤ keyChar code.toNat false ∧ keyChar code.toNat false ≤ charByte 'z' then
            shift ^^ caps else shift)) (by decide +kernel) k hasChar

/-! ## The handler -/

/-- What the driver keeps apart from its flags. -/
structure Sound (s : Console Tid) : Prop where
  parked : Parked s.kbdBuf
  inside : s.kbdBuf.ring.Inside bufsize

omit [DecidableEq Tid] in
theorem Sound.setKeyboard (sound : Sound s) (flags : KeyStatus) :
    Sound { s with keyboard := flags } :=
  ⟨sound.parked, sound.inside⟩

/-- A character is put behind those in the buffer, if there is space. -/
theorem putKey_runs (sound : Sound s) (curChar : Byte) : ∃ s',
    (putKey curChar).run s = .ok ((), s') ∧ Sound s' ∧ s'.keyboard = s.keyboard ∧
      (¬ s.kbdBuf.ioqFull →
        s'.kbdBuf.ring.contents bufsize = s.kbdBuf.ring.contents bufsize ++ [curChar]) := by
  rw [putKey, call_bind_of (call_get_returns.mpr ⟨rfl, rfl⟩)]
  by_cases full : s.kbdBuf.ioqFull
  · rw [if_neg (not_not.mpr full)]
    exact ⟨s, rfl, sound, rfl, fun notFull => absurd full notFull⟩
  · rw [if_pos full]
    obtain ⟨kbdBuf, puts, parked, ring⟩ := putByte_runs sound.parked curChar
    refine ⟨_, onPart_returns.mpr ⟨kbdBuf, puts, rfl⟩, ⟨parked, ?_⟩, rfl, fun _ => ?_⟩
    · exact ring ▸ sound.inside.put
    · change kbdBuf.ring.contents bufsize = _
      rw [ring]
      exact sound.inside.contents_put full

/-- A key that was pressed has a character for the held keys, or a flag. -/
theorem handleMake_runs (sound : Sound s) (flags : KeyStatus) (scancode : Scancode) {curChar : Byte}
    (is : curChar = keyChar (scancode &&& 0x00ff).toNat
      (shiftColumn scancode flags.shiftStatus flags.capsLockStatus)) : ∃ s',
    (handleMake flags scancode).run { s with keyboard := flags } = .ok ((), s') ∧ Sound s' ∧
      (curChar = 0 → s'.keyboard = setStatus (scancode &&& 0x00ff) true flags) ∧
      (curChar ≠ 0 → s'.keyboard = flags ∧ (flags.ctrlStatus = false → ¬ s.kbdBuf.ioqFull →
        s'.kbdBuf.ring.contents bufsize = s.kbdBuf.ring.contents bufsize ++ [curChar])) := by
  unfold handleMake
  dsimp only
  rw [← is]
  have ready := sound.setKeyboard flags
  by_cases noChar : curChar = 0
  · rw [if_neg (not_not.mpr noChar)]
    exact ⟨_, rfl, sound.setKeyboard _, fun _ => rfl, fun hasChar => absurd noChar hasChar⟩
  · rw [if_pos noChar]
    obtain ⟨s', ran, sound', same, appends⟩ := putKey_runs ready
      (if flags.ctrlStatus ∧ (curChar = charByte 'l' ∨ curChar = charByte 'u') then
        curChar - charByte 'a' else curChar)
    refine ⟨s', ran, sound', fun nothing => absurd nothing noChar, fun _ => ⟨same, ?_⟩⟩
    intro noCtrl notFull
    rw [appends notFull, if_neg fun both => Bool.noConfusion (noCtrl.symm.trans both.1)]

/-- The handler returns, whatever byte it gets. -/
theorem handler_returns (sound : Sound s) (input : Byte) :
    ∃ s', (intrKeyboardHandler input).run s = .ok ((), s') ∧ Sound s' := by
  rw [intrKeyboardHandler, call_bind_of (call_get_returns.mpr ⟨rfl, rfl⟩)]
  dsimp only
  split
  case isTrue => exact ⟨_, rfl, sound.setKeyboard _⟩
  case isFalse =>
      generalize (if s.keyboard.extScancode then _ else _ : Scancode) = scancode
      have ready := sound.setKeyboard { s.keyboard with extScancode := false }
      rw [call_bind_of (show (setKeyboard _).run s = _ from rfl), handleCode]
      split
      case isTrue => exact ⟨_, rfl, sound.setKeyboard _⟩
      case isFalse =>
          split
          case isTrue =>
              obtain ⟨s', ran, sound', -⟩ := handleMake_runs sound _ scancode rfl
              exact ⟨s', ran, sound'⟩
          case isFalse => exact ⟨_, rfl, ⟨sound.parked, sound.inside⟩⟩

/-- The interrupt for the prefix. -/
theorem handler_lead : (intrKeyboardHandler 0xe0).run s =
    .ok ((), { s with keyboard := { s.keyboard with extScancode := true } }) := by
  rw [intrKeyboardHandler, call_bind_of (call_get_returns.mpr ⟨rfl, rfl⟩)]
  exact congrArg (fun call : ConsoleCall Tid Unit => call.run s) (if_pos (by decide))

/-- The interrupt for the last byte of a code sets the flag of the key, if it has one. -/
theorem handler_code (sound : Sound s) (ext : s.keyboard.extScancode = e.key.ext)
    (ran : (intrKeyboardHandler e.code).run s = .ok ((), s')) :
    s'.keyboard = setStatus e.key.makeCode e.down { s.keyboard with extScancode := false } ∧
      (e.down = true → e.key.HasChar → s.keyboard.ctrlStatus = false → ¬ s.kbdBuf.ioqFull →
        s'.kbdBuf.ring.contents bufsize = s.kbdBuf.ring.contents bufsize ++
          [keyChar e.key.code.toNat
            (shiftColumn e.key.makeCode s.keyboard.shiftStatus s.keyboard.capsLockStatus)]) := by
  rw [intrKeyboardHandler, call_bind_of (call_get_returns.mpr ⟨rfl, rfl⟩)] at ran
  dsimp only at ran
  rw [if_neg (code_not_lead e)] at ran
  have code : (if s.keyboard.extScancode then 0xe000 ||| e.code.setWidth 16
      else e.code.setWidth 16 : Scancode) = withPrefix e.key.ext e.code := by
    rw [ext, withPrefix]
  rw [code, call_bind_of (show (setKeyboard _).run s = _ from rfl), handleCode] at ran
  cases pressed : e.down with
  | false =>
      have isBreak : e.code = e.key.code ||| 0x80 := by
        rw [KeyEvent.code, pressed]
        rfl
      obtain ⟨bit, make⟩ := break_bit e.key
      rw [isBreak, if_pos bit, make] at ran
      cases call_modify_returns.mp ran
      exact ⟨rfl, Bool.noConfusion⟩
  | true =>
      have isMake : withPrefix e.key.ext e.code = e.key.makeCode := by
        rw [KeyEvent.code, pressed]
        rfl
      rw [isMake, if_neg (not_not.mpr (make_bit e.key))] at ran
      by_cases known : knownCode e.key.makeCode = true
      · rw [if_pos known] at ran
        obtain ⟨s'', ran', -, flag, typed⟩ := handleMake_runs sound
          { s.keyboard with extScancode := false } e.key.makeCode rfl
        cases ran.symm.trans ran'
        refine ⟨?_, fun _ hasChar noCtrl notFull => ?_⟩
        · by_cases noChar : keyChar (e.key.makeCode &&& 0x00ff).toNat
              (shiftColumn e.key.makeCode s.keyboard.shiftStatus s.keyboard.capsLockStatus) = 0
          · exact (flag noChar).trans (setStatus_low known)
          · exact (typed noChar).1.trans
              (setStatus_other ((known_facts e.key known).2 _ noChar)).symm
        · obtain ⟨-, low, columns⟩ := hasChar_facts hasChar
          rw [low] at typed
          exact (typed (columns _ true).1).2 noCtrl notFull
      · rw [if_neg known] at ran
        cases call_modify_returns.mp ran
        have unknown := unknown_other e.key (Bool.eq_false_iff.mpr known)
        refine ⟨(setStatus_other unknown).symm, fun _ hasChar => ?_⟩
        exact absurd (hasChar_facts hasChar).1 known

/-! ## Steps -/

/-- What holds in every run: the driver knows whether a prefix was sent, and the toggle. -/
structure InStep (d : Desk Tid) : Prop where
  sound : Sound d.console
  ext : d.console.keyboard.extScancode = d.coming.isSome
  capsLock : d.console.keyboard.capsLockStatus = d.board.capsLock

omit [DecidableEq Tid] in
theorem inStep_init (buf : Nat → Byte) (screen : List String) :
    InStep (Desk.init buf screen : Desk Tid) where
  sound := by
    have some_ : 0 < bufsize := by decide
    exact ⟨parked_init buf, some_, some_⟩
  ext := rfl
  capsLock := rfl

/-- A step of a thread changes neither the flags nor the keys. -/
theorem thread_step {op : QueueOp Tid} (inStep : InStep d) (stepped : d.thread op = some next) :
    InStep next ∧ next.console.keyboard = d.console.keyboard ∧ next.board = d.board := by
  obtain ⟨kbdBuf, queued, rfl⟩ := Option.map_eq_some_iff.mp stepped
  have sound : Sound { d.console with kbdBuf := kbdBuf } :=
    ⟨queueExec_parked inStep.sound.parked queued, queueExec_inside inStep.sound.inside queued⟩
  exact ⟨⟨sound, inStep.ext, inStep.capsLock⟩, rfl, rfl⟩

/-- The prefix of a code changes neither the flags nor the keys. -/
theorem lead_step (inStep : InStep d) (stepped : deskExec d (.lead e) = some next) :
    InStep next ∧ (∀ m, next.console.keyboard.status m = d.console.keyboard.status m) ∧
      next.board = d.board := by
  rw [deskExec] at stepped
  split at stepped
  case isFalse => cases stepped
  case isTrue =>
      rw [handler_lead] at stepped
      cases stepped
      refine ⟨⟨inStep.sound.setKeyboard _, rfl, inStep.capsLock⟩, fun m => ?_, rfl⟩
      cases m <;> rfl

/-- The last byte of a code. -/
theorem code_step (inStep : InStep d) (stepped : deskExec d (.code e) = some next) :
    InStep next ∧ next.board = d.board.after e ∧
      (∀ m, next.console.keyboard.status m =
        if e.key.IsOf m then e.down else d.console.keyboard.status m) ∧
      (e.down = true → e.key.HasChar → d.console.keyboard.ctrlStatus = false →
        ¬ d.console.kbdBuf.ioqFull →
        next.console.kbdBuf.ring.contents bufsize = d.console.kbdBuf.ring.contents bufsize ++
          [keyChar e.key.code.toNat (shiftColumn e.key.makeCode
            d.console.keyboard.shiftStatus d.console.keyboard.capsLockStatus)]) := by
  rw [deskExec] at stepped
  split at stepped
  case isFalse => cases stepped
  case isTrue coming =>
      obtain ⟨⟨⟨⟩, console⟩, returned, rfl⟩ := Option.map_eq_some_iff.mp stepped
      have ran := returned_of_toOption returned
      have ext : d.console.keyboard.extScancode = e.key.ext := by
        rw [inStep.ext, coming, KeyEvent.leading]
        cases e.key.ext <;> rfl
      obtain ⟨console', ran', sound⟩ := handler_returns inStep.sound e.code
      cases ran.symm.trans ran'
      obtain ⟨flags, typed⟩ := handler_code inStep.sound ext ran
      refine ⟨⟨sound, ?_, ?_⟩, rfl, fun m => ?_, typed⟩
      · change console.keyboard.extScancode = false
        rw [flags, setStatus_ext]
      · change console.keyboard.capsLockStatus = (d.board.after e).capsLock
        rw [flags, setStatus_capsLock, Board.after, inStep.capsLock]
      · change console.keyboard.status m = _
        rw [flags, setStatus_status]
        refine if_congr Iff.rfl rfl ?_
        cases m <;> rfl

theorem InStep.of_reachable (reachable : (keyboardDesk Tid).Reachable d) : InStep d := by
  apply reachable.invariant InStep
  · rintro d ⟨buf, screen, rfl⟩
    exact inStep_init buf screen
  · intro d a next _ inStep stepped
    cases a with
    | lead e => exact (lead_step inStep stepped).1
    | code e => exact (code_step inStep stepped).1
    | read t => exact (thread_step inStep stepped).1
    | resume t => exact (thread_step inStep stepped).1

/-- The flags tell what is held. -/
def FlagsRight (d : Desk Tid) : Prop :=
  ∀ m, d.console.keyboard.status m = d.board.holds m

/-- Whether a key of a pair is held after a key was pressed or released. -/
theorem after_holds (b : Board) (e : KeyEvent) (m : Modifier) : (b.after e).holds m =
    if e.key = m.left then e.down || b.held m.right
    else if e.key = m.right then b.held m.left || e.down else b.holds m := by
  have apart := m.left_ne_right
  change (Function.update b.held e.key e.down m.left ||
    Function.update b.held e.key e.down m.right) = _
  by_cases left : e.key = m.left
  · rw [if_pos left, left, Function.update_self, Function.update_of_ne apart.symm]
  · rw [if_neg left, Function.update_of_ne (Ne.symm left)]
    by_cases right : e.key = m.right
    · rw [if_pos right, right, Function.update_self]
    · rw [if_neg right, Function.update_of_ne (Ne.symm right), Board.holds]

/-- After the last byte of a code the flags still tell what is held, if and only if the other key of
the pair is not held when a key is released. -/
theorem code_flags_iff (inStep : InStep d) (right : FlagsRight d)
    (stepped : deskExec d (.code e) = some next) :
    FlagsRight next ↔ ReleasedAlone d (.code e) := by
  obtain ⟨-, board, flags, -⟩ := code_step inStep stepped
  have pair (m : Modifier) : next.console.keyboard.status m = next.board.holds m ↔
      (e.down = false → (e.key = m.left → d.board.held m.right = false) ∧
        (e.key = m.right → d.board.held m.left = false)) := by
    have apart := m.left_ne_right
    rw [flags m, board, after_holds, right m]
    by_cases isLeft : e.key = m.left
    · have notRight : e.key ≠ m.right := fun same => apart (isLeft.symm.trans same)
      rw [if_pos (.inl isLeft), if_pos isLeft]
      cases e.down <;> simp [isLeft, apart]
    · by_cases isRight : e.key = m.right
      · rw [if_pos (.inr isRight), if_neg isLeft, if_pos isRight]
        cases e.down <;> simp [isRight, apart.symm]
      · have notPair : ¬ e.key.IsOf m := not_or.mpr ⟨isLeft, isRight⟩
        rw [if_neg notPair, if_neg isLeft, if_neg isRight]
        simp [isLeft, isRight]
  constructor
  · intro tells e' same up m
    cases same
    exact (pair m).mp (tells m) up
  · intro alone m
    exact (pair m).mpr fun up => alone e rfl up m

omit [DecidableEq Tid] in
/-- What the typed character should be. -/
theorem demanded_eq (inStep : InStep d) (right : FlagsRight d) (hasChar : k.HasChar) :
    keyChar k.code.toNat
      (shiftColumn k.makeCode d.console.keyboard.shiftStatus d.console.keyboard.capsLockStatus) =
      demanded d.board k.code := by
  have shift : d.console.keyboard.shiftStatus = d.board.holds .shift := right .shift
  rw [((hasChar_facts hasChar).2.2 _ _).2, shift, inStep.capsLock, demanded]
  simp

/-- A step does what it should, if and only if no key of a pair is released beside the other one. -/
theorem tracks_iff (inStep : InStep d) (right : FlagsRight d) {a : Action Tid}
    (stepped : deskExec d a = some next) : Tracks d a next ↔ ReleasedAlone d a := by
  have idle (same : ∀ m, next.console.keyboard.status m = d.console.keyboard.status m)
      (board : next.board = d.board) (other : ∀ e, a ≠ .code e) :
      Tracks d a next ↔ ReleasedAlone d a := by
    refine iff_of_true ⟨fun m => ?_, fun e is => absurd is (other e)⟩
      fun e is => absurd is (other e)
    rw [same m, board, right m]
  cases a with
  | lead e =>
      obtain ⟨-, same, board⟩ := lead_step inStep stepped
      exact idle same board fun _ is => by cases is
  | read t =>
      obtain ⟨-, same, board⟩ := thread_step inStep stepped
      exact idle (fun m => by rw [same]) board fun _ is => by cases is
  | resume t =>
      obtain ⟨-, same, board⟩ := thread_step inStep stepped
      exact idle (fun m => by rw [same]) board fun _ is => by cases is
  | code e =>
      rw [← code_flags_iff inStep right stepped]
      refine ⟨fun tracks => tracks.status, fun tells => ⟨tells, ?_⟩⟩
      intro e' is down hasChar noCtrl notFull
      cases is
      obtain ⟨-, -, -, typed⟩ := code_step inStep stepped
      have ctrl : d.console.keyboard.ctrlStatus = d.board.holds .ctrl := right .ctrl
      rw [typed down hasChar (ctrl.trans noCtrl) notFull, demanded_eq inStep right hasChar]

/-! ## The main result -/

/-- In a run up to which no key was released beside the other one of its pair, the flags are
right. -/
theorem flagsRight_of_reachable
    (reachable : ((keyboardDesk Tid).under ReleasedAlone).Reachable d) : FlagsRight d := by
  apply reachable.invariant FlagsRight
  · rintro d ⟨buf, screen, rfl⟩ m
    cases m <;> rfl
  · intro d a next reached right stepped
    have inStep := InStep.of_reachable reached.of_under
    exact ((tracks_iff inStep right stepped.2).mpr stepped.1).status

/-- **The keyboard.** In every run of presses and releases, of interrupts for their codes and of
threads that read, all steps leave the flags of shift, ctrl and alt as the keys are held, and append
the demanded character for each key that has one, if and only if no step releases one key of a pair
while the other is held. The handler returns in every run. -/
theorem keyboard_tracks_iff (buf : Nat → Byte) (screen : List String)
    (actions : List (Action Tid)) :
    ((keyboardDesk Tid).Always (Desk.init buf screen) actions Tracks ↔
      (keyboardDesk Tid).Always (Desk.init buf screen) actions fun d a _ => ReleasedAlone d a) ∧
    ∀ d, (keyboardDesk Tid).Reachable d → ∀ input, ∃ console,
      (intrKeyboardHandler input).run d.console = .ok ((), console) := by
  constructor
  · have start : (keyboardDesk Tid).initial (Desk.init buf screen) := ⟨buf, screen, rfl⟩
    refine TransitionSystem.always_iff start (fun d a next reached stepped => ?_) actions
    exact tracks_iff (InStep.of_reachable reached.of_under) (flagsRight_of_reachable reached)
      stepped
  · intro d reachable input
    obtain ⟨console, ran, -⟩ := handler_returns (InStep.of_reachable reachable).sound input
    exact ⟨console, ran⟩

/-- Both shift keys are pressed. -/
def bothShifts : List (Action Nat) :=
  [.code ⟨Modifier.shift.left, true⟩, .code ⟨Modifier.shift.right, true⟩]

/-- The right shift key is released; the flag then says that none is held. -/
def rightUp : Action Nat := .code ⟨Modifier.shift.right, false⟩

theorem keyboard_loses_shift : ¬ ∀ buf screen (actions : List (Action Nat)),
    (keyboardDesk Nat).Always (Desk.init buf screen) actions Tracks := by
  intro tracks
  have found : ((TransitionSystem.run deskExec (Desk.init (fun _ => 0) []) bothShifts).bind
      fun d => (deskExec d rightUp).map fun next =>
        (next.console.keyboard.status .shift, next.board.holds .shift)) = some (false, true) := by
    decide +kernel
  obtain ⟨d, ran, last⟩ := Option.bind_eq_some_iff.mp found
  obtain ⟨next, stepped, flags⟩ := Option.map_eq_some_iff.mp last
  have steps : (keyboardDesk Nat).Steps (Desk.init (fun _ => 0) []) bothShifts d :=
    TransitionSystem.Steps.run (fun _ _ _ stepped => stepped) .nil ran
  have tracked := tracks (fun _ => 0) [] (bothShifts ++ [rightUp]) bothShifts rightUp [] d next rfl
    steps stepped
  have shift := tracked.status .shift
  rw [(Prod.mk.inj flags).1, (Prod.mk.inj flags).2] at shift
  cases shift

end

end UKernel.Keyboard
