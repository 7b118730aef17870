import UKernel.Kernel.Strings
import UKernel.Library.Numerals

/-! # Formatted output

`vsprintf` goes through a format, and takes an argument from the stack for each directive; `itoa`
prints a number from its first digit on. What is written is the format with each directive replaced
by the text of its argument (`UKernel.Console.vsprintf_expands`).
-/

namespace UKernel.Console

open UKernel.Library

/-! ## The functions of the source -/

/-- The character for a digit. -/
def digitChar (m : Nat) : Byte :=
  if m < 10 then BitVec.ofNat 8 (m + 0x30) else BitVec.ofNat 8 (m - 10 + 0x41)

/-- `itoa`, at the place `bufPtr`: the object, and the place behind the last digit. -/
def itoa (base : Nat) : Nat → Memory → Nat → Nat → Except Fault (Memory × Nat)
  | 0, _, _, _ => throw .diverges
  | fuel + 1, buf, bufPtr, value => do
      let m := value % base
      let i := value / base
      let (buf, bufPtr) ← if i ≠ 0 then itoa base fuel buf bufPtr i else pure (buf, bufPtr)
      return (Function.update buf bufPtr (digitChar m), bufPtr + 1)

/-- `%`. -/
def percent : Byte := 0x25

/-- `-`. -/
def minus : Byte := 0x2d

/-- What `vsprintf` reads: the format, the arguments on the stack, and the object that a pointer
among them points to. -/
structure Input where
  format : Memory
  stack : Memory
  object : Word → Memory

/-- The loop of `vsprintf`; `limit` bounds the loops over strings. -/
def vsprintfLoop (input : Input) (limit : Nat) :
    Nat → Memory → Nat → Nat → Byte → Nat → Except Fault Memory
  | 0, _, _, _, _, _ => throw .diverges
  | fuel + 1, str, bufPtr, indexPtr, indexChar, ap =>
      if indexChar = 0 then
        return str
      else if indexChar ≠ percent then
        vsprintfLoop input limit fuel (Function.update str bufPtr indexChar) (bufPtr + 1)
          (indexPtr + 1) (input.format (indexPtr + 1)) ap
      else
        let indexPtr := indexPtr + 1
        let indexChar := input.format indexPtr
        let nextChar := input.format (indexPtr + 1)
        if indexChar = 0x73 then do
          let ap := ap + 4
          let argStr := getWord input.stack ap
          require (argStr ≠ 0)
          let str ← Strings.strcpy limit str bufPtr (input.object argStr)
          let length ← Strings.strlen limit (input.object argStr)
          vsprintfLoop input limit fuel str (bufPtr + length) (indexPtr + 1) nextChar ap
        else if indexChar = 0x63 then
          let ap := ap + 4
          vsprintfLoop input limit fuel (Function.update str bufPtr (input.stack ap)) (bufPtr + 1)
            (indexPtr + 1) nextChar ap
        else if indexChar = 0x64 then do
          let ap := ap + 4
          let argInt := getWord input.stack ap
          -- the sign is written, and the negation may wrap around
          let (str, bufPtr, argInt) :=
            if argInt.toInt < 0 then (Function.update str bufPtr minus, bufPtr + 1, 0 - argInt)
            else (str, bufPtr, argInt)
          let (str, bufPtr) ← itoa 10 limit str bufPtr argInt.toNat
          vsprintfLoop input limit fuel str bufPtr (indexPtr + 1) nextChar ap
        else if indexChar = 0x78 then do
          let ap := ap + 4
          let argInt := getWord input.stack ap
          let (str, bufPtr) ← itoa 16 limit str bufPtr argInt.toNat
          vsprintfLoop input limit fuel str bufPtr (indexPtr + 1) nextChar ap
        else
          -- no case of the switch: the character is looked at again
          vsprintfLoop input limit fuel str bufPtr indexPtr indexChar ap

/-- `vsprintf`, with the format and the arguments before `ap`: the buffer, and the number
returned. -/
def vsprintf (fuel : Nat) (str : Memory) (input : Input) (ap : Nat) :
    Except Fault (Memory × Nat) := do
  let str ← vsprintfLoop input fuel fuel str 0 0 (input.format 0) ap
  let length ← Strings.strlen fuel str
  return (str, length)

/-! ## What it is for -/

/-- A part of a format, with its argument. -/
inductive Item where
  /-- A character of the format. -/
  | lit (c : Byte)
  /-- `%s`, with a pointer and the string that it points to. -/
  | str (argStr : Word) (s : List Byte)
  /-- `%c`. -/
  | chr (c : Byte)
  /-- `%d`. -/
  | int (argInt : Word)
  /-- `%x`. -/
  | hex (argInt : Word)

/-- The characters of a number. -/
def numeralText (base value : Nat) : List Byte := (numeral base value).map digitChar

/-- The characters of a signed number. -/
def signedText (argInt : Word) : List Byte :=
  if argInt.toInt < 0 then minus :: numeralText 10 argInt.toInt.natAbs
  else numeralText 10 argInt.toInt.natAbs

namespace Item

/-- How a part is written in the format. -/
def directive : Item → List Byte
  | lit c => [c]
  | str _ _ => [percent, 0x73]
  | chr _ => [percent, 0x63]
  | int _ => [percent, 0x64]
  | hex _ => [percent, 0x78]

/-- What it is replaced by. -/
def text : Item → List Byte
  | lit c => [c]
  | str _ s => s
  | chr c => [c]
  | int argInt => signedText argInt
  | hex argInt => numeralText 16 argInt.toNat

/-- Characters of the format are ordinary, characters among the arguments are not zero, and pointers
point to strings. -/
def Proper (input : Input) : Item → Prop
  | lit c => c ≠ 0 ∧ c ≠ percent
  | str argStr s => argStr ≠ 0 ∧ (input.object argStr).StringAt 0 s
  | chr c => c ≠ 0
  | int _ => True
  | hex _ => True

/-- The argument behind a place of the stack. -/
def OnStack (stack : Memory) (ap : Nat) : Item → Prop
  | lit _ => True
  | str argStr _ => getWord stack (ap + 4) = argStr
  | chr c => stack (ap + 4) = c
  | int argInt => getWord stack (ap + 4) = argInt
  | hex argInt => getWord stack (ap + 4) = argInt

/-- How far the arguments go. -/
def size : Item → Nat
  | lit _ => 0
  | _ => 4

end Item

/-- The format of a list of parts. -/
def formatOf (items : List Item) : List Byte := items.flatMap Item.directive

/-- The reference expansion. -/
def expansion (items : List Item) : List Byte := items.flatMap Item.text

/-- The arguments lie behind each other on the stack. -/
def ArgsAt (stack : Memory) : Nat → List Item → Prop
  | _, [] => True
  | ap, item :: items => item.OnStack stack ap ∧ ArgsAt stack (ap + item.size) items

/-- The digit that a character stands for. -/
def digitValue (c : Byte) : Nat := if c.toNat < 0x41 then c.toNat - 0x30 else c.toNat - 0x41 + 10

/-- Read a number. -/
def readUnsigned (base : Nat) (text : List Byte) : Nat := ofNumeral base (text.map digitValue)

/-- Read a number with a sign. -/
def readSigned (text : List Byte) : Int :=
  if text.head? = some minus then -(readUnsigned 10 text.tail) else readUnsigned 10 text

/-! ## Numbers are read back -/

section

variable {base value m : Nat}

theorem digitValue_digitChar (small : m < 16) : digitValue (digitChar m) = m := by
  unfold digitValue digitChar
  by_cases decimal : m < 10
  · rw [if_pos decimal, BitVec.toNat_ofNat]
    rw [Nat.mod_eq_of_lt (by omega), if_pos (by omega)]
    omega
  · rw [if_neg decimal, BitVec.toNat_ofNat]
    rw [Nat.mod_eq_of_lt (by omega), if_neg (by omega)]
    omega

theorem digitChar_bounds (small : m < 16) : 0x30 ≤ (digitChar m).toNat := by
  unfold digitChar
  by_cases decimal : m < 10
  · rw [if_pos decimal, BitVec.toNat_ofNat, Nat.mod_eq_of_lt (by omega)]
    omega
  · rw [if_neg decimal, BitVec.toNat_ofNat, Nat.mod_eq_of_lt (by omega)]
    omega

/-- The characters of a number are digits. -/
theorem mem_numeralText (one : 1 < base) (low : base ≤ 16) {c : Byte}
    (member : c ∈ numeralText base value) : 0x30 ≤ c.toNat := by
  obtain ⟨m, isDigit, rfl⟩ := List.mem_map.mp member
  exact digitChar_bounds (lt_of_lt_of_le (lt_of_mem_numeral one isDigit) low)

theorem readUnsigned_numeralText (one : 1 < base) (low : base ≤ 16) :
    readUnsigned base (numeralText base value) = value := by
  have same : (numeralText base value).map digitValue = numeral base value := by
    rw [numeralText, List.map_map]
    refine (List.map_congr_left fun m member => ?_).trans (List.map_id _)
    exact digitValue_digitChar (lt_of_lt_of_le (lt_of_mem_numeral one member) low)
  rw [readUnsigned, same, ofNumeral_numeral]

theorem readSigned_signedText (argInt : Word) : readSigned (signedText argInt) = argInt.toInt := by
  unfold readSigned signedText
  by_cases negative : argInt.toInt < 0
  · rw [if_pos negative, List.head?_cons, if_pos rfl, List.tail_cons,
      readUnsigned_numeralText (by decide) (by decide)]
    omega
  · have unsigned : (numeralText 10 argInt.toInt.natAbs).head? ≠ some minus := by
      intro sign
      have := mem_numeralText (by decide) (by decide) (List.mem_of_head? sign)
      exact absurd this (by decide)
    rw [if_neg negative, if_neg unsigned, readUnsigned_numeralText (by decide) (by decide)]
    omega

end

/-! ## Parts of a format -/

/-- The buffer holds what was written so far, zero bytes up to its end, and behind it what was there
before. -/
structure Filled (old : Memory) (size : Nat) (str : Memory) (done : List Byte) : Prop where
  holds : str.Holds 0 done
  zeros : ∀ i, done.length ≤ i → i < size → str i = 0
  same : ∀ i, size ≤ i → str i = old i

section

variable {old str : Memory} {size fuel limit base value i ap : Nat} {done s rest : List Byte}
  {input : Input} {c : Byte} {item : Item} {items : List Item}

/-- A character is written. -/
theorem Filled.put (filled : Filled old size str done) (room : done.length < size) (c : Byte) :
    Filled old size (Function.update str done.length c) (done ++ [c]) where
  holds := filled.holds.snoc (Nat.zero_add _).symm
  zeros := by
    intro i low high
    rw [List.length_append, List.length_singleton] at low
    rw [Function.update_of_ne (by omega), filled.zeros i (by omega) high]
  same := by
    intro i high
    rw [Function.update_of_ne (by omega), filled.same i high]

/-- A string is copied. -/
theorem Filled.copy (filled : Filled old size str done) {src : Memory} (at_ : src.StringAt 0 s)
    (room : done.length + s.length < size) (enough : s.length < fuel) :
    ∃ str', Strings.strcpy fuel str done.length src = .ok str' ∧
      Filled old size str' (done ++ s) := by
  obtain ⟨str', ran, copied, outside⟩ :
      ∃ str', Strings.strcpy fuel str done.length src = .ok str' ∧ str'.StringAt done.length s ∧
        ∀ j, j < done.length ∨ done.length + s.length < j → str' j = str j :=
    Strings.strcpy_runs at_ enough
  refine ⟨str', ran, ?_, ?_, ?_⟩
  · refine Memory.holds_append.mpr ⟨filled.holds.congr fun i _ high =>
      outside i (.inl (by omega)), ?_⟩
    rw [Nat.zero_add]
    exact copied.holds
  · intro i low high
    rw [List.length_append] at low
    rcases Nat.eq_or_lt_of_le low with here | behind
    · rw [← here]
      exact copied.ends
    · rw [outside i (.inr behind), filled.zeros i (by omega) high]
  · intro i high
    rw [outside i (.inr (by omega)), filled.same i high]

/-- `itoa` writes the digits of a number. -/
theorem itoa_runs (one : 1 < base) (filled : Filled old size str done)
    (room : done.length + (numeralText base value).length ≤ size)
    (enough : (numeralText base value).length ≤ fuel) :
    ∃ str', itoa base fuel str done.length value =
        .ok (str', (done ++ numeralText base value).length) ∧
      Filled old size str' (done ++ numeralText base value) := by
  induction fuel generalizing value with
  | zero =>
      have nonempty : numeralText base value ≠ [] := fun empty =>
        numeral_ne_nil (List.map_eq_nil_iff.mp empty)
      exact absurd (List.length_pos_iff.mpr nonempty) (by omega)
  | succ fuel ih =>
      rw [itoa]
      by_cases small : value < base
      · have single : numeralText base value = [digitChar value] := by
          rw [numeralText, numeral_of_lt small, List.map_singleton]
        rw [single, List.length_singleton] at room
        rw [Nat.div_eq_of_lt small, Nat.mod_eq_of_lt small, single]
        refine ⟨_, ?_, filled.put (by omega) (digitChar value)⟩
        rw [if_neg (not_not.mpr rfl), List.length_append, List.length_singleton]
        rfl
      · have large := Nat.le_of_not_lt small
        have split : numeralText base value =
            numeralText base (value / base) ++ [digitChar (value % base)] := by
          rw [numeralText, numeral_of_le one large, List.map_append]
          rfl
        rw [split, List.length_append, List.length_singleton] at room enough
        obtain ⟨str', ran, before⟩ := @ih (value / base) (by omega) (by omega)
        have quotient : value / base ≠ 0 := (Nat.div_pos large (by omega)).ne'
        have last := before.put (by rw [List.length_append]; omega) (digitChar (value % base))
        rw [List.append_assoc, ← split] at last
        have length : (done ++ numeralText base value).length =
            (done ++ numeralText base (value / base)).length + 1 := by
          rw [split, List.length_append, List.length_append, List.length_append,
            List.length_singleton, Nat.add_assoc]
        refine ⟨_, ?_, last⟩
        rw [if_pos quotient, ran, length]
        rfl

/-- `%d` writes a number with its sign, also the least one. -/
theorem signed_runs {argInt : Word} (filled : Filled old size str done)
    (room : done.length + (signedText argInt).length ≤ size)
    (enough : (signedText argInt).length ≤ fuel) :
    let signed : Memory × Nat × Word :=
      if argInt.toInt < 0 then (Function.update str done.length minus, done.length + 1, 0 - argInt)
      else (str, done.length, argInt)
    ∃ str', itoa 10 fuel signed.1 signed.2.1 signed.2.2.toNat =
        .ok (str', (done ++ signedText argInt).length) ∧
      Filled old size str' (done ++ signedText argInt) := by
  unfold signedText at room enough ⊢
  by_cases negative : argInt.toInt < 0
  · have opposite : (0 - argInt).toNat = argInt.toInt.natAbs := by
      rw [BitVec.toInt_eq_toNat_cond] at negative ⊢
      rw [BitVec.toNat_sub]
      have := argInt.isLt
      split_ifs at negative ⊢ <;> simp <;> omega
    rw [if_pos negative, List.length_cons] at room enough
    have signed := filled.put (by omega) minus
    have length : (done ++ [minus]).length = done.length + 1 := by
      rw [List.length_append, List.length_singleton]
    simp only [if_pos negative, opposite]
    rw [List.append_cons, ← length]
    exact itoa_runs (by decide) signed (by omega) (by omega)
  · have same : argInt.toNat = argInt.toInt.natAbs := by
      rw [BitVec.toInt_eq_toNat_cond] at negative ⊢
      have := argInt.isLt
      split_ifs at negative ⊢ <;> omega
    rw [if_neg negative] at room enough
    simp only [if_neg negative, same]
    exact itoa_runs (by decide) filled room enough

theorem percent_ne_zero : percent ≠ 0 := by decide

/-- A round of the loop of `vsprintf`, which replaces a part of the format. -/
theorem vsprintfLoop_item (at_ : input.format.StringAt i (item.directive ++ rest))
    (proper : item.Proper input) (onStack : item.OnStack input.stack ap)
    (filled : Filled old size str done) (room : done.length + item.text.length < size)
    (enough : item.text.length < limit) :
    ∃ str', vsprintfLoop input limit (fuel + 1) str done.length i (input.format i) ap =
        vsprintfLoop input limit fuel str' (done ++ item.text).length (i + item.directive.length)
          (input.format (i + item.directive.length)) (ap + item.size) ∧
      Filled old size str' (done ++ item.text) := by
  cases item with
  | lit c =>
      obtain ⟨here, -, -⟩ := Memory.StringAt.cons_iff.mp at_
      refine ⟨_, ?_, filled.put (Nat.lt_of_succ_lt room) c⟩
      rw [here, vsprintfLoop, if_neg proper.1, if_pos proper.2]
      simp only [Item.text, Item.directive, Item.size, List.length_append, List.length_singleton,
        Nat.add_zero]
  | str argStr s =>
      obtain ⟨here, -, at_⟩ := Memory.StringAt.cons_iff.mp at_
      obtain ⟨letter, -, -⟩ := Memory.StringAt.cons_iff.mp at_
      obtain ⟨str', copied, after⟩ := filled.copy proper.2 room enough
      refine ⟨str', ?_, after⟩
      rw [here, vsprintfLoop, if_neg percent_ne_zero, if_neg (not_not.mpr rfl)]
      simp only [letter, if_true]
      rw [show getWord input.stack (ap + 4) = argStr from onStack, copied,
        Strings.strlen_runs proper.2 enough]
      simp only [bind, Except.bind, require_of proper.1, List.length_append]
      rfl
  | chr c =>
      obtain ⟨here, -, at_⟩ := Memory.StringAt.cons_iff.mp at_
      obtain ⟨letter, -, -⟩ := Memory.StringAt.cons_iff.mp at_
      refine ⟨_, ?_, filled.put (Nat.lt_of_succ_lt room) c⟩
      rw [here, vsprintfLoop, if_neg percent_ne_zero, if_neg (not_not.mpr rfl)]
      simp only [letter]
      rw [if_neg (by decide), if_pos trivial, show input.stack (ap + 4) = c from onStack,
        List.length_append]
      rfl
  | int argInt =>
      obtain ⟨here, -, at_⟩ := Memory.StringAt.cons_iff.mp at_
      obtain ⟨letter, -, -⟩ := Memory.StringAt.cons_iff.mp at_
      rw [here, vsprintfLoop, if_neg percent_ne_zero, if_neg (not_not.mpr rfl)]
      simp only [letter]
      rw [if_neg (by decide), if_neg (by decide), if_pos trivial,
        show getWord input.stack (ap + 4) = argInt from onStack]
      obtain ⟨str', ran, after⟩ := signed_runs filled (Nat.le_of_lt room) (Nat.le_of_lt enough)
      refine ⟨str', ?_, after⟩
      rw [ran]
      rfl
  | hex argInt =>
      obtain ⟨here, -, at_⟩ := Memory.StringAt.cons_iff.mp at_
      obtain ⟨letter, -, -⟩ := Memory.StringAt.cons_iff.mp at_
      obtain ⟨str', ran, after⟩ := itoa_runs (by decide) filled (Nat.le_of_lt room)
        (Nat.le_of_lt enough)
      refine ⟨str', ?_, after⟩
      rw [here, vsprintfLoop, if_neg percent_ne_zero, if_neg (not_not.mpr rfl)]
      simp only [letter]
      rw [if_neg (by decide), if_neg (by decide), if_neg (by decide), if_pos trivial,
        show getWord input.stack (ap + 4) = argInt from onStack, ran]
      rfl

/-- The loop of `vsprintf`. -/
theorem vsprintfLoop_runs (at_ : input.format.StringAt i (formatOf items))
    (proper : ∀ item ∈ items, item.Proper input) (args : ArgsAt input.stack ap items)
    (filled : Filled old size str done) (room : done.length + (expansion items).length < size)
    (enough : items.length < fuel) (enough' : (expansion items).length < limit) :
    ∃ str', vsprintfLoop input limit fuel str done.length i (input.format i) ap = .ok str' ∧
      Filled old size str' (done ++ expansion items) := by
  induction items generalizing str done i ap fuel with
  | nil =>
      obtain ⟨fuel, rfl⟩ := Nat.exists_eq_succ_of_ne_zero (Nat.ne_zero_of_lt enough)
      refine ⟨str, ?_, ?_⟩
      · rw [vsprintfLoop, if_pos (Memory.StringAt.nil_iff.mp at_)]
        rfl
      · rw [expansion, List.flatMap_nil, List.append_nil]
        exact filled
  | cons item items ih =>
      obtain ⟨fuel, rfl⟩ := Nat.exists_eq_succ_of_ne_zero (Nat.ne_zero_of_lt enough)
      rw [formatOf, List.flatMap_cons] at at_
      have text : expansion (item :: items) = item.text ++ expansion items := List.flatMap_cons ..
      rw [text, List.length_append] at room enough'
      obtain ⟨first, others⟩ := List.forall_mem_cons.mp proper
      have shorter : item.text.length < limit := by omega
      obtain ⟨str₁, round, before⟩ := vsprintfLoop_item at_ first args.1 filled (by omega) shorter
      obtain ⟨str', ran, after⟩ := ih at_.drop others args.2 before
        (by rw [List.length_append]; omega) (Nat.lt_of_succ_lt_succ enough) (by omega)
      rw [List.append_assoc, ← text] at after
      exact ⟨str', round.trans ran, after⟩

/-- No part is replaced by a text with a zero byte. -/
theorem Item.Proper.clean (proper : item.Proper input) : 0 ∉ item.text := by
  have digits : ∀ {base value : Nat}, 1 < base → base ≤ 16 → 0 ∉ numeralText base value :=
    fun one low zero => absurd (mem_numeralText one low zero) (by decide)
  cases item with
  | lit c => exact fun zero => proper.1 (List.mem_singleton.mp zero).symm
  | str argStr s => exact proper.2.clean
  | chr c => exact fun zero => proper (List.mem_singleton.mp zero).symm
  | int argInt =>
      rw [text, signedText]
      by_cases negative : argInt.toInt < 0
      · rw [if_pos negative, List.mem_cons, not_or]
        exact ⟨by decide, digits (by decide) (by decide)⟩
      · rw [if_neg negative]
        exact digits (by decide) (by decide)
  | hex argInt => exact digits (by decide) (by decide)

theorem length_le_formatOf : items.length ≤ (formatOf items).length := by
  induction items with
  | nil => exact Nat.zero_le _
  | cons item items ih =>
      have positive : 1 ≤ item.directive.length := by
        cases item with
        | lit | str | chr | int | hex => exact Nat.succ_pos _
      rw [formatOf, List.flatMap_cons, List.length_append, List.length_cons]
      rw [formatOf] at ih
      omega

/-! ## The main result -/

/-- **Formatted output.** For a format of ordinary characters and the four directives, and arguments
that match it, `vsprintf` writes the expansion into a buffer of zero bytes that has room for it, and
returns its length; the numbers in it can be read back. -/
theorem vsprintf_expands (format : input.format.StringAt 0 (formatOf items))
    (proper : ∀ item ∈ items, item.Proper input) (args : ArgsAt input.stack ap items)
    (zeros : ∀ i < size, str i = 0) (room : (expansion items).length < size)
    (enough : (formatOf items).length < fuel) (enough' : (expansion items).length < fuel) :
    (∃ str', vsprintf fuel str input ap = .ok (str', (expansion items).length) ∧
      str'.StringAt 0 (expansion items) ∧ ∀ i, size ≤ i → str' i = str i) ∧
    (∀ argInt, readSigned (Item.int argInt).text = argInt.toInt) ∧
    ∀ argInt, readUnsigned 16 (Item.hex argInt).text = argInt.toNat := by
  refine ⟨?_, readSigned_signedText, fun argInt => ?_⟩
  · have start : Filled str size str [] :=
      ⟨Memory.holds_nil, fun i _ high => zeros i high, fun _ _ => rfl⟩
    obtain ⟨str', ran, filled⟩ := vsprintfLoop_runs format proper args start (by simpa using room)
      (lt_of_le_of_lt length_le_formatOf enough) enough'
    rw [List.nil_append] at filled
    have clean : 0 ∉ expansion items := by
      intro zero
      obtain ⟨item, member, inText⟩ := List.mem_flatMap.mp zero
      exact (proper item member).clean inText
    have whole : str'.StringAt 0 (expansion items) := by
      refine .of_parts filled.holds ?_ clean
      rw [Nat.zero_add]
      exact filled.zeros _ (Nat.le_refl _) room
    refine ⟨str', ?_, whole, filled.same⟩
    rw [List.length_nil] at ran
    rw [vsprintf, ran]
    refine except_bind_eq_ok.mpr ⟨_, rfl, except_bind_eq_ok.mpr ⟨_, ?_, rfl⟩⟩
    exact Strings.strlen_runs whole enough'
  · exact readUnsigned_numeralText (by decide) (by decide)

/-- `%d` and the least integer. -/
def leastInput : Input where
  format := Strings.literal [percent, 0x64]
  stack := fun i => if i = 7 then 0x80 else 0
  object := fun _ => Memory.zeros

theorem vsprintf_least : ∃ str', vsprintf 20 Memory.zeros leastInput 0 = .ok (str', 11) ∧
    str'.StringAt 0 (minus :: [0x32, 0x31, 0x34, 0x37, 0x34, 0x38, 0x33, 0x36, 0x34, 0x38]) := by
  have text : expansion [.int 0x80000000] =
      minus :: [0x32, 0x31, 0x34, 0x37, 0x34, 0x38, 0x33, 0x36, 0x34, 0x38] := by
    have negative : (0x80000000 : Word).toInt < 0 := by decide
    have digits : numeral 10 2147483648 = [2, 1, 4, 7, 4, 8, 3, 6, 4, 8] := by
      simp [numeral]
    rw [expansion, List.flatMap_singleton, Item.text, signedText, if_pos negative, numeralText,
      show (0x80000000 : Word).toInt.natAbs = 2147483648 by decide, digits]
    decide
  have length : (expansion [.int 0x80000000]).length = 11 := by
    rw [text]
    rfl
  have format : leastInput.format.StringAt 0 (formatOf [.int 0x80000000]) :=
    Strings.literal_stringAt (by decide)
  have proper : ∀ item ∈ [Item.int 0x80000000], item.Proper leastInput := by
    simp [Item.Proper]
  have onStack : getWord leastInput.stack 4 = 0x80000000 := by decide
  have args : ArgsAt leastInput.stack 0 [.int 0x80000000] := ⟨onStack, trivial⟩
  have zeros : ∀ i < 12, Memory.zeros i = 0 := fun _ _ => rfl
  have enough : (formatOf [.int 0x80000000]).length < 20 := by decide
  have enough' : (expansion [.int 0x80000000]).length < 20 := by omega
  obtain ⟨⟨str', ran, written, -⟩, -⟩ :=
    vsprintf_expands format proper args zeros (by omega) enough enough'
  rw [length] at ran
  rw [text] at written
  exact ⟨str', ran, written⟩

end

end UKernel.Console
