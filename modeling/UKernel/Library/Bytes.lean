import Mathlib

/-! # Byte-addressed memory

A memory is a function from addresses to bytes. Copying a range into a memory is
`UKernel.Library.Memory.splice`; a 32-bit word is stored in four bytes, the least significant
first; a string ends with a zero byte.
-/

namespace UKernel.Library

/-- An 8-bit unsigned integer. -/
abbrev Byte := BitVec 8

/-- A 32-bit unsigned integer. -/
abbrev Word := BitVec 32

/-- Bytes by address. -/
abbrev Memory := Nat → Byte

/-! ## Literals and strings -/

-- Instances under names of their own: a definition that looks for a byte in a string, or names an
-- element of one of these types by a literal, refers to them.
instance lawfulBEq_byte : LawfulBEq Byte := inferInstance

instance lawfulBEq_bytes : LawfulBEq (List Byte) := inferInstance

instance neZero_two : NeZero 2 := ⟨by decide⟩

instance neZero_thirteen : NeZero 13 := ⟨by decide⟩

instance neZero_twentyOne : NeZero 21 := ⟨by decide⟩

instance neZero_hundredForty : NeZero 140 := ⟨by decide⟩

/-! ## Addresses -/

namespace Memory

/-- The memory as seen from a pointer into it. -/
def shift (m : Memory) (off : Nat) : Memory :=
  fun i => m (off + i)

/-- Copy `len` bytes of `src` to the address `off`. -/
def splice (m : Memory) (off : Nat) (src : Memory) (len : Nat) : Memory :=
  fun i => if off ≤ i ∧ i < off + len then src (i - off) else m i

/-- Memory filled with zero bytes. -/
def zeros : Memory :=
  fun _ => 0

variable {m src : Memory} {off len i : Nat}

theorem splice_inside (low : off ≤ i) (high : i < off + len) :
    m.splice off src len i = src (i - off) :=
  if_pos ⟨low, high⟩

theorem splice_outside (outside : i < off ∨ off + len ≤ i) :
    m.splice off src len i = m i :=
  if_neg (by omega)

end Memory

/-! ## Words -/

/-- Byte `k` of a word. -/
def wordByte (w : Word) (k : Nat) : Byte :=
  BitVec.ofNat 8 (w.toNat / 256 ^ k)

/-- The word stored at an address. -/
def getWord (m : Memory) (off : Nat) : Word :=
  BitVec.ofNat 32 ((m off).toNat + 256 * (m (off + 1)).toNat + 65536 * (m (off + 2)).toNat +
    16777216 * (m (off + 3)).toNat)

section Words

variable {m m' : Memory} {off off' k : Nat} {w : Word}

theorem getWord_congr (same : ∀ k < 4, m (off + k) = m' (off' + k)) :
    getWord m off = getWord m' off' := by
  unfold getWord
  rw [← Nat.add_zero off, ← Nat.add_zero off', same 0 (by decide), same 1 (by decide),
    same 2 (by decide), same 3 (by decide)]

theorem getWord_toNat (m : Memory) (off : Nat) :
    (getWord m off).toNat = (m off).toNat + 256 * (m (off + 1)).toNat +
      65536 * (m (off + 2)).toNat + 16777216 * (m (off + 3)).toNat := by
  have := (m off).isLt
  have := (m (off + 1)).isLt
  have := (m (off + 2)).isLt
  have := (m (off + 3)).isLt
  simp only [getWord, BitVec.toNat_ofNat]
  omega

theorem wordByte_toNat (w : Word) (k : Nat) : (wordByte w k).toNat = w.toNat / 256 ^ k % 256 := by
  simp [wordByte]

/-- Four bytes of a word, read back. -/
theorem getWord_of_bytes (stored : ∀ k < 4, m (off + k) = wordByte w k) : getWord m off = w := by
  apply BitVec.eq_of_toNat_eq
  have zero := stored 0 (by decide)
  rw [Nat.add_zero] at zero
  rw [getWord_toNat, zero, stored 1 (by decide), stored 2 (by decide), stored 3 (by decide)]
  simp only [wordByte_toNat]
  have := w.isLt
  omega

/-- A word read from memory has the bytes of that memory. -/
theorem wordByte_getWord (small : k < 4) : wordByte (getWord m off) k = m (off + k) := by
  apply BitVec.eq_of_toNat_eq
  rw [wordByte_toNat, getWord_toNat]
  have := (m off).isLt
  have := (m (off + 1)).isLt
  have := (m (off + 2)).isLt
  have := (m (off + 3)).isLt
  have cases : k = 0 ∨ k = 1 ∨ k = 2 ∨ k = 3 := by omega
  rcases cases with rfl | rfl | rfl | rfl
  · simp only [Nat.add_zero]
    omega
  · omega
  · omega
  · omega

end Words

/-! ## Strings -/

/-- The string at an address equals the given one: its bytes, and then a zero byte. -/
def strEq (m : Memory) : List Byte → Bool
  | [] => m 0 = 0
  | c :: cs => m 0 = c && strEq (fun i => m (i + 1)) cs

theorem strEq_iff {m : Memory} {name : List Byte} :
    strEq m name = true ↔ (∀ i (h : i < name.length), m i = name[i]) ∧ m name.length = 0 := by
  induction name generalizing m with
  | nil => simp [strEq]
  | cons c cs ih =>
      simp only [strEq, Bool.and_eq_true, decide_eq_true_eq, ih, List.length_cons]
      constructor
      · rintro ⟨first, rest, last⟩
        refine ⟨fun i small => ?_, last⟩
        cases i with
        | zero => exact first
        | succ i => exact rest i (by omega)
      · rintro ⟨all, last⟩
        exact ⟨all 0 (by omega), fun i small => all (i + 1) (by omega), last⟩

/-- Two strings at one address are the same, if neither contains a zero byte. -/
theorem strEq_unique {m : Memory} {name name' : List Byte} (clean : 0 ∉ name) (clean' : 0 ∉ name')
    (first : strEq m name = true) (second : strEq m name' = true) : name = name' := by
  induction name generalizing m name' with
  | nil =>
      cases name' with
      | nil => rfl
      | cons c cs => simp_all [strEq]
  | cons c cs ih =>
      cases name' with
      | nil => simp_all [strEq]
      | cons c' cs' =>
          simp only [strEq, Bool.and_eq_true, decide_eq_true_eq] at first second
          rw [List.mem_cons, not_or] at clean clean'
          rw [← first.1, ← second.1, ih clean.2 clean'.2 first.2 second.2]

/-- Comparing a string reads the memory up to its end only. -/
theorem strEq_congr {m m' : Memory} {name : List Byte}
    (same : ∀ i ≤ name.length, m i = m' i) : strEq m name = strEq m' name := by
  rw [Bool.eq_iff_iff, strEq_iff, strEq_iff, same _ (Nat.le_refl _)]
  refine and_congr_left fun _ => forall_congr' fun i => forall_congr' fun small => ?_
  rw [same i (by omega)]

/-- Comparing with a string without zero bytes reads the memory up to its first zero byte. -/
theorem strEq_stops {m m' : Memory} {name : List Byte} {stop : Nat} (clean : 0 ∉ name)
    (same : ∀ i ≤ stop, m i = m' i) (ends : m stop = 0) : strEq m name = strEq m' name := by
  by_cases short : name.length ≤ stop
  · exact strEq_congr fun i small => same i (by omega)
  · have inside : stop < name.length := by omega
    have never : ∀ m : Memory, m stop = 0 → strEq m name = false := by
      intro m zero
      rw [Bool.eq_false_iff]
      intro equal
      have char := (strEq_iff.mp equal).1 stop inside
      exact clean (List.mem_iff_getElem.mpr ⟨stop, inside, char.symm.trans zero⟩)
    rw [never m ends, never m' ((same stop (Nat.le_refl _)).symm.trans ends)]

/-- A memory with a zero byte holds a string. -/
theorem exists_strEq {m : Memory} (stop : Nat) (ends : m stop = 0) :
    ∃ name, 0 ∉ name ∧ strEq m name = true ∧ (m 0 ≠ 0 → name ≠ []) := by
  induction stop generalizing m with
  | zero => exact ⟨[], by simp, by simp [strEq, ends], fun nonzero => absurd ends nonzero⟩
  | succ stop ih =>
      by_cases empty : m 0 = 0
      · exact ⟨[], by simp, by simp [strEq, empty], fun nonzero => absurd empty nonzero⟩
      · obtain ⟨rest, clean, equal, -⟩ := ih (m := fun i => m (i + 1)) ends
        refine ⟨m 0 :: rest, ?_, by simp [strEq, equal], fun _ => List.cons_ne_nil _ _⟩
        rw [List.mem_cons, not_or]
        exact ⟨fun zero => empty zero.symm, clean⟩

end UKernel.Library
