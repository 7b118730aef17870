import Mathlib

/-! # Rings

A ring buffer holds a queue: the entries from `tail` on up to, but not including, the one at `head`,
where indices begin again at zero behind the last. One entry is always free, so that equal indices
mean an empty ring. Putting appends to the queue (`UKernel.Library.RingBuffer.contents_put`), and
taking removes its first entry (`UKernel.Library.RingBuffer.contents_take`).
-/

namespace UKernel.Library

/-- A buffer with the index of the next entry to write and of the next entry to read. -/
structure RingBuffer (α : Type*) where
  buf : Nat → α
  head : Nat
  tail : Nat

namespace RingBuffer

variable {α : Type*} (size : Nat) (ring : RingBuffer α)

/-- The index behind an index. -/
def next (pos : Nat) : Nat := (pos + 1) % size

/-- The indices lie in the buffer. -/
structure Inside : Prop where
  head : ring.head < size
  tail : ring.tail < size

/-- The number of entries of the queue. -/
def length : Nat :=
  if ring.tail ≤ ring.head then ring.head - ring.tail else size - (ring.tail - ring.head)

/-- The entries of the queue. -/
def contents : List α :=
  (List.range (ring.length size)).map fun i => ring.buf ((ring.tail + i) % size)

/-- Write an entry. -/
def put (a : α) : RingBuffer α :=
  { ring with buf := Function.update ring.buf ring.head a, head := next size ring.head }

/-- Read an entry. -/
def take : RingBuffer α := { ring with tail := next size ring.tail }

variable {size ring} {a : α}

theorem next_of_lt {pos : Nat} (inner : pos + 1 < size) : next size pos = pos + 1 :=
  Nat.mod_eq_of_lt inner

theorem next_of_eq {pos : Nat} (last : pos + 1 = size) : next size pos = 0 := by
  rw [next, last, Nat.mod_self]

theorem next_lt {pos : Nat} (some_ : 0 < size) : next size pos < size := Nat.mod_lt _ some_

@[simp] theorem length_contents : (ring.contents size).length = ring.length size := by
  rw [contents, List.length_map, List.length_range]

namespace Inside

variable (inside : ring.Inside size)

include inside

theorem size_pos : 0 < size := Nat.zero_lt_of_lt inside.head

theorem length_lt : ring.length size < size := by
  have head := inside.head
  have tail := inside.tail
  unfold RingBuffer.length
  split <;> omega

/-- The queue ends in front of the entry that is written next. -/
theorem head_eq : ring.head = (ring.tail + ring.length size) % size := by
  have head := inside.head
  have tail := inside.tail
  unfold RingBuffer.length
  split
  case isTrue ahead =>
    rw [Nat.add_sub_cancel' ahead, Nat.mod_eq_of_lt head]
  case isFalse behind =>
    rw [show ring.tail + (size - (ring.tail - ring.head)) = ring.head + size by omega,
      Nat.add_mod_right, Nat.mod_eq_of_lt head]

theorem put : (ring.put size a).Inside size := ⟨next_lt inside.size_pos, inside.tail⟩

theorem take : (ring.take size).Inside size := ⟨inside.head, next_lt inside.size_pos⟩

/-- Equal indices mean an empty ring. -/
theorem empty_iff : ring.head = ring.tail ↔ ring.length size = 0 := by
  have head := inside.head
  have tail := inside.tail
  unfold RingBuffer.length
  split <;> omega

/-- The ring is full when the indices would become equal. -/
theorem full_iff : next size ring.head = ring.tail ↔ ring.length size + 1 = size := by
  have head := inside.head
  have tail := inside.tail
  unfold RingBuffer.length
  by_cases last : ring.head + 1 = size
  · rw [next_of_eq last]
    split <;> omega
  · rw [next_of_lt (by omega)]
    split <;> omega

theorem length_put (notFull : next size ring.head ≠ ring.tail) :
    (ring.put size a).length size = ring.length size + 1 := by
  have head := inside.head
  have tail := inside.tail
  change (if ring.tail ≤ next size ring.head then next size ring.head - ring.tail
    else size - (ring.tail - next size ring.head)) = _
  unfold RingBuffer.length
  by_cases last : ring.head + 1 = size
  · rw [next_of_eq last] at notFull ⊢
    split <;> split <;> omega
  · rw [next_of_lt (by omega)] at notFull ⊢
    split <;> split <;> omega

theorem length_take (notEmpty : ring.head ≠ ring.tail) :
    (ring.take size).length size + 1 = ring.length size := by
  have head := inside.head
  have tail := inside.tail
  change (if next size ring.tail ≤ ring.head then ring.head - next size ring.tail
    else size - (next size ring.tail - ring.head)) + 1 = _
  unfold RingBuffer.length
  by_cases last : ring.tail + 1 = size
  · rw [next_of_eq last]
    split <;> split <;> omega
  · rw [next_of_lt (by omega)]
    split <;> split <;> omega

/-- The entry that is written next is not in the queue. -/
theorem index_ne_head {i : Nat} (small : i < ring.length size) :
    (ring.tail + i) % size ≠ ring.head := by
  intro same
  rw [inside.head_eq] at same
  have some_ := inside.length_lt
  have same : ring.tail + i ≡ ring.tail + ring.length size [MOD size] := same
  have same := Nat.ModEq.add_left_cancel' _ same
  rw [Nat.ModEq, Nat.mod_eq_of_lt (small.trans some_), Nat.mod_eq_of_lt some_] at same
  omega

/-- Putting appends to the queue. -/
theorem contents_put (notFull : next size ring.head ≠ ring.tail) :
    (ring.put size a).contents size = ring.contents size ++ [a] := by
  rw [contents, inside.length_put notFull, List.range_succ, List.map_append, contents]
  congr 1
  · apply List.map_congr_left
    intro i member
    exact Function.update_of_ne (inside.index_ne_head (List.mem_range.mp member)) _ _
  · rw [List.map_singleton]
    change [Function.update ring.buf ring.head a ((ring.tail + ring.length size) % size)] = [a]
    rw [← inside.head_eq, Function.update_self]

/-- Taking removes the first entry of the queue. -/
theorem contents_take (notEmpty : ring.head ≠ ring.tail) :
    ring.contents size = ring.buf ring.tail :: (ring.take size).contents size := by
  rw [contents, ← inside.length_take notEmpty, List.range_succ_eq_map, List.map_cons,
    List.map_map, Nat.add_zero, Nat.mod_eq_of_lt inside.tail, contents]
  congr 1
  apply List.map_congr_left
  intro i _
  change ring.buf ((ring.tail + (i + 1)) % size) = ring.buf ((next size ring.tail + i) % size)
  rw [next, Nat.mod_add_mod, show ring.tail + (i + 1) = ring.tail + 1 + i by omega]

end Inside

end RingBuffer

end UKernel.Library
