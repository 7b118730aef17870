import Mathlib

/-! # Tables of tables

An address is made of fields: an index for each level of tables, and an offset behind them. The
entry of a table at an index names the table below it, or nothing, and an address is looked up by
following its indices from a root (`UKernel.Library.TableWalk.walk`). A root that has itself as one
of its entries takes a level away from the address (`UKernel.Library.TableWalk.walk_self`): an
address that begins with the index of that entry reaches a table where another address reaches what
the table refers to.
-/

namespace UKernel.Library.TableWalk

/-! ## Fields of a number -/

/-- A mask of `len` bits from bit `start` on keeps these bits where they are. -/
theorem and_field (n start len : Nat) :
    n &&& ((2 ^ len - 1) * 2 ^ start) = n / 2 ^ start % 2 ^ len * 2 ^ start := by
  apply Nat.eq_of_testBit_eq
  intro i
  rw [Nat.testBit_and, Nat.testBit_mul_two_pow, Nat.testBit_mul_two_pow]
  by_cases low : start ≤ i
  · rw [Nat.testBit_two_pow_sub_one, Nat.testBit_mod_two_pow, Nat.testBit_div_two_pow,
      Nat.sub_add_cancel low]
    simp only [low, decide_true, Bool.true_and]
    exact Bool.and_comm _ _
  · simp only [low, decide_false, Bool.false_and, Bool.and_false]

variable {width len start high low : Nat}

theorem toNat_and_field {mask : BitVec width} (start len : Nat)
    (shape : mask.toNat = (2 ^ len - 1) * 2 ^ start) (v : BitVec width) :
    (v &&& mask).toNat = v.toNat / 2 ^ start % 2 ^ len * 2 ^ start := by
  rw [BitVec.toNat_and, shape, and_field]

theorem toNat_extract (v : BitVec width) :
    (v.extractLsb' start len).toNat = v.toNat / 2 ^ start % 2 ^ len := by
  rw [BitVec.extractLsb'_toNat, Nat.shiftRight_eq_div_pow]

/-- The value of two fields next to each other. -/
theorem toNat_fields (a : BitVec high) (b : BitVec low) :
    (a ++ b).toNat = a.toNat * 2 ^ low + b.toNat := by
  rw [BitVec.toNat_append, ← Nat.shiftLeft_add_eq_or_of_lt b.isLt, Nat.shiftLeft_eq]

/-! ## Walks -/

variable {Table Index : Type*} {entry : Table → Index → Option Table} {root : Table}
  {self i : Index} {path : List Index}

/-- The table at the end of a path of indices. -/
def walk (entry : Table → Index → Option Table) (root : Table) (path : List Index) :
    Option Table :=
  path.foldlM entry root

@[simp] theorem walk_nil : walk entry root [] = some root := rfl

theorem walk_cons : walk entry root (i :: path) = (entry root i).bind (walk entry · path) :=
  List.foldlM_cons

/-- An entry that names its own table takes a level away from the path. -/
theorem walk_self (own : entry root self = some root) :
    walk entry root (self :: path) = walk entry root path := by
  rw [walk_cons, own]
  rfl

end UKernel.Library.TableWalk
