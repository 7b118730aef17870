import Mathlib

/-! # Computations of a C program that may stop

A function of the source either returns or stops the machine: an assertion fails, a
pointer or an index is invalid, or a loop never ends. `Except Fault` is the type of such
computations, and `except_bind_eq_ok` takes one that returned apart into its steps.
-/

namespace UKernel.Library

/-- The ways in which a call does not return to its caller. -/
inductive Fault where
  /-- An assertion or an explicit panic stopped the machine. -/
  | assertion
  /-- An array or a buffer was accessed outside its bounds. -/
  | outOfBounds
  /-- A null or dangling pointer was dereferenced. -/
  | badPointer
  /-- A loop of the call never ends. -/
  | diverges
  /-- The assertion of `sys_free` that a kernel thread frees memory of the kernel's heap. -/
  | heapAssertion
  deriving DecidableEq, Repr

/-- The assertion macro: continue when the condition holds, stop otherwise. -/
def require (condition : Prop) [Decidable condition] : Except Fault Unit :=
  if condition then .ok () else .error .assertion

universe u

variable {ε α β : Type u}

@[simp] theorem require_eq_ok {condition : Prop} [Decidable condition] {done : Unit} :
    require condition = .ok done ↔ condition := by
  unfold require
  split <;> simp_all

theorem require_of {condition : Prop} [Decidable condition] (holds : condition) :
    require condition = .ok () := by
  simp [holds]

/-- A sequence of two computations returned exactly when the first returned a value from
which the second did. -/
@[simp] theorem except_bind_eq_ok {first : Except ε α} {second : α → Except ε β} {result : β} :
    (first >>= second) = .ok result ↔ ∃ value, first = .ok value ∧ second value = .ok result := by
  cases first with
  | error fault => simp [bind, Except.bind]
  | ok value => simp [bind, Except.bind]

@[simp] theorem except_ok_bind (value : α) (second : α → Except ε β) :
    ((Except.ok value : Except ε α) >>= second) = second value := rfl

@[simp] theorem except_pure_eq (value : α) : (pure value : Except ε α) = .ok value := rfl

end UKernel.Library
