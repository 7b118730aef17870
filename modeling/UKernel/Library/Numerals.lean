import Mathlib

/-! # Numerals

A number as its digits in the order in which they are written, the most significant first; zero has
one digit. Reading the digits gives the number back (`UKernel.Library.ofNumeral_numeral`).
-/

namespace UKernel.Library

/-- The digits of a number. -/
def numeral (base value : Nat) : List Nat :=
  if value = 0 then [0] else (Nat.digits base value).reverse

/-- The number that digits stand for. -/
def ofNumeral (base : Nat) (digits : List Nat) : Nat :=
  Nat.ofDigits base digits.reverse

variable {base value digit : Nat}

theorem numeral_of_lt (small : value < base) : numeral base value = [value] := by
  unfold numeral
  by_cases zero : value = 0
  · rw [if_pos zero, zero]
  · rw [if_neg zero, Nat.digits_of_lt base value zero small, List.reverse_singleton]

/-- The last digit is the remainder, and the digits before it are those of the quotient. -/
theorem numeral_of_le (one : 1 < base) (large : base ≤ value) :
    numeral base value = numeral base (value / base) ++ [value % base] := by
  have positive : 0 < value := by omega
  have quotient : value / base ≠ 0 := (Nat.div_pos large (by omega)).ne'
  rw [numeral, if_neg positive.ne', Nat.digits_def' one positive, List.reverse_cons, numeral,
    if_neg quotient]

theorem ofNumeral_numeral : ofNumeral base (numeral base value) = value := by
  unfold ofNumeral numeral
  by_cases zero : value = 0
  · rw [if_pos zero, zero]
    simp
  · rw [if_neg zero, List.reverse_reverse, Nat.ofDigits_digits]

theorem numeral_ne_nil : numeral base value ≠ [] := by
  unfold numeral
  by_cases zero : value = 0
  · rw [if_pos zero]
    exact List.cons_ne_nil 0 []
  · rw [if_neg zero]
    exact List.reverse_ne_nil_iff.mpr (Nat.digits_ne_nil_iff_ne_zero.mpr zero)

theorem lt_of_mem_numeral (one : 1 < base) (member : digit ∈ numeral base value) :
    digit < base := by
  unfold numeral at member
  by_cases zero : value = 0
  · rw [if_pos zero, List.mem_singleton] at member
    omega
  · rw [if_neg zero] at member
    exact Nat.digits_lt_base one (List.mem_reverse.mp member)

end UKernel.Library
