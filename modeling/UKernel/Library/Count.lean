import Mathlib

/-! # Counting the indices with a value

How the number of indices of a finite set at which a function has a given value changes when
the function is updated at one index (`UKernel.Library.count_update`), and when the set grows
by a block of indices (`UKernel.Library.count_product_insert`).
-/

namespace UKernel.Library

variable {ι κ β : Type*} [DecidableEq β]

/-- The number of indices in a finite set at which a function has a value. -/
def countOf (indices : Finset ι) (f : ι → β) (value : β) : Nat :=
  (indices.filter fun i => f i = value).card

theorem countOf_eq_sum (indices : Finset ι) (f : ι → β) (value : β) :
    countOf indices f value = ∑ i ∈ indices, if f i = value then 1 else 0 :=
  Finset.card_filter _ _

theorem countOf_congr {indices : Finset ι} {f f' : ι → β} {value : β}
    (same : ∀ i ∈ indices, (f i = value ↔ f' i = value)) :
    countOf indices f value = countOf indices f' value :=
  congrArg Finset.card (Finset.filter_congr same)

theorem countOf_eq_zero {indices : Finset ι} {f : ι → β} {value : β} :
    countOf indices f value = 0 ↔ ∀ i ∈ indices, f i ≠ value := by
  rw [countOf, Finset.card_eq_zero, Finset.filter_eq_empty_iff]

/-- An update at one index moves that index from its old value to the new one. -/
theorem count_update [DecidableEq ι] {indices : Finset ι} {f : ι → β} {i : ι} (member : i ∈ indices)
    (new value : β) :
    countOf indices (Function.update f i new) value + (if f i = value then 1 else 0) =
      countOf indices f value + (if new = value then 1 else 0) := by
  have others : countOf (indices.erase i) (Function.update f i new) value =
      countOf (indices.erase i) f value := by
    apply countOf_congr
    intro j inside
    rw [Function.update_of_ne (Finset.ne_of_mem_erase inside)]
  rw [countOf_eq_sum, countOf_eq_sum] at others
  rw [countOf_eq_sum, countOf_eq_sum, ← Finset.sum_erase_add _ _ member,
    ← Finset.sum_erase_add _ _ member, others, Function.update_self]
  omega

/-- A predicate that holds at one more index than another one counts one more at most. -/
theorem card_le_succ [Fintype ι] [DecidableEq ι] {p q : ι → Prop} [DecidablePred p]
    [DecidablePred q] (i : ι) (others : ∀ j ≠ i, q j → p j) :
    (Finset.univ.filter q).card ≤ (Finset.univ.filter p).card + 1 := by
  have sub : Finset.univ.filter q ⊆ insert i (Finset.univ.filter p) := by
    intro j inside
    rw [Finset.mem_filter] at inside
    rw [Finset.mem_insert, Finset.mem_filter]
    by_cases here : j = i
    · exact .inl here
    · exact .inr ⟨inside.1, others j here inside.2⟩
  exact (Finset.card_le_card sub).trans (Finset.card_insert_le i _)

/-- A predicate that holds at two indices, and is counted twice at most, holds at no third one. -/
theorem eq_or_eq_of_card_le [Fintype ι] [DecidableEq ι] {p : ι → Prop} [DecidablePred p] {i j k : ι}
    (apart : i ≠ j) (first : p i) (second : p j) (two : (Finset.univ.filter p).card ≤ 2)
    (third : p k) : k = i ∨ k = j := by
  have sub : {i, j} ⊆ Finset.univ.filter p := by
    rw [Finset.insert_subset_iff, Finset.singleton_subset_iff]
    exact ⟨Finset.mem_filter.mpr ⟨Finset.mem_univ i, first⟩,
      Finset.mem_filter.mpr ⟨Finset.mem_univ j, second⟩⟩
  have same := Finset.eq_of_subset_of_card_le sub (two.trans (Finset.card_pair apart).ge)
  have member : k ∈ ({i, j} : Finset ι) := same ▸ Finset.mem_filter.mpr ⟨Finset.mem_univ k, third⟩
  rwa [Finset.mem_insert, Finset.mem_singleton] at member

/-- The pairs are counted block by block. -/
theorem countOf_product (rows : Finset ι) (columns : Finset κ) (f : ι → κ → β)
    (value : β) :
    countOf (rows ×ˢ columns) (fun r => f r.1 r.2) value =
      ∑ i ∈ rows, countOf columns (f i) value := by
  rw [countOf_eq_sum, Finset.sum_product]
  simp only [countOf_eq_sum]

/-- A new row adds its own count. -/
theorem count_product_insert [DecidableEq ι] {rows : Finset ι} {f f' : ι → κ → β} {row : ι}
    (columns : Finset κ) (value : β) (fresh : row ∉ rows)
    (same : ∀ i ∈ rows, f' i = f i) :
    countOf (insert row rows ×ˢ columns) (fun r => f' r.1 r.2) value =
      countOf (rows ×ˢ columns) (fun r => f r.1 r.2) value + countOf columns (f' row) value := by
  rw [countOf_product, countOf_product, Finset.sum_insert fresh, Nat.add_comm]
  congr 1
  exact Finset.sum_congr rfl fun i member => by rw [same i member]

end UKernel.Library
