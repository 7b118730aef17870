import Mathlib

/-! # Setting marks one after the other

Places take their turns in a fixed order. A place that finds its mark leaves everything as it
is; one that does not sets its mark, and erases the marks it covers. When every place has its
mark after the last turn is told by `UKernel.Library.Marking.all_iff`: an erased mark is set
again only by a later turn with the same mark.
-/

namespace UKernel.Library

variable {α : Type*}

/-- The turns of `count` places: those that are used, their marks, the marks they cover, and the
marks there are before each turn. -/
structure Marking (count : Nat) (used : Nat → Prop) (home : Nat → α) (covered : Nat → Set α)
    (marks : Nat → Set α) : Prop where
  /-- No place covers its own mark. -/
  apart : ∀ j < count, home j ∉ covered j
  /-- The mark is missing: it is set. -/
  sets : ∀ j < count, used j → home j ∉ marks j →
    marks (j + 1) = insert (home j) (marks j \ covered j)
  /-- The mark is there, or the place is not used. -/
  leaves : ∀ j < count, (used j → home j ∈ marks j) → marks (j + 1) = marks j

namespace Marking

variable {count i j k n : Nat} {used : Nat → Prop} {home : Nat → α} {covered : Nat → Set α}
  {marks : Nat → Set α}

/-- The turn of a place sets its mark. -/
theorem set_after (marking : Marking count used home covered marks) (inside : i < count)
    (taken : used i) : home i ∈ marks (i + 1) := by
  by_cases found : home i ∈ marks i
  · rwa [marking.leaves i inside fun _ => found]
  · rw [marking.sets i inside taken found]
    exact Set.mem_insert ..

/-- A mark that no later turn erases stays. -/
theorem stays (marking : Marking count used home covered marks) (taken : used i)
    (kept : ∀ j, i < j → j < count → used j → home j ∉ marks j → home i ∉ covered j)
    (after : i < n) (inside : n ≤ count) : home i ∈ marks n := by
  induction n with
  | zero => omega
  | succ n ih =>
      by_cases here : i = n
      · subst here
        exact marking.set_after inside taken
      · have held : home i ∈ marks n := ih (by omega) (by omega)
        by_cases missing : used n ∧ home n ∉ marks n
        · rw [marking.sets n inside missing.1 missing.2]
          exact .inr ⟨held, kept n (by omega) inside missing.1 missing.2⟩
        · rwa [marking.leaves n inside fun turn => not_not.mp fun absent => missing ⟨turn, absent⟩]

/-- An erased mark that no later turn sets is missing to the end. -/
theorem erased (marking : Marking count used home covered marks) (taken : used j)
    (absent : home j ∉ marks j) (lost : home i ∈ covered j)
    (never : ∀ k, j < k → k < count → used k → home k ≠ home i)
    (after : j < n) (inside : n ≤ count) : home i ∉ marks n := by
  induction n with
  | zero => omega
  | succ n ih =>
      by_cases here : j = n
      · subst here
        rw [marking.sets j inside taken absent]
        intro member
        cases member with
        | inl own => exact marking.apart j inside (own ▸ lost)
        | inr other => exact other.2 lost
      · have gone : home i ∉ marks n := ih (by omega) (by omega)
        by_cases missing : used n ∧ home n ∉ marks n
        · rw [marking.sets n inside missing.1 missing.2]
          intro member
          cases member with
          | inl own => exact never n (by omega) inside missing.1 own.symm
          | inr other => exact gone other.1
        · rwa [marking.leaves n inside fun turn => not_not.mp fun absent => missing ⟨turn, absent⟩]

/-- The last place with a mark. -/
theorem exists_last (home : Nat → α) (inside : i < count) (taken : used i) :
    ∃ last < count, used last ∧ home last = home i ∧
      ∀ k, last < k → k < count → used k → home k ≠ home i := by
  classical
  let Same : Nat → Prop := fun k => k < count ∧ used k ∧ home k = home i
  have here : Same i := ⟨inside, taken, rfl⟩
  have found : Same (Nat.findGreatest Same count) :=
    Nat.findGreatest_spec (Nat.le_of_lt inside) here
  refine ⟨_, found.1, found.2.1, found.2.2, fun k later small turn same => ?_⟩
  exact Nat.findGreatest_is_greatest later (Nat.le_of_lt small) ⟨small, turn, same⟩

/-- Every place has its mark at the end, if and only if each mark that a turn erases is the mark
of a later turn. -/
theorem all_iff (marking : Marking count used home covered marks) :
    (∀ i < count, used i → home i ∈ marks count) ↔
      ∀ i j, i < j → j < count → used i → used j → home j ∉ marks j → home i ∈ covered j →
        ∃ k, j < k ∧ k < count ∧ used k ∧ home k = home i := by
  constructor
  · intro all i j before inside first taken absent lost
    by_contra none_
    have never : ∀ k, j < k → k < count → used k → home k ≠ home i :=
      fun k later small turn same => none_ ⟨k, later, small, turn, same⟩
    exact marking.erased taken absent lost never inside (Nat.le_refl _)
      (all i (by omega) first)
  · intro again i inside taken
    obtain ⟨last, small, turn, same, final⟩ := exists_last home inside taken
    rw [← same]
    apply marking.stays turn _ small (Nat.le_refl _)
    intro j later within other absent lost
    obtain ⟨k, after, bound, third, equal⟩ := again last j later within turn other absent lost
    exact final k (by omega) bound third (equal.trans same)

end Marking

end UKernel.Library
