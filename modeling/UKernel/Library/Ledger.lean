import Mathlib

/-! # Resources and who holds them

Some resources are in use, and holders hold them. In a `UKernel.Library.Custody` everything that
is held is in use and has one holder; in a `UKernel.Library.Ledger` everything that is in use is
also held. Each has the same rules for the changes that an allocator makes: a free resource is
taken, resources are given back, and resources pass from one holder to another.
-/

namespace UKernel.Library

variable {Holder Resource : Type*} {used used' : Resource → Prop}
  {holds holds' : Holder → Resource → Prop} {r : Resource}

/-- What is held is in use, and has one holder. -/
structure Custody (used : Resource → Prop) (holds : Holder → Resource → Prop) : Prop where
  inUse : ∀ holder r, holds holder r → used r
  exclusive : ∀ holder holder' r, holds holder r → holds holder' r → holder = holder'

/-- Exactly what is in use is held, and has one holder. -/
structure Ledger (used : Resource → Prop) (holds : Holder → Resource → Prop) : Prop
    extends Custody used holds where
  held : ∀ r, used r → ∃ holder, holds holder r

/-! ## What is in use is held -/

namespace Custody

/-- Less is held, and it stays in use. -/
theorem fewer (custody : Custody used holds) (less : ∀ h r, holds' h r → holds h r)
    (kept : ∀ h r, holds' h r → used r → used' r) : Custody used' holds' where
  inUse h r holdsR := kept h r holdsR (custody.inUse h r (less h r holdsR))
  exclusive h h' r holdsR holdsR' :=
    custody.exclusive h h' r (less h r holdsR) (less h' r holdsR')

/-- A resource that was free is taken by a holder. -/
theorem take (custody : Custody used holds) (holder : Holder) (free : ¬ used r)
    (more : ∀ h x, holds' h x ↔ holds h x ∨ h = holder ∧ x = r)
    (taken : ∀ x, used' x ↔ used x ∨ x = r) : Custody used' holds' := by
  have unheld : ∀ h, ¬ holds h r := fun h holdsR => free (custody.inUse h r holdsR)
  constructor
  · intro h x holdsX
    rcases (more h x).mp holdsX with before | ⟨-, rfl⟩
    · exact (taken x).mpr (.inl (custody.inUse h x before))
    · exact (taken x).mpr (.inr rfl)
  · intro h h' x holdsX holdsX'
    rcases (more h x).mp holdsX with before | ⟨rfl, rfl⟩
    · rcases (more h' x).mp holdsX' with before' | ⟨-, rfl⟩
      · exact custody.exclusive h h' x before before'
      · exact (unheld h before).elim
    · rcases (more h' x).mp holdsX' with before' | ⟨rfl, -⟩
      · exact (unheld h' before').elim
      · rfl

/-- Resources pass to another holder. -/
theorem pass (custody : Custody used holds) (holder next : Holder) (given : Resource → Prop)
    (owned : ∀ x, given x → holds holder x)
    (passed : ∀ h x, holds' h x ↔ holds h x ∧ ¬ given x ∨ h = next ∧ given x) :
    Custody used holds' := by
  constructor
  · intro h x holdsX
    rcases (passed h x).mp holdsX with ⟨kept, -⟩ | ⟨-, moved⟩
    · exact custody.inUse h x kept
    · exact custody.inUse holder x (owned x moved)
  · intro h h' x holdsX holdsX'
    rcases (passed h x).mp holdsX with ⟨kept, stays⟩ | ⟨rfl, moved⟩
    · rcases (passed h' x).mp holdsX' with ⟨kept', -⟩ | ⟨-, moved'⟩
      · exact custody.exclusive h h' x kept kept'
      · exact (stays moved').elim
    · rcases (passed h' x).mp holdsX' with ⟨-, stays⟩ | ⟨rfl, -⟩
      · exact (stays moved).elim
      · rfl

end Custody

/-! ## What is in use, and nothing else, is held -/

namespace Ledger

/-- A ledger in which nothing is in use. -/
theorem nothing (unused : ∀ x, ¬ used x) (unheld : ∀ h x, ¬ holds h x) : Ledger used holds where
  inUse h x holdsX := (unheld h x holdsX).elim
  exclusive h _ x holdsX := (unheld h x holdsX).elim
  held x usedX := (unused x usedX).elim

/-- What is in use has exactly one holder. -/
theorem used_iff (ledger : Ledger used holds) : used r ↔ ∃! h, holds h r := by
  constructor
  · intro usedR
    obtain ⟨h, holdsR⟩ := ledger.held r usedR
    exact ⟨h, holdsR, fun h' holdsR' => ledger.exclusive h' h r holdsR' holdsR⟩
  · intro unique
    obtain ⟨h, holdsR, -⟩ := unique
    exact ledger.inUse h r holdsR

/-- Only who holds what matters, and what is in use. -/
theorem congr (ledger : Ledger used holds) (sameHolds : ∀ h x, holds' h x ↔ holds h x)
    (sameUsed : ∀ x, used' x ↔ used x) : Ledger used' holds' where
  toCustody := ledger.toCustody.fewer (fun h x => (sameHolds h x).mp)
    fun _ x _ => (sameUsed x).mpr
  held x usedX := by
    obtain ⟨h, holdsX⟩ := ledger.held x ((sameUsed x).mp usedX)
    exact ⟨h, (sameHolds h x).mpr holdsX⟩

/-- A resource that was free is taken by a holder. -/
theorem take (ledger : Ledger used holds) (holder : Holder) (free : ¬ used r)
    (more : ∀ h x, holds' h x ↔ holds h x ∨ h = holder ∧ x = r)
    (taken : ∀ x, used' x ↔ used x ∨ x = r) : Ledger used' holds' where
  toCustody := ledger.toCustody.take holder free more taken
  held x usedX := by
    rcases (taken x).mp usedX with before | rfl
    · obtain ⟨h, holdsX⟩ := ledger.held x before
      exact ⟨h, (more h x).mpr (.inl holdsX)⟩
    · exact ⟨holder, (more holder _).mpr (.inr ⟨rfl, rfl⟩)⟩

/-- Resources are given back. -/
theorem free (ledger : Ledger used holds) (freed : Resource → Prop)
    (less : ∀ h x, holds' h x ↔ holds h x ∧ ¬ freed x)
    (left : ∀ x, used' x ↔ used x ∧ ¬ freed x) : Ledger used' holds' where
  toCustody := ledger.toCustody.fewer (fun h x holdsX => ((less h x).mp holdsX).1)
    fun h x holdsX usedX => (left x).mpr ⟨usedX, ((less h x).mp holdsX).2⟩
  held x usedX := by
    obtain ⟨before, kept⟩ := (left x).mp usedX
    obtain ⟨h, holdsX⟩ := ledger.held x before
    exact ⟨h, (less h x).mpr ⟨holdsX, kept⟩⟩

/-- Holders give back all they have. -/
theorem leave (ledger : Ledger used holds) (gone : Holder → Prop)
    (less : ∀ h x, holds' h x ↔ holds h x ∧ ¬ gone h)
    (left : ∀ x, used' x ↔ used x ∧ ¬ ∃ h, gone h ∧ holds h x) : Ledger used' holds' := by
  refine ledger.free (fun x => ∃ h, gone h ∧ holds h x) (fun h x => ?_) left
  rw [less]
  refine and_congr_right fun holdsX => not_congr ⟨?_, ?_⟩
  · intro leaves
    exact ⟨h, leaves, holdsX⟩
  · rintro ⟨h', leaves, holdsX'⟩
    rwa [ledger.exclusive h h' x holdsX holdsX']

/-- One holder gives its only resource back. -/
theorem release (ledger : Ledger used holds) (holder : Holder)
    (holdsR : ∀ x, holds holder x ↔ x = r)
    (less : ∀ h x, holds' h x ↔ holds h x ∧ h ≠ holder)
    (left : ∀ x, used' x ↔ used x ∧ x ≠ r) : Ledger used' holds' := by
  refine ledger.leave (· = holder) less fun x => ?_
  rw [left]
  refine and_congr_right fun _ => not_congr ?_
  rw [exists_eq_left, holdsR]

/-- Resources pass to another holder. -/
theorem pass (ledger : Ledger used holds) (holder next : Holder) (given : Resource → Prop)
    (owned : ∀ x, given x → holds holder x)
    (passed : ∀ h x, holds' h x ↔ holds h x ∧ ¬ given x ∨ h = next ∧ given x) :
    Ledger used holds' where
  toCustody := ledger.toCustody.pass holder next given owned passed
  held x usedX := by
    by_cases moved : given x
    · exact ⟨next, (passed next x).mpr (.inr ⟨rfl, moved⟩)⟩
    · obtain ⟨h, holdsX⟩ := ledger.held x usedX
      exact ⟨h, (passed h x).mpr (.inl ⟨holdsX, moved⟩)⟩

/-- All that a holder has passes to another one. -/
theorem passAll (ledger : Ledger used holds) (holder next : Holder)
    (passed : ∀ h x, holds' h x ↔ h ≠ holder ∧ holds h x ∨ h = next ∧ holds holder x) :
    Ledger used holds' := by
  refine ledger.pass holder next (holds holder) (fun _ holdsX => holdsX) fun h x => ?_
  rw [passed, and_comm]
  refine or_congr_left (and_congr_right fun holdsX => ⟨?_, ?_⟩)
  · intro other holdsX'
    exact other (ledger.exclusive h holder x holdsX holdsX')
  · rintro kept rfl
    exact kept holdsX

end Ledger

end UKernel.Library
