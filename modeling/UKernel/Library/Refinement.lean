import UKernel.Library.Call

/-! # Two models of one function

A function that two models embed has a call in each of them, on states that show different parts of
the machine. Where the states are related, a call refines another if each of its runs that returns
is one of the other (`UKernel.Library.Refines`): the values and the states that are left are related
again. A step that the second model does not have leaves the relation as it was
(`UKernel.Library.Refines.skip`).
-/

namespace UKernel.Library

variable {State State' α α' β β' : Type}

/-- From states related by `P`, each run of the first call that returns is one of the second, and
the values and the states that are left are related by `Q`. -/
def Refines (P : State → State' → Prop) (call : Call State α) (call' : Call State' α')
    (Q : α → α' → State → State' → Prop) : Prop :=
  ∀ s t a s', P s t → call.run s = .ok (a, s') →
    ∃ a' t', call'.run t = .ok (a', t') ∧ Q a a' s' t'

/-- The relation between values that are the same. -/
def SameValue (P : State → State' → Prop) (a a' : α) (s : State) (t : State') : Prop :=
  a = a' ∧ P s t

namespace Refines

variable {P : State → State' → Prop} {call : Call State α} {call' : Call State' α'}
  {R : α → α' → State → State' → Prop} {Q : β → β' → State → State' → Prop}

theorem pure {b : β} {b' : β'} (holds : ∀ s t, P s t → Q b b' s t) :
    Refines P (Pure.pure b) (Pure.pure b') Q := by
  intro s t a s' related ran
  obtain ⟨rfl, rfl⟩ := call_pure_returns.mp ran
  exact ⟨b', t, rfl, holds s t related⟩

theorem bind {second : α → Call State β} {second' : α' → Call State' β'}
    (one : Refines P call call' R) (two : ∀ a a', Refines (R a a') (second a) (second' a') Q) :
    Refines P (call >>= second) (call' >>= second') Q := by
  intro s t b s'' related ran
  obtain ⟨a, s', first, rest⟩ := call_bind_returns.mp ran
  obtain ⟨a', t', first', related'⟩ := one s t a s' related first
  obtain ⟨b', t'', rest', related''⟩ := two a a' s' t' b s'' related' rest
  exact ⟨b', t'', call_bind_returns.mpr ⟨a', t', first', rest'⟩, related''⟩

/-- Two calls that return the same value. -/
theorem bind_same {P' : State → State' → Prop} {call' : Call State' α} {second : α → Call State β}
    {second' : α → Call State' β'} (one : Refines P call call' (SameValue P'))
    (two : ∀ a, Refines P' (second a) (second' a) Q) :
    Refines P (call >>= second) (call' >>= second') Q := by
  refine one.bind fun a a' s t b s' related ran => ?_
  obtain ⟨rfl, related⟩ := related
  exact two a s t b s' related ran

/-- A step that the second model does not have. -/
theorem skip (P' : α → State → State' → Prop) {second : α → Call State β}
    {rest : Call State' β'} (alone : ∀ s t a s', P s t → call.run s = .ok (a, s') → P' a s' t)
    (two : ∀ a, Refines (P' a) (second a) rest Q) : Refines P (call >>= second) rest Q := by
  intro s t b s'' related ran
  obtain ⟨a, s', first, ran⟩ := call_bind_returns.mp ran
  exact two a s' t b s'' (alone s t a s' related first) ran

/-- A step that the second model does not have, behind one that it has. -/
theorem bind_skip {Q : β → α' → State → State' → Prop} {rest : α → Call State β}
    (one : Refines P call call' R)
    (alone : ∀ a a' s t b s', R a a' s t → (rest a).run s = .ok (b, s') → Q b a' s' t) :
    Refines P (call >>= rest) call' Q := by
  intro s t b s'' related ran
  obtain ⟨a, s', first, ran⟩ := call_bind_returns.mp ran
  obtain ⟨a', t', first', related'⟩ := one s t a s' related first
  exact ⟨a', t', first', alone a a' s' t' b s'' related' ran⟩

theorem modify (P' : State → State' → Prop) {f : State → State} {f' : State' → State'}
    (related : ∀ s t, P s t → P' (f s) (f' t)) :
    Refines P (modify f : Call State Unit) (modify f' : Call State' Unit) (SameValue P') := by
  intro s t a s' holds ran
  cases call_modify_returns.mp ran
  exact ⟨a, f' t, call_modify_returns.mpr rfl, rfl, related s t holds⟩

end Refines

end UKernel.Library
