import Mathlib

/-! # Transition systems and their invariants

A labelled transition system over an arbitrary state type, its reachable states,
and the two rules every safety proof of this development uses: a predicate that
holds initially and is preserved by each step holds of every reachable state
(`UKernel.Library.TransitionSystem.Reachable.invariant`), and a system whose steps are
restricted by a guard reaches no state the unrestricted one does not
(`UKernel.Library.TransitionSystem.Reachable.of_under`). Where a step is computed, a
computed run shows that a state is reachable
(`UKernel.Library.TransitionSystem.Reachable.run`). What each step does exactly when a guard admits
it, all steps of a run do exactly when the guard admits them all
(`UKernel.Library.TransitionSystem.always_iff`).
-/

namespace UKernel.Library

/-- A labelled transition system: the states it starts in and the labelled steps it takes. -/
structure TransitionSystem (State : Type*) (Label : Type*) where
  initial : State → Prop
  step : State → Label → State → Prop

namespace TransitionSystem

variable {State Label : Type*} (system : TransitionSystem State Label)

/-- The states reached from an initial one by finitely many steps. -/
inductive Reachable : State → Prop where
  | initial {state : State} : system.initial state → Reachable state
  | step {state next : State} (label : Label) :
      Reachable state → system.step state label next → Reachable next

/-- The runs from a state, with the labels of their steps in order. -/
inductive Steps : State → List Label → State → Prop where
  | nil {state : State} : Steps state [] state
  | snoc {first last next : State} {labels : List Label} (label : Label) :
      Steps first labels last → system.step last label next → Steps first (labels ++ [label]) next

/-- The same system, taking only the steps that a guard on the state before the step admits. -/
def under (guard : State → Label → Prop) : TransitionSystem State Label where
  initial := system.initial
  step state label next := guard state label ∧ system.step state label next

variable {system}

/-- The invariant rule: what holds initially and survives each step holds of every
reachable state. The step may use that the state before it is reachable. -/
theorem Reachable.invariant (Inv : State → Prop)
    (initially : ∀ state, system.initial state → Inv state)
    (preserved : ∀ state label next, system.Reachable state → Inv state →
      system.step state label next → Inv next)
    {state : State} (reachable : system.Reachable state) : Inv state := by
  induction reachable with
  | initial start => exact initially _ start
  | step label reachable taken ih => exact preserved _ label _ reachable ih taken

/-- A guard only removes runs. -/
theorem Reachable.of_under {guard : State → Label → Prop} {state : State}
    (reachable : (system.under guard).Reachable state) : system.Reachable state := by
  induction reachable with
  | initial start => exact .initial start
  | step label _ taken ih => exact .step label ih taken.2

/-- What a run from a reachable state reaches is reachable. -/
theorem Steps.reachable {first last : State} {labels : List Label}
    (reachable : system.Reachable first) (steps : system.Steps first labels last) :
    system.Reachable last := by
  induction steps with
  | nil => exact reachable
  | snoc label _ taken ih => exact ih.step label taken

/-- A guard only removes runs from a state. -/
theorem Steps.of_under {guard : State → Label → Prop} {first last : State} {labels : List Label}
    (steps : (system.under guard).Steps first labels last) : system.Steps first labels last := by
  induction steps with
  | nil => exact .nil
  | snoc label _ taken ih => exact ih.snoc label taken.2

/-- The invariant rule for the runs from a reachable state under a guard. -/
theorem Steps.invariant {guard : State → Label → Prop} (Inv : State → Prop) {first last : State}
    {labels : List Label} (reachable : system.Reachable first) (start : Inv first)
    (preserved : ∀ state label next, system.Reachable state → Inv state → guard state label →
      system.step state label next → Inv next)
    (steps : (system.under guard).Steps first labels last) : Inv last := by
  induction steps with
  | nil => exact start
  | snoc label earlier taken ih =>
      exact preserved _ label _ (earlier.of_under.reachable reachable) ih taken.1 taken.2

/-! ## Runs of a system whose steps are computed -/

/-- Take the steps of a list of labels, by a function that computes one step. -/
def run (exec : State → Label → Option State) : State → List Label → Option State
  | state, [] => some state
  | state, label :: labels => (exec state label).bind fun next => run exec next labels

/-- What a computed run reaches is reachable. -/
theorem Reachable.run {exec : State → Label → Option State}
    (sound : ∀ state label next, exec state label = some next → system.step state label next)
    {labels : List Label} {state last : State} (reachable : system.Reachable state)
    (ran : TransitionSystem.run exec state labels = some last) : system.Reachable last := by
  induction labels generalizing state with
  | nil =>
      cases ran
      exact reachable
  | cons label labels ih =>
      obtain ⟨next, stepped, ran⟩ := Option.bind_eq_some_iff.mp ran
      exact ih (reachable.step label (sound _ _ _ stepped)) ran

/-- A computed run is a run. -/
theorem Steps.run {exec : State → Label → Option State}
    (sound : ∀ state label next, exec state label = some next → system.step state label next)
    {before labels : List Label} {start state last : State}
    (steps : system.Steps start before state)
    (ran : TransitionSystem.run exec state labels = some last) :
    system.Steps start (before ++ labels) last := by
  induction labels generalizing before state with
  | nil =>
      cases ran
      rwa [List.append_nil]
  | cons label labels ih =>
      obtain ⟨next, stepped, ran⟩ := Option.bind_eq_some_iff.mp ran
      rw [List.append_cons]
      exact ih (steps.snoc label (sound _ _ _ stepped)) ran

/-! ## All steps of a run -/

variable (system) in
/-- What holds of every step of the runs with the given labels. -/
def Always (start : State) (labels : List Label) (P : State → Label → State → Prop) : Prop :=
  ∀ before label behind state next, labels = before ++ label :: behind →
    system.Steps start before state → system.step state label next → P state label next

section Always

variable {guard : State → Label → Prop} {P : State → Label → State → Prop} {start state : State}
  {labels : List Label} {label : Label}

theorem always_nil : system.Always start [] P :=
  fun before label behind state next parts _ _ => by simp at parts

theorem always_snoc : system.Always start (labels ++ [label]) P ↔ system.Always start labels P ∧
    ∀ state next, system.Steps start labels state → system.step state label next →
      P state label next := by
  constructor
  · intro always
    constructor
    · intro before earlier behind state next parts steps taken
      exact always before earlier (behind ++ [label]) state next (by simp [parts]) steps taken
    · intro state next steps taken
      exact always labels label [] state next rfl steps taken
  · rintro ⟨always, last⟩ before other behind state next parts steps taken
    rcases List.eq_nil_or_concat behind with rfl | ⟨front, final, rfl⟩
    · obtain ⟨rfl, same⟩ := List.append_inj' parts rfl
      cases same
      exact last state next steps taken
    · rw [List.concat_eq_append, ← List.cons_append, ← List.append_assoc] at parts
      obtain ⟨rfl, -⟩ := List.append_inj' parts rfl
      exact always before other front state next rfl steps taken

/-- A run whose steps the guard admits is one of the system under the guard. -/
theorem Steps.under (start_ : system.initial start) (steps : system.Steps start labels state)
    (admits : system.Always start labels fun state label _ => guard state label) :
    (system.under guard).Reachable state := by
  induction steps with
  | nil => exact .initial start_
  | snoc label steps taken ih =>
      obtain ⟨before, last⟩ := always_snoc.mp admits
      exact .step label (ih before) ⟨last _ _ steps taken, taken⟩

/-- **Runs up to the guard.** If from each state that is reached under a guard the steps that have a
property are those that the guard admits, then all steps of a run have it exactly when the guard
admits them all. -/
theorem always_iff (start_ : system.initial start)
    (each : ∀ state label next, (system.under guard).Reachable state →
      system.step state label next → (P state label next ↔ guard state label))
    (labels : List Label) :
    system.Always start labels P ↔ system.Always start labels fun state label _ =>
      guard state label := by
  induction labels using List.reverseRecOn with
  | nil => exact iff_of_true always_nil always_nil
  | append_singleton labels label ih =>
      rw [always_snoc, always_snoc, ih]
      refine and_congr_right fun admits => ?_
      refine forall_congr' fun state => forall_congr' fun next => forall_congr' fun steps => ?_
      exact forall_congr' fun taken => each state label next (steps.under start_ admits) taken

end Always

end TransitionSystem

end UKernel.Library
