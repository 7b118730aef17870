import UKernel.Library.Fault

/-! # Calls whose effects outlive them

A call that stops the machine leaves behind what it did before. Here a call ends in a state,
whether it returned a value (`UKernel.Library.Returned`) or not. For a property that later states
lose but never regain, `UKernel.Library.traced_bind_iff` splits a run into its steps. A call that
only records what it does returns what a computation without state does
(`UKernel.Library.Computes`).
-/

namespace UKernel.Library

/-- A computation on a state that returns a value or stops, and leaves a state in both cases. -/
abbrev Traced (State α : Type) := ExceptT Fault (StateM State) α

variable {State α β : Type}

/-- What a call returns, and the state it leaves. -/
def outcome (call : Traced State α) (s : State) : Except Fault α × State :=
  (ExceptT.run call).run s

/-- The state that a call leaves. -/
def after (call : Traced State α) (s : State) : State :=
  (outcome call s).2

/-- A call returned a value, and left a state. -/
def Returned (call : Traced State α) (s : State) (a : α) (s' : State) : Prop :=
  outcome call s = (.ok a, s')

section Rules

variable {s s' s'' : State} {call first : Traced State α} {second : α → Traced State β}

theorem Returned.after_eq {a : α} (returned : Returned call s a s') : after call s = s' := by
  rw [after, returned]

theorem Returned.unique {a a' : α} (returned : Returned call s a s')
    (returned' : Returned call s a' s'') : a = a' ∧ s' = s'' := by
  have same := returned.symm.trans returned'
  cases same
  exact ⟨rfl, rfl⟩

theorem returned_pure {a b : α} : Returned (pure a : Traced State α) s b s' ↔ a = b ∧ s = s' := by
  change ((.ok a, s) : Except Fault α × State) = _ ↔ _
  rw [Prod.mk.injEq, Except.ok.injEq]

theorem after_pure {a : α} : after (pure a : Traced State α) s = s := rfl

theorem returned_lift {result : Except Fault α} {a : α} :
    Returned (liftM result : Traced State α) s a s' ↔ result = .ok a ∧ s = s' := by
  change ((result, s) : Except Fault α × State) = _ ↔ _
  rw [Prod.mk.injEq]

theorem after_lift {result : Except Fault α} : after (liftM result : Traced State α) s = s := rfl

theorem returned_get {a : State} : Returned (get : Traced State State) s a s' ↔ s = a ∧ s = s' := by
  change ((.ok s, s) : Except Fault State × State) = _ ↔ _
  rw [Prod.mk.injEq, Except.ok.injEq]

theorem returned_modify {f : State → State} :
    Returned (modify f : Traced State Unit) s () s' ↔ f s = s' := by
  change ((.ok (), f s) : Except Fault Unit × State) = _ ↔ _
  rw [Prod.mk.injEq]
  exact and_iff_right rfl

/-- The second of two calls runs if the first returned. -/
theorem outcome_bind : outcome (first >>= second) s =
    match outcome first s with
    | (.ok a, s') => outcome (second a) s'
    | (.error fault, s') => (.error fault, s') := by
  change (ExceptT.run first >>= ExceptT.bindCont second).run s = _
  rw [StateT.run_bind]
  change (ExceptT.bindCont second (outcome first s).1).run (outcome first s).2 = _
  rcases outcome first s with ⟨result, middle⟩
  cases result with
  | error fault => rfl
  | ok a => rfl

theorem returned_bind {b : β} : Returned (first >>= second) s b s'' ↔
    ∃ a s', Returned first s a s' ∧ Returned (second a) s' b s'' := by
  unfold Returned
  rw [outcome_bind]
  rcases outcome first s with ⟨result, middle⟩
  cases result with
  | error fault => simp
  | ok a => simp

theorem outcome_bind_of {a : α} (returned : Returned first s a s') :
    outcome (first >>= second) s = outcome (second a) s' := by
  rw [outcome_bind, returned]

/-- The second of two calls does not run if the first stops. -/
theorem after_bind_stopped (stopped : ∀ a s', ¬ Returned first s a s') :
    after (first >>= second) s = after first s := by
  unfold Returned at stopped
  rw [after, outcome_bind, after]
  rcases ran : outcome first s with ⟨result, middle⟩
  cases result with
  | error fault => rfl
  | ok a => exact absurd ran (stopped a middle)

theorem after_bind_of {a : α} (returned : Returned first s a s') :
    after (first >>= second) s = after (second a) s' :=
  congrArg Prod.snd (outcome_bind_of returned)

end Rules

/-! ## Calls whose value does not depend on the state -/

/-- From every state a call returns what a computation without state does. -/
def Computes (call : Traced State α) (result : Except Fault α) : Prop :=
  ∀ s, (outcome call s).1 = result

section Computes

theorem Computes.pure (a : α) : Computes (Pure.pure a : Traced State α) (.ok a) :=
  fun _ => rfl

theorem Computes.throw (fault : Fault) : Computes (throw fault : Traced State α) (.error fault) :=
  fun _ => rfl

theorem Computes.lift (result : Except Fault α) :
    Computes (liftM result : Traced State α) result :=
  fun _ => rfl

theorem Computes.modify (f : State → State) : Computes (modify f : Traced State Unit) (.ok ()) :=
  fun _ => rfl

theorem Computes.bind {first : Traced State α} {second : α → Traced State β}
    {result : Except Fault α} {rest : α → Except Fault β} (one : Computes first result)
    (two : ∀ a, Computes (second a) (rest a)) : Computes (first >>= second) (result >>= rest) := by
  intro s
  have before := one s
  rw [outcome_bind]
  rcases ran : outcome first s with ⟨value, middle⟩
  rw [ran] at before
  cases before
  cases value with
  | error fault => rfl
  | ok a => exact two a middle

end Computes

/-! ## What a call leaves related -/

/-- A call relates the state it starts from and the one it leaves, whether it returns or not. -/
def Leaves (R : State → State → Prop) (call : Traced State α) : Prop :=
  ∀ s, R s (after call s)

section Leaves

variable {R : State → State → Prop}

theorem Leaves.pure [Std.Refl R] (a : α) : Leaves R (Pure.pure a : Traced State α) :=
  fun s => Std.Refl.refl s

theorem Leaves.throw [Std.Refl R] (fault : Fault) : Leaves R (throw fault : Traced State α) :=
  fun s => Std.Refl.refl s

theorem Leaves.get [Std.Refl R] : Leaves R (get : Traced State State) :=
  fun s => Std.Refl.refl s

theorem Leaves.lift [Std.Refl R] (result : Except Fault α) :
    Leaves R (liftM result : Traced State α) := by
  intro s
  cases result with
  | error fault => exact Std.Refl.refl s
  | ok a => exact Std.Refl.refl s

theorem Leaves.modify {f : State → State} (related : ∀ s, R s (f s)) :
    Leaves R (modify f : Traced State Unit) :=
  related

theorem Leaves.bind [IsTrans State R] {first : Traced State α} {second : α → Traced State β}
    (one : Leaves R first) (two : ∀ a, Leaves R (second a)) : Leaves R (first >>= second) := by
  intro s
  have before := one s
  have behind := fun a => two a (after first s)
  unfold after at before behind ⊢
  rw [outcome_bind]
  rcases ran : outcome first s with ⟨result, middle⟩
  rw [ran] at before behind
  cases result with
  | error fault => exact before
  | ok a => exact IsTrans.trans _ _ _ before (behind a)

/-- A call that leaves two states related leaves them in a weaker relation. -/
theorem Leaves.mono {R' : State → State → Prop} {call : Traced State α} (leaves : Leaves R call)
    (weaker : ∀ s s', R s s' → R' s s') : Leaves R' call :=
  fun s => weaker s _ (leaves s)

end Leaves

/-- Where a property holds afterwards, it held before. -/
def Loses (P : State → Prop) (s s' : State) : Prop :=
  P s' → P s

/-- Where a property holds before, it holds afterwards. -/
def Preserves (P : State → Prop) (s s' : State) : Prop :=
  P s → P s'

section Properties

variable {P : State → Prop}

instance : Std.Refl (Loses P) := ⟨fun _ holds => holds⟩

instance : IsTrans State (Loses P) := ⟨fun _ _ _ one two holds => one (two holds)⟩

instance : Std.Refl (Preserves P) := ⟨fun _ holds => holds⟩

instance : IsTrans State (Preserves P) := ⟨fun _ _ _ one two holds => two (one holds)⟩

/-- A property that calls may lose but do not regain holds of the state that a sequence leaves if
and only if it holds after each of the steps that were made. -/
theorem traced_bind_iff {first : Traced State α} {second : α → Traced State β} {s : State}
    (loses : ∀ a, Leaves (Loses P) (second a)) :
    P (after (first >>= second) s) ↔
      P (after first s) ∧ ∀ a s', Returned first s a s' → P (after (second a) s') := by
  unfold Returned
  rw [after, outcome_bind, after]
  rcases outcome first s with ⟨result, middle⟩
  cases result with
  | error fault => simp
  | ok a =>
      simp only [Prod.mk.injEq, Except.ok.injEq, and_imp]
      constructor
      · intro holds
        refine ⟨loses a middle holds, ?_⟩
        rintro _ _ rfl rfl
        exact holds
      · intro both
        exact both.2 a middle rfl rfl

end Properties

end UKernel.Library
