import UKernel.Library.Fault

/-! # Calls that read and change a state

A call of the source reads and changes a state, and returns a value or stops the machine.
`call_bind_returns` takes a call that returned apart into its steps, and the rules of
`UKernel.Library.Keeps` show that a call relates the states before and after it by a preorder,
whatever its value: that a field is left alone, or that a set of bytes is. The rules of
`UKernel.Library.Triple` are those of pre- and postconditions.
-/

namespace UKernel.Library

/-- A computation on a state that returns a value or stops the machine. -/
abbrev Call (State α : Type) := StateT State (Except Fault) α

variable {State α β : Type} {s s' s'' : State}

/-- A sequence of two calls returned exactly when the first returned a value from which the
second did. -/
theorem call_bind_returns {first : Call State α} {second : α → Call State β} {b : β} :
    (first >>= second).run s = .ok (b, s'') ↔
      ∃ a s', first.run s = .ok (a, s') ∧ (second a).run s' = .ok (b, s'') := by
  rw [StateT.run_bind, except_bind_eq_ok]
  constructor
  · intro ran
    obtain ⟨⟨a, middle⟩, ranFirst, ranSecond⟩ := ran
    exact ⟨a, middle, ranFirst, ranSecond⟩
  · intro ran
    obtain ⟨a, middle, ranFirst, ranSecond⟩ := ran
    exact ⟨(a, middle), ranFirst, ranSecond⟩

/-- The first of two calls is known. -/
theorem call_bind_of {first : Call State α} {second : α → Call State β} {a : α}
    (ran : first.run s = .ok (a, s')) : (first >>= second).run s = (second a).run s' := by
  rw [StateT.run_bind, ran]
  rfl

@[simp] theorem call_pure_returns {a b : α} :
    (pure a : Call State α).run s = .ok (b, s') ↔ a = b ∧ s = s' := by
  rw [StateT.run_pure, except_pure_eq, Except.ok.injEq, Prod.mk.injEq]

@[simp] theorem call_get_returns {a : State} :
    (get : Call State State).run s = .ok (a, s') ↔ s = a ∧ s = s' := by
  rw [StateT.run_get, except_pure_eq, Except.ok.injEq, Prod.mk.injEq]

@[simp] theorem call_modify_returns {f : State → State} :
    (modify f : Call State Unit).run s = .ok ((), s') ↔ f s = s' := by
  rw [StateT.run_modify, except_pure_eq, Except.ok.injEq, Prod.mk.injEq]
  exact and_iff_right rfl

@[simp] theorem call_lift_returns {result : Except Fault α} {a : α} :
    (liftM result : Call State α).run s = .ok (a, s') ↔ result = .ok a ∧ s = s' := by
  change (result >>= fun x => pure (x, s)) = .ok (a, s') ↔ _
  rw [except_bind_eq_ok]
  constructor
  · intro ran
    obtain ⟨value, same, rest⟩ := ran
    cases rest
    exact ⟨same, rfl⟩
  · intro ran
    obtain ⟨same, rfl⟩ := ran
    exact ⟨a, same, rfl⟩

@[simp] theorem call_throw_returns {fault : Fault} {a : α} :
    ¬ (throw fault : Call State α).run s = .ok (a, s') := by
  intro ran
  cases ran

/-- The value of a call, if it returned. -/
def valueOf (call : Call State α) (s : State) : Option α :=
  (call.run s).toOption.map Prod.fst

theorem returned_of_toOption {result : Except Fault α} {a : α} (some_ : result.toOption = some a) :
    result = .ok a := by
  cases result with
  | error fault => cases some_
  | ok value =>
      cases some_
      rfl

theorem exists_of_valueOf {call : Call State α} {a : α} (returned : valueOf call s = some a) :
    ∃ s', call.run s = .ok (a, s') := by
  unfold valueOf at returned
  cases ran : call.run s with
  | error fault =>
      rw [ran] at returned
      cases returned
  | ok result =>
      rw [ran] at returned
      cases returned
      exact ⟨result.2, rfl⟩

/-! ## Calls on a part of a state -/

/-- A call on a part of a state. -/
def onPart {Part : Type} (part : State → Part) (store : State → Part → State)
    (call : Call Part α) : Call State α := do
  let s ← get
  let (a, after) ← call.run (part s)
  set (store s after)
  return a

/-- A call on a part of a state changes that part, and nothing else. -/
theorem onPart_returns {Part : Type} {part : State → Part} {store : State → Part → State}
    {call : Call Part α} {a : α} :
    (onPart part store call).run s = .ok (a, s') ↔
      ∃ after, call.run (part s) = .ok (a, after) ∧ s' = store s after := by
  constructor
  · intro ran
    obtain ⟨_, _, read, ran⟩ := call_bind_returns.mp ran
    obtain ⟨rfl, rfl⟩ := call_get_returns.mp read
    obtain ⟨⟨b, after⟩, _, lifted, ran⟩ := call_bind_returns.mp ran
    obtain ⟨ran', rfl⟩ := call_lift_returns.mp lifted
    obtain ⟨_, _, stored, ran⟩ := call_bind_returns.mp ran
    cases stored
    obtain ⟨rfl, rfl⟩ := call_pure_returns.mp ran
    exact ⟨after, ran', rfl⟩
  · rintro ⟨after, ran, rfl⟩
    rw [onPart, call_bind_of (call_get_returns.mpr ⟨rfl, rfl⟩),
      call_bind_of (call_lift_returns.mpr ⟨ran, rfl⟩)]
    rfl

/-! ## What a call leaves related -/

/-- A call that returns relates the states before and after it. -/
def Keeps (R : State → State → Prop) (call : Call State α) : Prop :=
  ∀ s a s', call.run s = .ok (a, s') → R s s'

section Keeps

variable {R : State → State → Prop}

theorem Keeps.pure [Std.Refl R] (a : α) : Keeps R (Pure.pure a : Call State α) := by
  intro s b s' ran
  obtain ⟨-, rfl⟩ := call_pure_returns.mp ran
  exact Std.Refl.refl s

theorem Keeps.get [Std.Refl R] : Keeps R (get : Call State State) := by
  intro s a s' ran
  obtain ⟨-, rfl⟩ := call_get_returns.mp ran
  exact Std.Refl.refl s

theorem Keeps.lift [Std.Refl R] (result : Except Fault α) :
    Keeps R (liftM result : Call State α) := by
  intro s a s' ran
  obtain ⟨-, rfl⟩ := call_lift_returns.mp ran
  exact Std.Refl.refl s

theorem Keeps.throw (fault : Fault) : Keeps R (throw fault : Call State α) := by
  intro s a s' ran
  exact (call_throw_returns ran).elim

theorem Keeps.modify {f : State → State} (related : ∀ s, R s (f s)) :
    Keeps R (modify f : Call State Unit) := by
  intro s a s' ran
  cases call_modify_returns.mp ran
  exact related s

theorem Keeps.bind [IsTrans State R] {first : Call State α} {second : α → Call State β}
    (keepsFirst : Keeps R first) (keepsSecond : ∀ a, Keeps R (second a)) :
    Keeps R (first >>= second) := by
  intro s b s'' ran
  obtain ⟨a, middle, ranFirst, ranSecond⟩ := call_bind_returns.mp ran
  exact IsTrans.trans _ _ _ (keepsFirst s a middle ranFirst)
    (keepsSecond a middle b s'' ranSecond)

/-- A call that keeps a relation keeps a weaker one. -/
theorem Keeps.mono {R' : State → State → Prop} {call : Call State α} (keeps : Keeps R call)
    (weaker : ∀ s s', R s s' → R' s s') : Keeps R' call :=
  fun s a s' ran => weaker s s' (keeps s a s' ran)

end Keeps

/-! ## Pre- and postconditions -/

/-- From a state that satisfies `P`, a call that returns leaves a state that satisfies `Q`. -/
def Triple (P : State → Prop) (call : Call State α) (Q : α → State → Prop) : Prop :=
  ∀ s a s', P s → call.run s = .ok (a, s') → Q a s'

section Triple

variable {P : State → Prop} {Q : β → State → Prop}

theorem Triple.bind {R : α → State → Prop} {first : Call State α} {second : α → Call State β}
    (one : Triple P first R) (two : ∀ a, Triple (R a) (second a) Q) :
    Triple P (first >>= second) Q := by
  intro s b s'' holds ran
  obtain ⟨a, middle, ranFirst, ranSecond⟩ := call_bind_returns.mp ran
  exact two a middle b s'' (one s a middle holds ranFirst) ranSecond

theorem Triple.pure {b : β} (holds : ∀ s, P s → Q b s) : Triple P (Pure.pure b) Q := by
  intro s b' s' before ran
  obtain ⟨rfl, rfl⟩ := call_pure_returns.mp ran
  exact holds s before

theorem Triple.throw (fault : Fault) : Triple P (throw fault) Q := by
  intro s b s' _ ran
  exact (call_throw_returns ran).elim

theorem Triple.lift (result : Except Fault α) : Triple P (liftM result) fun _ => P := by
  intro s a s' holds ran
  obtain ⟨-, rfl⟩ := call_lift_returns.mp ran
  exact holds

/-- The state that was read is the one before the call. -/
theorem Triple.get : Triple P get fun s s' => s = s' ∧ P s' := by
  intro s a s' holds ran
  obtain ⟨rfl, rfl⟩ := call_get_returns.mp ran
  exact ⟨rfl, holds⟩

theorem Triple.weaken {P' : State → Prop} {call : Call State β} (triple : Triple P call Q)
    (weaker : ∀ s, P' s → P s) : Triple P' call Q :=
  fun s b s' holds ran => triple s b s' (weaker s holds) ran

/-- A call keeps what the relation between the states before and after it keeps. -/
theorem Keeps.triple {R : State → State → Prop} {call : Call State α} (keeps : Keeps R call)
    (stable : ∀ s s', P s → R s s' → P s') : Triple P call fun _ => P :=
  fun s a s' holds ran => stable s s' holds (keeps s a s' ran)

/-- A call that does not change the state keeps every property. -/
theorem Keeps.triple_same {call : Call State α} (same : Keeps (· = ·) call) :
    Triple P call fun _ => P :=
  same.triple fun _ _ holds is => is ▸ holds

/-- Reading the state keeps every property. -/
theorem Triple.get_keeps : Triple P (MonadState.get : Call State State) fun _ => P :=
  fun s a s' holds ran => (Triple.get s a s' holds ran).2

end Triple

/-! ## Faults that do not happen -/

/-- A sequence of two calls ended in a fault exactly when one of them did. -/
theorem call_bind_error {first : Call State α} {second : α → Call State β} {fault : Fault} :
    (first >>= second).run s = .error fault ↔ first.run s = .error fault ∨
      ∃ a s', first.run s = .ok (a, s') ∧ (second a).run s' = .error fault := by
  rw [StateT.run_bind]
  cases ran : first.run s with
  | error other => simp [bind, Except.bind]
  | ok result =>
      obtain ⟨a, s'⟩ := result
      simp [bind, Except.bind]

/-- A lifted result ends in its own fault. -/
theorem call_lift_error {result : Except Fault α} {fault : Fault} :
    (liftM result : Call State α).run s = .error fault ↔ result = .error fault := by
  change (result >>= fun x => pure (x, s)) = .error fault ↔ _
  cases result with
  | error other => simp [bind, Except.bind]
  | ok a => simp [bind, Except.bind, pure, Except.pure]

/-- The fault in which a call ended, if it did. -/
def faultOf (call : Call State α) (s : State) : Option Fault :=
  match call.run s with
  | .ok _ => none
  | .error fault => some fault

theorem faultOf_eq_some {call : Call State α} {fault : Fault} :
    faultOf call s = some fault ↔ call.run s = .error fault := by
  unfold faultOf
  cases call.run s with
  | ok result => simp
  | error other => simp

/-- No run of a call ends in a fault. -/
def Avoids (fault : Fault) (call : Call State α) : Prop :=
  ∀ s, call.run s ≠ .error fault

/-- From a state that satisfies `P`, a call does not end in a fault, and if it returns it leaves a
state that satisfies `Q`. -/
def SafeTriple (fault : Fault) (P : State → Prop) (call : Call State α) (Q : α → State → Prop) :
    Prop :=
  (∀ s, P s → call.run s ≠ .error fault) ∧ Triple P call Q

section Avoids

variable {fault : Fault}

theorem Avoids.pure (a : α) : Avoids fault (Pure.pure a : Call State α) := by
  intro s ran
  cases ran

theorem Avoids.get : Avoids fault (MonadState.get : Call State State) := by
  intro s ran
  cases ran

theorem Avoids.modify (f : State → State) : Avoids fault (modify f : Call State Unit) := by
  intro s ran
  cases ran

theorem Avoids.throw {other : Fault} (apart : other ≠ fault) :
    Avoids fault (throw other : Call State α) := by
  intro s ran
  exact apart (Except.error.inj ran)

theorem Avoids.lift {result : Except Fault α} (avoids : result ≠ .error fault) :
    Avoids fault (liftM result : Call State α) := by
  intro s ran
  cases result with
  | error other => exact avoids (congrArg Except.error (Except.error.inj ran))
  | ok value => cases ran

theorem Avoids.bind {first : Call State α} {second : α → Call State β}
    (one : Avoids fault first) (two : ∀ a, Avoids fault (second a)) :
    Avoids fault (first >>= second) := by
  intro s ran
  rcases call_bind_error.mp ran with failed | ⟨a, s', -, failed⟩
  · exact one s failed
  · exact two a s' failed

/-- A call that avoids a fault from every state avoids it from some. -/
theorem Avoids.safe {P : State → Prop} {call : Call State α} {Q : α → State → Prop}
    (avoids : Avoids fault call) (triple : Triple P call Q) : SafeTriple fault P call Q :=
  ⟨fun s _ => avoids s, triple⟩

theorem SafeTriple.bind {P : State → Prop} {Q : β → State → Prop} {R : α → State → Prop}
    {first : Call State α} {second : α → Call State β} (one : SafeTriple fault P first R)
    (two : ∀ a, SafeTriple fault (R a) (second a) Q) : SafeTriple fault P (first >>= second) Q := by
  refine ⟨fun s holds ran => ?_, .bind one.2 fun a => (two a).2⟩
  rcases call_bind_error.mp ran with failed | ⟨a, s', returned, failed⟩
  · exact one.1 s holds failed
  · exact (two a).1 s' (one.2 s a s' holds returned) failed

/-- A part of the precondition that does not depend on the state. -/
theorem SafeTriple.assume {P : State → Prop} {Q : α → State → Prop} {holds : Prop}
    {call : Call State α} (safe : holds → SafeTriple fault P call Q) :
    SafeTriple fault (fun s => P s ∧ holds) call Q :=
  ⟨fun s both => (safe both.2).1 s both.1, fun s a s' both => (safe both.2).2 s a s' both.1⟩

end Avoids

/-! ### Computations without a state -/

/-- A computation that returned did not end in a fault. -/
theorem pure_avoids {fault : Fault} (a : α) : (Pure.pure a : Except Fault α) ≠ .error fault := by
  intro ran
  cases ran

theorem require_avoids {condition : Prop} [Decidable condition] {fault : Fault}
    (apart : fault ≠ .assertion) : require condition ≠ .error fault := by
  unfold require
  split
  · intro ran
    cases ran
  · intro ran
    exact apart (Except.error.inj ran).symm

theorem except_bind_avoids {first : Except Fault α} {second : α → Except Fault β} {fault : Fault}
    (one : first ≠ .error fault) (two : ∀ a, second a ≠ .error fault) :
    (first >>= second) ≠ .error fault := by
  cases first with
  | error other => exact fun ran => one (congrArg Except.error (Except.error.inj ran))
  | ok a => exact two a

/-- A condition is not the source of any fault but a failed assertion. -/
theorem Avoids.require {condition : Prop} [Decidable condition] {fault : Fault}
    (apart : fault ≠ .assertion) :
    Avoids fault (liftM (require condition) : Call State Unit) :=
  .lift (require_avoids apart)

attribute [grind ←] Avoids.bind Avoids.require Avoids.throw Avoids.pure Avoids.get Avoids.modify

end UKernel.Library
