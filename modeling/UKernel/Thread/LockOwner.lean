import UKernel.Thread.Lock

/-! # Mutual exclusion of the recursive lock

The invariant names the thread that has the lock, from the step in which its `sema_down`
takes the value to the `sema_up` that gives it back. For that thread, `holder`,
`holder_repeat_nr` and its depth are known at each statement (`UKernel.Thread.Pc.Owns`); every
other thread is outside or still waiting.
-/

namespace UKernel.Thread

open UKernel.Library

variable {Tid : Type}

/-- The places of a thread that does not have the lock. -/
def Pc.Waits (pc : Pc) : Prop :=
  pc = .outside ∨ pc = .acquireTest ∨ pc = .semaDown ∨ pc = .blocked ∨ pc = .woken

/-- What the thread that has the lock knows at each statement about `holder`,
`holder_repeat_nr` and its own depth. -/
def Pc.Owns (t : Tid) (holder : Option Tid) (nr depth : Nat) : Pc → Prop
  | .outside | .assertHolder | .testRepeat =>
      holder = some t ∧ nr = depth ∧ 0 < depth ∧ depth < 2 ^ 32
  | .acquireTest | .incrRepeat => holder = some t ∧ nr = depth ∧ 0 < depth ∧ depth + 1 < 2 ^ 32
  | .decrRepeat => holder = some t ∧ nr = depth ∧ 1 < depth ∧ depth < 2 ^ 32
  | .assertRepeatOne | .clearHolder => holder = some t ∧ nr = depth ∧ depth = 1
  | .setHolder => holder = none ∧ nr = 0 ∧ depth = 0
  | .assertRepeatZero | .setRepeat => holder = some t ∧ nr = 0 ∧ depth = 0
  | .clearRepeat => holder = none ∧ nr = 1 ∧ depth = 1
  | .semaUp => holder = none ∧ nr = 0 ∧ depth = 1
  | .semaDown | .blocked | .woken => False

variable {s s' : LockState Tid} {t : Tid}

/-- The invariant: the lock is free, or one thread has it. -/
structure Owned (s : LockState Tid) (owner : Option Tid) : Prop where
  others : ∀ t, owner ≠ some t → s.depth t = 0 ∧ (s.pc t).Waits
  insider : ∀ t, owner = some t → (s.pc t).Owns t s.holder s.holderRepeatNr (s.depth t)
  holder : s.holder = none ∨ s.holder = owner
  free : owner = none → s.holder = none ∧ s.holderRepeatNr = 0
  value : s.value = if owner = none then 1 else 0
  waiters_nodup : s.waiters.Nodup
  waiters_exact : ∀ t, t ∈ s.waiters ↔ s.pc t = .blocked

/-- The lock is free or one thread has it. -/
def LockConsistent (s : LockState Tid) : Prop :=
  ∃ owner, Owned s owner

/-- `lock_init` leaves the lock free. -/
theorem lockInit_owned : Owned (lockInit : LockState Tid) none where
  others _ _ := ⟨rfl, .inl rfl⟩
  insider := by simp
  holder := .inl rfl
  free _ := ⟨rfl, rfl⟩
  value := rfl
  waiters_nodup := .nil
  waiters_exact _ := by simp [lockInit]

/-- A thread that has the lock is not blocked. -/
theorem Owned.not_blocked (owned : Owned s (some t)) : s.pc t ≠ .blocked := by
  intro blocked
  have facts := owned.insider t rfl
  rw [blocked] at facts
  exact facts

section Steps

variable [DecidableEq Tid]

@[simp] theorem goto_pc (pc : Pc) (u : Tid) :
    (s.goto t pc).pc u = if u = t then pc else s.pc u := by
  simp [LockState.goto, Function.update_apply]

@[simp] theorem returns_pc (depth : Nat) (u : Tid) :
    (s.returns t depth).pc u = if u = t then .outside else s.pc u := by
  simp [LockState.returns]

@[simp] theorem returns_depth (depth : Nat) (u : Tid) :
    (s.returns t depth).depth u = if u = t then depth else s.depth u := by
  simp [LockState.returns, Function.update_apply]

/-- The owner runs a statement after which it still has the lock. -/
theorem Owned.move (owned : Owned s (some t))
    (pc : ∀ u, u ≠ t → s'.pc u = s.pc u) (depth : ∀ u, u ≠ t → s'.depth u = s.depth u)
    (facts : (s'.pc t).Owns t s'.holder s'.holderRepeatNr (s'.depth t))
    (holder : s'.holder = none ∨ s'.holder = some t)
    (value : s'.value = s.value) (waiters : s'.waiters = s.waiters) : Owned s' (some t) where
  others u other := by
    have apart : u ≠ t := fun same => other (congrArg some same.symm)
    rw [pc u apart, depth u apart]
    exact owned.others u other
  insider u same := by
    cases same
    exact facts
  holder := holder
  free := by simp
  value := by rw [value, owned.value]
  waiters_nodup := waiters ▸ owned.waiters_nodup
  waiters_exact u := by
    rw [waiters, owned.waiters_exact]
    by_cases same : u = t
    · subst same
      refine iff_of_false owned.not_blocked fun blocked => ?_
      rw [blocked] at facts
      exact facts
    · rw [pc u same]

/-- A thread without the lock moves between the places where it waits. -/
theorem Owned.wait {owner : Option Tid} (owned : Owned s owner) (other : owner ≠ some t)
    {pc : Pc} (waits : pc.Waits) {waiters : List Tid} (nodup : waiters.Nodup)
    (exact : ∀ u, u ∈ waiters ↔ if u = t then pc = .blocked else s.pc u = .blocked) :
    Owned ({ s with waiters := waiters }.goto t pc) owner where
  others u apart := by
    refine ⟨(owned.others u apart).1, ?_⟩
    rw [goto_pc]
    split
    · exact waits
    · exact (owned.others u apart).2
  insider u same := by
    have apart : u ≠ t := fun equal => other (equal ▸ same)
    rw [goto_pc, if_neg apart]
    exact owned.insider u same
  holder := owned.holder
  free := owned.free
  value := owned.value
  waiters_nodup := nodup
  waiters_exact u := by
    rw [goto_pc]
    change u ∈ waiters ↔ _
    rw [exact u]
    split <;> rfl

/-- A thread without the lock moves while the waiters stay the same. -/
theorem Owned.stay {owner : Option Tid} (owned : Owned s owner) (other : owner ≠ some t)
    {pc : Pc} (waits : pc.Waits) (before : s.pc t ≠ .blocked) (after : pc ≠ .blocked) :
    Owned (s.goto t pc) owner := by
  refine owned.wait other waits owned.waiters_nodup fun u => ?_
  rw [owned.waiters_exact]
  split
  case isTrue same => simp [same, before, after]
  case isFalse => rfl

/-- `sema_down` of a thread without the lock: it takes the lock if the lock is free and
blocks otherwise. -/
theorem semaDown_ok {owner : Option Tid} (owned : Owned s owner) (other : owner ≠ some t)
    (awake : s.pc t ≠ .blocked) :
    ∃ next, semaDown s t = .ok next ∧ LockConsistent next := by
  have absent : t ∉ s.waiters := fun member => awake ((owned.waiters_exact t).mp member)
  cases owner with
  | some u =>
      have zero : s.value = 0 := by simp [owned.value]
      refine ⟨{ s with waiters := s.waiters ++ [t] }.goto t .blocked, by simp [semaDown, zero,
        absent],
        some u, ?_⟩
      refine owned.wait other (by simp [Pc.Waits]) ?_ fun v => ?_
      · exact List.nodup_append.mpr ⟨owned.waiters_nodup, by simp, by simp; grind⟩
      · rw [List.mem_append, owned.waiters_exact, List.mem_singleton]
        split <;> simp_all
  | none =>
      have one : s.value = 1 := by simp [owned.value]
      obtain ⟨noHolder, noRepeat⟩ := owned.free rfl
      refine ⟨{ s with value := 0 }.goto t .setHolder, by simp [semaDown, one], some t, ?_⟩
      refine ⟨fun u apart => ?_, fun u same => ?_, .inl noHolder, by simp, by simp [LockState.goto],
        owned.waiters_nodup, fun u => ?_⟩
      · have distinct : u ≠ t := fun same => apart (congrArg some same.symm)
        rw [goto_pc, if_neg distinct]
        exact owned.others u (by simp)
      · cases same
        rw [goto_pc, if_pos rfl]
        exact ⟨noHolder, noRepeat, (owned.others t (by simp)).1⟩
      · rw [goto_pc]
        change u ∈ s.waiters ↔ _
        rw [owned.waiters_exact]
        split
        case isTrue same => simp [same, awake]
        case isFalse => rfl

/-- `thread_unblock` in `sema_up` finds a blocked thread. -/
theorem wakeFirst_ok (owned : Owned s (some t)) :
    ∃ next, wakeFirst s = .ok next ∧ Owned next (some t) ∧ next.pc t = s.pc t ∧
      next.depth = s.depth ∧ next.holder = s.holder ∧ next.holderRepeatNr = s.holderRepeatNr := by
  cases listed : s.waiters with
  | nil => exact ⟨s, by simp [wakeFirst, listed], owned, rfl, rfl, rfl, rfl⟩
  | cons first rest =>
      have blocked : s.pc first = .blocked := (owned.waiters_exact first).mp (by simp [listed])
      have apart : t ≠ first := by
        rintro rfl
        exact owned.not_blocked blocked
      have nodup := owned.waiters_nodup
      rw [listed, List.nodup_cons] at nodup
      refine ⟨{ s with waiters := rest }.goto first .woken, by simp [wakeFirst, listed, blocked],
        ?_, by simp [apart], rfl, rfl, rfl⟩
      refine owned.wait (by simpa using apart) (by simp [Pc.Waits]) nodup.2 fun u => ?_
      have exact := owned.waiters_exact u
      rw [listed, List.mem_cons] at exact
      split
      case isTrue same => simp [same, nodup.1]
      case isFalse distinct => rw [← exact]; simp [distinct]

/-- `sema_up` gives the lock back. -/
theorem semaUp_ok (owned : Owned s (some t)) (last : s.pc t = .semaUp) :
    ∃ next, semaUp s t = .ok next ∧ Owned next none := by
  obtain ⟨woken, ran, owned', place, depth, -, -⟩ := wakeFirst_ok owned
  have zero : s.value = 0 := by simp [owned.value]
  have zero' : woken.value = 0 := by simp [owned'.value]
  have facts := owned'.insider t rfl
  rw [place, last] at facts
  obtain ⟨noHolder, noRepeat, one⟩ := facts
  refine ⟨{ woken with value := 1 }.returns t 0, by simp [semaUp, zero, ran, zero', one], ?_⟩
  refine ⟨fun u _ => ?_, by simp, .inl noHolder, fun _ => ⟨noHolder, noRepeat⟩, rfl,
    owned'.waiters_nodup, fun u => ?_⟩
  · rw [returns_pc, returns_depth]
    by_cases same : u = t
    · simp [same, Pc.Waits]
    · rw [if_neg same, if_neg same]
      exact owned'.others u (by simpa using Ne.symm same)
  · rw [returns_pc]
    change u ∈ woken.waiters ↔ _
    rw [owned'.waiters_exact]
    split
    case isTrue same => simp [same, place, last]
    case isFalse => rfl

/-- The owner's next statement returns, and leaves the lock with it or free. -/
theorem runStatement_owner (owned : Owned s (some t)) :
    ∃ next, runStatement s t = .ok next ∧ LockConsistent next := by
  have facts := owned.insider t rfl
  have kept : ∀ next : LockState Tid, runStatement s t = .ok next →
      (∀ u, u ≠ t → next.pc u = s.pc u) → (∀ u, u ≠ t → next.depth u = s.depth u) →
      (next.pc t).Owns t next.holder next.holderRepeatNr (next.depth t) →
      (next.holder = none ∨ next.holder = some t) → next.value = s.value →
      next.waiters = s.waiters →
      ∃ next, runStatement s t = .ok next ∧ LockConsistent next :=
    fun next ran pc depth facts holder value waiters =>
      ⟨next, ran, some t, owned.move pc depth facts holder value waiters⟩
  cases place : s.pc t with
  | outside =>
      refine kept s (by simp [runStatement, place]) ?_ ?_ facts owned.holder rfl rfl <;> simp
  | blocked => exact absurd place owned.not_blocked
  | semaDown => simp [place, Pc.Owns] at facts
  | woken => simp [place, Pc.Owns] at facts
  | acquireTest =>
      rw [place] at facts
      refine kept (s.goto t .incrRepeat) (by simp [runStatement, place, facts.1]) ?_ ?_ ?_
        (.inr facts.1) rfl rfl
      · simp +contextual
      · simp [LockState.goto]
      · rw [goto_pc, if_pos rfl]
        exact facts
  | setHolder =>
      rw [place] at facts
      refine kept ({ s with holder := some t }.goto t .assertRepeatZero)
        (by simp [runStatement, place]) ?_ ?_ ?_ (.inr rfl) rfl rfl
      · simp +contextual
      · simp [LockState.goto]
      · rw [goto_pc, if_pos rfl]
        exact ⟨rfl, facts.2⟩
  | assertRepeatZero =>
      rw [place] at facts
      refine kept (s.goto t .setRepeat) (by simp [runStatement, place, facts.2.1]) ?_ ?_ ?_
        (.inr facts.1) rfl rfl
      · simp +contextual
      · simp [LockState.goto]
      · rw [goto_pc, if_pos rfl]
        exact facts
  | setRepeat =>
      rw [place] at facts
      refine kept ({ s with holderRepeatNr := 1 }.returns t (s.depth t + 1))
        (by simp [runStatement, place]) ?_ ?_ ?_ (.inr facts.1) rfl rfl
      · simp +contextual
      · simp +contextual
      · rw [returns_pc, returns_depth, if_pos rfl, if_pos rfl, facts.2.2]
        exact ⟨facts.1, rfl, by decide, by decide⟩
  | incrRepeat =>
      rw [place] at facts
      obtain ⟨holder, repeats, positive, small⟩ := facts
      refine kept ({ s with holderRepeatNr := s.depth t + 1 }.returns t (s.depth t + 1))
        ?_ ?_ ?_ ?_ (.inr holder) rfl rfl
      · simp only [runStatement, place, repeats, Nat.mod_eq_of_lt small]
      · simp +contextual
      · simp +contextual
      · rw [returns_pc, returns_depth, if_pos rfl, if_pos rfl]
        exact ⟨holder, rfl, Nat.succ_pos _, small⟩
  | assertHolder =>
      rw [place] at facts
      refine kept (s.goto t .testRepeat) (by simp [runStatement, place, facts.1]) ?_ ?_ ?_
        (.inr facts.1) rfl rfl
      · simp +contextual
      · simp [LockState.goto]
      · rw [goto_pc, if_pos rfl]
        exact facts
  | testRepeat =>
      rw [place] at facts
      obtain ⟨holder, repeats, positive, small⟩ := facts
      refine kept (s.goto t (if s.holderRepeatNr > 1 then .decrRepeat else .assertRepeatOne))
        (by simp [runStatement, place]) ?_ ?_ ?_ (.inr holder) rfl rfl
      · simp +contextual
      · simp [LockState.goto]
      · rw [goto_pc, if_pos rfl]
        split
        case isTrue nested => exact ⟨holder, repeats, repeats ▸ nested, small⟩
        case isFalse last =>
          change ¬ 1 < s.holderRepeatNr at last
          exact ⟨holder, repeats, by change s.depth t = 1; omega⟩
  | decrRepeat =>
      rw [place] at facts
      obtain ⟨holder, repeats, nested, small⟩ := facts
      have less : (s.holderRepeatNr + 2 ^ 32 - 1) % 2 ^ 32 = s.depth t - 1 := by omega
      refine kept ({ s with holderRepeatNr := s.depth t - 1 }.returns t (s.depth t - 1))
        ?_ ?_ ?_ ?_ (.inr holder) rfl rfl
      · simp only [runStatement, place, less]
      · simp +contextual
      · simp +contextual
      · rw [returns_pc, returns_depth, if_pos rfl, if_pos rfl]
        exact ⟨holder, rfl, by omega, by omega⟩
  | assertRepeatOne =>
      rw [place] at facts
      refine kept (s.goto t .clearHolder)
        (by simp [runStatement, place, facts.2.1, facts.2.2]) ?_ ?_ ?_ (.inr facts.1) rfl rfl
      · simp +contextual
      · simp [LockState.goto]
      · rw [goto_pc, if_pos rfl]
        exact facts
  | clearHolder =>
      rw [place] at facts
      refine kept ({ s with holder := none }.goto t .clearRepeat)
        (by simp [runStatement, place]) ?_ ?_ ?_ (.inl rfl) rfl rfl
      · simp +contextual
      · simp [LockState.goto]
      · rw [goto_pc, if_pos rfl]
        exact ⟨rfl, facts.2.1.trans facts.2.2, facts.2.2⟩
  | clearRepeat =>
      rw [place] at facts
      refine kept ({ s with holderRepeatNr := 0 }.goto t .semaUp)
        (by simp [runStatement, place]) ?_ ?_ ?_ (.inl facts.1) rfl rfl
      · simp +contextual
      · simp [LockState.goto]
      · rw [goto_pc, if_pos rfl]
        exact ⟨facts.1, rfl, facts.2.2⟩
  | semaUp =>
      obtain ⟨next, ran, free⟩ := semaUp_ok owned place
      exact ⟨next, by simpa [runStatement, place] using ran, none, free⟩

/-- The next statement of a thread without the lock returns. -/
theorem runStatement_other {owner : Option Tid} (owned : Owned s owner) (other : owner ≠ some t)
    (awake : s.pc t ≠ .blocked) :
    ∃ next, runStatement s t = .ok next ∧ LockConsistent next := by
  obtain ⟨-, waits⟩ := owned.others t other
  have notHolder : s.holder ≠ some t := by
    rcases owned.holder with none | same
    · simp [none]
    · rwa [same]
  rcases waits with place | place | place | place | place
  · exact ⟨s, by simp [runStatement, place], owner, owned⟩
  · refine ⟨s.goto t .semaDown, by simp [runStatement, place, notHolder], owner, ?_⟩
    exact owned.stay other (by simp [Pc.Waits]) awake (by simp)
  · obtain ⟨next, ran, kept⟩ := semaDown_ok owned other awake
    exact ⟨next, by simpa [runStatement, place] using ran, kept⟩
  · exact absurd place awake
  · obtain ⟨next, ran, kept⟩ := semaDown_ok owned other awake
    exact ⟨next, by simpa [runStatement, place] using ran, kept⟩

/-- Every step returns, whatever the nesting depths. -/
theorem lockExec_returns {owner : Option Tid} (owned : Owned s owner) {op : LockOp Tid}
    (enabled : LockEnabled s op) : ∃ next, lockExec s op = .ok next := by
  cases op with
  | acquire t => exact ⟨_, rfl⟩
  | release t => exact ⟨_, rfl⟩
  | run t =>
      by_cases inside : owner = some t
      · subst inside
        exact (runStatement_owner owned).imp fun _ ran => ran.1
      · exact (runStatement_other owned inside enabled.2).imp fun _ ran => ran.1

/-- A call of `lock_acquire` that `holder_repeat_nr` can count. -/
def NestsBelow (s : LockState Tid) : LockOp Tid → Prop
  | .acquire t => s.depth t + 1 < 2 ^ 32
  | _ => True

/-- **One step** keeps the invariant, if no depth reaches `2 ^ 32`. -/
theorem lockExec_owned {owner : Option Tid} (owned : Owned s owner) {op : LockOp Tid}
    (enabled : LockEnabled s op) (below : NestsBelow s op) (ran : lockExec s op = .ok s') :
    LockConsistent s' := by
  cases op with
  | acquire t =>
      cases ran
      refine ⟨owner, ?_⟩
      by_cases inside : owner = some t
      · subst inside
        have facts := owned.insider t rfl
        rw [show s.pc t = .outside from enabled] at facts
        refine owned.move (by simp +contextual) (by simp [LockState.goto]) ?_ owned.holder rfl rfl
        rw [goto_pc, if_pos rfl]
        exact ⟨facts.1, facts.2.1, facts.2.2.1, below⟩
      · exact owned.stay inside (by simp [Pc.Waits]) (by rw [show s.pc t = _ from enabled]; simp)
          (by simp)
  | release t =>
      obtain ⟨place, positive⟩ := enabled
      cases ran
      have inside : owner = some t := by
        by_contra other
        have := (owned.others t other).1
        omega
      subst inside
      have facts := owned.insider t rfl
      rw [place] at facts
      refine ⟨some t, owned.move (by simp +contextual) (by simp [LockState.goto]) ?_ owned.holder
        rfl rfl⟩
      rw [goto_pc, if_pos rfl]
      exact facts
  | run t =>
      change runStatement s t = .ok s' at ran
      by_cases inside : owner = some t
      · subst inside
        obtain ⟨next, ran', kept⟩ := runStatement_owner owned
        cases ran.symm.trans ran'
        exact kept
      · obtain ⟨next, ran', kept⟩ := runStatement_other owned inside enabled.2
        cases ran.symm.trans ran'
        exact kept

/-- The lock, used at nesting depths that `holder_repeat_nr` can count. -/
def boundedLock : TransitionSystem (LockState Tid) (LockOp Tid) :=
  lock.under NestsBelow

/-- **The run lemma.** In every reachable state the lock is free or one thread has it. -/
theorem reachable_lockConsistent (reachable : boundedLock.Reachable s) : LockConsistent s := by
  refine reachable.invariant _ ?_ ?_
  · rintro _ rfl
    exact ⟨none, lockInit_owned⟩
  · rintro before op after - ⟨owner, owned⟩ ⟨below, enabled, ran⟩
    exact lockExec_owned owned enabled below ran

/-- What the lock promises in a state: one thread at most holds it, the repeat count is that
thread's depth until its last release has cleared it, a free semaphore means that nobody
holds the lock, and no assertion fails. -/
structure LockSafe (s : LockState Tid) : Prop where
  exclusive : ∀ t u, 0 < s.depth t → 0 < s.depth u → t = u
  repeats : ∀ t, 0 < s.depth t → s.pc t ≠ .semaUp → s.holderRepeatNr = s.depth t
  nobody : s.value = 1 → s.holder = none ∧ ∀ t, s.depth t = 0
  asserts : ∀ op, LockEnabled s op → ∃ next, lockExec s op = .ok next

/-- **Mutual exclusion.** The lock keeps its promise in every reachable state of every
interleaving whose nesting depths stay below `2 ^ 32`. -/
theorem lock_safe (reachable : boundedLock.Reachable s) : LockSafe s := by
  obtain ⟨owner, owned⟩ := reachable_lockConsistent reachable
  have holds : ∀ t, 0 < s.depth t → owner = some t := by
    intro t positive
    by_contra other
    have := (owned.others t other).1
    omega
  refine ⟨fun t u first second => ?_, fun t positive place => ?_, fun one => ?_,
    fun op enabled => lockExec_returns owned enabled⟩
  · exact Option.some.inj ((holds t first).symm.trans (holds u second))
  · have facts := owned.insider t (holds t positive)
    cases pc : s.pc t <;> simp_all [Pc.Owns]
  · have free : owner = none := by
      by_contra taken
      simp [owned.value, taken] at one
    subst free
    exact ⟨(owned.free rfl).1, fun t => (owned.others t (by simp)).1⟩

end Steps

section Runs

variable [DecidableEq Tid] {guard : LockState Tid → LockOp Tid → Prop}

/-- The states of a run in which only one thread uses the lock. -/
def solo (t : Tid) (pc : Pc) (holder : Option Tid) (nr value depth : Nat) : LockState Tid where
  holder := holder
  holderRepeatNr := nr
  value := value
  waiters := []
  pc := Function.update (fun _ => .outside) t pc
  depth := Function.update (fun _ => 0) t depth

/-- One statement of the only thread. -/
theorem solo_step {t : Tid} {pc pc' : Pc} {holder holder' : Option Tid}
    {nr nr' value value' depth depth' : Nat} (free : ∀ s, guard s (.run t))
    (before : (lock.under guard).Reachable (solo t pc holder nr value depth))
    (enabled : pc ≠ .outside ∧ pc ≠ .blocked)
    (ran : runStatement (solo t pc holder nr value depth) t =
      .ok (solo t pc' holder' nr' value' depth')) :
    (lock.under guard).Reachable (solo t pc' holder' nr' value' depth') :=
  before.step (.run t) ⟨free _, by simpa [LockEnabled, solo] using enabled, ran⟩

/-- The only thread acquires the lock for the first time. -/
theorem solo_acquire {t : Tid} (called : ∀ s, s.depth t = 0 → guard s (.acquire t))
    (free : ∀ s, guard s (.run t)) :
    (lock.under guard).Reachable (solo t .outside (some t) 1 0 1) := by
  have start : (lock.under guard).Reachable (lockInit : LockState Tid) := .initial rfl
  have call : (lock.under guard).Reachable (solo t .acquireTest none 0 1 0) := by
    refine start.step (.acquire t) ⟨called _ rfl, rfl, ?_⟩
    simp [lockExec, lockInit, LockState.goto, solo]
  have down : (lock.under guard).Reachable (solo t .semaDown none 0 1 0) :=
    solo_step free call (by decide) (by simp [runStatement, solo, LockState.goto])
  have taken : (lock.under guard).Reachable (solo t .setHolder none 0 0 0) :=
    solo_step free down (by decide) (by simp [runStatement, semaDown, solo, LockState.goto])
  have named : (lock.under guard).Reachable (solo t .assertRepeatZero (some t) 0 0 0) :=
    solo_step free taken (by decide) (by simp [runStatement, solo, LockState.goto])
  have checked : (lock.under guard).Reachable (solo t .setRepeat (some t) 0 0 0) :=
    solo_step free named (by decide) (by simp [runStatement, solo, LockState.goto])
  exact solo_step free checked (by decide)
    (by simp [runStatement, solo, LockState.goto, LockState.returns])

/-- The only thread acquires the lock again: `holder_repeat_nr` wraps around. -/
theorem solo_acquire_again {t : Tid} {nr depth : Nat} (called : ∀ s, guard s (.acquire t))
    (free : ∀ s, guard s (.run t))
    (before : (lock.under guard).Reachable (solo t .outside (some t) nr 0 depth)) :
    (lock.under guard).Reachable
      (solo t .outside (some t) ((nr + 1) % 2 ^ 32) 0 (depth + 1)) := by
  have call : (lock.under guard).Reachable (solo t .acquireTest (some t) nr 0 depth) := by
    refine before.step (.acquire t) ⟨called _, by simp [LockEnabled, solo], ?_⟩
    simp [lockExec, LockState.goto, solo]
  have tested : (lock.under guard).Reachable (solo t .incrRepeat (some t) nr 0 depth) :=
    solo_step free call (by decide) (by simp [runStatement, solo, LockState.goto])
  exact solo_step free tested (by decide)
    (by simp [runStatement, solo, LockState.goto, LockState.returns])

/-- After `n + 1` nested acquires `holder_repeat_nr` is `n + 1` modulo `2 ^ 32`. -/
theorem solo_nested {t : Tid} (called : ∀ s, guard s (.acquire t))
    (free : ∀ s, guard s (.run t)) (n : Nat) : (lock.under guard).Reachable
      (solo t .outside (some t) ((n + 1) % 2 ^ 32) 0 (n + 1)) := by
  induction n with
  | zero => exact solo_acquire (fun s _ => called s) free
  | succ n ih => simpa using solo_acquire_again called free ih

/-- One thread has the lock, another is at the given statement, and the given threads wait. -/
def besideHolder (t u : Tid) (pc : Pc) (waiters : List Tid) : LockState Tid :=
  { (solo t .outside (some t) 1 0 1).goto u pc with waiters := waiters }

/-- A second thread calls `lock_acquire` and waits for the first. -/
theorem waits_beside {t u : Tid} (other : u ≠ t)
    (called : ∀ s, s.depth u = 0 → guard s (.acquire u)) (free : ∀ s, guard s (.run u))
    (held : (lock.under guard).Reachable (solo t .outside (some t) 1 0 1)) :
    (lock.under guard).Reachable (besideHolder t u .blocked [u]) := by
  have call : (lock.under guard).Reachable (besideHolder t u .acquireTest []) := by
    refine held.step (.acquire u) ⟨called _ ?_, ?_, rfl⟩
    · simp [solo, other]
    · simp [LockEnabled, solo]
  have tested : (lock.under guard).Reachable (besideHolder t u .semaDown []) := by
    refine call.step (.run u) ⟨free _, by simp [LockEnabled, besideHolder, LockState.goto], ?_⟩
    simp [lockExec, runStatement, besideHolder, LockState.goto, solo, other.symm]
  refine tested.step (.run u) ⟨free _, by simp [LockEnabled, besideHolder, LockState.goto], ?_⟩
  simp [lockExec, runStatement, semaDown, besideHolder, LockState.goto, solo]

end Runs

/-- The promise at a state of a run: one thread has the lock and another waits for it. -/
theorem lock_safe_after_acquire : boundedLock.Reachable (besideHolder 7 9 .blocked [9]) ∧
    LockSafe (besideHolder 7 9 .blocked [9]) := by
  have below : ∀ t (s : LockState Nat), s.depth t = 0 → NestsBelow s (.acquire t) := by
    intro t s outside
    simp [NestsBelow, outside]
  have held : boundedLock.Reachable (solo 7 .outside (some 7) 1 0 1) :=
    solo_acquire (below 7) fun _ => trivial
  have waits : boundedLock.Reachable (besideHolder 7 9 .blocked [9]) :=
    waits_beside (by decide) (below 9) (fun _ => trivial) held
  exact ⟨waits, lock_safe waits⟩

/-- Without a bound on the depth, a thread that acquires the lock `2 ^ 32` times holds it
with a repeat count of zero. -/
theorem lock_repeat_wraps :
    ¬ ∀ s : LockState Unit, lock.Reachable s → LockSafe s := by
  intro safe
  have reachable : (lock.under fun _ _ => True).Reachable (solo () .outside _ _ 0 _) :=
    solo_nested (fun _ => trivial) (fun _ => trivial) (2 ^ 32 - 1)
  have repeats := (safe _ reachable.of_under).repeats () (by simp [solo]) (by simp [solo])
  simp [solo] at repeats

end UKernel.Thread
