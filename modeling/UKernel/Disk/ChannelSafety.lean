import UKernel.Disk.Channel

/-! # Commands and interrupts of a channel

A thread that uses the channel has its lock, so one command at most waits for its interrupt. While
it does, either `expecting_intr` is set and `disk_done` is zero, or the interrupt has arrived and
`disk_done` is one (`UKernel.Ide.Signalled`). Hence the assertions of the semaphore hold under
every arrival of interrupts, and a thread passes `sema_down` only after an interrupt that arrived
after it set `expecting_intr` (`UKernel.Ide.channel_safe`). A spurious interrupt between that
statement and the next one, which writes the command, counts as well.
-/

namespace UKernel.Ide

open UKernel.Library UKernel.Thread UKernel.Fs

variable {Tid : Type} [DecidableEq Tid]

/-! ## The lock -/

section Lock

variable {lock lock' : LockState Tid} {t u : Tid}

/-- The places in `lock_acquire` of a thread that has not acquired the lock before. -/
def Entering (pc : Pc) : Prop :=
  pc = .acquireTest ∨ pc = .semaDown ∨ pc = .blocked ∨ pc = .woken ∨ pc = .setHolder ∨
    pc = .assertRepeatZero ∨ pc = .setRepeat

/-- The places in `lock_release` of a thread that acquired the lock once. -/
def Leaving (pc : Pc) : Prop :=
  pc = .assertHolder ∨ pc = .testRepeat ∨ pc = .assertRepeatOne ∨ pc = .clearHolder ∨
    pc = .clearRepeat ∨ pc = .semaUp

/-- A thread does not touch another one, except that it may wake it. -/
def Untouched (lock lock' : LockState Tid) (u : Tid) : Prop :=
  lock'.depth u = lock.depth u ∧
    (lock'.pc u = lock.pc u ∨ lock.pc u = .blocked ∧ lock'.pc u = .woken)

theorem semaDown_untouched (other : u ≠ t) (ran : semaDown lock t = .ok lock') :
    Untouched lock lock' u := by
  unfold semaDown at ran
  split at ran
  · obtain ⟨-, -, ran⟩ := except_bind_eq_ok.mp ran
    cases ran
    exact ⟨rfl, .inl (by rw [goto_pc, if_neg other])⟩
  · obtain ⟨-, -, ran⟩ := except_bind_eq_ok.mp ran
    cases ran
    exact ⟨rfl, .inl (by rw [goto_pc, if_neg other])⟩

theorem semaUp_untouched (other : u ≠ t) (ran : semaUp lock t = .ok lock') :
    Untouched lock lock' u := by
  obtain ⟨-, -, ran⟩ := except_bind_eq_ok.mp ran
  obtain ⟨woken, wakes, ran⟩ := except_bind_eq_ok.mp ran
  obtain ⟨-, -, ran⟩ := except_bind_eq_ok.mp ran
  cases ran
  rw [Untouched, returns_depth, if_neg other, returns_pc, if_neg other]
  unfold wakeFirst at wakes
  split at wakes
  · cases wakes
    exact ⟨rfl, .inl rfl⟩
  · obtain ⟨done, asserted, wakes⟩ := except_bind_eq_ok.mp wakes
    have asleep := require_eq_ok.mp asserted
    cases wakes
    refine ⟨rfl, ?_⟩
    dsimp only
    rw [goto_pc]
    split
    case isTrue same =>
        rw [same]
        exact .inr ⟨asleep, rfl⟩
    case isFalse => exact .inl rfl

theorem runStatement_untouched (other : u ≠ t) (ran : runStatement lock t = .ok lock') :
    Untouched lock lock' u := by
  have goto : ∀ (mid : LockState Tid) (pc : Pc), mid.depth = lock.depth → mid.pc = lock.pc →
      Untouched lock (mid.goto t pc) u := by
    intro mid pc depth same
    refine ⟨congrFun depth u, .inl ?_⟩
    rw [goto_pc, if_neg other, same]
  have returns : ∀ (mid : LockState Tid) (depth : Nat), mid.depth = lock.depth →
      mid.pc = lock.pc → Untouched lock (mid.returns t depth) u := by
    intro mid depth same pc
    refine ⟨?_, .inl ?_⟩
    · rw [returns_depth, if_neg other, same]
    · rw [returns_pc, if_neg other, pc]
  unfold runStatement at ran
  cases place : lock.pc t with
  | outside => 
      simp only [place] at ran
      cases ran
      exact ⟨rfl, .inl rfl⟩
  | acquireTest =>
      simp only [place] at ran
      cases ran
      exact goto _ _ rfl rfl
  | semaDown =>
      simp only [place] at ran
      exact semaDown_untouched other ran
  | blocked =>
      simp only [place] at ran
      cases ran
      exact ⟨rfl, .inl rfl⟩
  | woken =>
      simp only [place] at ran
      exact semaDown_untouched other ran
  | setHolder =>
      simp only [place] at ran
      cases ran
      exact goto _ _ rfl rfl
  | assertRepeatZero =>
      simp only [place] at ran
      obtain ⟨-, -, ran⟩ := except_bind_eq_ok.mp ran
      cases ran
      exact goto _ _ rfl rfl
  | setRepeat =>
      simp only [place] at ran
      cases ran
      exact returns _ _ rfl rfl
  | incrRepeat =>
      simp only [place] at ran
      cases ran
      exact returns _ _ rfl rfl
  | assertHolder =>
      simp only [place] at ran
      obtain ⟨-, -, ran⟩ := except_bind_eq_ok.mp ran
      cases ran
      exact goto _ _ rfl rfl
  | testRepeat =>
      simp only [place] at ran
      cases ran
      exact goto _ _ rfl rfl
  | decrRepeat =>
      simp only [place] at ran
      cases ran
      exact returns _ _ rfl rfl
  | assertRepeatOne =>
      simp only [place] at ran
      obtain ⟨-, -, ran⟩ := except_bind_eq_ok.mp ran
      cases ran
      exact goto _ _ rfl rfl
  | clearHolder =>
      simp only [place] at ran
      cases ran
      exact goto _ _ rfl rfl
  | clearRepeat =>
      simp only [place] at ran
      cases ran
      exact goto _ _ rfl rfl
  | semaUp =>
      simp only [place] at ran
      exact semaUp_untouched other ran

theorem lockExec_untouched {op : LockOp Tid} (other : u ≠ t)
    (own : op = .acquire t ∨ op = .release t ∨ op = .run t) (ran : lockExec lock op = .ok lock') :
    Untouched lock lock' u := by
  rcases own with rfl | rfl | rfl
  · cases ran
    exact ⟨rfl, .inl (by rw [goto_pc, if_neg other])⟩
  · cases ran
    exact ⟨rfl, .inl (by rw [goto_pc, if_neg other])⟩
  · exact runStatement_untouched other ran

variable {owner : Option Tid}

/-- `sema_down` of a thread that enters leaves it in `lock_acquire`. -/
theorem semaDown_entering (unheld : lock.depth t = 0) (ran : semaDown lock t = .ok lock') :
    Entering (lock'.pc t) ∧ lock'.depth t = 0 := by
  unfold semaDown at ran
  split at ran
  · obtain ⟨-, -, ran⟩ := except_bind_eq_ok.mp ran
    cases ran
    exact ⟨by simp [Entering], unheld⟩
  · obtain ⟨-, -, ran⟩ := except_bind_eq_ok.mp ran
    cases ran
    exact ⟨by simp [Entering], unheld⟩

/-- A statement of `lock_acquire`, in a thread that does not hold the lock. -/
theorem runStatement_entering (owned : Owned lock owner) (entering : Entering (lock.pc t))
    (unheld : lock.depth t = 0) (ran : runStatement lock t = .ok lock') :
    Entering (lock'.pc t) ∧ lock'.depth t = 0 ∨ lock'.pc t = .outside ∧ lock'.depth t = 1 := by
  rcases entering with place | place | place | place | place | place | place
  all_goals simp only [runStatement, place] at ran
  · have notHolder : lock.holder ≠ some t := by
      intro holder
      have inside : owner = some t := by
        rcases owned.holder with none | same
        · rw [none] at holder
          cases holder
        · rw [← same, holder]
      have facts := owned.insider t inside
      rw [place] at facts
      have positive := facts.2.2.1
      omega
    rw [if_pos notHolder] at ran
    cases ran
    exact .inl ⟨by simp [Entering], unheld⟩
  · exact .inl (semaDown_entering unheld ran)
  · cases ran
    exact .inl ⟨by simp [Entering, place], unheld⟩
  · exact .inl (semaDown_entering unheld ran)
  · cases ran
    exact .inl ⟨by simp [Entering], unheld⟩
  · obtain ⟨-, -, ran⟩ := except_bind_eq_ok.mp ran
    cases ran
    exact .inl ⟨by simp [Entering], unheld⟩
  · cases ran
    exact .inr ⟨by simp, by simp [unheld]⟩

/-- A statement of `lock_release`, in a thread that acquired the lock once. -/
theorem runStatement_leaving (owned : Owned lock owner) (leaving : Leaving (lock.pc t))
    (held : lock.depth t = 1) (ran : runStatement lock t = .ok lock') :
    Leaving (lock'.pc t) ∧ lock'.depth t = 1 ∨ lock'.pc t = .outside ∧ lock'.depth t = 0 := by
  have inside : owner = some t := by
    by_contra other
    have := (owned.others t other).1
    omega
  have facts := owned.insider t inside
  rcases leaving with place | place | place | place | place | place
  all_goals simp only [runStatement, place] at ran
  · obtain ⟨-, -, ran⟩ := except_bind_eq_ok.mp ran
    cases ran
    exact .inl ⟨by simp [Leaving], held⟩
  · rw [place] at facts
    have once : ¬ lock.holderRepeatNr > 1 := by
      have repeats := facts.2.1
      omega
    rw [if_neg once] at ran
    cases ran
    exact .inl ⟨by simp [Leaving], held⟩
  · obtain ⟨-, -, ran⟩ := except_bind_eq_ok.mp ran
    cases ran
    exact .inl ⟨by simp [Leaving], held⟩
  · cases ran
    exact .inl ⟨by simp [Leaving], held⟩
  · cases ran
    exact .inl ⟨by simp [Leaving], held⟩
  · obtain ⟨-, -, ran⟩ := except_bind_eq_ok.mp ran
    obtain ⟨woken, wakes, ran⟩ := except_bind_eq_ok.mp ran
    obtain ⟨-, -, ran⟩ := except_bind_eq_ok.mp ran
    cases ran
    have depth : woken.depth t = 1 := by
      unfold wakeFirst at wakes
      split at wakes
      · cases wakes
        exact held
      · obtain ⟨-, -, wakes⟩ := except_bind_eq_ok.mp wakes
        cases wakes
        exact held
    exact .inr ⟨by simp, by simp [depth]⟩

end Lock

/-! ## The invariant -/

/-- Where the lock of the channel finds a thread at each statement. -/
def Placed (lockPc : Pc) (depth : Nat) : IdePc → Prop
  | .outside => lockPc = .outside ∧ depth = 0
  | .acquire => Entering lockPc ∧ depth = 0 ∨ lockPc = .outside ∧ depth = 1
  | .release => Leaving lockPc ∧ depth = 1 ∨ lockPc = .outside ∧ depth = 0
  | _ => lockPc = .outside ∧ depth = 1

/-- From `cmd_out` to the return of `sema_down`, which a write reaches after the transfer. -/
def IdePc.Commanded (write : Bool) : IdePc → Prop
  | .command | .down | .asleep | .woken => True
  | .busyWait | .transfer => write = true
  | _ => False

variable {s s' : Channel Tid} {t u : Tid}

/-- The thread has a command outstanding. -/
def Channel.Pending (s : Channel Tid) (t : Tid) : Prop :=
  (s.pc t).Commanded (s.call t).write

/-- The interrupt of the thread's command is expected, or it has arrived. -/
def Signalled (s : Channel Tid) (t : Tid) : Prop :=
  s.expectingIntr = true ∧ s.value = 0 ∧ s.pc t ≠ .woken ∧
      s.waiters = (if s.pc t = .asleep then [t] else []) ∨
    s.expectingIntr = false ∧ s.value = 1 ∧ s.pc t ≠ .asleep ∧ s.waiters = [] ∧
      s.sinceExpecting t = true

/-- No interrupt is expected, and nobody waits. -/
def Quiet (s : Channel Tid) : Prop :=
  s.expectingIntr = false ∧ s.value = 0 ∧ s.waiters = []

/-- The flag and the semaphore follow the outstanding command. -/
structure Signals (s : Channel Tid) : Prop where
  pending : ∀ t, s.Pending t → Signalled s t
  idle : (∀ t, ¬ s.Pending t) → Quiet s

/-- The invariant. -/
structure Orderly (s : Channel Tid) : Prop where
  lock : LockConsistent s.lock
  placed : ∀ t, Placed (s.lock.pc t) (s.lock.depth t) (s.pc t)
  signals : Signals s

omit [DecidableEq Tid] in
/-- A thread with a command outstanding has the lock. -/
theorem Orderly.pending_held (orderly : Orderly s) (pending : s.Pending t) :
    s.lock.depth t = 1 := by
  have placed := orderly.placed t
  unfold Channel.Pending at pending
  cases place : s.pc t <;> rw [place] at placed pending <;>
    first
    | exact placed.2
    | exact absurd pending not_false

omit [DecidableEq Tid] in
/-- One thread at most has the lock. -/
theorem lockConsistent_exclusive {lock : LockState Tid} (consistent : LockConsistent lock)
    (first : 0 < lock.depth t) (second : 0 < lock.depth u) : t = u := by
  obtain ⟨owner, owned⟩ := consistent
  have holds : ∀ v, 0 < lock.depth v → owner = some v := by
    intro v positive
    by_contra other
    have := (owned.others v other).1
    omega
  exact Option.some.inj ((holds t first).symm.trans (holds u second))

omit [DecidableEq Tid] in
/-- While a thread has the lock, no other one has a command outstanding. -/
theorem Orderly.alone (orderly : Orderly s) (held : s.lock.depth t = 1) (other : u ≠ t) :
    ¬ s.Pending u := by
  intro pending
  have first := orderly.pending_held pending
  exact other (lockConsistent_exclusive orderly.lock (by omega) (by omega))

/-! ## One step -/

omit [DecidableEq Tid] in
/-- What is signalled to a thread does not change with its place outside `sema_down`. -/
theorem Signalled.awake (signalled : Signalled s t) (flag : s'.expectingIntr = s.expectingIntr)
    (value : s'.value = s.value) (waiters : s'.waiters = s.waiters)
    (since : s'.sinceExpecting = s.sinceExpecting) (before : s.pc t ≠ .asleep)
    (after : s'.pc t ≠ .asleep) (notWoken : s'.pc t ≠ .woken) : Signalled s' t := by
  unfold Signalled at signalled ⊢
  rw [flag, value, waiters, since, if_neg after]
  rw [if_neg before] at signalled
  rcases signalled with ⟨set, zero, -, empty⟩ | ⟨unset, one, -, rest⟩
  · exact .inl ⟨set, zero, notWoken, empty⟩
  · exact .inr ⟨unset, one, after, rest⟩

omit [DecidableEq Tid] in
/-- What a thread knows about its place survives the steps of others. -/
theorem Placed.untouched {lock lock' : LockState Tid} {pc : IdePc}
    (placed : Placed (lock.pc u) (lock.depth u) pc) (untouched : Untouched lock lock' u) :
    Placed (lock'.pc u) (lock'.depth u) pc := by
  obtain ⟨depth, same | ⟨blocked, woken⟩⟩ := untouched
  · rw [depth, same]
    exact placed
  · rw [blocked] at placed
    rw [depth, woken]
    cases pc <;> simp_all [Placed, Entering, Leaving]

omit [DecidableEq Tid] in
/-- The signals do not change with the place of a thread that has no command outstanding. -/
theorem Signals.elsewhere (signals : Signals s) (before : ¬ s.Pending t) (after : ¬ s'.Pending t)
    (flag : s'.expectingIntr = s.expectingIntr) (value : s'.value = s.value)
    (waiters : s'.waiters = s.waiters) (since : s'.sinceExpecting = s.sinceExpecting)
    (pc : ∀ u, u ≠ t → s'.pc u = s.pc u) (call : ∀ u, u ≠ t → s'.call u = s.call u) :
    Signals s' where
  pending u pending := by
    have other : u ≠ t := by
      rintro rfl
      exact after pending
    have earlier : s.Pending u := by
      unfold Channel.Pending at pending ⊢
      rwa [pc u other, call u other] at pending
    have signalled := signals.pending u earlier
    unfold Signalled at signalled ⊢
    rwa [flag, value, waiters, since, pc u other]
  idle none := by
    have earlier : ∀ u, ¬ s.Pending u := by
      intro u pending
      by_cases same : u = t
      · exact before (same ▸ pending)
      · refine none u ?_
        unfold Channel.Pending at pending ⊢
        rwa [pc u same, call u same]
    have quiet := signals.idle earlier
    unfold Quiet at quiet ⊢
    rwa [flag, value, waiters]

omit [DecidableEq Tid] in
/-- While a thread has the lock, the signals are a matter of that thread. -/
theorem Orderly.signals_of_held (orderly : Orderly s) (held : s.lock.depth t = 1)
    (pc : ∀ u, u ≠ t → s'.pc u = s.pc u) (call : ∀ u, u ≠ t → s'.call u = s.call u)
    (pending : s'.Pending t → Signalled s' t) (idle : ¬ s'.Pending t → Quiet s') :
    Signals s' := by
  have alone : ∀ u, u ≠ t → ¬ s'.Pending u := by
    intro u other later
    refine orderly.alone held other ?_
    unfold Channel.Pending at later ⊢
    rwa [pc u other, call u other] at later
  refine ⟨fun u later => ?_, fun none => idle (none t)⟩
  by_cases same : u = t
  · rw [same] at later ⊢
    exact pending later
  · exact absurd later (alone u same)

omit [DecidableEq Tid] in
/-- While a thread without an outstanding command has the lock, the channel is quiet. -/
theorem Orderly.quiet (orderly : Orderly s) (held : s.lock.depth t = 1)
    (before : ¬ s.Pending t) : Quiet s := by
  refine orderly.signals.idle fun u pending => ?_
  by_cases same : u = t
  · exact before (same ▸ pending)
  · exact orderly.alone held same pending

omit [DecidableEq Tid] in
/-- A step of one thread, given what it does to the lock and to the signals. -/
theorem Orderly.moved (orderly : Orderly s) (lock : LockConsistent s'.lock)
    (untouched : ∀ u, u ≠ t → Untouched s.lock s'.lock u) (pc : ∀ u, u ≠ t → s'.pc u = s.pc u)
    (placed : Placed (s'.lock.pc t) (s'.lock.depth t) (s'.pc t)) (signals : Signals s') :
    Orderly s' where
  lock := lock
  placed u := by
    by_cases same : u = t
    · rw [same]
      exact placed
    · rw [pc u same]
      exact (orderly.placed u).untouched (untouched u same)
  signals := signals

omit [DecidableEq Tid] in
theorem Untouched.refl (lock : LockState Tid) (u : Tid) : Untouched lock lock u :=
  ⟨rfl, .inl rfl⟩

@[simp] theorem channelGoto_pc (pc : IdePc) (u : Tid) :
    (s.goto t pc).pc u = if u = t then pc else s.pc u := by
  simp [Channel.goto, Function.update_apply]

omit [DecidableEq Tid] in
/-- The thread that has the lock runs a statement that does not use the lock. -/
theorem Orderly.inside (orderly : Orderly s) (outside : s.lock.pc t = .outside)
    (held : s.lock.depth t = 1) (lock : s'.lock = s.lock) (pc : ∀ u, u ≠ t → s'.pc u = s.pc u)
    (call : ∀ u, u ≠ t → s'.call u = s.call u) (placed : Placed .outside 1 (s'.pc t))
    (pending : s'.Pending t → Signalled s' t) (idle : ¬ s'.Pending t → Quiet s') :
    Orderly s' := by
  refine orderly.moved (lock ▸ orderly.lock) (fun u _ => lock ▸ .refl _ u) pc ?_
    (orderly.signals_of_held held pc call pending idle)
  rw [lock, outside, held]
  exact placed

/-- A thread runs a statement of `lock_acquire` or `lock_release`. -/
theorem Orderly.locking (orderly : Orderly s) (op : LockOp Tid) {lock : LockState Tid}
    (own : op = .acquire t ∨ op = .release t ∨ op = .run t) (enabled : LockEnabled s.lock op)
    (below : NestsBelow s.lock op) (ran : lockExec s.lock op = .ok lock) (same : s'.lock = lock)
    (pc : ∀ u, u ≠ t → s'.pc u = s.pc u)
    (placed : Placed (lock.pc t) (lock.depth t) (s'.pc t)) (signals : Signals s') :
    Orderly s' := by
  subst same
  obtain ⟨owner, owned⟩ := orderly.lock
  exact orderly.moved (lockExec_owned owned enabled below ran)
    (fun u other => lockExec_untouched other own ran) pc placed signals

/-- The other arguments of a step: the assertions on sectors and the `PANIC` after `busy_wait`. -/
def Accepted (s : Channel Tid) : IdeOp Tid → Prop
  | .call _ _ lba secCnt => lba.toNat ≤ maxLba ∧ secCnt > 0
  | .run t ready =>
      (s.pc t = .test → (s.call t).secsDone < (s.call t).secCnt →
        ((s.call t).lba + (s.call t).secsDone).toNat ≤ maxLba) ∧
      (s.pc t = .busyWait → ready = true)
  | .interrupt => True

variable {ready : Bool}

/-- A thread in `lock_acquire` goes on. -/
theorem runIde_acquire (orderly : Orderly s) (place : s.pc t = .acquire)
    (awake : s.lock.pc t ≠ .blocked) : ∃ next, runIde s t ready = .ok next ∧ Orderly next := by
  have placed := orderly.placed t
  rw [place] at placed
  have none : ¬ s.Pending t := by simp [Channel.Pending, place, IdePc.Commanded]
  by_cases returned : s.lock.pc t = .outside
  · have held : s.lock.depth t = 1 := by
      rcases placed with ⟨entering, -⟩ | ⟨-, held⟩
      · simp [returned, Entering] at entering
      · exact held
    have quiet := orderly.quiet held none
    refine ⟨s.goto t .test, by simp [runIde, place, returned], ?_⟩
    refine orderly.inside returned held rfl (by simp +contextual) (fun _ _ => rfl) ?_ ?_
      fun _ => quiet
    · rw [channelGoto_pc, if_pos rfl]
      exact ⟨rfl, rfl⟩
    · intro pending
      simp [Channel.Pending, IdePc.Commanded] at pending
  · obtain ⟨entering, unheld⟩ | ⟨outside, -⟩ := placed
    case inr => exact absurd outside returned
    obtain ⟨owner, owned⟩ := orderly.lock
    have enabled : LockEnabled s.lock (.run t) := ⟨returned, awake⟩
    obtain ⟨lock, ran⟩ := lockExec_returns owned enabled
    change runStatement s.lock t = .ok lock at ran
    refine ⟨{ s with lock := lock }, by simp [runIde, place, returned, ran], ?_⟩
    refine orderly.locking (.run t) (.inr (.inr rfl)) enabled trivial ran rfl
      (fun _ _ => rfl) ?_ ?_
    · change Placed _ _ (s.pc t)
      rw [place]
      exact runStatement_entering owned entering unheld ran
    · exact orderly.signals.elsewhere none none rfl rfl rfl rfl (fun _ _ => rfl) (fun _ _ => rfl)

/-- A thread in `lock_release` goes on. -/
theorem runIde_release (orderly : Orderly s) (place : s.pc t = .release)
    (awake : s.lock.pc t ≠ .blocked) : ∃ next, runIde s t ready = .ok next ∧ Orderly next := by
  have placed := orderly.placed t
  rw [place] at placed
  have none : ¬ s.Pending t := by simp [Channel.Pending, place, IdePc.Commanded]
  by_cases returned : s.lock.pc t = .outside
  · have unheld : s.lock.depth t = 0 := by
      rcases placed with ⟨leaving, -⟩ | ⟨-, unheld⟩
      · simp [returned, Leaving] at leaving
      · exact unheld
    refine ⟨s.goto t .outside, by simp [runIde, place, returned], ?_⟩
    refine orderly.moved (t := t) orderly.lock (fun u _ => .refl _ u) (by simp +contextual) ?_ ?_
    · rw [channelGoto_pc, if_pos rfl]
      exact ⟨returned, unheld⟩
    · refine orderly.signals.elsewhere none ?_ rfl rfl rfl rfl (by simp +contextual)
        (fun _ _ => rfl)
      simp [Channel.Pending, IdePc.Commanded]
  · obtain ⟨leaving, held⟩ | ⟨outside, -⟩ := placed
    case inr => exact absurd outside returned
    obtain ⟨owner, owned⟩ := orderly.lock
    have enabled : LockEnabled s.lock (.run t) := ⟨returned, awake⟩
    obtain ⟨lock, ran⟩ := lockExec_returns owned enabled
    change runStatement s.lock t = .ok lock at ran
    refine ⟨{ s with lock := lock }, by simp [runIde, place, returned, ran], ?_⟩
    refine orderly.locking (.run t) (.inr (.inr rfl)) enabled trivial ran rfl
      (fun _ _ => rfl) ?_ ?_
    · change Placed _ _ (s.pc t)
      rw [place]
      exact runStatement_leaving owned leaving held ran
    · exact orderly.signals.elsewhere none none rfl rfl rfl rfl (fun _ _ => rfl) (fun _ _ => rfl)

/-- A thread tests its loop: it selects the next sectors, or releases the lock. -/
theorem runIde_test (orderly : Orderly s) (place : s.pc t = .test)
    (accepted : Accepted s (.run t ready)) :
    ∃ next, runIde s t ready = .ok next ∧ Orderly next := by
  have placed := orderly.placed t
  rw [place] at placed
  obtain ⟨outside, held⟩ := placed
  have none : ¬ s.Pending t := by simp [Channel.Pending, place, IdePc.Commanded]
  by_cases more : (s.call t).secsDone < (s.call t).secCnt
  · refine ⟨s.goto t .setExpecting, ?_, ?_⟩
    · simp only [runIde, place, if_pos more, require_of (accepted.1 place more), except_ok_bind,
        except_pure_eq]
    · refine orderly.inside outside held rfl (by simp +contextual) (fun _ _ => rfl) ?_ ?_
        fun _ => orderly.quiet held none
      · rw [channelGoto_pc, if_pos rfl]
        exact ⟨rfl, rfl⟩
      · intro pending
        simp [Channel.Pending, IdePc.Commanded] at pending
  · refine ⟨{ s with lock := s.lock.goto t .assertHolder }.goto t .release,
      by simp [runIde, place, more, lockExec], ?_⟩
    refine orderly.locking (.release t) (.inr (.inl rfl)) ⟨outside, by omega⟩ trivial rfl rfl
      (by simp +contextual) ?_ ?_
    · rw [channelGoto_pc, if_pos rfl, goto_pc, if_pos rfl]
      exact .inl ⟨.inl rfl, held⟩
    · refine orderly.signals.elsewhere none ?_ rfl rfl rfl rfl (by simp +contextual)
        (fun _ _ => rfl)
      simp [Channel.Pending, IdePc.Commanded]

/-- A thread writes a command: it sets the flag, and then it writes the register. -/
theorem runIde_cmdOut (orderly : Orderly s) (place : s.pc t = .setExpecting ∨ s.pc t = .command) :
    ∃ next, runIde s t ready = .ok next ∧ Orderly next := by
  have placed := orderly.placed t
  rcases place with place | place
  · rw [place] at placed
    obtain ⟨outside, held⟩ := placed
    have none : ¬ s.Pending t := by simp [Channel.Pending, place, IdePc.Commanded]
    obtain ⟨-, value, waiters⟩ := orderly.quiet held none
    refine ⟨_, by simp only [runIde, place]; rfl, ?_⟩
    refine orderly.inside outside held rfl (by simp +contextual) (fun _ _ => rfl) ?_ ?_ ?_
    · rw [channelGoto_pc, if_pos rfl]
      exact ⟨rfl, rfl⟩
    · intro _
      refine .inl ⟨rfl, value, by simp, ?_⟩
      rw [channelGoto_pc, if_pos rfl, if_neg (by decide)]
      exact waiters
    · intro idle
      simp [Channel.Pending, IdePc.Commanded] at idle
  · rw [place] at placed
    obtain ⟨outside, held⟩ := placed
    have signalled := orderly.signals.pending t (by simp [Channel.Pending, place, IdePc.Commanded])
    refine ⟨_, by simp only [runIde, place]; rfl, ?_⟩
    refine orderly.inside outside held rfl (by simp +contextual) (fun _ _ => rfl) ?_ ?_ ?_
    · rw [channelGoto_pc, if_pos rfl]
      split <;> exact ⟨rfl, rfl⟩
    · intro _
      refine signalled.awake rfl rfl rfl rfl (by simp [place]) ?_ ?_ <;>
        rw [channelGoto_pc, if_pos rfl] <;> split <;> simp
    · intro idle
      cases write : (s.call t).write <;>
        simp [Channel.Pending, Channel.goto, IdePc.Commanded, write] at idle

/-- `sema_down` blocks the thread, or the interrupt has arrived and the thread passes. -/
theorem diskDown_ok (orderly : Orderly s) (place : s.pc t = .down ∨ s.pc t = .woken) :
    ∃ next, diskDown s t = .ok next ∧ Orderly next ∧
      (next.pc t ≠ .asleep → s.sinceExpecting t = true) := by
  have placed : Placed (s.lock.pc t) (s.lock.depth t) .down := by
    have placed := orderly.placed t
    rcases place with place | place <;> rwa [place] at placed
  obtain ⟨outside, held⟩ := placed
  have pending : s.Pending t := by
    rcases place with place | place <;> simp [Channel.Pending, place, IdePc.Commanded]
  rcases orderly.signals.pending t pending with
    ⟨flag, value, notWoken, waiters⟩ | ⟨flag, value, -, waiters, since⟩
  · have down := place.resolve_right notWoken
    rw [down, if_neg (by decide)] at waiters
    refine ⟨{ s with waiters := [t] }.goto t .asleep, by simp [diskDown, value, waiters], ?_, ?_⟩
    · refine orderly.inside outside held rfl (by simp +contextual) (fun _ _ => rfl) ?_ ?_ ?_
      · rw [channelGoto_pc, if_pos rfl]
        exact ⟨rfl, rfl⟩
      · intro _
        refine .inl ⟨flag, value, by simp, ?_⟩
        rw [channelGoto_pc, if_pos rfl, if_pos rfl]
        rfl
      · intro idle
        simp [Channel.Pending, IdePc.Commanded] at idle
    · intro passed
      simp at passed
  · have quiet : ∀ next : Channel Tid, next.expectingIntr = s.expectingIntr → next.value = 0 →
        next.waiters = s.waiters → Quiet next := by
      intro next sameFlag zero sameWaiters
      exact ⟨sameFlag.trans flag, zero, sameWaiters.trans waiters⟩
    cases write : (s.call t).write with
    | true =>
        refine ⟨{ s with value := 0 }.nextRound t, by simp [diskDown, value, write], ?_,
          fun _ => since⟩
        refine orderly.inside outside held rfl (by simp +contextual [Channel.nextRound])
          (by simp +contextual [Channel.nextRound]) ?_ ?_ fun _ => quiet _ rfl rfl rfl
        · simp [Channel.nextRound, Placed]
        · intro pending
          simp [Channel.Pending, Channel.nextRound, IdePc.Commanded] at pending
    | false =>
        refine ⟨{ s with value := 0 }.goto t .busyWait, by simp [diskDown, value, write], ?_,
          fun _ => since⟩
        refine orderly.inside outside held rfl (by simp +contextual) (fun _ _ => rfl) ?_ ?_
          fun _ => quiet _ rfl rfl rfl
        · simp [Placed]
        · intro pending
          simp [Channel.Pending, Channel.goto, IdePc.Commanded, write] at pending

/-- A thread waits for the disk, and transfers the data. -/
theorem runIde_transfer (orderly : Orderly s)
    (place : s.pc t = .busyWait ∧ ready = true ∨ s.pc t = .transfer) :
    ∃ next, runIde s t ready = .ok next ∧ Orderly next := by
  have placed : Placed (s.lock.pc t) (s.lock.depth t) .transfer := by
    have placed := orderly.placed t
    rcases place with ⟨place, -⟩ | place <;> rwa [place] at placed
  obtain ⟨outside, held⟩ := placed
  have goes : ∀ pc : IdePc, (pc = .transfer ∨ pc = .down ∧ (s.call t).write = true) →
      Orderly (s.goto t pc) := by
    intro pc which
    refine orderly.inside outside held rfl (by simp +contextual) (fun _ _ => rfl) ?_ ?_ ?_
    · rw [channelGoto_pc, if_pos rfl]
      rcases which with rfl | ⟨rfl, -⟩ <;> exact ⟨rfl, rfl⟩
    · intro pending
      have write : (s.call t).write = true := by
        rcases which with rfl | ⟨-, write⟩
        · simpa [Channel.Pending, Channel.goto, IdePc.Commanded] using pending
        · exact write
      have signalled := orderly.signals.pending t
        (by rcases place with ⟨place, -⟩ | place <;>
              simp [Channel.Pending, place, IdePc.Commanded, write])
      refine signalled.awake rfl rfl rfl rfl ?_ ?_ ?_
      · rcases place with ⟨place, -⟩ | place <;> simp [place]
      · rcases which with rfl | ⟨rfl, -⟩ <;> simp
      · rcases which with rfl | ⟨rfl, -⟩ <;> simp
    · intro idle
      refine orderly.quiet held fun pending => idle ?_
      rcases which with rfl | ⟨rfl, -⟩
      · rcases place with ⟨place, -⟩ | place <;>
          simpa [Channel.Pending, Channel.goto, place, IdePc.Commanded] using pending
      · simp [Channel.Pending, IdePc.Commanded]
  rcases place with ⟨place, rfl⟩ | place
  · exact ⟨s.goto t .transfer, by simp [runIde, place], goes _ (.inl rfl)⟩
  · cases write : (s.call t).write with
    | true => exact ⟨s.goto t .down, by simp [runIde, place, write], goes _ (.inr ⟨rfl, write⟩)⟩
    | false =>
        have none : ¬ s.Pending t := by simp [Channel.Pending, place, IdePc.Commanded, write]
        refine ⟨s.nextRound t, by simp [runIde, place, write], ?_⟩
        refine orderly.inside outside held rfl (by simp +contextual [Channel.nextRound])
          (by simp +contextual [Channel.nextRound]) ?_ ?_ fun _ => orderly.quiet held none
        · simp [Channel.nextRound, Placed]
        · intro pending
          simp [Channel.Pending, Channel.nextRound, IdePc.Commanded] at pending

/-- The handler finds the semaphore at zero when it raises it. -/
theorem interrupt_ok (orderly : Orderly s) :
    ∃ next, ideExec s .interrupt = .ok next ∧ Orderly next := by
  by_cases expecting : s.expectingIntr = true
  case neg =>
      refine ⟨{ s with sinceExpecting := fun _ => true, sinceCommand := fun _ => true },
        by simp [ideExec, intrHdHandler, expecting], orderly.lock, orderly.placed, ?_, ?_⟩
      · intro t pending
        rcases orderly.signals.pending t pending with ⟨set, -⟩ | ⟨flag, value, awake, waiters, -⟩
        · exact absurd set expecting
        · exact .inr ⟨flag, value, awake, waiters, rfl⟩
      · exact orderly.signals.idle
  have pending : ∃ t, s.Pending t := by
    by_contra none
    have quiet := orderly.signals.idle fun t pending => none ⟨t, pending⟩
    simp [quiet.1] at expecting
  obtain ⟨t, pending⟩ := pending
  have held := orderly.pending_held pending
  rcases orderly.signals.pending t pending with ⟨-, value, notWoken, waiters⟩ | ⟨unset, -⟩
  case inr => simp [unset] at expecting
  by_cases asleep : s.pc t = .asleep
  · rw [if_pos asleep] at waiters
    have outside : s.lock.pc t = .outside := by
      have placed := orderly.placed t
      rw [asleep] at placed
      exact placed.1
    refine ⟨{ s with
      expectingIntr := false
      value := 1
      waiters := []
      pc := Function.update s.pc t .woken
      sinceExpecting := fun _ => true
      sinceCommand := fun _ => true }, ?_, ?_⟩
    · simp [ideExec, intrHdHandler, expecting, diskUp, wakeDisk, value, waiters, asleep,
        Channel.goto]
    · refine orderly.inside outside held rfl (by simp +contextual) (fun _ _ => rfl)
        (by simp [Placed]) ?_ ?_
      · intro _
        exact .inr ⟨rfl, rfl, by simp, rfl, rfl⟩
      · intro idle
        simp [Channel.Pending, IdePc.Commanded] at idle
  · rw [if_neg asleep] at waiters
    refine ⟨{ s with
      expectingIntr := false
      value := 1
      sinceExpecting := fun _ => true
      sinceCommand := fun _ => true }, ?_, orderly.lock, orderly.placed, ?_⟩
    · simp [ideExec, intrHdHandler, expecting, diskUp, wakeDisk, value, waiters]
    · refine orderly.signals_of_held held (fun _ _ => rfl) (fun _ _ => rfl) ?_ ?_
      · intro _
        exact .inr ⟨rfl, rfl, asleep, waiters, rfl⟩
      · intro idle
        exact absurd pending idle

/-- A thread calls `ide_read` or `ide_write`. -/
theorem call_ok (orderly : Orderly s) {write : Bool} {lba secCnt : Word}
    (enabled : IdeEnabled s (.call t write lba secCnt))
    (accepted : Accepted s (.call t write lba secCnt)) :
    ∃ next, ideExec s (.call t write lba secCnt) = .ok next ∧ Orderly next := by
  change s.pc t = .outside at enabled
  have placed := orderly.placed t
  rw [enabled] at placed
  obtain ⟨outside, unheld⟩ := placed
  have none : ¬ s.Pending t := by simp [Channel.Pending, enabled, IdePc.Commanded]
  refine ⟨_, by
    simp only [ideExec, lockExec, require_of accepted.1, require_of accepted.2, except_ok_bind,
      except_pure_eq]; rfl, ?_⟩
  refine orderly.locking (.acquire t) (.inl rfl) outside ?_ rfl rfl (by simp +contextual)
    ?_ ?_
  · change s.lock.depth t + 1 < 2 ^ 32
    omega
  · rw [channelGoto_pc, if_pos rfl, goto_pc, if_pos rfl]
    exact .inl ⟨.inl rfl, unheld⟩
  · refine orderly.signals.elsewhere none ?_ rfl rfl rfl rfl (by simp +contextual)
      (by simp +contextual [Channel.goto])
    simp [Channel.Pending, IdePc.Commanded]

/-- **Every step** that the assertions on sectors and the disk admit returns and keeps the
invariant. -/
theorem ideExec_ok (orderly : Orderly s) {op : IdeOp Tid} (enabled : IdeEnabled s op)
    (accepted : Accepted s op) : ∃ next, ideExec s op = .ok next ∧ Orderly next := by
  cases op with
  | call t write lba secCnt => exact call_ok orderly enabled accepted
  | interrupt => exact interrupt_ok orderly
  | run t ready =>
      obtain ⟨inside, awake, unblocked⟩ := enabled
      change ∃ next, runIde s t ready = .ok next ∧ Orderly next
      have down : s.pc t = .down ∨ s.pc t = .woken →
          ∃ next, runIde s t ready = .ok next ∧ Orderly next := by
        intro place
        obtain ⟨next, ran, kept, -⟩ := diskDown_ok orderly place
        exact ⟨next, by rcases place with place | place <;> simpa only [runIde, place], kept⟩
      cases place : s.pc t with
      | outside => exact absurd place inside
      | acquire => exact runIde_acquire orderly place unblocked
      | test => exact runIde_test orderly place accepted
      | setExpecting => exact runIde_cmdOut orderly (.inl place)
      | command => exact runIde_cmdOut orderly (.inr place)
      | down => exact down (.inl place)
      | asleep => exact absurd place awake
      | woken => exact down (.inr place)
      | busyWait => exact runIde_transfer orderly (.inl ⟨place, accepted.2 place⟩)
      | transfer => exact runIde_transfer orderly (.inr place)
      | release => exact runIde_release orderly place unblocked

/-- A step that returned was admitted. -/
theorem accepted_of_ran {op : IdeOp Tid} (ran : ideExec s op = .ok s') : Accepted s op := by
  cases op with
  | interrupt => trivial
  | call t write lba secCnt =>
      obtain ⟨_, small, ran⟩ := except_bind_eq_ok.mp ran
      obtain ⟨_, positive, _⟩ := except_bind_eq_ok.mp ran
      exact ⟨require_eq_ok.mp small, require_eq_ok.mp positive⟩
  | run t ready =>
      change runIde s t ready = .ok s' at ran
      refine ⟨fun place more => ?_, fun place => ?_⟩
      · simp only [runIde, place, if_pos more] at ran
        obtain ⟨_, small, _⟩ := except_bind_eq_ok.mp ran
        exact require_eq_ok.mp small
      · simp only [runIde, place] at ran
        obtain ⟨_, waited, _⟩ := except_bind_eq_ok.mp ran
        exact require_eq_ok.mp waited

omit [DecidableEq Tid] in
/-- A channel after `ide_init`. -/
theorem channelInit_orderly : Orderly (channelInit : Channel Tid) where
  lock := ⟨none, lockInit_owned⟩
  placed _ := ⟨rfl, rfl⟩
  signals := ⟨fun _ pending => absurd pending not_false, fun _ => ⟨rfl, rfl, rfl⟩⟩

/-- **The run lemma.** -/
theorem reachable_orderly (reachable : channel.Reachable s) : Orderly s := by
  refine reachable.invariant _ ?_ ?_
  · rintro _ rfl
    exact channelInit_orderly
  · rintro before op after - orderly ⟨enabled, ran⟩
    obtain ⟨next, ran', kept⟩ := ideExec_ok orderly enabled (accepted_of_ran ran)
    cases ran.symm.trans ran'
    exact kept

/-- A step in which the thread passes `sema_down` on `disk_done`. -/
def PassesDown (s next : Channel Tid) (t : Tid) (ready : Bool) : Prop :=
  (s.pc t = .down ∨ s.pc t = .woken) ∧ runIde s t ready = .ok next ∧ next.pc t ≠ .asleep

/-- What a channel promises in a state: `disk_done` is binary, no assertion of the semaphore or of
the lock fails, and one thread at most has a command outstanding. -/
structure ChannelSafe (s : Channel Tid) : Prop where
  binary : s.value ≤ 1
  asserts : ∀ op, IdeEnabled s op → Accepted s op → ∃ next, ideExec s op = .ok next
  oneCommand : ∀ t u, s.Pending t → s.Pending u → t = u

/-- **Commands and interrupts of a channel.** In every reachable state of every interleaving the
channel keeps its promise, and a thread that passes `sema_down` had an interrupt after it set
`expecting_intr`. -/
theorem channel_safe (reachable : channel.Reachable s) :
    ChannelSafe s ∧ ∀ t ready next, PassesDown s next t ready → s.sinceExpecting t = true := by
  have orderly := reachable_orderly reachable
  refine ⟨⟨?_, ?_, ?_⟩, ?_⟩
  · by_cases pending : ∃ t, s.Pending t
    · obtain ⟨t, pending⟩ := pending
      rcases orderly.signals.pending t pending with ⟨-, value, -⟩ | ⟨-, value, -⟩ <;> omega
    · have quiet := orderly.signals.idle fun t which => pending ⟨t, which⟩
      have value := quiet.2.1
      omega
  · intro op enabled accepted
    exact (ideExec_ok orderly enabled accepted).imp fun _ both => both.1
  · intro t u first second
    by_contra apart
    exact orderly.alone (orderly.pending_held second) apart first
  · rintro t ready next ⟨place, ran, passed⟩
    obtain ⟨next', ran', -, since⟩ := diskDown_ok orderly place
    have same : runIde s t ready = .ok next' := by
      rcases place with place | place <;> simpa only [runIde, place]
    cases ran.symm.trans same
    exact since passed

/-! ## An interrupt inside `cmd_out` -/

/-- Take a step if it is enabled. -/
def ideStep (s : Channel Tid) (op : IdeOp Tid) : Option (Channel Tid) :=
  if IdeEnabled s op then (ideExec s op).toOption else none

theorem ideStep_sound (s : Channel Tid) (op : IdeOp Tid) (next : Channel Tid)
    (stepped : ideStep s op = some next) : channel.step s op next := by
  unfold ideStep at stepped
  split at stepped
  case isTrue enabled =>
      cases ran : ideExec s op with
      | ok reached =>
          rw [ran] at stepped
          cases stepped
          exact ⟨enabled, ran⟩
      | error fault =>
          rw [ran] at stepped
          cases stepped
  case isFalse => cases stepped

/-- A run after which a thread passes `sema_down`, in a state of which `holds` is true. -/
theorem passes_after {ops : List (IdeOp Tid)} {t : Tid} {holds : Channel Tid → Bool}
    (ran : (TransitionSystem.run ideStep channelInit ops).any (fun s =>
      (s.pc t = .down ∨ s.pc t = .woken) ∧ holds s = true ∧
        ((runIde s t true).toOption.any fun next => next.pc t ≠ .asleep)) = true) :
    ∃ s next, channel.Reachable s ∧ PassesDown s next t true ∧ holds s = true := by
  obtain ⟨s, reached, facts⟩ := (Option.any_eq_true _ _).mp ran
  obtain ⟨place, true_of, passes⟩ := of_decide_eq_true facts
  obtain ⟨next, same, passed⟩ := (Option.any_eq_true _ _).mp passes
  refine ⟨s, next, (TransitionSystem.Reachable.initial rfl).run ideStep_sound reached,
    ⟨place, ?_, of_decide_eq_true passed⟩, true_of⟩
  cases ran : runIde s t true with
  | error fault =>
      rw [ran] at same
      cases same
  | ok reached =>
      rw [ran] at same
      cases same
      rfl

/-- A thread reads a sector and sleeps in `sema_down`, a second one waits for the lock of the
channel, and the interrupt arrives. -/
def readBesideWriter : List (IdeOp Bool) :=
  .call true false 0 1 :: List.replicate 10 (.run true true) ++
    [.call false true 7 2, .run false true, .run false true, .interrupt]

/-- The promise in a state in which a thread is about to pass `sema_down`, while another waits. -/
theorem channel_safe_at_down : ∃ s next : Channel Bool, s.lock.pc false = .blocked ∧
    PassesDown s next true true ∧ ChannelSafe s ∧ s.sinceExpecting true = true := by
  have ran : (TransitionSystem.run ideStep channelInit readBesideWriter).any (fun s =>
      (s.pc true = .down ∨ s.pc true = .woken) ∧ decide (s.lock.pc false = .blocked) = true ∧
        ((runIde s true true).toOption.any fun next => next.pc true ≠ .asleep)) = true := by
    decide +kernel
  obtain ⟨s, next, reachable, passes, waits⟩ := passes_after ran
  have safe := channel_safe reachable
  exact ⟨s, next, of_decide_eq_true waits, passes, safe.1, safe.2 _ _ _ passes⟩

/-- A thread reads a sector, and an interrupt arrives before it writes the command. -/
def earlyInterrupt : List (IdeOp Unit) :=
  .call () false 0 1 :: List.replicate 8 (.run () true) ++ [.interrupt, .run () true]

/-- An interrupt inside `cmd_out` lets a thread pass `sema_down` before any interrupt that
arrived after it wrote its command. -/
theorem passes_before_command : ¬ ∀ s : Channel Unit, channel.Reachable s →
    ∀ t ready next, PassesDown s next t ready → s.sinceCommand t = true := by
  intro always
  have ran : (TransitionSystem.run ideStep channelInit earlyInterrupt).any (fun s =>
      (s.pc () = .down ∨ s.pc () = .woken) ∧ (!s.sinceCommand ()) = true ∧
        ((runIde s () true).toOption.any fun next => next.pc () ≠ .asleep)) = true := by
    decide +kernel
  obtain ⟨s, next, reachable, passes, early⟩ := passes_after ran
  have since := always s reachable () true next passes
  rw [since] at early
  cases early

end UKernel.Ide
