import UKernel.Thread.ReadyQueue

/-! # The semaphore

`sema_down` and `sema_up` of `sync.c` over the scheduler of `thread.c`, run by any number of
threads on one semaphore (`UKernel.Semaphore.semaphore`). Both run with interrupts off and leave
the processor in `thread_block` only, so `sema_down` is one step up to the point where it
blocks, and each further test of its loop is another.

A thread that was woken may find the semaphore taken and sleep again. No thread sleeps beside a
free semaphore with nobody left to wake it: while the value is one and threads wait, some thread
that was woken has not tested the value yet (`UKernel.Semaphore.no_waiter_left_asleep`).
-/

namespace UKernel.Semaphore

open UKernel.Library UKernel.Thread

/-! ## What scheduling leaves alone -/

section Scheduling

variable {s next : Sched} {t u : TaskId} {stat : TaskStatus}

/-- A status, when it does not matter whether a task that can run does run. -/
def kind : TaskStatus → TaskStatus
  | .running => .ready
  | status => status

/-- The status of a task up to `UKernel.Semaphore.kind`. -/
def kindOf (s : Sched) (t : TaskId) : Option TaskStatus :=
  (s.statusOf t).map kind

theorem task_put {task : Task} : (s.put t task).task t = some task :=
  Function.update_self ..

theorem kindOf_put {task : Task} :
    kindOf (s.put t task) u = if u = t then some (kind task.status) else kindOf s u := by
  unfold kindOf
  rw [statusOf_put]
  split
  · rfl
  · rfl

theorem kindOf_get {task : Task} (found : s.get t = .ok task) :
    kindOf s t = some (kind task.status) := by
  rw [kindOf, statusOf_eq_some.mpr ⟨task, get_eq_ok.mp found, rfl⟩]
  rfl

theorem kindOf_blocked : kindOf s t = some .blocked ↔ s.statusOf t = some .blocked := by
  unfold kindOf
  rw [Option.map_eq_some_iff]
  constructor
  · intro known
    obtain ⟨status, found, same⟩ := known
    cases status with
    | blocked => exact found
    | running => cases same
    | ready => cases same
    | waiting => cases same
    | hanging => cases same
    | died => cases same
  · exact fun known => ⟨.blocked, known, rfl⟩

theorem kindOf_ready : kindOf s t = some .ready ↔
    s.statusOf t = some .ready ∨ s.statusOf t = some .running := by
  unfold kindOf
  rw [Option.map_eq_some_iff]
  constructor
  · intro known
    obtain ⟨status, found, same⟩ := known
    cases status with
    | ready => exact .inl found
    | running => exact .inr found
    | blocked => cases same
    | waiting => cases same
    | hanging => cases same
    | died => cases same
  · intro either
    rcases either with ready | running
    · exact ⟨.ready, ready, rfl⟩
    · exact ⟨.running, running, rfl⟩

/-- No task but the idle one was blocked or woken. -/
structure SameKinds (s next : Sched) : Prop where
  idle : next.idleThread = s.idleThread
  kinds : ∀ t, t ≠ s.idleThread → kindOf next t = kindOf s t

theorem SameKinds.trans {mid : Sched} (first : SameKinds s mid) (second : SameKinds mid next) :
    SameKinds s next :=
  ⟨second.idle.trans first.idle, fun t other =>
    (second.kinds t (first.idle ▸ other)).trans (first.kinds t other)⟩

/-- The control blocks and the idle task are the same. -/
theorem SameKinds.of_same (idle : next.idleThread = s.idleThread) (task : next.task = s.task) :
    SameKinds s next :=
  ⟨idle, fun t _ => by rw [kindOf, kindOf, Sched.statusOf, Sched.statusOf, task]⟩

/-- A control block is rewritten. -/
theorem SameKinds.put {task : Task}
    (same : t ≠ s.idleThread → kindOf s t = some (kind task.status)) :
    SameKinds s (s.put t task) := by
  refine ⟨rfl, fun u other => ?_⟩
  rw [kindOf_put]
  by_cases here : u = t
  · rw [if_pos here, here, same (here ▸ other)]
  · rw [if_neg here]

theorem requeueCurrent_kinds (ran : requeueCurrent s = .ok next) : SameKinds s next := by
  obtain ⟨cur, found, ran⟩ := except_bind_eq_ok.mp ran
  by_cases running : cur.status = .running
  · rw [if_pos running] at ran
    obtain ⟨-, -, ran⟩ := except_bind_eq_ok.mp ran
    cases ran
    have known : s.statusOf s.current = some .running :=
      statusOf_eq_some.mpr ⟨cur, get_eq_ok.mp found, running⟩
    have put : SameKinds s
        (s.put s.current { cur with ticks := cur.priority, status := .ready }) :=
      .put fun _ => kindOf_ready.mpr (.inr known)
    exact put.trans (.of_same rfl rfl)
  · rw [if_neg running] at ran
    cases ran
    exact .of_same rfl rfl

/-- Waking the idle task. -/
theorem threadUnblock_kinds (ran : threadUnblock s s.idleThread = .ok next) :
    SameKinds s next ∧ ∀ t ∈ next.threadReadyList, t ∈ s.threadReadyList ∨ t = s.idleThread := by
  obtain ⟨pthread, found, ran⟩ := except_bind_eq_ok.mp ran
  obtain ⟨_, -, ran⟩ := except_bind_eq_ok.mp ran
  split at ran
  · obtain ⟨-, -, ran⟩ := except_bind_eq_ok.mp ran
    cases ran
    have put : SameKinds s (s.put s.idleThread { pthread with status := .ready }) :=
      .put fun other => absurd rfl other
    refine ⟨put.trans (.of_same rfl rfl), fun t listed => ?_⟩
    rcases List.mem_cons.mp listed with rfl | old
    · exact .inr rfl
    · exact .inl old
  · cases ran
    exact ⟨.of_same rfl rfl, fun t listed => .inl listed⟩

theorem dispatch_kinds (ready : ∀ t ∈ s.threadReadyList, t = s.idleThread ∨
    s.statusOf t = some .ready)
    (ran : dispatch s = .ok next) : SameKinds s next := by
  unfold dispatch at ran
  cases queue : s.threadReadyList with
  | nil =>
      rw [queue] at ran
      cases ran
  | cons threadTag rest =>
      rw [queue] at ran
      obtain ⟨task, found, ran⟩ := except_bind_eq_ok.mp ran
      cases ran
      have put : SameKinds s (s.put threadTag { task with status := .running }) := by
        apply SameKinds.put
        intro other
        have listed : threadTag ∈ s.threadReadyList := by
          rw [queue]
          exact List.mem_cons_self
        exact kindOf_ready.mpr (.inl ((ready threadTag listed).resolve_left other))
      exact put.trans (.of_same rfl rfl)

/-- `schedule` blocks and wakes no task but the idle one. -/
theorem schedule_kinds (schedulable : Schedulable s) (ran : schedule s = .ok next) :
    SameKinds s next := by
  obtain ⟨-, -, ran⟩ := except_bind_eq_ok.mp ran
  obtain ⟨requeued, requeue, ran⟩ := except_bind_eq_ok.mp ran
  have first := requeueCurrent_kinds requeue
  obtain ⟨requeued', requeue', queues, -⟩ := requeueCurrent_ok schedulable
  cases requeue.symm.trans requeue'
  by_cases empty : requeued.threadReadyList = []
  · simp only [empty, if_true] at ran
    obtain ⟨woken, wake, ran⟩ := except_bind_eq_ok.mp ran
    obtain ⟨second, listed⟩ := threadUnblock_kinds wake
    refine (first.trans second).trans (dispatch_kinds (fun t member => .inl ?_) ran)
    rcases listed t member with old | idle
    · rw [empty] at old
      cases old
    · rw [idle, second.idle]
  · simp only [empty, if_false, except_pure_eq, except_ok_bind] at ran
    exact first.trans
      (dispatch_kinds (fun t member => .inr ((queues.ready_exact t).mp member)) ran)

/-- A running task is a task that can run. -/
theorem current_kind (consistent : Consistent s) : kindOf s s.current = some .ready :=
  kindOf_ready.mpr (.inr ((consistent.running_exact s.current).mpr rfl))

theorem threadBlock_kinds (consistent : Consistent s)
    (idle : s.current = s.idleThread → stat = .blocked) (ran : threadBlock s stat = .ok next) :
    next.idleThread = s.idleThread ∧ ∀ t, t ≠ s.idleThread →
      kindOf next t = if t = s.current then some (kind stat) else kindOf s t := by
  obtain ⟨entry, entered, ran⟩ := except_bind_eq_ok.mp ran
  obtain ⟨_, suspended, whole⟩ := except_bind_eq_ok.mp entered
  have enabled : Enabled s (.block stat) := ⟨require_eq_ok.mp suspended, idle⟩
  obtain ⟨entry', entered', schedulable⟩ :=
    scheduleEntry_ok consistent enabled (.inr (.inr ⟨stat, rfl⟩))
  cases entered.symm.trans entered'
  obtain ⟨cur, -, -, kernel⟩ := enterKernel_ok consistent s.intr
  rw [kernel, except_ok_bind] at whole
  obtain ⟨found, -, whole⟩ := except_bind_eq_ok.mp whole
  cases whole
  have scheduled := schedule_kinds schedulable ran
  refine ⟨scheduled.idle, fun t other => ?_⟩
  rw [scheduled.kinds t other, kindOf_put]
  refine ite_congr rfl (fun _ => rfl) fun apart => ?_
  change kindOf (s.put s.current _) t = _
  rw [kindOf_put, if_neg apart]

theorem threadYield_kinds (consistent : Consistent s) (ran : threadYield s = .ok next) :
    SameKinds s next := by
  obtain ⟨entry, entered, ran⟩ := except_bind_eq_ok.mp ran
  obtain ⟨entry', entered', schedulable⟩ :=
    scheduleEntry_ok consistent (show Enabled s .yield from trivial) (.inr (.inl rfl))
  cases entered.symm.trans entered'
  obtain ⟨cur, -, -, kernel⟩ := enterKernel_ok consistent s.intr
  rw [threadYieldEntry, kernel, except_ok_bind] at entered
  obtain ⟨_, -, entered⟩ := except_bind_eq_ok.mp entered
  obtain ⟨found, -, entered⟩ := except_bind_eq_ok.mp entered
  cases entered
  refine SameKinds.trans ?_ (schedule_kinds schedulable ran)
  refine ⟨rfl, fun t _ => ?_⟩
  rw [kindOf_put]
  change (if t = s.current then some TaskStatus.ready else
    kindOf (s.put s.current { cur with oldStatus := s.intr }) t) = _
  by_cases here : t = s.current
  · rw [here, if_pos rfl, current_kind consistent]
  · rw [if_neg here, kindOf_put, if_neg here]

theorem timerEntry_kinds (consistent : Consistent s) {entry : Sched}
    (ran : timerEntry s = .ok entry) : SameKinds s entry := by
  obtain ⟨cur, found, running, kernel⟩ := enterKernel_ok consistent .on
  rw [timerEntry, kernel, except_ok_bind] at ran
  obtain ⟨curThread, present, ran⟩ := except_bind_eq_ok.mp ran
  have block : (s.put s.current { cur with oldStatus := .on }).task s.current = some curThread :=
    get_eq_ok.mp present
  rw [task_put] at block
  cases block
  cases ran
  refine ⟨rfl, fun t _ => ?_⟩
  rw [kindOf_put]
  change (if t = s.current then some (kind cur.status) else
    kindOf (s.put s.current { cur with oldStatus := .on }) t) = _
  by_cases here : t = s.current
  · rw [here, if_pos rfl, current_kind consistent, running]
    rfl
  · rw [if_neg here, kindOf_put, if_neg here]

theorem intrTimerHandler_kinds (consistent : Consistent s) (on : s.intr = .on)
    (ran : intrTimerHandler s = .ok next) : SameKinds s next := by
  obtain ⟨entry, entered, ran⟩ := except_bind_eq_ok.mp ran
  obtain ⟨entry', entered', schedulable⟩ :=
    scheduleEntry_ok consistent (show Enabled s .timer from on) (.inl rfl)
  cases entered.symm.trans entered'
  have ticked := timerEntry_kinds consistent entered
  obtain ⟨curThread, read, ran⟩ := except_bind_eq_ok.mp ran
  split at ran
  · exact ticked.trans (schedule_kinds schedulable ran)
  · cases ran
    have known := kindOf_get read
    have put : SameKinds entry
        (entry.put entry.current { curThread with ticks := curThread.ticks - 1 }) :=
      .put fun _ => known
    exact (ticked.trans put).trans (.of_same rfl rfl)

end Scheduling

/-! ## The semaphore -/

/-- `struct semaphore`, and the threads. `oldStatus` is the local variable of the `sema_down`
that a thread is in, if it is in one. -/
structure SemaState where
  sched : Sched
  value : Nat
  waiters : List TaskId
  oldStatus : TaskId → Option IntrStatus

namespace SemaState

variable (s : SemaState)

/-- What `running_thread` returns. -/
def current : TaskId :=
  s.sched.current

/-- `intr_set_status`. -/
def setIntr (status : IntrStatus) : SemaState :=
  { s with sched := { s.sched with intr := status } }

end SemaState

/-- `sema_init`. -/
def semaInit (sched : Sched) (value : Nat) : SemaState where
  sched := sched
  value := value
  waiters := []
  oldStatus _ := none

/-- `sema_down`, from a test of its loop to the return or to the next `thread_block`. -/
def semaTest (s : SemaState) (oldStatus : IntrStatus) : Except Fault SemaState :=
  if s.value = 0 then do
    require (s.current ∉ s.waiters)
    let sched ← threadBlock s.sched .blocked
    pure { s with
      sched := sched
      waiters := s.waiters ++ [s.current]
      oldStatus := Function.update s.oldStatus s.current (some oldStatus) }
  else do
    let s := { s with value := (s.value + 2 ^ 8 - 1) % 2 ^ 8 }
    require (s.value = 0)
    pure ({ s with oldStatus := Function.update s.oldStatus s.current none }.setIntr oldStatus)

/-- `sema_down`. -/
def semaDown (s : SemaState) : Except Fault SemaState :=
  semaTest (s.setIntr .off) s.sched.intr

/-- The part of `sema_up` that wakes a thread. -/
def wakeFirst (s : SemaState) : Except Fault SemaState :=
  match s.waiters with
  | [] => .ok s
  | threadBlocked :: rest => do
      let sched ← threadUnblock s.sched threadBlocked
      pure { s with sched := sched, waiters := rest }

/-- `sema_up`. -/
def semaUp (s : SemaState) : Except Fault SemaState := do
  let oldStatus := s.sched.intr
  let s := s.setIntr .off
  require (s.value = 0)
  let s ← wakeFirst s
  let s := { s with value := (s.value + 1) % 2 ^ 8 }
  require (s.value = 1)
  pure (s.setIntr oldStatus)

/-- What happens next: a scheduling event, or the running thread does one of the two calls. -/
inductive SemaOp where
  /-- An operation of the scheduler. -/
  | sched (op : Op)
  /-- `sema_down` is called. -/
  | down
  /-- `thread_block` returned in `sema_down`. -/
  | again
  /-- `sema_up` is called. -/
  | up
  deriving DecidableEq, Repr

/-- Run one operation. -/
def semaExec (s : SemaState) : SemaOp → Except Fault SemaState
  | .sched op => do
      let sched ← exec s.sched op
      pure { s with sched := sched }
  | .down => semaDown s
  | .again =>
      match s.oldStatus s.current with
      | none => .ok s
      | some oldStatus => semaTest s oldStatus
  | .up => semaUp s

/-- The scheduling events besides those of the semaphore: the idle task blocks, tasks start, and
no task blocks or is woken elsewhere. -/
def Passive (s : Sched) : Op → Prop
  | .timer => True
  | .block _ => s.current = s.idleThread
  | .unblock _ => False
  | .yield => True
  | .start _ _ => True
  | .exit _ => False
  | .setIntr _ => True

/-- When an operation can happen. A thread that is in `sema_down` goes on with it, the idle task
does not wait, and `sema_up` is called only when the value is zero. -/
def SemaEnabled (s : SemaState) : SemaOp → Prop
  | .sched op => s.oldStatus s.current = none ∧ Enabled s.sched op ∧ Passive s.sched op
  | .down => s.oldStatus s.current = none ∧ s.current ≠ s.sched.idleThread
  | .again => s.oldStatus s.current ≠ none
  | .up => s.oldStatus s.current = none ∧ s.value = 0

/-- Threads that use a semaphore, under every interleaving, from any boot state. -/
def semaphore : TransitionSystem SemaState SemaOp where
  initial s := ∃ main init idle value, [main, init, idle].Nodup ∧ value ≤ 1 ∧
    s = semaInit (booted main init idle) value
  step s op next := SemaEnabled s op ∧ semaExec s op = .ok next

/-! ## The invariant -/

/-- The threads on the queue are those that are blocked, and each is in `sema_down`; a thread in
`sema_down` that is not on the queue can run; and while the value is one and threads wait, there
is such a thread. -/
structure Waiting (s : SemaState) : Prop where
  consistent : Consistent s.sched
  value_le : s.value ≤ 1
  nodup : s.waiters.Nodup
  notIdle : s.sched.idleThread ∉ s.waiters
  outside : s.oldStatus s.sched.idleThread = none
  blocked : ∀ t, t ≠ s.sched.idleThread →
    (t ∈ s.waiters ↔ kindOf s.sched t = some .blocked)
  down : ∀ t ∈ s.waiters, s.oldStatus t ≠ none
  awake : ∀ t, s.oldStatus t ≠ none → t ∉ s.waiters → kindOf s.sched t = some .ready
  woken : s.value = 1 → s.waiters ≠ [] → ∃ t, s.oldStatus t ≠ none ∧ t ∉ s.waiters

section Invariant

variable {s next : SemaState}

/-- The running thread does not wait. -/
theorem Waiting.current_absent (waiting : Waiting s) : s.current ∉ s.waiters := by
  intro listed
  have other : s.current ≠ s.sched.idleThread := fun same => waiting.notIdle (same ▸ listed)
  have blocked := (waiting.blocked _ other).mp listed
  rw [SemaState.current, current_kind waiting.consistent] at blocked
  cases blocked

theorem Waiting.settle (waiting : Waiting s) {sched : Sched} (same : SameKinds s.sched sched)
    (consistent : Consistent sched) : Waiting { s with sched := sched } := by
  obtain ⟨idle, kinds⟩ := same
  refine ⟨consistent, waiting.value_le, waiting.nodup, ?_, ?_, ?_, waiting.down, ?_, waiting.woken⟩
  · rw [idle]
    exact waiting.notIdle
  · rw [idle]
    exact waiting.outside
  · intro t other
    rw [idle] at other
    rw [kinds t other]
    exact waiting.blocked t other
  · intro t inside absent
    have other : t ≠ s.sched.idleThread := fun same => inside (same ▸ waiting.outside)
    rw [kinds t other]
    exact waiting.awake t inside absent

theorem Waiting.setIntr (waiting : Waiting s) (status : IntrStatus) :
    Waiting (s.setIntr status) := by
  obtain ⟨sched, ran, consistent⟩ :=
    exec_ok waiting.consistent (show Enabled s.sched (.setIntr status) from trivial)
  cases ran
  exact waiting.settle (.of_same rfl rfl) consistent

/-- A test of the loop of `sema_down`. -/
theorem semaTest_ok (waiting : Waiting s) (other : s.current ≠ s.sched.idleThread)
    (oldStatus : IntrStatus) : ∃ next, semaTest s oldStatus = .ok next ∧ Waiting next := by
  unfold semaTest
  by_cases taken : s.value = 0
  · rw [if_pos taken, require_of waiting.current_absent, except_ok_bind]
    have enabled : Enabled s.sched (.block .blocked) := ⟨.inl rfl, fun _ => rfl⟩
    obtain ⟨sched, ran, consistent⟩ := exec_ok waiting.consistent enabled
    have blocks : threadBlock s.sched .blocked = .ok sched := ran
    obtain ⟨idle, kinds⟩ := threadBlock_kinds waiting.consistent (fun _ => rfl) blocks
    change ∀ t, t ≠ s.sched.idleThread → kindOf sched t =
      if t = s.current then some .blocked else kindOf s.sched t at kinds
    refine ⟨{ s with
      sched := sched
      waiters := s.waiters ++ [s.current]
      oldStatus := Function.update s.oldStatus s.current (some oldStatus) },
      by rw [blocks]; rfl, consistent, waiting.value_le, ?_, ?_, ?_, ?_, ?_, ?_, ?_⟩
    · exact List.nodup_append.mpr ⟨waiting.nodup, List.nodup_singleton _,
        fun t listed u single => by
        rw [List.mem_singleton.mp single]
        exact fun same => waiting.current_absent (same ▸ listed)⟩
    · rw [idle]
      intro listed
      rcases List.mem_append.mp listed with old | new
      · exact waiting.notIdle old
      · exact other (List.mem_singleton.mp new).symm
    · rw [idle]
      dsimp only
      rw [Function.update_of_ne other.symm]
      exact waiting.outside
    · intro t apart
      rw [idle] at apart
      rw [kinds t apart, List.mem_append, List.mem_singleton, waiting.blocked t apart]
      by_cases here : t = s.current
      · exact iff_of_true (.inr here) (if_pos here)
      · rw [if_neg here, or_iff_left here]
    · intro t listed
      dsimp only
      by_cases here : t = s.current
      · rw [here, Function.update_self]
        exact Option.some_ne_none _
      · rw [Function.update_of_ne here]
        exact waiting.down t ((List.mem_append.mp listed).resolve_right fun single =>
          here (List.mem_singleton.mp single))
    · intro t inside absent
      rw [List.mem_append, List.mem_singleton, not_or] at absent
      dsimp only at inside
      rw [Function.update_of_ne absent.2] at inside
      have apart : t ≠ s.sched.idleThread := fun same => inside (same ▸ waiting.outside)
      rw [kinds t apart, if_neg absent.2]
      exact waiting.awake t inside absent.1
    · intro one
      rw [taken] at one
      cases one
  · have one : s.value = 1 := by
      have := waiting.value_le
      omega
    rw [if_neg taken, one]
    refine ⟨_, rfl, Waiting.setIntr (s := { s with
      value := 0
      oldStatus := Function.update s.oldStatus s.current none }) ?_ oldStatus⟩
    refine ⟨waiting.consistent, Nat.zero_le _, waiting.nodup, waiting.notIdle, ?_,
      waiting.blocked, ?_, ?_, fun wrong => ?_⟩
    · dsimp only
      rw [Function.update_of_ne other.symm]
      exact waiting.outside
    · intro t listed
      have apart : t ≠ s.current := fun same => waiting.current_absent (same ▸ listed)
      dsimp only
      rw [Function.update_of_ne apart]
      exact waiting.down t listed
    · intro t inside
      have apart : t ≠ s.current := by
        intro same
        dsimp only at inside
        rw [same, Function.update_self] at inside
        exact inside rfl
      dsimp only at inside
      rw [Function.update_of_ne apart] at inside
      exact waiting.awake t inside
    · cases wrong

/-- Waking the first thread of the queue. -/
theorem wakeFirst_ok (waiting : Waiting s) (zero : s.value = 0) :
    ∃ next, wakeFirst s = .ok next ∧ next.value = 0 ∧ Waiting next ∧
      (next.waiters ≠ [] → ∃ t, next.oldStatus t ≠ none ∧ t ∉ next.waiters) := by
  unfold wakeFirst
  cases queue : s.waiters with
  | nil => exact ⟨s, rfl, zero, waiting, fun nonempty => absurd queue nonempty⟩
  | cons threadBlocked rest =>
      have listed : threadBlocked ∈ s.waiters := by
        rw [queue]
        exact List.mem_cons_self
      have nodup := waiting.nodup
      rw [queue, List.nodup_cons] at nodup
      have other : threadBlocked ≠ s.sched.idleThread := fun same =>
        waiting.notIdle (same ▸ listed)
      have known := kindOf_blocked.mp ((waiting.blocked _ other).mp listed)
      obtain ⟨task, present, ran⟩ := threadUnblock_ok waiting.consistent.toQueues known (.inl rfl)
      obtain ⟨sched, woke, consistent⟩ := exec_ok waiting.consistent
        (show Enabled s.sched (.unblock threadBlocked) from ⟨.blocked, known, .inl rfl⟩)
      cases ran.symm.trans woke
      have kinds : ∀ t, kindOf (s.sched.put threadBlocked { task with status := .ready }) t =
          if t = threadBlocked then some .ready else kindOf s.sched t := fun t => kindOf_put
      have down := waiting.down threadBlocked listed
      refine ⟨{ s with
        sched := { s.sched.put threadBlocked { task with status := .ready } with
          threadReadyList := threadBlocked :: s.sched.threadReadyList }
        waiters := rest }, by dsimp only; rw [ran]; rfl, zero,
        ⟨consistent, waiting.value_le, nodup.2, ?_, waiting.outside, ?_, ?_, ?_, ?_⟩, ?_⟩
      · exact fun listed => waiting.notIdle (queue ▸ List.mem_cons_of_mem _ listed)
      · intro t apart
        change t ∈ rest ↔ kindOf (s.sched.put threadBlocked _) t = _
        have before := waiting.blocked t apart
        rw [queue, List.mem_cons] at before
        rw [kinds]
        by_cases here : t = threadBlocked
        · rw [if_pos here, here]
          exact iff_of_false nodup.1 (by decide)
        · rw [if_neg here, ← before, or_iff_right here]
      · exact fun t listed => waiting.down t (queue ▸ List.mem_cons_of_mem _ listed)
      · intro t inside absent
        change kindOf (s.sched.put threadBlocked _) t = _
        rw [kinds]
        by_cases here : t = threadBlocked
        · rw [if_pos here]
        · rw [if_neg here]
          refine waiting.awake t inside fun listed => absent ?_
          rw [queue, List.mem_cons] at listed
          exact listed.resolve_left here
      · exact fun _ _ => ⟨threadBlocked, down, nodup.1⟩
      · exact fun _ => ⟨threadBlocked, down, nodup.1⟩

theorem semaUp_ok (waiting : Waiting s) (zero : s.value = 0) :
    ∃ next, semaUp s = .ok next ∧ Waiting next := by
  obtain ⟨woken, wakes, value, kept, someone⟩ := wakeFirst_ok (waiting.setIntr .off) zero
  refine ⟨{ woken with value := 1 }.setIntr s.sched.intr, ?_, Waiting.setIntr ?_ _⟩
  · have still : (s.setIntr .off).value = 0 := zero
    rw [semaUp, require_of still, except_ok_bind, wakes, except_ok_bind, value]
    rfl
  · exact ⟨kept.consistent, Nat.le_refl _, kept.nodup, kept.notIdle, kept.outside, kept.blocked,
      kept.down, kept.awake, fun _ => someone⟩

/-- A task on a fresh page starts. -/
theorem Waiting.start (waiting : Waiting s) {thread : TaskId} {prio : Nat} {sched : Sched}
    (fresh : s.sched.task thread = none) (ran : threadStart s.sched thread prio = .ok sched)
    (consistent : Consistent sched) : Waiting { s with sched := sched } := by
  obtain ⟨_, -, ran⟩ := except_bind_eq_ok.mp ran
  obtain ⟨_, -, ran⟩ := except_bind_eq_ok.mp ran
  cases ran
  have unknown : kindOf s.sched thread = none := by
    rw [kindOf, Sched.statusOf, fresh]
    rfl
  have kinds : ∀ t, kindOf (s.sched.put thread
      ⟨.ready, prio, prio, 0, .on⟩) t = if t = thread then some .ready else kindOf s.sched t :=
    fun t => kindOf_put
  refine ⟨consistent, waiting.value_le, waiting.nodup, waiting.notIdle, waiting.outside, ?_,
    waiting.down, ?_, waiting.woken⟩
  · intro t apart
    change t ∈ s.waiters ↔ kindOf (s.sched.put thread _) t = _
    rw [kinds, waiting.blocked t apart]
    by_cases here : t = thread
    · rw [if_pos here, here, unknown]
      exact iff_of_false (fun wrong => by cases wrong) (by decide)
    · rw [if_neg here]
  · intro t inside absent
    change kindOf (s.sched.put thread _) t = _
    rw [kinds]
    by_cases here : t = thread
    · rw [if_pos here]
    · rw [if_neg here]
      exact waiting.awake t inside absent

/-- **One step.** From a state that satisfies the invariant every operation that can happen
returns, and leaves a state that does. -/
theorem semaExec_ok (waiting : Waiting s) {op : SemaOp} (enabled : SemaEnabled s op) :
    ∃ next, semaExec s op = .ok next ∧ Waiting next := by
  cases op with
  | sched op =>
      obtain ⟨-, may, passive⟩ := enabled
      obtain ⟨sched, ran, consistent⟩ := exec_ok waiting.consistent may
      refine ⟨{ s with sched := sched }, by rw [semaExec, ran]; rfl, ?_⟩
      cases op with
      | timer =>
          exact waiting.settle (intrTimerHandler_kinds waiting.consistent may ran) consistent
      | block stat =>
          have blocked : stat = .blocked := may.2 passive
          obtain ⟨idle, kinds⟩ :=
            threadBlock_kinds waiting.consistent (fun _ => blocked) ran
          refine waiting.settle ⟨idle, fun t apart => ?_⟩ consistent
          rw [kinds t apart, if_neg fun here => apart (here.trans passive)]
      | unblock t => exact passive.elim
      | yield => exact waiting.settle (threadYield_kinds waiting.consistent ran) consistent
      | start thread prio => exact waiting.start may ran consistent
      | exit threadOver => exact passive.elim
      | setIntr status =>
          cases ran
          exact waiting.settle (.of_same rfl rfl) consistent
  | down => exact semaTest_ok (waiting.setIntr .off) enabled.2 s.sched.intr
  | again =>
      have other : s.current ≠ s.sched.idleThread := by
        intro same
        have none := waiting.outside
        rw [← same] at none
        exact enabled none
      cases saved : s.oldStatus s.current with
      | none => exact absurd saved enabled
      | some oldStatus =>
          obtain ⟨next, ran, kept⟩ := semaTest_ok waiting other oldStatus
          exact ⟨next, by rw [semaExec, saved]; exact ran, kept⟩
  | up => exact semaUp_ok waiting enabled.2

/-- The state after boot, with no thread in `sema_down`. -/
theorem semaInit_waiting {main init idle : TaskId} {value : Nat}
    (distinct : [main, init, idle].Nodup)
    (binary : value ≤ 1) : Waiting (semaInit (booted main init idle) value) := by
  have consistent := booted_consistent distinct
  refine ⟨consistent, binary, List.nodup_nil, List.not_mem_nil, rfl, ?_, ?_, ?_, ?_⟩
  · intro t _
    refine iff_of_false List.not_mem_nil fun blocked => ?_
    have known := kindOf_blocked.mp blocked
    simp only [semaInit, Sched.statusOf, booted] at known
    split_ifs at known
    · cases known
    · cases known
    · cases known
    · cases known
  · exact fun t listed => absurd listed List.not_mem_nil
  · exact fun t inside => absurd rfl inside
  · exact fun _ nonempty => absurd rfl nonempty

/-- A reachable state satisfies the invariant. -/
theorem reachable_waiting (reachable : semaphore.Reachable s) : Waiting s := by
  refine reachable.invariant _ ?_ ?_
  · rintro _ ⟨main, init, idle, value, distinct, binary, rfl⟩
    exact semaInit_waiting distinct binary
  · rintro before op after - waiting ⟨enabled, ran⟩
    obtain ⟨next, ran', kept⟩ := semaExec_ok waiting enabled
    cases ran.symm.trans ran'
    exact kept

end Invariant

/-! ## No lost wake-up -/

/-- Each thread is on the queue of waiters at most once and is blocked exactly when it is on it,
and while the value is one and threads wait, some thread in `sema_down` can run and will test the
value again. The idle task blocks outside the semaphore. -/
structure NoLostWakeUp (s : SemaState) : Prop where
  once : ∀ t, s.waiters.count t ≤ 1
  blocked : ∀ t, t ∈ s.waiters ↔
    s.sched.statusOf t = some .blocked ∧ t ≠ s.sched.idleThread
  woken : s.value = 1 → s.waiters ≠ [] → ∃ t, s.oldStatus t ≠ none ∧ t ∉ s.waiters ∧
    (s.sched.statusOf t = some .ready ∨ s.sched.statusOf t = some .running)

/-- **No wake-up is lost.** In every reachable state no thread sleeps beside a free semaphore with
nobody left to wake it, and every operation that can happen returns without a failed assertion. -/
theorem no_waiter_left_asleep {s : SemaState} (reachable : semaphore.Reachable s) :
    NoLostWakeUp s ∧ ∀ op, SemaEnabled s op → ∃ next, semaExec s op = .ok next := by
  have waiting := reachable_waiting reachable
  refine ⟨⟨?_, ?_, ?_⟩, ?_⟩
  · exact List.nodup_iff_count_le_one.mp waiting.nodup
  · intro t
    by_cases idle : t = s.sched.idleThread
    · rw [idle]
      exact iff_of_false waiting.notIdle fun both => both.2 rfl
    · rw [waiting.blocked t idle, kindOf_blocked, and_iff_left idle]
  · intro one nonempty
    obtain ⟨t, inside, absent⟩ := waiting.woken one nonempty
    exact ⟨t, inside, absent, kindOf_ready.mp (waiting.awake t inside absent)⟩
  · intro op enabled
    obtain ⟨next, ran, -⟩ := semaExec_ok waiting enabled
    exact ⟨next, ran⟩

theorem semaphore_step {s next : SemaState} (reachable : semaphore.Reachable s) (op : SemaOp)
    (enabled : SemaEnabled s op) (ran : semaExec s op = .ok next) : semaphore.Reachable next :=
  reachable.step op ⟨enabled, ran⟩

set_option maxRecDepth 4000 in
/-- Two threads wait while the main thread has the semaphore, and it wakes the first. -/
theorem second_waiter_asleep : ∃ s, semaphore.Reachable s ∧ s.value = 1 ∧ s.waiters = [4] ∧
    NoLostWakeUp s := by
  have booted : semaphore.Reachable (semaInit (booted 1 2 3) 1) :=
    .initial ⟨1, 2, 3, 1, by decide, by decide, rfl⟩
  have started := semaphore_step booted (SemaOp.sched (.start 4 31)) ⟨rfl, rfl, trivial⟩ rfl
  have taken := semaphore_step started SemaOp.down ⟨rfl, by decide⟩ rfl
  have yielded := semaphore_step taken (SemaOp.sched .yield) ⟨rfl, trivial, trivial⟩ rfl
  have first := semaphore_step yielded SemaOp.down ⟨rfl, by decide⟩ rfl
  have idles :=
    semaphore_step first (SemaOp.sched (.block .blocked)) ⟨rfl, ⟨.inl rfl, fun _ => rfl⟩, rfl⟩ rfl
  have second := semaphore_step idles SemaOp.down ⟨rfl, by decide⟩ rfl
  have freed := semaphore_step second SemaOp.up ⟨rfl, rfl⟩ rfl
  exact ⟨_, freed, rfl, rfl, (no_waiter_left_asleep freed).1⟩

end UKernel.Semaphore
