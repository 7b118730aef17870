import UKernel.Thread.Scheduler

/-! # The ready queue holds exactly the ready tasks

In every reachable state of the scheduler the ready queue lists each ready task once and
nothing else, the current task is the only running one, and no operation fails an
assertion (`UKernel.Thread.scheduler_safe`). The proof splits an operation at the
call of `schedule`: each entry leaves the queues consistent with at most the current task
running (`Schedulable`), and `schedule` restores the full invariant from there.
-/

namespace UKernel.Thread

open UKernel.Library Sched

variable {s next : Sched} {t u : TaskId} {task : Task}

@[simp] theorem statusOf_put : (s.put t task).statusOf u =
    if u = t then some task.status else s.statusOf u := by
  by_cases same : u = t
  · simp [statusOf, put, same]
  · simp [statusOf, put, same]

theorem statusOf_eq_some {status : TaskStatus} :
    s.statusOf t = some status ↔ ∃ task, s.task t = some task ∧ task.status = status := by
  simp [statusOf]

theorem get_eq_ok : s.get t = .ok task ↔ s.task t = some task := by
  unfold Sched.get
  cases s.task t <;> simp

/-- A task with a status has a control block. -/
theorem exists_get {status : TaskStatus} (known : s.statusOf t = some status) :
    ∃ task, s.get t = .ok task ∧ task.status = status := by
  obtain ⟨task, present, holds⟩ := statusOf_eq_some.mp known
  exact ⟨task, get_eq_ok.mpr present, holds⟩

/-- The two queues agree with the control blocks, and the idle task is alive. -/
structure Queues (s : Sched) : Prop where
  ready_nodup : s.threadReadyList.Nodup
  ready_exact : ∀ t, t ∈ s.threadReadyList ↔ s.statusOf t = some .ready
  all_nodup : s.threadAllList.Nodup
  all_alive : ∀ t ∈ s.threadAllList, ∃ task, s.task t = some task
  idle_alive : s.statusOf s.idleThread = some .running ∨ s.statusOf s.idleThread = some .ready ∨
    s.statusOf s.idleThread = some .blocked

/-- The invariant of the scheduler between two operations. -/
structure Consistent (s : Sched) : Prop extends Queues s where
  running_exact : ∀ t, s.statusOf t = some .running ↔ t = s.current

/-- What `schedule` needs of the state it is called in: the current task may or may not
still be running, and no other task is. -/
structure Schedulable (s : Sched) : Prop extends Queues s where
  intr_off : s.intr = .off
  running_only : ∀ t, s.statusOf t = some .running → t = s.current
  current_alive : ∃ status, s.statusOf s.current = some status

/-- A control block rewritten with its old status leaves the queues consistent. -/
theorem Queues.put_same (queues : Queues s) (task : Task)
    (known : s.statusOf t = some task.status) :
    Queues (s.put t task) := by
  have status : ∀ u, (s.put t task).statusOf u = s.statusOf u := by
    intro u
    by_cases same : u = t <;> simp [same, known]
  refine ⟨queues.ready_nodup, fun u => ?_, queues.all_nodup, fun u member => ?_, ?_⟩
  · rw [status]
    exact queues.ready_exact u
  · by_cases same : u = t
    · exact ⟨task, by simp [put, same]⟩
    · obtain ⟨other, present⟩ := queues.all_alive u member
      exact ⟨other, by simp [put, same, present]⟩
  · rw [status]
    exact queues.idle_alive

/-- Writing a control block keeps every control block in place. -/
theorem alive_put (alive : ∃ task, s.task u = some task) :
    ∃ other, (s.put t task).task u = some other := by
  obtain ⟨other, present⟩ := alive
  by_cases same : u = t
  · exact ⟨task, by simp [put, same]⟩
  · exact ⟨other, by simp [put, same, present]⟩

/-- `thread_unblock` succeeds on a suspended task and puts it in front of the queue. -/
theorem threadUnblock_ok (queues : Queues s) {status : TaskStatus}
    (known : s.statusOf t = some status) (suspended : status.Suspended) :
    ∃ task, s.task t = some task ∧ threadUnblock s t = .ok
      { s.put t { task with status := .ready } with
        threadReadyList := t :: s.threadReadyList } := by
  obtain ⟨task, present, holds⟩ := statusOf_eq_some.mp known
  have notReady : task.status ≠ .ready := by
    rintro isReady
    rw [← holds, isReady] at suspended
    revert suspended
    decide
  have absent : t ∉ s.threadReadyList := by
    rw [queues.ready_exact, known, ← holds]
    simp [notReady]
  refine ⟨task, present, ?_⟩
  have found : Sched.get { s with intr := .off } t = .ok task := get_eq_ok.mpr present
  have may : task.status.Suspended := holds ▸ suspended
  simp only [threadUnblock, found, except_ok_bind, require_of may, require_of absent, notReady,
    ne_eq, not_false_eq_true, ↓reduceIte, except_pure_eq]
  rfl

/-- A suspended task made ready and pushed leaves the queues consistent. -/
theorem Queues.push (queues : Queues s) (task : Task) (notReady : s.statusOf t ≠ some .ready) :
    Queues { s.put t { task with status := .ready } with
      threadReadyList := t :: s.threadReadyList } := by
  refine ⟨?_, fun u => ?_, queues.all_nodup, fun u member => ?_, ?_⟩
  · refine List.nodup_cons.mpr ⟨fun member => notReady ?_, queues.ready_nodup⟩
    exact (queues.ready_exact t).mp member
  · change u ∈ t :: s.threadReadyList ↔ (s.put t _).statusOf u = _
    by_cases same : u = t
    · simp [same]
    · simpa [same] using queues.ready_exact u
  · exact alive_put (queues.all_alive u member)
  · change (s.put t _).statusOf s.idleThread = _ ∨ (s.put t _).statusOf s.idleThread = _ ∨
      (s.put t _).statusOf s.idleThread = _
    by_cases same : s.idleThread = t
    · simp [same]
    · simpa [same] using queues.idle_alive

/-- A task that is not queued, made ready and appended, leaves the queues consistent. -/
theorem Queues.append (queues : Queues s) (task : Task) (notReady : s.statusOf t ≠ some .ready) :
    Queues { s.put t { task with status := .ready } with
      threadReadyList := s.threadReadyList ++ [t] } := by
  have pushed := queues.push task notReady
  have same : (s.threadReadyList ++ [t]).Perm (t :: s.threadReadyList) :=
    List.perm_append_singleton t s.threadReadyList
  exact ⟨same.nodup_iff.mpr pushed.ready_nodup,
    fun u => same.mem_iff.trans (pushed.ready_exact u), pushed.all_nodup, pushed.all_alive,
    pushed.idle_alive⟩

/-- `requeueCurrent` leaves no task running. -/
theorem requeueCurrent_ok (schedulable : Schedulable s) :
    ∃ next, requeueCurrent s = .ok next ∧ Queues next ∧
      (∀ t, next.statusOf t ≠ some .running) ∧ next.idleThread = s.idleThread := by
  obtain ⟨status, known⟩ := schedulable.current_alive
  obtain ⟨cur, found, holds⟩ := exists_get known
  by_cases running : cur.status = .running
  · have notReady : s.statusOf s.current ≠ some .ready := by simp [known, ← holds, running]
    have absent : s.current ∉ s.threadReadyList :=
      fun member => notReady ((schedulable.ready_exact _).mp member)
    refine ⟨_, ?_, schedulable.toQueues.append { cur with ticks := cur.priority }
      notReady, fun t => ?_, rfl⟩
    · simp only [requeueCurrent, found, except_ok_bind, running, ↓reduceIte, require_of absent,
        except_pure_eq]
      rfl
    · change (s.put s.current _).statusOf t ≠ _
      by_cases same : t = s.current
      · simp [same]
      · simpa [same] using fun runs => same (schedulable.running_only t runs)
  · refine ⟨s, ?_, schedulable.toQueues, fun t runs => ?_, rfl⟩
    · simp [requeueCurrent, found, running]
    · obtain rfl := schedulable.running_only t runs
      exact running (holds.trans (Option.some.inj (known.symm.trans runs)))

/-- With no task running and nothing to switch to, the idle task is blocked. -/
theorem idle_blocked (queues : Queues s) (idle : ∀ t, s.statusOf t ≠ some .running)
    (empty : s.threadReadyList = []) : s.statusOf s.idleThread = some .blocked := by
  rcases queues.idle_alive with running | ready | blocked
  · exact (idle _ running).elim
  · have member := (queues.ready_exact s.idleThread).mpr ready
    rw [empty] at member
    exact (List.not_mem_nil member).elim
  · exact blocked

/-- Switching to the first ready task makes it the running one. -/
theorem dispatch_ok (queues : Queues s) (idle : ∀ t, s.statusOf t ≠ some .running)
    (nonempty : s.threadReadyList ≠ []) : ∃ next, dispatch s = .ok next ∧ Consistent next := by
  obtain ⟨threadTag, rest, split⟩ := List.exists_cons_of_ne_nil nonempty
  have nodup := queues.ready_nodup
  rw [split] at nodup
  obtain ⟨fresh, rest_nodup⟩ := List.nodup_cons.mp nodup
  have ready : s.statusOf threadTag = some .ready := by
    rw [← queues.ready_exact, split]
    exact List.mem_cons_self
  obtain ⟨task, present, -⟩ := statusOf_eq_some.mp ready
  have found : Sched.get { s with threadReadyList := rest } threadTag = .ok task :=
    get_eq_ok.mpr present
  refine ⟨_, by simp only [dispatch, split, found, except_ok_bind, except_pure_eq]; rfl, ?_⟩
  refine ⟨⟨rest_nodup, fun u => ?_, queues.all_nodup, fun u member => ?_, ?_⟩, fun u => ?_⟩
  · change u ∈ rest ↔ (s.put threadTag _).statusOf u = _
    by_cases same : u = threadTag
    · simpa [same] using fresh
    · have exact_u := queues.ready_exact u
      rw [split] at exact_u
      simpa [same] using exact_u
  · exact alive_put (queues.all_alive u member)
  · change (s.put threadTag _).statusOf s.idleThread = _ ∨
      (s.put threadTag _).statusOf s.idleThread = _ ∨ (s.put threadTag _).statusOf s.idleThread = _
    by_cases same : s.idleThread = threadTag
    · simp [same]
    · simpa [same] using queues.idle_alive
  · change (s.put threadTag _).statusOf u = _ ↔ u = threadTag
    by_cases same : u = threadTag
    · simp [same]
    · simpa [same] using idle u

/-- `schedule` succeeds wherever it may be called, and restores the invariant. -/
theorem schedule_ok (schedulable : Schedulable s) :
    ∃ next, schedule s = .ok next ∧ Consistent next := by
  obtain ⟨requeued, ran, queues, idle, -⟩ := requeueCurrent_ok schedulable
  by_cases empty : requeued.threadReadyList = []
  · have blocked := idle_blocked queues idle empty
    obtain ⟨task, -, woken⟩ := threadUnblock_ok queues blocked (.inl rfl)
    have pushed := queues.push task
      (show requeued.statusOf requeued.idleThread ≠ some .ready by simp [blocked])
    obtain ⟨next, dispatched, consistent⟩ := dispatch_ok pushed (fun t => by
        change (requeued.put requeued.idleThread _).statusOf t ≠ _
        by_cases same : t = requeued.idleThread
        · simp [same]
        · simpa [same] using idle t) (List.cons_ne_nil _ _)
    refine ⟨next, ?_, consistent⟩
    simp only [schedule, require_of schedulable.intr_off, except_ok_bind, ran, empty, ↓reduceIte,
      woken]
    rw [empty] at dispatched
    exact dispatched
  · obtain ⟨next, dispatched, consistent⟩ := dispatch_ok queues idle empty
    refine ⟨next, ?_, consistent⟩
    simp only [schedule, require_of schedulable.intr_off, except_ok_bind, ran, empty, ↓reduceIte,
      except_pure_eq, dispatched]

/-- Entering the kernel changes no status and no queue. -/
theorem enterKernel_ok (consistent : Consistent s) (oldStatus : IntrStatus) :
    ∃ cur, s.task s.current = some cur ∧ cur.status = .running ∧
      enterKernel s oldStatus =
        .ok { s.put s.current { cur with oldStatus := oldStatus } with intr := .off } := by
  obtain ⟨cur, found, running⟩ := exists_get ((consistent.running_exact s.current).mpr rfl)
  refine ⟨cur, get_eq_ok.mp found, running, ?_⟩
  simp [enterKernel, found]

/-- The current task, rewritten with any status but ready and with interrupts off, may call
`schedule`, as long as the idle task leaves the processor only by blocking. -/
theorem Consistent.schedulable_put (consistent : Consistent s) (task : Task)
    (notReady : task.status ≠ .ready)
    (idle : s.current = s.idleThread → task.status = .running ∨ task.status = .blocked) :
    Schedulable { s.put s.current task with intr := .off } := by
  have statusOf : ∀ u, (Sched.statusOf { s.put s.current task with intr := .off } u) =
      if u = s.current then some task.status else s.statusOf u := fun u => statusOf_put
  have current := (consistent.running_exact s.current).mpr rfl
  refine ⟨⟨consistent.ready_nodup, fun u => ?_, consistent.all_nodup, fun u member => ?_, ?_⟩,
    rfl, fun u runs => ?_, ⟨task.status, ?_⟩⟩
  · rw [statusOf]
    change u ∈ s.threadReadyList ↔ _
    by_cases same : u = s.current
    · simpa [same, notReady, current] using (consistent.ready_exact s.current).not
    · simpa [same] using consistent.ready_exact u
  · exact alive_put (consistent.all_alive u member)
  · change (Sched.statusOf _ s.idleThread) = _ ∨ (Sched.statusOf _ s.idleThread) = _ ∨
      (Sched.statusOf _ s.idleThread) = _
    rw [statusOf]
    by_cases same : s.idleThread = s.current
    · rcases idle same.symm with running | blocked
      · simp [same, running]
      · simp [same, blocked]
    · simpa [same] using consistent.idle_alive
  · rw [statusOf] at runs
    by_cases same : u = s.current
    · exact same
    · rw [if_neg same] at runs
      exact (consistent.running_exact u).mp runs
  · change Sched.statusOf _ s.current = _
    rw [statusOf, if_pos rfl]

/-- Every operation that calls `schedule` calls it in a schedulable state. -/
theorem scheduleEntry_ok (consistent : Consistent s) {op : Op} (enabled : Enabled s op)
    (calls : op = .timer ∨ op = .yield ∨ ∃ stat, op = .block stat) :
    ∃ entry, scheduleEntry s op = .ok entry ∧ Schedulable entry := by
  rcases calls with rfl | rfl | ⟨stat, rfl⟩
  · obtain ⟨cur, present, running, entered⟩ := enterKernel_ok consistent .on
    refine ⟨_, ?_, consistent.schedulable_put
      { cur with oldStatus := .on, elapsedTicks := (cur.elapsedTicks + 1) % 2 ^ 32 }
      (by simp [running]) (fun _ => .inl running)⟩
    simp only [scheduleEntry, timerEntry, entered, except_ok_bind, except_pure_eq]
    simp [Sched.get, Sched.put]
  · obtain ⟨cur, present, running, entered⟩ := enterKernel_ok consistent s.intr
    have notReady : s.statusOf s.current ≠ some .ready := by
      simp [(consistent.running_exact s.current).mpr rfl]
    have absent : s.current ∉ s.threadReadyList :=
      fun member => notReady ((consistent.ready_exact _).mp member)
    have queues := consistent.toQueues.append { cur with oldStatus := s.intr } notReady
    refine ⟨{ s.put s.current { cur with oldStatus := s.intr, status := .ready } with
      threadReadyList := s.threadReadyList ++ [s.current], intr := .off }, ?_,
      ⟨queues.ready_nodup, queues.ready_exact, queues.all_nodup, queues.all_alive,
        queues.idle_alive⟩, rfl, fun u runs => ?_, ⟨.ready, ?_⟩⟩
    · simp only [scheduleEntry, threadYieldEntry, entered, except_ok_bind]
      simp [Sched.get, Sched.put, absent, require_of]
    · change (s.put s.current _).statusOf u = _ at runs
      by_cases same : u = s.current
      · exact same
      · rw [statusOf_put, if_neg same] at runs
        exact (consistent.running_exact u).mp runs
    · change (s.put s.current _).statusOf s.current = _
      simp
  · obtain ⟨suspended, idle⟩ := enabled
    obtain ⟨cur, present, running, entered⟩ := enterKernel_ok consistent s.intr
    refine ⟨_, ?_, consistent.schedulable_put
      { cur with oldStatus := s.intr, status := stat }
      (by rintro rfl; revert suspended; decide) (fun same => .inr (idle same))⟩
    simp only [scheduleEntry, threadBlockEntry, require_of suspended, entered, except_ok_bind]
    simp [Sched.get, Sched.put]

/-- A timer interrupt is served, whether or not it ends the time slice. -/
theorem intrTimerHandler_ok (consistent : Consistent s) (enabled : s.intr = .on) :
    ∃ next, intrTimerHandler s = .ok next ∧ Consistent next := by
  obtain ⟨entry, entered, schedulable⟩ :=
    scheduleEntry_ok consistent (show Enabled s .timer from enabled) (.inl rfl)
  obtain ⟨cur, present, running, kernel⟩ := enterKernel_ok consistent .on
  change timerEntry s = _ at entered
  obtain ⟨status, known⟩ := schedulable.current_alive
  obtain ⟨curThread, found, holds⟩ := exists_get known
  by_cases expired : curThread.ticks = 0
  · obtain ⟨next, scheduled, restored⟩ := schedule_ok schedulable
    refine ⟨next, ?_, restored⟩
    simp only [intrTimerHandler, entered, except_ok_bind, found, expired, ↓reduceIte, scheduled]
  · refine ⟨_, by simp only [intrTimerHandler, entered, except_ok_bind, found, expired,
      ↓reduceIte, except_pure_eq]; rfl, ?_⟩
    have entryIs : entry.statusOf = s.statusOf ∧ entry.current = s.current := by
      simp only [timerEntry, kernel, except_ok_bind, except_bind_eq_ok] at entered
      obtain ⟨again, reread, written⟩ := entered
      cases written
      refine ⟨funext fun u => ?_, rfl⟩
      change ((s.put s.current _).put s.current _).statusOf u = _
      have again_eq : again = { cur with oldStatus := .on } := by
        simpa [Sched.get, Sched.put] using reread.symm
      have current := (consistent.running_exact s.current).mpr rfl
      by_cases same : u = s.current <;> simp [same, again_eq, running, current]
    have unchanged := schedulable.toQueues.put_same { curThread with ticks := curThread.ticks - 1 }
      (show entry.statusOf entry.current = some curThread.status by rw [known, holds])
    refine ⟨⟨unchanged.ready_nodup, unchanged.ready_exact, unchanged.all_nodup,
      unchanged.all_alive, unchanged.idle_alive⟩, fun u => ?_⟩
    change (entry.put entry.current _).statusOf u = _ ↔ u = entry.current
    have current := (consistent.running_exact s.current).mpr rfl
    rw [entryIs.1, entryIs.2, current] at known
    by_cases same : u = s.current
    · simp [same, entryIs.2, holds, ← Option.some.inj known]
    · simp [same, entryIs.1, entryIs.2, consistent.running_exact u]

/-- Starting a task on a fresh page appends it to both queues. -/
theorem threadStart_ok (consistent : Consistent s) (fresh : s.task t = none) (prio : Nat) :
    ∃ next, threadStart s t prio = .ok next ∧ Consistent next := by
  have unknown : s.statusOf t = none := by simp [statusOf, fresh]
  have absent : t ∉ s.threadReadyList := by simp [consistent.ready_exact, unknown]
  have unlisted : t ∉ s.threadAllList := by
    intro member
    obtain ⟨task, present⟩ := consistent.all_alive t member
    simp [fresh] at present
  have queues := consistent.toQueues.append ⟨.ready, prio, prio, 0, .on⟩
    (show s.statusOf t ≠ some .ready by simp [unknown])
  have ran : threadStart s t prio = .ok { s.put t ⟨.ready, prio, prio, 0, .on⟩ with
      threadReadyList := s.threadReadyList ++ [t], threadAllList := s.threadAllList ++ [t] } := by
    simp [threadStart, Sched.put, require_of, absent, unlisted]
  refine ⟨_, ran, ?_⟩
  refine ⟨⟨queues.ready_nodup, queues.ready_exact, ?_, fun u member => ?_, queues.idle_alive⟩,
    fun u => ?_⟩
  · exact (List.perm_append_singleton t s.threadAllList).nodup_iff.mpr
      (List.nodup_cons.mpr ⟨unlisted, consistent.all_nodup⟩)
  · rcases List.mem_append.mp member with old | new
    · exact alive_put (consistent.all_alive u old)
    · obtain rfl := List.mem_singleton.mp new
      exact ⟨_, Function.update_self ..⟩
  · change (s.put t _).statusOf u = _ ↔ u = s.current
    by_cases same : u = t
    · subst same
      simpa [unknown] using consistent.running_exact u
    · simp [same, consistent.running_exact u]

/-- A hanging task leaves both queues and its page is given back. -/
theorem threadExit_ok (consistent : Consistent s) (hanging : s.statusOf t = some .hanging) :
    ∃ next, threadExit s t = .ok next ∧ Consistent next := by
  obtain ⟨task, present, holds⟩ := statusOf_eq_some.mp hanging
  have absent : t ∉ s.threadReadyList := by simp [consistent.ready_exact, hanging]
  have notIdle : s.idleThread ≠ t := by
    rintro rfl
    have alive := consistent.idle_alive
    simp [hanging] at alive
  have notCurrent : t ≠ s.current := by
    rintro rfl
    simp [(consistent.running_exact s.current).mpr rfl] at hanging
  have found : Sched.get { s with intr := .off } t = .ok task := get_eq_ok.mpr present
  -- Whether or not the page is given back, the other control blocks keep their status.
  have settle : ∀ next : Sched, next.threadReadyList = s.threadReadyList →
      next.threadAllList = s.threadAllList.erase t → next.idleThread = s.idleThread →
      next.current = s.current → (∀ u, u ≠ t → next.task u = s.task u) →
      (next.statusOf t = some .died ∨ next.statusOf t = none) → Consistent next := by
    intro next ready all idle current others gone
    have status : ∀ u, u ≠ t → next.statusOf u = s.statusOf u :=
      fun u other => congrArg (Option.map Task.status) (others u other)
    refine ⟨⟨ready ▸ consistent.ready_nodup, fun u => ?_, all ▸ consistent.all_nodup.erase t,
      fun u member => ?_, ?_⟩, fun u => ?_⟩
    · rw [ready]
      by_cases same : u = t
      · subst same
        rcases gone with died | freed <;> simp [*]
      · rw [status u same]
        exact consistent.ready_exact u
    · rw [all] at member
      obtain ⟨other, listed⟩ := (consistent.all_nodup.mem_erase_iff).mp member
      rw [others u other]
      exact consistent.all_alive u listed
    · rw [idle, status _ notIdle]
      exact consistent.idle_alive
    · rw [current]
      by_cases same : u = t
      · subst same
        rcases gone with died | freed <;> simp [*]
      · rw [status u same]
        exact consistent.running_exact u
  let dead : Sched := { s.put t { task with status := .died } with
    threadAllList := s.threadAllList.erase t, intr := .off }
  by_cases main : t = s.mainThread
  · have ran : threadExit s t = .ok dead := by
      simp only [threadExit, found, except_ok_bind, Sched.put, absent, if_false, dead]
      exact if_neg (not_not.mpr main)
    refine ⟨dead, ran, settle dead rfl rfl rfl rfl (fun u other => ?_) (.inl ?_)⟩
    · exact Function.update_of_ne other _ _
    · simp [statusOf, dead, Sched.put]
  · have ran : threadExit s t =
        .ok { dead with task := Function.update dead.task t none } := by
      simp [threadExit, found, Sched.put, absent, main, dead]
    refine ⟨_, ran, settle _ rfl rfl rfl rfl (fun u other => ?_) (.inr ?_)⟩
    · simp [dead, Sched.put, other]
    · simp [statusOf]

/-- **One step.** From a consistent state every enabled operation returns, and leaves a
consistent state. -/
theorem exec_ok (consistent : Consistent s) {op : Op} (enabled : Enabled s op) :
    ∃ next, exec s op = .ok next ∧ Consistent next := by
  cases op with
  | timer => exact intrTimerHandler_ok consistent enabled
  | block stat =>
      obtain ⟨entry, entered, schedulable⟩ := scheduleEntry_ok consistent enabled
        (.inr (.inr ⟨stat, rfl⟩))
      obtain ⟨next, scheduled, restored⟩ := schedule_ok schedulable
      change threadBlockEntry s stat = _ at entered
      exact ⟨next, by simp only [exec, threadBlock, entered, except_ok_bind, scheduled], restored⟩
  | unblock t =>
      obtain ⟨status, known, suspended⟩ := enabled
      have notReady : s.statusOf t ≠ some .ready := by
        rw [known]
        rintro ⟨⟩
        revert suspended
        decide
      have notRunning : t ≠ s.current := by
        rintro rfl
        rw [(consistent.running_exact s.current).mpr rfl] at known
        cases known
        revert suspended
        decide
      obtain ⟨task, -, woken⟩ := threadUnblock_ok consistent.toQueues known suspended
      refine ⟨_, woken, consistent.toQueues.push _ notReady, fun u => ?_⟩
      change (s.put t _).statusOf u = _ ↔ u = s.current
      by_cases same : u = t
      · simpa [same] using notRunning
      · simp [same, consistent.running_exact u]
  | yield =>
      obtain ⟨entry, entered, schedulable⟩ := scheduleEntry_ok consistent enabled
        (.inr (.inl rfl))
      obtain ⟨next, scheduled, restored⟩ := schedule_ok schedulable
      change threadYieldEntry s = _ at entered
      exact ⟨next, by simp only [exec, threadYield, entered, except_ok_bind, scheduled], restored⟩
  | start thread prio => exact threadStart_ok consistent enabled prio
  | exit threadOver => exact threadExit_ok consistent enabled
  | setIntr status =>
      exact ⟨_, rfl, ⟨consistent.ready_nodup, consistent.ready_exact, consistent.all_nodup,
        consistent.all_alive, consistent.idle_alive⟩, consistent.running_exact⟩

/-- The state after boot is consistent. -/
theorem booted_consistent {main init idle : TaskId} (distinct : [main, init, idle].Nodup) :
    Consistent (booted main init idle) := by
  simp only [List.nodup_cons, List.mem_cons, List.not_mem_nil, or_false, not_or, not_false_eq_true,
    List.nodup_nil, and_true] at distinct
  obtain ⟨⟨mainInit, mainIdle⟩, initIdle⟩ := distinct
  have status : ∀ t, (booted main init idle).statusOf t =
      if t = main then some .running else if t = init ∨ t = idle then some .ready else none := by
    intro t
    simp only [statusOf, booted]
    split_ifs <;> simp_all
  refine ⟨⟨by simpa [booted] using initIdle, fun t => ?_, ?_, fun t member => ?_, ?_⟩,
    fun t => ?_⟩
  · rw [status]
    change t ∈ [init, idle] ↔ _
    split_ifs <;> simp_all
  · simp [booted, mainIdle, initIdle, Ne.symm mainInit]
  · have listed : t = init ∨ t = main ∨ t = idle := by simpa [booted] using member
    simp only [booted]
    split_ifs <;> simp_all
  · right; left
    change (booted main init idle).statusOf idle = _
    simp [status, Ne.symm mainIdle]
  · rw [status]
    change _ ↔ t = main
    split_ifs <;> simp_all

/-- **The run lemma.** Every reachable state is consistent. -/
theorem reachable_consistent (reachable : scheduler.Reachable s) : Consistent s := by
  refine reachable.invariant _ ?_ ?_
  · rintro _ ⟨main, init, idle, distinct, rfl⟩
    exact booted_consistent distinct
  · rintro before op after - consistent ⟨enabled, ran⟩
    obtain ⟨next, ran', restored⟩ := exec_ok consistent enabled
    cases ran.symm.trans ran'
    exact restored

/-- **Scheduling is safe.** In every reachable state the ready queue lists each ready task
exactly once and no other task, the current task and no other is running, every enabled
operation returns without a failed assertion, and where an operation calls `schedule` and
finds the queue empty, the idle task is blocked. -/
theorem scheduler_safe (reachable : scheduler.Reachable s) :
    (∀ t, s.threadReadyList.count t = if s.statusOf t = some .ready then 1 else 0) ∧
    (∀ t, s.statusOf t = some .running ↔ t = s.current) ∧
    (∀ op, Enabled s op → ∃ next, exec s op = .ok next) ∧
    (∀ op entry requeued, Enabled s op → scheduleEntry s op = .ok entry →
      requeueCurrent entry = .ok requeued → requeued.threadReadyList = [] →
      requeued.statusOf requeued.idleThread = some .blocked) := by
  have consistent := reachable_consistent reachable
  refine ⟨fun t => ?_, consistent.running_exact, fun op enabled => ?_, ?_⟩
  · rw [consistent.ready_nodup.count]
    simp only [consistent.ready_exact t]
  · obtain ⟨next, ran, -⟩ := exec_ok consistent enabled
    exact ⟨next, ran⟩
  · intro op entry requeued enabled entered ran empty
    have calls : op = .timer ∨ op = .yield ∨ ∃ stat, op = .block stat := by
      cases op <;> simp_all [scheduleEntry]
    obtain ⟨entry', entered', schedulable⟩ := scheduleEntry_ok consistent enabled calls
    cases entered.symm.trans entered'
    obtain ⟨requeued', ran', queues, idle, -⟩ := requeueCurrent_ok schedulable
    cases ran.symm.trans ran'
    exact idle_blocked queues idle empty

/-- The safety theorem at a state some steps into a run: the main thread blocks, and the
scheduler switches to `init`. -/
theorem scheduler_safe_after_block :
    ∃ s, scheduler.Reachable s ∧ s.current = 2 ∧
      (∀ t, s.threadReadyList.count t = if s.statusOf t = some .ready then 1 else 0) := by
  have start : scheduler.Reachable (booted 1 2 3) := .initial ⟨1, 2, 3, by decide, rfl⟩
  have enabled : Enabled (booted 1 2 3) (.block .blocked) := ⟨by decide, by decide⟩
  have reachable := start.step (.block .blocked) ⟨enabled, rfl⟩
  exact ⟨_, reachable, rfl, (scheduler_safe reachable).1⟩

end UKernel.Thread
