import UKernel.Process.Family
import UKernel.Thread.ReadyQueue

/-! # No parent sleeps beside a finished child

`sys_wait` blocks only when no child hangs, and `sys_exit` wakes the parent before it hangs.
The two close every window but one: `sys_exit` passes the children of the process to `init`,
also those that hang already, and does not wake `init` for them. Where no `sys_exit` does that
while `init` sleeps (`UKernel.Process.WakesInit`), no reachable state has a parent in
`TASK_WAITING` with a child in `TASK_HANGING`
(`UKernel.Process.no_parent_sleeps_beside_hanging_child`).
-/

namespace UKernel.Process

open UKernel.Library UKernel.Thread UKernel.Fs

/-! ## What scheduling does to suspended tasks -/

section Scheduling

variable {s next : Sched} {t u : TaskId}

/-- The statuses a task enters only in `sys_wait` and `sys_exit`. -/
def Sleeps (status : TaskStatus) : Prop :=
  status = .waiting ∨ status = .hanging

/-- The same tasks are listed, and none of them has gone to sleep in `sys_wait` or
`sys_exit`. -/
structure Settles (s next : Sched) : Prop where
  all : next.threadAllList = s.threadAllList
  asleep : ∀ t status, Sleeps status → next.statusOf t = some status →
    s.statusOf t = some status

theorem Settles.rfl : Settles s s :=
  ⟨Eq.refl _, fun _ _ _ known => known⟩

theorem Settles.trans {mid : Sched} (first : Settles s mid) (second : Settles mid next) :
    Settles s next :=
  ⟨second.all.trans first.all, fun t status sleeps known =>
    first.asleep t status sleeps (second.asleep t status sleeps known)⟩

/-- A task is given a status other than the two. -/
theorem Settles.put (task : Thread.Task) (awake : ¬ Sleeps task.status) :
    Settles s (s.put t task) := by
  refine ⟨Eq.refl _, fun u status sleeps known => ?_⟩
  rw [statusOf_put] at known
  by_cases same : u = t
  · rw [if_pos same] at known
    cases known
    exact absurd sleeps awake
  · rwa [if_neg same] at known

/-- A control block is rewritten with the same status. -/
theorem Settles.put_same (task : Thread.Task) {cur : Thread.Task} (present : s.get t = .ok cur)
    (same : task.status = cur.status) : Settles s (s.put t task) := by
  refine ⟨Eq.refl _, fun u status sleeps known => ?_⟩
  rw [statusOf_put] at known
  by_cases here : u = t
  · rw [if_pos here, same] at known
    rw [here, statusOf_eq_some]
    exact ⟨cur, get_eq_ok.mp present, Option.some.inj known⟩
  · rwa [if_neg here] at known

/-- Changing the ready queue, the running task and the interrupt status changes no status. -/
theorem Settles.of_same (all : next.threadAllList = s.threadAllList)
    (task : next.task = s.task) : Settles s next := by
  refine ⟨all, fun t status _ known => ?_⟩
  rwa [Sched.statusOf, task] at known

/-- A state that settles one with the same lists and control blocks. -/
theorem Settles.congr {mid : Sched} (settles : Settles s mid)
    (all : next.threadAllList = mid.threadAllList) (task : next.task = mid.task) :
    Settles s next :=
  settles.trans (.of_same all task)

/-- `thread_unblock` makes the task ready and puts no task to sleep. -/
theorem threadUnblock_settles (ran : threadUnblock s t = .ok next) :
    Settles s next ∧ next.current = s.current ∧ next.statusOf t = some .ready := by
  obtain ⟨pthread, found, ran⟩ := except_bind_eq_ok.mp ran
  obtain ⟨_, suspended, ran⟩ := except_bind_eq_ok.mp ran
  have notReady : pthread.status ≠ .ready := by
    intro ready
    rw [require_eq_ok, ready] at suspended
    revert suspended
    decide
  rw [if_pos notReady] at ran
  obtain ⟨-, -, ran⟩ := except_bind_eq_ok.mp ran
  cases ran
  refine ⟨?_, Eq.refl _, ?_⟩
  · have awake : ¬ Sleeps TaskStatus.ready := by
      rintro (wrong | wrong) <;> cases wrong
    exact (Settles.put (s := s) (t := t) { pthread with status := .ready } awake).congr
      (Eq.refl _) (Eq.refl _)
  · change (s.put t { pthread with status := .ready }).statusOf t = some .ready
    rw [statusOf_put, if_pos (Eq.refl _)]

/-- `requeueCurrent` puts no task to sleep. -/
theorem requeueCurrent_settles (ran : requeueCurrent s = .ok next) : Settles s next := by
  obtain ⟨cur, found, ran⟩ := except_bind_eq_ok.mp ran
  by_cases running : cur.status = .running
  · rw [if_pos running] at ran
    obtain ⟨-, -, ran⟩ := except_bind_eq_ok.mp ran
    cases ran
    have awake : ¬ Sleeps TaskStatus.ready := by
      rintro (wrong | wrong) <;> cases wrong
    exact (Settles.put (s := s) (t := s.current)
      { cur with ticks := cur.priority, status := .ready } awake).congr
        (Eq.refl _) (Eq.refl _)
  · rw [if_neg running] at ran
    cases ran
    exact .rfl

/-- `dispatch` puts no task to sleep. -/
theorem dispatch_settles (ran : dispatch s = .ok next) : Settles s next := by
  unfold dispatch at ran
  cases queue : s.threadReadyList with
  | nil =>
      rw [queue] at ran
      cases ran
  | cons threadTag rest =>
      rw [queue] at ran
      obtain ⟨task, found, ran⟩ := except_bind_eq_ok.mp ran
      cases ran
      have awake : ¬ Sleeps TaskStatus.running := by
        rintro (wrong | wrong) <;> cases wrong
      exact (Settles.put (s := s) (t := threadTag)
        { task with status := .running } awake).congr (Eq.refl _) (Eq.refl _)

/-- `schedule` puts no task to sleep. -/
theorem schedule_settles (ran : schedule s = .ok next) : Settles s next := by
  obtain ⟨-, -, ran⟩ := except_bind_eq_ok.mp ran
  obtain ⟨requeued, requeue, ran⟩ := except_bind_eq_ok.mp ran
  have first := requeueCurrent_settles requeue
  by_cases empty : requeued.threadReadyList = []
  · simp only [empty, if_true] at ran
    obtain ⟨woken, wake, ran⟩ := except_bind_eq_ok.mp ran
    exact (first.trans (threadUnblock_settles wake).1).trans (dispatch_settles ran)
  · simp only [empty, if_false, except_pure_eq, except_ok_bind] at ran
    exact first.trans (dispatch_settles ran)

/-- Entering the kernel puts no task to sleep. -/
theorem enterKernel_settles {oldStatus : IntrStatus} (ran : enterKernel s oldStatus = .ok next) :
    Settles s next ∧ next.current = s.current := by
  obtain ⟨cur, found, ran⟩ := except_bind_eq_ok.mp ran
  cases ran
  exact ⟨(Settles.put_same { cur with oldStatus := oldStatus } found (Eq.refl _)).congr
    (Eq.refl _) (Eq.refl _), Eq.refl _⟩

/-- `thread_block` puts the running task to sleep, with the given status, and no other. -/
theorem threadBlock_suspends {stat : TaskStatus} (ran : threadBlock s stat = .ok next) :
    next.threadAllList = s.threadAllList ∧
      ∀ t status, Sleeps status → next.statusOf t = some status →
        s.statusOf t = some status ∨ t = s.current ∧ status = stat := by
  obtain ⟨entry, entered, ran⟩ := except_bind_eq_ok.mp ran
  obtain ⟨-, -, entered⟩ := except_bind_eq_ok.mp entered
  obtain ⟨kernel, intoKernel, entered⟩ := except_bind_eq_ok.mp entered
  obtain ⟨cur, found, entered⟩ := except_bind_eq_ok.mp entered
  cases entered
  obtain ⟨settles, sameCurrent⟩ := enterKernel_settles intoKernel
  have scheduled := schedule_settles ran
  refine ⟨scheduled.all.trans settles.all, fun t status sleeps known => ?_⟩
  have before := scheduled.asleep t status sleeps known
  rw [statusOf_put] at before
  by_cases here : t = kernel.current
  · rw [if_pos here] at before
    exact .inr ⟨here.trans sameCurrent, (Option.some.inj before).symm⟩
  · rw [if_neg here] at before
    exact .inl (settles.asleep t status sleeps before)

/-- `thread_yield` puts no task to sleep. -/
theorem threadYield_settles (ran : threadYield s = .ok next) : Settles s next := by
  obtain ⟨entry, entered, ran⟩ := except_bind_eq_ok.mp ran
  obtain ⟨kernel, intoKernel, entered⟩ := except_bind_eq_ok.mp entered
  obtain ⟨-, -, entered⟩ := except_bind_eq_ok.mp entered
  obtain ⟨cur, found, entered⟩ := except_bind_eq_ok.mp entered
  cases entered
  have awake : ¬ Sleeps TaskStatus.ready := by
    rintro (wrong | wrong) <;> cases wrong
  have queued : Settles kernel
      { kernel with threadReadyList := kernel.threadReadyList ++ [kernel.current] } :=
    .of_same (Eq.refl _) (Eq.refl _)
  exact (((enterKernel_settles intoKernel).1.trans queued).trans (.put _ awake)).trans
    (schedule_settles ran)

/-- The timer interrupt puts no task to sleep. -/
theorem intrTimerHandler_settles (ran : intrTimerHandler s = .ok next) : Settles s next := by
  obtain ⟨entry, entered, ran⟩ := except_bind_eq_ok.mp ran
  obtain ⟨kernel, intoKernel, entered⟩ := except_bind_eq_ok.mp entered
  obtain ⟨cur, found, entered⟩ := except_bind_eq_ok.mp entered
  cases entered
  have ticked := (enterKernel_settles intoKernel).1.trans (.put_same
    { cur with elapsedTicks := (cur.elapsedTicks + 1) % 2 ^ 32 } found (Eq.refl _))
  obtain ⟨curThread, read, ran⟩ := except_bind_eq_ok.mp ran
  by_cases expired : curThread.ticks = 0
  · rw [if_pos expired] at ran
    exact ticked.trans (schedule_settles ran)
  · rw [if_neg expired] at ran
    cases ran
    exact (ticked.trans (.put_same { curThread with ticks := curThread.ticks - 1 }
      read (Eq.refl _))).congr (Eq.refl _) (Eq.refl _)

/-- `thread_start` lists a new ready task and changes no other task. -/
theorem threadStart_adds {prio : Nat} (ran : threadStart s t prio = .ok next) :
    t ∉ s.threadAllList ∧ next.threadAllList = s.threadAllList ++ [t] ∧
      next.statusOf t = some .ready ∧ ∀ u, u ≠ t → next.statusOf u = s.statusOf u := by
  obtain ⟨_, -, ran⟩ := except_bind_eq_ok.mp ran
  obtain ⟨_, unlisted, ran⟩ := except_bind_eq_ok.mp ran
  cases ran
  rw [require_eq_ok] at unlisted
  refine ⟨unlisted, Eq.refl _, ?_, fun u apart => ?_⟩
  · change (s.put t _).statusOf t = _
    rw [statusOf_put, if_pos (Eq.refl t)]
  · change (s.put t _).statusOf u = _
    rw [statusOf_put, if_neg apart]

/-- `thread_exit` takes the task off the list and changes no other task. -/
theorem threadExit_leaves (ran : threadExit s t = .ok next) :
    next.threadAllList = s.threadAllList.erase t ∧
      ∀ u, u ≠ t → next.statusOf u = s.statusOf u := by
  obtain ⟨task, found, ran⟩ := except_bind_eq_ok.mp ran
  have queued : ∀ mid : Sched, mid.threadAllList = s.threadAllList →
      (∀ u, u ≠ t → mid.statusOf u = s.statusOf u) →
      (if t ≠ mid.mainThread then
        pure { mid with
          threadAllList := mid.threadAllList.erase t, task := Function.update mid.task t none }
      else pure { mid with threadAllList := mid.threadAllList.erase t } : Except Fault Sched) =
        .ok next → next.threadAllList = s.threadAllList.erase t ∧
      ∀ u, u ≠ t → next.statusOf u = s.statusOf u := by
    intro mid all others ran
    by_cases main : t ≠ mid.mainThread
    · rw [if_pos main] at ran
      cases ran
      refine ⟨congrArg (List.erase · t) all, fun u apart => ?_⟩
      rw [← others u apart]
      exact congrArg (Option.map Thread.Task.status) (Function.update_of_ne apart _ _)
    · rw [if_neg main] at ran
      cases ran
      exact ⟨congrArg (List.erase · t) all, others⟩
  have put : ∀ u, u ≠ t →
      (s.put t { task with status := .died }).statusOf u = s.statusOf u := by
    intro u apart
    rw [statusOf_put, if_neg apart]
  by_cases member : t ∈ s.threadReadyList
  · exact queued { s.put t { task with status := .died } with
      threadReadyList := s.threadReadyList.erase t, intr := .off } (Eq.refl _) put
      (by simpa [Sched.put, member] using ran)
  · exact queued { s.put t { task with status := .died } with intr := .off } (Eq.refl _) put
      (by simpa [Sched.put, member] using ran)

/-- A scheduling event outside the three calls puts no task to sleep. -/
theorem outside_settles {op : Op} (outside : Outside s op) (ran : exec s op = .ok next) :
    Settles s next := by
  cases op with
  | timer => exact intrTimerHandler_settles ran
  | block stat =>
      obtain ⟨all, asleep⟩ := threadBlock_suspends ran
      refine ⟨all, fun t status sleeps known => ?_⟩
      rcases asleep t status sleeps known with before | ⟨-, rfl⟩
      · exact before
      · have blocked : status = .blocked := outside
        rw [blocked] at sleeps
        rcases sleeps with wrong | wrong <;> cases wrong
  | unblock t => exact (threadUnblock_settles ran).1
  | yield => exact threadYield_settles ran
  | start thread prio => exact outside.elim
  | exit threadOver => exact outside.elim
  | setIntr status =>
      cases ran
      exact .of_same (Eq.refl _) (Eq.refl _)

end Scheduling

/-! ## The invariant -/

variable {f next : Family} {t childThread : TaskId}

/-- The listed tasks have different numbers, all of them taken in `pid_bitmap`. -/
structure Numbered (f : Family) : Prop where
  all_nodup : f.sched.threadAllList.Nodup
  distinct : ∀ t ∈ f.sched.threadAllList, ∀ u ∈ f.sched.threadAllList,
    (f.proc t).pid = (f.proc u).pid → t = u
  taken : ∀ t ∈ f.sched.threadAllList, ∃ bitIdx : Nat,
    (f.proc t).pid = bitIdx + pidStart ∧ f.pidBitmap.test bitIdx = true

/-- No task on the list sleeps in `sys_wait` beside a child that hangs. -/
def ParentsAwake (f : Family) : Prop :=
  ∀ parent ∈ f.sched.threadAllList, ∀ child ∈ f.sched.threadAllList,
    f.sched.statusOf parent = some .waiting → f.sched.statusOf child = some .hanging →
      (f.proc child).parentPid ≠ (f.proc parent).pid

/-- The invariant of the system. -/
structure Watched (f : Family) : Prop extends Numbered f where
  parentsAwake : ParentsAwake f

/-- `fork_pid` returns a number that no listed task has, and takes it. -/
theorem forkPid_returns {pid : Int} (ran : forkPid f = .ok (pid, next)) :
    ∃ bitIdx : Nat, pid = bitIdx + pidStart ∧ f.pidBitmap.test bitIdx = false ∧
      next = { f with pidBitmap := f.pidBitmap.set bitIdx true } := by
  obtain ⟨found, scanned, ran⟩ := except_bind_eq_ok.mp ran
  obtain ⟨bitIdx, rfl, -, free, -⟩ := Bitmap.scan_returns scanned
  cases ran
  exact ⟨bitIdx, rfl, free, rfl⟩

/-- The listed tasks keep their numbers when another one is taken. -/
theorem Numbered.take (numbered : Numbered f) (bitIdx : Nat) :
    Numbered { f with pidBitmap := f.pidBitmap.set bitIdx true } := by
  refine ⟨numbered.all_nodup, numbered.distinct, fun t listed => ?_⟩
  obtain ⟨bit, isBit, used⟩ := numbered.taken t listed
  refine ⟨bit, isBit, ?_⟩
  rw [Bitmap.test_set]
  split_ifs
  · rfl
  · exact used

/-- `pid2thread` returns the one listed task with that number. -/
theorem Numbered.pid2thread (numbered : Numbered f) {found : TaskId}
    (ran : pid2thread f (f.proc t).pid = some found) (listed : t ∈ f.sched.threadAllList) :
    found = t := by
  have same := List.find?_some ran
  exact numbered.distinct _ (List.mem_of_find?_eq_some ran) _ listed (of_decide_eq_true same)

/-- The numbers concern the list, the numbers and the bitmap only. -/
theorem Numbered.congr (numbered : Numbered f)
    (all : next.sched.threadAllList = f.sched.threadAllList)
    (bitmap : next.pidBitmap = f.pidBitmap)
    (pid : ∀ t, (next.proc t).pid = (f.proc t).pid) : Numbered next := by
  refine ⟨all ▸ numbered.all_nodup, fun t listed u listed' same => ?_, fun t listed => ?_⟩
  · rw [pid, pid] at same
    exact numbered.distinct t (all ▸ listed) u (all ▸ listed') same
  · rw [pid, bitmap]
    exact numbered.taken t (all ▸ listed)

/-- Scheduling alone leaves the invariant. -/
theorem Watched.settle (watched : Watched f) {sched : Sched} (settles : Settles f.sched sched) :
    Watched { f with sched := sched } := by
  refine ⟨watched.toNumbered.congr settles.all rfl fun _ => rfl, ?_⟩
  intro parent listed child listed' waits hangs
  exact watched.parentsAwake parent (settles.all ▸ listed) child (settles.all ▸ listed')
    (settles.asleep parent _ (.inl rfl) waits) (settles.asleep child _ (.inr rfl) hangs)

/-- Turning interrupts on or off leaves the invariant. -/
theorem Watched.setIntr (watched : Watched f) (status : IntrStatus) :
    Watched (f.setIntr status) :=
  watched.settle (.of_same rfl rfl)

/-- The invariant reads the numbers of the processes only. -/
theorem Watched.congr (watched : Watched f) (sched : next.sched = f.sched)
    (bitmap : next.pidBitmap = f.pidBitmap)
    (pid : ∀ t, (next.proc t).pid = (f.proc t).pid)
    (parentPid : ∀ t, (next.proc t).parentPid = (f.proc t).parentPid) : Watched next := by
  refine ⟨watched.toNumbered.congr (congrArg Sched.threadAllList sched) bitmap pid, ?_⟩
  intro parent listed child listed' waits hangs
  rw [parentPid, pid]
  rw [sched] at listed listed' waits hangs
  exact watched.parentsAwake parent listed child listed' waits hangs

/-- The running process changes no number. -/
theorem Watched.congr_current (watched : Watched f) {t : TaskId} (proc : Proc)
    (pid : proc.pid = (f.proc t).pid) (parentPid : proc.parentPid = (f.proc t).parentPid) :
    Watched (f.setProc t proc) := by
  exact Watched.congr watched (show (f.setProc t proc).sched = f.sched from rfl) rfl
    (Family.setProc_field Proc.pid pid) (Family.setProc_field Proc.parentPid parentPid)

/-- The running process goes to sleep: in `sys_wait` when no child of it hangs, and in
`sys_exit` when its parent does not sleep. -/
theorem Watched.suspend (watched : Watched f) {sched : Sched} {stat : TaskStatus}
    (ran : threadBlock f.sched stat = .ok sched)
    (noneHangs : stat = .waiting → ∀ child ∈ f.sched.threadAllList,
      f.sched.statusOf child = some .hanging → (f.proc child).parentPid ≠ (f.proc f.current).pid)
    (noneWaits : stat = .hanging → ∀ parent ∈ f.sched.threadAllList,
      f.sched.statusOf parent = some .waiting →
        (f.proc f.current).parentPid ≠ (f.proc parent).pid) :
    Watched { f with sched := sched } := by
  obtain ⟨all, asleep⟩ := threadBlock_suspends ran
  refine ⟨watched.toNumbered.congr all rfl fun _ => rfl, ?_⟩
  intro parent listed child listed' waits hangs
  have oldParent : parent ∈ f.sched.threadAllList := all ▸ listed
  have oldChild : child ∈ f.sched.threadAllList := all ▸ listed'
  rcases asleep parent _ (.inl rfl) waits with waited | ⟨isCurrent, isWaiting⟩
  · rcases asleep child _ (.inr rfl) hangs with hung | ⟨rfl, isHanging⟩
    · exact watched.parentsAwake parent oldParent child oldChild waited hung
    · exact noneWaits isHanging.symm parent oldParent waited
  · rcases asleep child _ (.inr rfl) hangs with hung | ⟨-, isHanging⟩
    · rw [isCurrent]
      exact noneHangs isWaiting.symm child oldChild hung
    · rw [← isWaiting] at isHanging
      cases isHanging

/-- A task that was not listed is listed, with a number that was free. -/
theorem Numbered.start (numbered : Numbered f) {bitIdx : Nat}
    (unlisted : childThread ∉ f.sched.threadAllList) (free : f.pidBitmap.test bitIdx = false)
    (all : next.sched.threadAllList = f.sched.threadAllList ++ [childThread])
    (proc : ∀ u, u ≠ childThread → next.proc u = f.proc u)
    (pid : (next.proc childThread).pid = bitIdx + pidStart)
    (bitmap : next.pidBitmap = f.pidBitmap.set bitIdx true) : Numbered next := by
  have others : ∀ u ∈ next.sched.threadAllList,
      u = childThread ∨ u ∈ f.sched.threadAllList ∧ u ≠ childThread := by
    intro u listed
    rw [all] at listed
    rcases List.mem_append.mp listed with old | new
    · exact .inr ⟨old, fun same => unlisted (same ▸ old)⟩
    · exact .inl (List.mem_singleton.mp new)
  have fresh : ∀ u ∈ f.sched.threadAllList, (f.proc u).pid ≠ bitIdx + pidStart := by
    intro u listed same
    obtain ⟨bit, isBit, used⟩ := numbered.taken u listed
    have equal : bit = bitIdx := by omega
    rw [equal, free] at used
    cases used
  refine ⟨?_, ?_, ?_⟩
  · rw [all]
    exact (List.perm_append_singleton childThread f.sched.threadAllList).nodup_iff.mpr
      (List.nodup_cons.mpr ⟨unlisted, numbered.all_nodup⟩)
  · intro t listed u listed' same
    rcases others t listed with rfl | ⟨old, apart⟩
    · rcases others u listed' with rfl | ⟨old', apart'⟩
      · rfl
      · rw [pid, proc u apart'] at same
        exact absurd same.symm (fresh u old')
    · rw [proc t apart] at same
      rcases others u listed' with rfl | ⟨old', apart'⟩
      · rw [pid] at same
        exact absurd same (fresh t old)
      · rw [proc u apart'] at same
        exact numbered.distinct t old u old' same
  · intro t listed
    rw [bitmap]
    rcases others t listed with rfl | ⟨old, apart⟩
    · exact ⟨bitIdx, pid, by simp [Bitmap.test_set]⟩
    · rw [proc t apart]
      exact (numbered.take bitIdx).taken t old

/-- The new task is ready, and the others are where they were. -/
theorem Watched.start (watched : Watched f) {bitIdx : Nat}
    (unlisted : childThread ∉ f.sched.threadAllList) (free : f.pidBitmap.test bitIdx = false)
    (all : next.sched.threadAllList = f.sched.threadAllList ++ [childThread])
    (ready : next.sched.statusOf childThread = some .ready)
    (status : ∀ u, u ≠ childThread → next.sched.statusOf u = f.sched.statusOf u)
    (proc : ∀ u, u ≠ childThread → next.proc u = f.proc u)
    (pid : (next.proc childThread).pid = bitIdx + pidStart)
    (bitmap : next.pidBitmap = f.pidBitmap.set bitIdx true) : Watched next := by
  refine ⟨watched.toNumbered.start unlisted free all proc pid bitmap, ?_⟩
  have others : ∀ u ∈ next.sched.threadAllList,
      u = childThread ∨ u ∈ f.sched.threadAllList ∧ u ≠ childThread := by
    intro u listed
    rw [all] at listed
    rcases List.mem_append.mp listed with old | new
    · exact .inr ⟨old, fun same => unlisted (same ▸ old)⟩
    · exact .inl (List.mem_singleton.mp new)
  intro parent listed child listed' waits hangs
  rcases others parent listed with rfl | ⟨old, apart⟩
  · rw [ready] at waits
    cases waits
  · rcases others child listed' with rfl | ⟨old', apart'⟩
    · rw [ready] at hangs
      cases hangs
    · rw [status parent apart] at waits
      rw [status child apart'] at hangs
      rw [proc parent apart, proc child apart']
      exact watched.parentsAwake parent old child old' waits hangs

/-! ## The three calls -/

/-- `sys_fork` adds a ready child with a new number. -/
theorem sysFork_watched (watched : Watched f) {pages : ForkPages} {pid : Int}
    (ran : sysFork f childThread pages = .ok (pid, next)) : Watched next := by
  cases pages with
  | noPages =>
      cases ran
      exact watched
  | noBitmap =>
      obtain ⟨⟨number, after⟩, numberRan, ran⟩ := except_bind_eq_ok.mp ran
      obtain ⟨bitIdx, -, -, rfl⟩ := forkPid_returns numberRan
      cases ran
      exact ⟨watched.toNumbered.take bitIdx, watched.parentsAwake⟩
  | enough =>
      obtain ⟨parentThread, found, ran⟩ := except_bind_eq_ok.mp ran
      obtain ⟨⟨number, after⟩, numberRan, ran⟩ := except_bind_eq_ok.mp ran
      obtain ⟨bitIdx, rfl, free, rfl⟩ := forkPid_returns numberRan
      obtain ⟨sched, started, ran⟩ := except_bind_eq_ok.mp ran
      obtain ⟨unlisted, all, ready, others⟩ := threadStart_adds started
      cases ran
      apply watched.start unlisted free all ready others
      · intro u apart
        rw [Family.proc_setProc, if_neg apart]
      · rw [Family.proc_setProc, if_pos rfl]
      · rfl

/-- `thread_exit` and the release of its number take a task off the list. -/
theorem exitTask_leaves (ran : exitTask f t = .ok next) :
    next.sched.threadAllList = f.sched.threadAllList.erase t ∧ next.proc = f.proc ∧
      (∀ u, u ≠ t → next.sched.statusOf u = f.sched.statusOf u) ∧
      next.pidBitmap = f.pidBitmap.set ((f.proc t).pid - pidStart).toNat false := by
  obtain ⟨sched, exited, ran⟩ := except_bind_eq_ok.mp ran
  cases ran
  obtain ⟨all, others⟩ := threadExit_leaves exited
  exact ⟨all, rfl, others, rfl⟩

/-- The tasks that stay keep their numbers. -/
theorem exitTask_numbered (numbered : Numbered f) (listed : t ∈ f.sched.threadAllList)
    (ran : exitTask f t = .ok next) : Numbered next := by
  obtain ⟨all, proc, -, bitmap⟩ := exitTask_leaves ran
  have kept : ∀ u ∈ next.sched.threadAllList, u ∈ f.sched.threadAllList ∧ u ≠ t := by
    intro u member
    rw [all, numbered.all_nodup.mem_erase_iff] at member
    exact ⟨member.2, member.1⟩
  obtain ⟨gone, isGone, -⟩ := numbered.taken t listed
  refine ⟨?_, ?_, ?_⟩
  · exact all ▸ numbered.all_nodup.erase t
  · intro u member v member' same
    rw [proc] at same
    exact numbered.distinct u (kept u member).1 v (kept v member').1 same
  · intro u member
    obtain ⟨old, apart⟩ := kept u member
    obtain ⟨bitIdx, isBit, used⟩ := numbered.taken u old
    refine ⟨bitIdx, by rw [proc, isBit], ?_⟩
    rw [bitmap, Bitmap.test_set, if_neg, used]
    intro same
    refine apart (numbered.distinct u old t listed ?_)
    rw [isBit, isGone]
    omega

theorem exitTask_watched (watched : Watched f) (listed : t ∈ f.sched.threadAllList)
    (ran : exitTask f t = .ok next) : Watched next := by
  obtain ⟨all, proc, others, -⟩ := exitTask_leaves ran
  have kept : ∀ u ∈ next.sched.threadAllList, u ∈ f.sched.threadAllList ∧ u ≠ t := by
    intro u member
    rw [all, watched.all_nodup.mem_erase_iff] at member
    exact ⟨member.2, member.1⟩
  refine ⟨exitTask_numbered watched.toNumbered listed ran, ?_⟩
  intro parent member child member' waits hangs
  obtain ⟨old, apart⟩ := kept parent member
  obtain ⟨old', apart'⟩ := kept child member'
  rw [proc]
  exact watched.parentsAwake parent old child old' ((others parent apart) ▸ waits)
    ((others child apart') ▸ hangs)

/-- A round of `sys_wait` puts the process to sleep only when no child of it hangs. -/
theorem sysWait_watched (watched : Watched f) {result : WaitResult}
    (ran : sysWait f = .ok (result, next)) : Watched next := by
  unfold sysWait at ran
  dsimp only at ran
  cases hanging : f.sched.threadAllList.find? (findHangingChild f (f.proc f.current).pid) with
  | some childThread =>
      rw [hanging] at ran
      obtain ⟨after, exited, ran⟩ := except_bind_eq_ok.mp ran
      cases ran
      exact exitTask_watched watched (List.mem_of_find?_eq_some hanging) exited
  | none =>
      rw [hanging] at ran
      cases child : f.sched.threadAllList.find? (findChild f (f.proc f.current).pid) with
      | none =>
          simp only [child] at ran
          cases ran
          exact watched
      | some childThread =>
          simp only [child] at ran
          obtain ⟨sched, blocked, ran⟩ := except_bind_eq_ok.mp ran
          cases ran
          have asleep : Watched { f with sched := sched } := by
            apply watched.suspend blocked
            · intro _ child listed hangs same
              have passed := List.find?_eq_none.mp hanging child listed
              simp [findHangingChild, hangs, same] at passed
            · intro wrong
              cases wrong
          exact asleep.congr_current { f.proc f.current with inWait := true } rfl rfl

/-- A round of `sys_wait`, with its return. -/
theorem waitRound_watched (watched : Watched f) (ran : waitRound f = .ok next) :
    Watched next := by
  obtain ⟨⟨result, after⟩, round, ran⟩ := except_bind_eq_ok.mp ran
  have kept := sysWait_watched watched round
  by_cases asleep : result = .asleep
  · simp only [asleep, if_true] at ran
    cases ran
    exact kept
  · simp only [asleep, if_false] at ran
    cases ran
    exact (kept.congr_current { after.proc f.current with inWait := false } rfl rfl).setIntr .on

/-- Waking the parent leaves no listed process asleep that has the parent's number. -/
theorem wakeParent_wakes (numbered : Numbered f) (ran : wakeParent f = .ok next) :
    (∃ sched, next = { f with sched := sched } ∧ Settles f.sched sched ∧
      sched.current = f.current) ∧
    ∀ parent ∈ next.sched.threadAllList, next.sched.statusOf parent = some .waiting →
      (next.proc next.current).parentPid ≠ (next.proc parent).pid := by
  unfold wakeParent at ran
  cases found : pid2thread f (f.proc f.current).parentPid with
  | none =>
      rw [found] at ran
      cases ran
  | some parentThread =>
      rw [found] at ran
      obtain ⟨parent, read, ran⟩ := except_bind_eq_ok.mp ran
      -- The listed process with the parent's number is the one that was found.
      have unique : ∀ u ∈ f.sched.threadAllList,
          (f.proc f.current).parentPid = (f.proc u).pid → parentThread = u := by
        intro u listed same
        rw [same] at found
        exact numbered.pid2thread found listed
      by_cases waits : parent.status = .waiting
      · rw [if_pos waits] at ran
        obtain ⟨sched, woken, ran⟩ := except_bind_eq_ok.mp ran
        cases ran
        obtain ⟨settles, sameCurrent, ready⟩ := threadUnblock_settles woken
        refine ⟨⟨sched, rfl, settles, sameCurrent⟩, fun u listed waiting same => ?_⟩
        change (f.proc sched.current).parentPid = (f.proc u).pid at same
        rw [sameCurrent] at same
        rw [← unique u (settles.all ▸ listed) same, ready] at waiting
        cases waiting
      · rw [if_neg waits] at ran
        cases ran
        refine ⟨⟨f.sched, rfl, .rfl, rfl⟩, fun u listed waiting same => ?_⟩
        rw [← unique u listed same] at waiting
        obtain ⟨task, present, status⟩ := statusOf_eq_some.mp waiting
        rw [get_eq_ok.mp read] at present
        cases present
        exact waits status

/-- A `sys_exit` that passes a child that hangs to `init`, while `init` sleeps and is not the
parent that is woken. -/
def Orphans (f : Family) : Prop :=
  (f.proc f.current).parentPid ≠ 1 ∧
    (∃ child ∈ f.sched.threadAllList, (f.proc child).parentPid = (f.proc f.current).pid ∧
      f.sched.statusOf child = some .hanging) ∧
    ∃ init ∈ f.sched.threadAllList, (f.proc init).pid = 1 ∧ f.sched.statusOf init = some .waiting

/-- A child passed to `init` has the parent number 1, and every other task the one it had. -/
theorem initAdoptChildren_parentPid {pid : Int} :
    ((initAdoptChildren f pid).proc t).parentPid =
      if t ∈ f.sched.threadAllList ∧ (f.proc t).parentPid = pid then 1
      else (f.proc t).parentPid := by
  simp only [initAdoptChildren]
  split_ifs <;> rfl

/-- Passing the children to `init` changes no process number. -/
theorem initAdoptChildren_pid {pid : Int} :
    ((initAdoptChildren f pid).proc t).pid = (f.proc t).pid := by
  simp only [initAdoptChildren]
  split_ifs <;> rfl

/-- The children go to `init` and the parent is woken: no parent sleeps beside a child that
hangs, and the parent of the running process is awake. -/
theorem adopt_watched (watched : Watched f) (wakes : ¬ Orphans f)
    (ran : wakeParent (initAdoptChildren f (f.proc f.current).pid) = .ok next) :
    Watched next ∧ ∀ parent ∈ next.sched.threadAllList,
      next.sched.statusOf parent = some .waiting →
        (next.proc next.current).parentPid ≠ (next.proc parent).pid := by
  have numbered : Numbered (initAdoptChildren f (f.proc f.current).pid) :=
    watched.toNumbered.congr rfl rfl fun t => initAdoptChildren_pid
  obtain ⟨⟨sched, rfl, settles, sameCurrent⟩, awake⟩ := wakeParent_wakes numbered ran
  refine ⟨⟨numbered.congr settles.all rfl fun _ => rfl, ?_⟩, awake⟩
  intro parent listed child listed' waits hangs same
  have oldParent : parent ∈ f.sched.threadAllList := settles.all ▸ listed
  have oldChild : child ∈ f.sched.threadAllList := settles.all ▸ listed'
  have waited := settles.asleep parent _ (.inl rfl) waits
  have hung := settles.asleep child _ (.inr rfl) hangs
  replace awake := awake parent listed waits
  change ((initAdoptChildren f _).proc sched.current).parentPid ≠
    ((initAdoptChildren f _).proc parent).pid at awake
  change ((initAdoptChildren f _).proc child).parentPid =
    ((initAdoptChildren f _).proc parent).pid at same
  rw [initAdoptChildren_parentPid, initAdoptChildren_pid] at same
  rw [sameCurrent, initAdoptChildren_parentPid, initAdoptChildren_pid] at awake
  by_cases adopted : (f.proc child).parentPid = (f.proc f.current).pid
  · -- A child that hung already has gone to `init`, which sleeps: the parent that was woken
    -- is not `init`, so this is an orphan.
    rw [if_pos ⟨oldChild, adopted⟩] at same
    refine wakes ⟨fun init => awake ?_, ⟨child, oldChild, adopted, hung⟩,
      parent, oldParent, same.symm, waited⟩
    change (f.proc f.current).parentPid = 1 at init
    rw [← same]
    split_ifs
    · rfl
    · exact init
  · rw [if_neg fun both => adopted both.2] at same
    exact watched.parentsAwake parent oldParent child oldChild waited hung same

/-- Before the process hangs, its parent is awake. -/
theorem exitEntry_watched (watched : Watched f) {status : Int} (wakes : ¬ Orphans f)
    (ran : exitEntry f status = .ok next) :
    Watched next ∧ ∀ parent ∈ next.sched.threadAllList,
      next.sched.statusOf parent = some .waiting →
        (next.proc next.current).parentPid ≠ (next.proc parent).pid := by
  obtain ⟨_, -, ran⟩ := except_bind_eq_ok.mp ran
  have kept := watched.congr_current
    { f.proc f.current with exitStatus := status.bmod 256 } (t := f.current) rfl rfl
  have pid : ∀ t, ((f.setProc f.current
      { f.proc f.current with exitStatus := status.bmod 256 }).proc t).pid = (f.proc t).pid :=
    Family.setProc_field Proc.pid rfl
  have parentPid : ∀ t, ((f.setProc f.current
      { f.proc f.current with exitStatus := status.bmod 256 }).proc t).parentPid =
        (f.proc t).parentPid :=
    Family.setProc_field Proc.parentPid rfl
  apply adopt_watched kept
  · intro orphans
    unfold Orphans at orphans
    simp only [pid, parentPid] at orphans
    exact wakes orphans
  · rw [pid]
    exact ran

/-- `sys_exit` leaves the invariant, unless it passes a child that hangs to a sleeping
`init`. -/
theorem sysExit_watched (watched : Watched f) {status : Int} (wakes : ¬ Orphans f)
    (ran : sysExit f status = .ok next) : Watched next := by
  obtain ⟨woken, entered, ran⟩ := except_bind_eq_ok.mp ran
  obtain ⟨sched, blocked, ran⟩ := except_bind_eq_ok.mp ran
  cases ran
  obtain ⟨kept, awake⟩ := exitEntry_watched watched wakes entered
  apply kept.suspend blocked
  · intro wrong
    cases wrong
  · intro _
    exact awake

/-- No `sys_exit` leaves `init` asleep beside a child that hangs. -/
def WakesInit (f : Family) : FamilyOp → Prop
  | .exit _ => ¬ Orphans f
  | _ => True

/-- **One step.** Every operation keeps the invariant, but for a `sys_exit` that passes a
child that hangs to a sleeping `init`. -/
theorem familyExec_watched (watched : Watched f) {op : FamilyOp} (wakes : WakesInit f op)
    (enabled : FamilyEnabled f op) (ran : familyExec f op = .ok next) : Watched next := by
  cases op with
  | sched op =>
      obtain ⟨sched, scheduled, ran⟩ := except_bind_eq_ok.mp ran
      cases ran
      exact watched.settle (outside_settles enabled.2.1 scheduled)
  | mainExit =>
      obtain ⟨after, exited, ran⟩ := except_bind_eq_ok.mp ran
      obtain ⟨sched, scheduled, ran⟩ := except_bind_eq_ok.mp ran
      cases ran
      exact (exitTask_watched watched enabled.2 exited).settle (schedule_settles scheduled)
  | fork childThread pages =>
      obtain ⟨⟨pid, after⟩, forked, ran⟩ := except_bind_eq_ok.mp ran
      cases ran
      exact (sysFork_watched (watched.setIntr .off) forked).setIntr .on
  | exit status => exact sysExit_watched (watched.setIntr .off) wakes ran
  | wait => exact waitRound_watched (watched.setIntr .off) ran
  | waitAgain => exact waitRound_watched watched ran

/-- The state after boot has no parent that sleeps. -/
theorem bootedFamily_watched {main init idle : TaskId} (distinct : [main, init, idle].Nodup) :
    Watched (bootedFamily main init idle) := by
  have booted := booted_consistent distinct
  simp only [List.nodup_cons, List.mem_cons, List.not_mem_nil, or_false, not_or,
    not_false_eq_true, List.nodup_nil, and_true] at distinct
  obtain ⟨⟨mainInit, mainIdle⟩, initIdle⟩ := distinct
  have pidOf : ∀ t, ((bootedFamily main init idle).proc t).pid =
      if t = init then 1 else if t = main then 2 else 3 := fun t => rfl
  have listed : ∀ t ∈ (bootedFamily main init idle).sched.threadAllList,
      t = init ∨ t = main ∨ t = idle := by
    intro t member
    simpa [bootedFamily, Thread.booted] using member
  refine ⟨⟨booted.all_nodup, fun t member u member' same => ?_, fun t member => ?_⟩, ?_⟩
  · rw [pidOf, pidOf] at same
    have first := listed t member
    have second := listed u member'
    split_ifs at same <;> simp_all
  · rw [pidOf]
    rcases listed t member with rfl | rfl | rfl
    · exact ⟨0, by simp [pidStart], by simp [bootedFamily, Bitmap.test_set]⟩
    · exact ⟨1, by simp [pidStart, mainInit], by simp [bootedFamily, Bitmap.test_set]⟩
    · exact ⟨2, by simp [pidStart, Ne.symm mainIdle, Ne.symm initIdle],
        by simp [bootedFamily, Bitmap.test_set]⟩
  · intro parent member child member' waits
    simp only [bootedFamily, Sched.statusOf, Thread.booted] at waits
    split_ifs at waits <;> cases waits

/-- **No parent sleeps on a finished child.** In every state reached by forks, exits and waits
in any order, of which no `sys_exit` passes a finished child to `init` while `init` sleeps and
is not woken as the parent, no listed process in `TASK_WAITING` is the parent of a listed task
in `TASK_HANGING`. -/
theorem no_parent_sleeps_beside_hanging_child (reachable : (family.under WakesInit).Reachable f) :
    ∀ parent ∈ f.sched.threadAllList, ∀ child ∈ f.sched.threadAllList,
      f.sched.statusOf parent = some .waiting → f.sched.statusOf child = some .hanging →
        (f.proc child).parentPid ≠ (f.proc parent).pid := by
  have watched : Watched f := by
    refine reachable.invariant Watched ?_ ?_
    · rintro _ ⟨main, init, idle, distinct, rfl⟩
      exact bootedFamily_watched distinct
    · rintro before op after - watched ⟨wakes, enabled, ran⟩
      exact familyExec_watched watched wakes enabled ran
  exact watched.parentsAwake

instance (f : Family) : Decidable (Orphans f) := by
  unfold Orphans
  infer_instance

instance (f : Family) : (op : FamilyOp) → Decidable (WakesInit f op)
  | .exit _ => inferInstanceAs (Decidable (¬ Orphans f))
  | .sched _ => .isTrue trivial
  | .mainExit => .isTrue trivial
  | .fork _ _ => .isTrue trivial
  | .wait => .isTrue trivial
  | .waitAgain => .isTrue trivial

/-- The theorem at a state some steps into a run: `init` forks and sleeps. -/
theorem no_parent_sleeps_after_fork : ∃ f : Family, f.sched.statusOf 2 = some .waiting ∧
    (f.proc 10).parentPid = (f.proc 2).pid ∧
    ∀ parent ∈ f.sched.threadAllList, ∀ child ∈ f.sched.threadAllList,
      f.sched.statusOf parent = some .waiting → f.sched.statusOf child = some .hanging →
        (f.proc child).parentPid ≠ (f.proc parent).pid := by
  have ran : (TransitionSystem.run (fun f op => if WakesInit f op then familyStep f op else none)
      (bootedFamily 1 2 3) [.sched (.block .blocked), .fork 10 .enough, .wait]).any
      (fun f : Family =>
        f.sched.statusOf 2 = some .waiting ∧ (f.proc 10).parentPid = (f.proc 2).pid) = true := by
    decide +kernel
  obtain ⟨f, ran, holds⟩ := (Option.any_eq_true _ _).mp ran
  obtain ⟨waits, parent⟩ := of_decide_eq_true holds
  have start : (family.under WakesInit).Reachable (bootedFamily 1 2 3) :=
    .initial ⟨1, 2, 3, by decide, rfl⟩
  refine ⟨f, waits, parent, no_parent_sleeps_beside_hanging_child (start.run ?_ ran)⟩
  intro before op after stepped
  split_ifs at stepped with wakes
  exact ⟨wakes, familyStep_sound stepped⟩

/-- `init` sleeps in `sys_wait`. A process of the third generation exits, and then its parent,
which did not wait for it: the finished process goes to `init`, which sleeps on. -/
theorem init_sleeps_beside_hanging_child : ∃ f : Family, family.Reachable f ∧
    ∃ parent ∈ f.sched.threadAllList, ∃ child ∈ f.sched.threadAllList,
      f.sched.statusOf parent = some .waiting ∧ f.sched.statusOf child = some .hanging ∧
        (f.proc child).parentPid = (f.proc parent).pid := by
  have ran : (TransitionSystem.run familyStep (bootedFamily 1 2 3)
      [.sched (.block .blocked), .fork 10 .enough, .wait, .sched (.block .blocked),
        .fork 11 .enough, .sched (.block .blocked), .fork 12 .enough, .sched (.block .blocked),
        .exit 0, .sched (.unblock 11), .sched (.block .blocked), .exit 0]).any (fun f : Family =>
          2 ∈ f.sched.threadAllList ∧ 12 ∈ f.sched.threadAllList ∧
          f.sched.statusOf 2 = some .waiting ∧ f.sched.statusOf 12 = some .hanging ∧
          (f.proc 12).parentPid = (f.proc 2).pid) = true := by
    decide +kernel
  obtain ⟨f, ran, holds⟩ := (Option.any_eq_true _ _).mp ran
  obtain ⟨listed, listed', waits, hangs, same⟩ := of_decide_eq_true holds
  have start : family.Reachable (bootedFamily 1 2 3) := .initial ⟨1, 2, 3, by decide, rfl⟩
  exact ⟨f, start.run (fun _ _ _ => familyStep_sound) ran, 2, listed, 12, listed', waits, hangs,
    same⟩

end UKernel.Process
