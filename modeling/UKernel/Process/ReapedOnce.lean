import UKernel.Process.WaitExit

/-! # Every exit is returned once

A history beside the processes records what no function of the kernel reads
(`UKernel.Process.History`): each process that `sys_fork` creates has a number of its own there,
the process it is a child of, and the argument of its last `sys_exit`, and each `sys_wait` that
returned has an entry. Numbers in `pid_pool` and pages of control blocks are used again, the
numbers of the history are not. In every reachable state the processes' `parent_pid` agrees with
the history (`UKernel.Process.Traced`), so an entry is about a process that called `sys_exit`, with
its status, and whose parent was the caller, and no two entries are about the same process
(`UKernel.Process.waits_return_exits`).
-/

namespace UKernel.Process

open UKernel.Library UKernel.Thread UKernel.Fs

/-! ## The history -/

/-- A `sys_wait` that returned: the caller, the process that had the returned number and its parent
at that time, and what was returned. -/
structure Reaped where
  caller : Nat
  process : Option Nat
  parent : Option Nat
  pid : Int
  status : Int
  deriving DecidableEq, Repr

/-- What happened to the processes so far. -/
structure History where
  born : Nat
  serial : TaskId → Nat
  pid : Nat → Int
  parent : Nat → Option Nat
  exited : Nat → Option Int
  waits : List Reaped

namespace History

/-- The number of `init`. -/
def init : Nat := 0

/-- A process is created. -/
def forked (h : History) (parent childThread : TaskId) (pid : Int) : History :=
  { h with
    born := h.born + 1
    serial := Function.update h.serial childThread h.born
    pid := Function.update h.pid h.born pid
    parent := Function.update h.parent h.born (some (h.serial parent)) }

/-- A process calls `sys_exit`, and `init` adopts its children. -/
def exits (h : History) (t : TaskId) (status : Int) : History :=
  { h with
    exited := Function.update h.exited (h.serial t) (some status)
    parent := fun n => if h.parent n = some (h.serial t) then some init else h.parent n }

/-- The numbers of the processes stay. -/
theorem exits_serial {h : History} {t : TaskId} {status : Int} :
    (h.exits t status).serial = h.serial :=
  rfl

/-- `init` is the parent of the children of a process that exited. -/
theorem exits_parent {h : History} {t : TaskId} {status : Int} {n : Nat} :
    (h.exits t status).parent n =
      if h.parent n = some (h.serial t) then some init else h.parent n :=
  rfl

/-- A `sys_wait` returns. -/
def reaped (h : History) (caller : TaskId) (child : Option TaskId) (pid status : Int) : History :=
  { h with waits := h.waits ++
      [{ caller := h.serial caller
         process := child.map h.serial
         parent := child.bind fun t => h.parent (h.serial t)
         pid := pid
         status := status }] }

end History

/-- The entry for a round of `sys_wait`. -/
def recordWait (f : Family) (h : History) : History :=
  match sysWait f with
  | .ok (.child pid status, _) => h.reaped f.current (pid2thread f pid) pid status
  | _ => h

/-- What an operation adds to the history. -/
def record (f : Family) (h : History) : FamilyOp → History
  | .fork childThread .enough =>
      match sysFork (f.setIntr .off) childThread .enough with
      | .ok (pid, _) => h.forked f.current childThread pid
      | .error _ => h
  | .exit status => h.exits f.current status
  | .wait => recordWait (f.setIntr .off) h
  | .waitAgain => recordWait f h
  | _ => h

/-- The history of the processes that `thread_init` makes. -/
def bootedHistory (main init : TaskId) : History where
  born := 3
  serial t := if t = init then 0 else if t = main then 1 else 2
  pid n := n + 1
  parent _ := none
  exited _ := none
  waits := []

/-- The processes with their history. -/
def recorded : TransitionSystem (Family × History) FamilyOp where
  initial state := ∃ main init idle, [main, init, idle].Nodup ∧
    state = (bootedFamily main init idle, bootedHistory main init)
  step before op after := family.step before.1 op after.1 ∧
    after.2 = record before.1 before.2 op

/-- Every run of the processes has a history. -/
theorem exists_history {f : Family} (reachable : family.Reachable f) :
    ∃ h, recorded.Reachable (f, h) := by
  induction reachable with
  | initial start =>
      obtain ⟨main, init, idle, distinct, rfl⟩ := start
      exact ⟨_, .initial ⟨main, init, idle, distinct, rfl⟩⟩
  | step op _ taken ih =>
      obtain ⟨h, reachable⟩ := ih
      exact ⟨_, reachable.step op ⟨taken, rfl⟩⟩

/-! ## What scheduling does to control blocks -/

section Scheduling

variable {s mid next : Sched} {t : TaskId}

/-- The same tasks have control blocks. -/
structure SameBlocks (s next : Sched) : Prop where
  blocks : ∀ t, next.statusOf t = none ↔ s.statusOf t = none
  main : next.mainThread = s.mainThread

theorem SameBlocks.rfl : SameBlocks s s :=
  ⟨fun _ => Iff.rfl, Eq.refl _⟩

theorem SameBlocks.trans (first : SameBlocks s mid) (second : SameBlocks mid next) :
    SameBlocks s next :=
  ⟨fun t => (second.blocks t).trans (first.blocks t), second.main.trans first.main⟩

/-- A control block is rewritten. -/
theorem SameBlocks.put {cur : Thread.Task} (task : Thread.Task) (present : s.get t = .ok cur) :
    SameBlocks s (s.put t task) := by
  refine ⟨fun u => ?_, Eq.refl _⟩
  rw [statusOf_put]
  split
  case isTrue same =>
      have known : s.statusOf u ≠ none := by
        rw [same, Sched.statusOf, get_eq_ok.mp present]
        simp
      simp [known]
  case isFalse => exact Iff.rfl

/-- Changing the queues, the running task and the interrupt status changes no control block. -/
theorem SameBlocks.congr (same : SameBlocks s mid) (task : next.task = mid.task)
    (main : next.mainThread = mid.mainThread) : SameBlocks s next :=
  ⟨fun t => by rw [← same.blocks t, Sched.statusOf, Sched.statusOf, task], main.trans same.main⟩

theorem threadUnblock_blocks (ran : threadUnblock s t = .ok next) : SameBlocks s next := by
  obtain ⟨pthread, found, ran⟩ := except_bind_eq_ok.mp ran
  obtain ⟨-, -, ran⟩ := except_bind_eq_ok.mp ran
  have present : s.get t = .ok pthread := found
  split at ran
  · obtain ⟨-, -, ran⟩ := except_bind_eq_ok.mp ran
    cases ran
    exact (SameBlocks.put { pthread with status := .ready } present).congr (Eq.refl _) (Eq.refl _)
  · cases ran
    exact SameBlocks.rfl.congr (Eq.refl _) (Eq.refl _)

theorem requeueCurrent_blocks (ran : requeueCurrent s = .ok next) : SameBlocks s next := by
  obtain ⟨cur, found, ran⟩ := except_bind_eq_ok.mp ran
  split at ran
  · obtain ⟨-, -, ran⟩ := except_bind_eq_ok.mp ran
    cases ran
    exact (SameBlocks.put { cur with ticks := cur.priority, status := .ready } found).congr
      (Eq.refl _) (Eq.refl _)
  · cases ran
    exact .rfl

/-- `dispatch` switches to a task that it makes running. -/
theorem dispatch_blocks (ran : dispatch s = .ok next) :
    SameBlocks s next ∧ next.statusOf next.current = some .running := by
  unfold dispatch at ran
  cases queue : s.threadReadyList with
  | nil =>
      rw [queue] at ran
      cases ran
  | cons threadTag rest =>
      rw [queue] at ran
      obtain ⟨task, found, ran⟩ := except_bind_eq_ok.mp ran
      cases ran
      have present : s.get threadTag = .ok task := found
      refine ⟨(SameBlocks.put { task with status := .running } present).congr (Eq.refl _)
        (Eq.refl _), ?_⟩
      change (s.put threadTag { task with status := .running }).statusOf threadTag = _
      rw [statusOf_put, if_pos (Eq.refl _)]

/-- `schedule` switches to a task that runs. -/
theorem schedule_blocks (ran : schedule s = .ok next) :
    SameBlocks s next ∧ next.statusOf next.current = some .running := by
  obtain ⟨-, -, ran⟩ := except_bind_eq_ok.mp ran
  obtain ⟨requeued, requeue, ran⟩ := except_bind_eq_ok.mp ran
  have first := requeueCurrent_blocks requeue
  by_cases empty : requeued.threadReadyList = []
  · simp only [empty, if_true] at ran
    obtain ⟨woken, wake, ran⟩ := except_bind_eq_ok.mp ran
    obtain ⟨last, running⟩ := dispatch_blocks ran
    exact ⟨(first.trans (threadUnblock_blocks wake)).trans last, running⟩
  · simp only [empty, if_false, except_pure_eq, except_ok_bind] at ran
    obtain ⟨last, running⟩ := dispatch_blocks ran
    exact ⟨first.trans last, running⟩

theorem enterKernel_blocks {oldStatus : IntrStatus} (ran : enterKernel s oldStatus = .ok next) :
    SameBlocks s next := by
  obtain ⟨cur, found, ran⟩ := except_bind_eq_ok.mp ran
  cases ran
  exact (SameBlocks.put { cur with oldStatus := oldStatus } found).congr (Eq.refl _) (Eq.refl _)

/-- `thread_block` switches to a task that runs. -/
theorem threadBlock_blocks {stat : TaskStatus} (ran : threadBlock s stat = .ok next) :
    SameBlocks s next ∧ next.statusOf next.current = some .running := by
  obtain ⟨entry, entered, ran⟩ := except_bind_eq_ok.mp ran
  obtain ⟨-, -, entered⟩ := except_bind_eq_ok.mp entered
  obtain ⟨kernel, intoKernel, entered⟩ := except_bind_eq_ok.mp entered
  obtain ⟨cur, found, entered⟩ := except_bind_eq_ok.mp entered
  cases entered
  obtain ⟨last, running⟩ := schedule_blocks ran
  exact ⟨((enterKernel_blocks intoKernel).trans (.put _ found)).trans last, running⟩

/-- What a scheduling event outside the three calls does: a task that does not go on is replaced
by one that runs. -/
structure Switches (s next : Sched) : Prop extends Settles s next, SameBlocks s next where
  current : next.current = s.current ∨ next.statusOf next.current = some .running

theorem outside_switches {op : Op} (outside : Outside s op) (ran : exec s op = .ok next) :
    Switches s next := by
  have settles := outside_settles outside ran
  have made : SameBlocks s next → (next.current = s.current ∨
      next.statusOf next.current = some .running) → Switches s next := by
    intro blocks current
    exact { toSettles := settles, toSameBlocks := blocks, current := current }
  cases op with
  | timer =>
      obtain ⟨entry, entered, ran⟩ := except_bind_eq_ok.mp ran
      obtain ⟨kernel, intoKernel, entered⟩ := except_bind_eq_ok.mp entered
      obtain ⟨cur, found, entered⟩ := except_bind_eq_ok.mp entered
      cases entered
      have ticked := (enterKernel_blocks intoKernel).trans
        (.put { cur with elapsedTicks := (cur.elapsedTicks + 1) % 2 ^ 32 } found)
      obtain ⟨curThread, read, ran⟩ := except_bind_eq_ok.mp ran
      by_cases expired : curThread.ticks = 0
      · rw [if_pos expired] at ran
        obtain ⟨last, running⟩ := schedule_blocks ran
        exact made (ticked.trans last) (.inr running)
      · rw [if_neg expired] at ran
        cases ran
        exact made ((ticked.trans (.put { curThread with ticks := curThread.ticks - 1 } read)).congr
          rfl rfl) (.inl (enterKernel_settles intoKernel).2)
  | block stat =>
      obtain ⟨blocks, running⟩ := threadBlock_blocks ran
      exact made blocks (.inr running)
  | unblock t => exact made (threadUnblock_blocks ran) (.inl (threadUnblock_settles ran).2.1)
  | yield =>
      obtain ⟨entry, entered, ran⟩ := except_bind_eq_ok.mp ran
      obtain ⟨kernel, intoKernel, entered⟩ := except_bind_eq_ok.mp entered
      obtain ⟨-, -, entered⟩ := except_bind_eq_ok.mp entered
      obtain ⟨cur, found, entered⟩ := except_bind_eq_ok.mp entered
      cases entered
      obtain ⟨last, running⟩ := schedule_blocks ran
      have queued : SameBlocks kernel
          { kernel with threadReadyList := kernel.threadReadyList ++ [kernel.current] } :=
        SameBlocks.rfl.congr rfl rfl
      exact made ((((enterKernel_blocks intoKernel).trans queued).trans (.put _ found)).trans last)
        (.inr running)
  | start thread prio => exact outside.elim
  | exit threadOver => exact outside.elim
  | setIntr status =>
      cases ran
      exact made (SameBlocks.rfl.congr rfl rfl) (.inl rfl)

end Scheduling

/-! ## The invariant -/

variable {f next : Family} {h h' : History} {t u childThread : TaskId}

/-- Who the parent of a listed task is: nobody, or a listed task that has not finished. -/
def HasParent (f : Family) (h : History) (t : TaskId) : Prop :=
  (f.proc t).parentPid = -1 ∧ h.parent (h.serial t) = none ∨
    ∃ p ∈ f.sched.threadAllList, p ≠ f.sched.mainThread ∧ f.sched.statusOf p ≠ some .hanging ∧
      (f.proc t).parentPid = (f.proc p).pid ∧ h.parent (h.serial t) = some (h.serial p)

/-- A task that is `init`. -/
structure IsInit (f : Family) (h : History) (t : TaskId) : Prop where
  listed : t ∈ f.sched.threadAllList
  notMain : t ≠ f.sched.mainThread
  awake : f.sched.statusOf t ≠ some .hanging
  pid : (f.proc t).pid = 1
  parentPid : (f.proc t).parentPid = -1
  serial : h.serial t = History.init

/-- An entry is about a process that called `sys_exit`, and whose parent was the caller. -/
def Reaped.Faithful (h : History) (entry : Reaped) : Prop :=
  entry.parent = some entry.caller ∧ ∃ process v, entry.process = some process ∧
    entry.pid = h.pid process ∧ h.exited process = some v ∧ entry.status = v.bmod 256

/-- The invariant of the processes with their history. -/
structure Traced (f : Family) (h : History) : Prop extends Numbered f where
  blocks : ∀ t, f.sched.statusOf t ≠ none → t ∈ f.sched.threadAllList ∨ t = f.sched.mainThread
  current : f.sched.statusOf f.current ≠ none
  goesOn : f.sched.statusOf f.current ≠ some .hanging
  users : ∀ t, (f.proc t).inWait = true → t ≠ f.sched.mainThread
  born : ∀ t ∈ f.sched.threadAllList, h.serial t < h.born
  serial : ∀ t ∈ f.sched.threadAllList, ∀ u ∈ f.sched.threadAllList,
    h.serial t = h.serial u → t = u
  pids : ∀ t ∈ f.sched.threadAllList, h.pid (h.serial t) = (f.proc t).pid
  parents : ∀ t ∈ f.sched.threadAllList, HasParent f h t
  init : ∃ t, IsInit f h t
  hanging : ∀ t ∈ f.sched.threadAllList, f.sched.statusOf t = some .hanging →
    ∃ v, h.exited (h.serial t) = some v ∧ (f.proc t).exitStatus = v.bmod 256
  faithful : ∀ entry ∈ h.waits, entry.Faithful h
  gone : ∀ entry ∈ h.waits, ∀ process, entry.process = some process →
    process < h.born ∧ ∀ t ∈ f.sched.threadAllList, h.serial t ≠ process
  once : (h.waits.map Reaped.process).Nodup

/-- The running task is listed, unless it is the main thread. -/
theorem Traced.current_listed (traced : Traced f h) (notMain : f.current ≠ f.sched.mainThread) :
    f.current ∈ f.sched.threadAllList :=
  (traced.blocks _ traced.current).resolve_right notMain

/-- A listed task whose `parent_pid` is the number of a listed task is a child of it. -/
theorem Traced.parent_of_pid (traced : Traced f h) (listed : t ∈ f.sched.threadAllList)
    (caller : u ∈ f.sched.threadAllList) (same : (f.proc t).parentPid = (f.proc u).pid) :
    h.parent (h.serial t) = some (h.serial u) := by
  rcases traced.parents t listed with ⟨none, -⟩ | ⟨p, member, -, -, pid, parent⟩
  · obtain ⟨bitIdx, isBit, -⟩ := traced.taken u caller
    rw [none, isBit, pidStart] at same
    omega
  · rw [parent, traced.distinct p member u caller (pid.symm.trans same)]

/-- A task keeps its numbers, and does not start to hang. -/
structure Keeps (f : Family) (h : History) (next : Family) (h' : History) (t : TaskId) : Prop where
  pid : (next.proc t).pid = (f.proc t).pid
  parentPid : (next.proc t).parentPid = (f.proc t).parentPid
  exitStatus : f.sched.statusOf t = some .hanging →
    (next.proc t).exitStatus = (f.proc t).exitStatus
  hangs : next.sched.statusOf t = some .hanging → f.sched.statusOf t = some .hanging
  serial : h'.serial t = h.serial t

/-- A task whose possible parents stay listed keeps its parent. -/
theorem HasParent.kept (hasParent : HasParent f h t) (keeps : Keeps f h next h' t)
    (same : h'.parent (h.serial t) = h.parent (h.serial t))
    (main : next.sched.mainThread = f.sched.mainThread)
    (parents : ∀ p ∈ f.sched.threadAllList, p ≠ f.sched.mainThread →
      f.sched.statusOf p ≠ some .hanging →
        p ∈ next.sched.threadAllList ∧ Keeps f h next h' p) : HasParent next h' t := by
  rcases hasParent with ⟨none, noParent⟩ | ⟨p, member, notMain, awake, pid, parent⟩
  · exact .inl ⟨keeps.parentPid.trans none, by rw [keeps.serial, same, noParent]⟩
  · obtain ⟨stays, keeps'⟩ := parents p member notMain awake
    refine .inr ⟨p, stays, main ▸ notMain, fun hung => awake (keeps'.hangs hung), ?_, ?_⟩
    · rw [keeps.parentPid, keeps'.pid, pid]
    · rw [keeps.serial, keeps'.serial, same, parent]

theorem IsInit.kept (is : IsInit f h t) (keeps : Keeps f h next h' t)
    (listed : t ∈ next.sched.threadAllList)
    (main : next.sched.mainThread = f.sched.mainThread) : IsInit next h' t where
  listed := listed
  notMain := main ▸ is.notMain
  awake hung := is.awake (keeps.hangs hung)
  pid := keeps.pid.trans is.pid
  parentPid := keeps.parentPid.trans is.parentPid
  serial := keeps.serial.trans is.serial

/-- A task that hangs keeps its status. -/
theorem Keeps.hanging (keeps : Keeps f h next h' t) (traced : Traced f h)
    (listed : t ∈ f.sched.threadAllList)
    (same : h'.exited (h.serial t) = h.exited (h.serial t))
    (hung : next.sched.statusOf t = some .hanging) :
    ∃ v, h'.exited (h'.serial t) = some v ∧ (next.proc t).exitStatus = v.bmod 256 := by
  obtain ⟨v, exited, status⟩ := traced.hanging t listed (keeps.hangs hung)
  refine ⟨v, ?_, (keeps.exitStatus (keeps.hangs hung)).trans status⟩
  rw [keeps.serial, same, exited]

/-- A step that lists the same tasks, keeps their numbers, and lets none of them hang. -/
theorem Traced.congr (traced : Traced f h)
    (all : next.sched.threadAllList = f.sched.threadAllList)
    (blocks : ∀ t, next.sched.statusOf t = none ↔ f.sched.statusOf t = none)
    (main : next.sched.mainThread = f.sched.mainThread)
    (hangs : ∀ u, next.sched.statusOf u = some .hanging → f.sched.statusOf u = some .hanging)
    (current : next.current = f.current ∨ next.sched.statusOf next.current = some .running)
    (bitmap : next.pidBitmap = f.pidBitmap)
    (pid : ∀ u, (next.proc u).pid = (f.proc u).pid)
    (parentPid : ∀ u, (next.proc u).parentPid = (f.proc u).parentPid)
    (exitStatus : ∀ u, f.sched.statusOf u = some .hanging →
      (next.proc u).exitStatus = (f.proc u).exitStatus)
    (users : ∀ t, (next.proc t).inWait = true → t ≠ f.sched.mainThread) : Traced next h where
  toNumbered := traced.toNumbered.congr all bitmap pid
  blocks t present := by
    rw [all, main]
    exact traced.blocks t fun absent => present ((blocks t).mpr absent)
  current := by
    rcases current with same | running
    · rw [same]
      exact fun absent => traced.current ((blocks _).mp absent)
    · rw [running]
      simp
  goesOn := by
    rcases current with same | running
    · rw [same]
      exact fun hung => traced.goesOn (hangs _ hung)
    · rw [running]
      simp
  users t inWait := main ▸ users t inWait
  born t listed := traced.born t (all ▸ listed)
  serial t listed u listed' := traced.serial t (all ▸ listed) u (all ▸ listed')
  pids t listed := (traced.pids t (all ▸ listed)).trans (pid t).symm
  parents t listed := (traced.parents t (all ▸ listed)).kept
    ⟨pid t, parentPid t, exitStatus t, hangs t, rfl⟩ rfl main fun p member _ _ =>
      ⟨all ▸ member, pid p, parentPid p, exitStatus p, hangs p, rfl⟩
  init := traced.init.imp fun t is =>
    is.kept ⟨pid t, parentPid t, exitStatus t, hangs t, rfl⟩ (all ▸ is.listed) main
  hanging t listed hung :=
    Keeps.hanging ⟨pid t, parentPid t, exitStatus t, hangs t, rfl⟩ traced (all ▸ listed) rfl hung
  faithful := traced.faithful
  gone entry member process is := ⟨(traced.gone entry member process is).1, fun t listed =>
    (traced.gone entry member process is).2 t (all ▸ listed)⟩
  once := traced.once

/-- Scheduling outside the three calls keeps the invariant. -/
theorem Traced.switch (traced : Traced f h) {sched : Sched} (switches : Switches f.sched sched) :
    Traced { f with sched := sched } h :=
  traced.congr switches.all switches.blocks switches.main
    (fun u hung => switches.asleep u _ (.inr rfl) hung) switches.current rfl (fun _ => rfl)
    (fun _ => rfl) (fun _ _ => rfl) traced.users

/-- Turning interrupts on or off keeps the invariant. -/
theorem Traced.setIntr (traced : Traced f h) (status : IntrStatus) :
    Traced (f.setIntr status) h :=
  traced.congr rfl (fun _ => Iff.rfl) rfl (fun _ hung => hung) (.inl rfl) rfl (fun _ => rfl)
    (fun _ => rfl) (fun _ _ => rfl) traced.users

/-! ## Tasks that start and end -/

/-- `thread_start` leaves the running task and the main thread. -/
theorem threadStart_keeps {s next : Sched} {prio : Nat} (ran : threadStart s t prio = .ok next) :
    next.current = s.current ∧ next.mainThread = s.mainThread := by
  obtain ⟨-, -, ran⟩ := except_bind_eq_ok.mp ran
  obtain ⟨-, -, ran⟩ := except_bind_eq_ok.mp ran
  cases ran
  exact ⟨rfl, rfl⟩

/-- `sys_fork` lists a child of the running process with a number that was free. -/
theorem sysFork_adds {pid : Int} (ran : sysFork f childThread .enough = .ok (pid, next)) :
    childThread ∉ f.sched.threadAllList ∧
      next.sched.threadAllList = f.sched.threadAllList ++ [childThread] ∧
      next.sched.statusOf childThread = some .ready ∧
      (∀ u, u ≠ childThread → next.sched.statusOf u = f.sched.statusOf u) ∧
      next.sched.current = f.sched.current ∧ next.sched.mainThread = f.sched.mainThread ∧
      next.proc = Function.update f.proc childThread { f.proc f.current with
        pid := pid, parentPid := (f.proc f.current).pid } ∧
      ∃ bitIdx : Nat, pid = bitIdx + pidStart ∧ f.pidBitmap.test bitIdx = false ∧
        next.pidBitmap = f.pidBitmap.set bitIdx true := by
  obtain ⟨parentThread, found, ran⟩ := except_bind_eq_ok.mp ran
  obtain ⟨⟨number, after⟩, numberRan, ran⟩ := except_bind_eq_ok.mp ran
  obtain ⟨bitIdx, rfl, free, rfl⟩ := forkPid_returns numberRan
  obtain ⟨sched, started, ran⟩ := except_bind_eq_ok.mp ran
  obtain ⟨unlisted, all, ready, others⟩ := threadStart_adds started
  obtain ⟨current, main⟩ := threadStart_keeps started
  cases ran
  exact ⟨unlisted, all, ready, others, current, main, rfl, bitIdx, rfl, free, rfl⟩

/-- A task is put on the list, with a new number in the history. -/
structure Joins (f : Family) (h : History) (next : Family) (h' : History) (child : TaskId) :
    Prop where
  member : ∀ u, u ∈ next.sched.threadAllList ↔ u ∈ f.sched.threadAllList ∨ u = child
  main : next.sched.mainThread = f.sched.mainThread
  keeps : ∀ u ∈ f.sched.threadAllList, Keeps f h next h' u
  awake : next.sched.statusOf child ≠ some .hanging
  serial : h'.serial child = h.born
  born : h'.born = h.born + 1
  pid : ∀ n < h.born, h'.pid n = h.pid n
  parent : ∀ n < h.born, h'.parent n = h.parent n
  exited : h'.exited = h.exited

theorem sysFork_joins {pid : Int} (ran : sysFork f childThread .enough = .ok (pid, next)) :
    Joins f h next (h.forked f.current childThread pid) childThread := by
  obtain ⟨unlisted, all, ready, others, -, main, proc, -⟩ := sysFork_adds ran
  have apart : ∀ u ∈ f.sched.threadAllList, u ≠ childThread := by
    rintro u member rfl
    exact unlisted member
  have same : ∀ u ∈ f.sched.threadAllList, next.proc u = f.proc u := by
    intro u member
    rw [proc, Function.update_of_ne (apart u member)]
  exact
    { member := fun u => by rw [all, List.mem_append, List.mem_singleton]
      main := main
      keeps := fun u member =>
        { pid := congrArg Proc.pid (same u member)
          parentPid := congrArg Proc.parentPid (same u member)
          exitStatus := fun _ => congrArg Proc.exitStatus (same u member)
          hangs := fun hung => (others u (apart u member)).symm.trans hung
          serial := Function.update_of_ne (apart u member) _ _ }
      awake := by rw [ready]; simp
      serial := Function.update_self ..
      born := rfl
      pid := fun n less => Function.update_of_ne (Nat.ne_of_lt less) _ _
      parent := fun n less => Function.update_of_ne (Nat.ne_of_lt less) _ _
      exited := rfl }

namespace Joins

/-- The numbers of the listed tasks in the history are different and in use. -/
theorem serials (joins : Joins f h next h' childThread) (traced : Traced f h) :
    (∀ t ∈ next.sched.threadAllList, h'.serial t < h'.born) ∧
      ∀ t ∈ next.sched.threadAllList, ∀ u ∈ next.sched.threadAllList,
        h'.serial t = h'.serial u → t = u := by
  have old : ∀ t ∈ f.sched.threadAllList, h'.serial t = h.serial t ∧ h'.serial t < h.born := by
    intro t member
    rw [(joins.keeps t member).serial]
    exact ⟨rfl, traced.born t member⟩
  have new := joins.serial
  constructor
  · intro t member
    rw [joins.born]
    rcases (joins.member t).mp member with member | rfl
    · exact (old t member).2.trans (Nat.lt_succ_self _)
    · rw [new]
      exact Nat.lt_succ_self _
  · intro t member u member' same
    rcases (joins.member t).mp member with member | rfl <;>
      rcases (joins.member u).mp member' with member' | rfl
    · rw [(old t member).1, (old u member').1] at same
      exact traced.serial t member u member' same
    · have less := (old t member).2
      omega
    · have less := (old u member').2
      omega
    · rfl

/-- The tasks that were listed have the parents that they had. -/
theorem parents (joins : Joins f h next h' childThread) (traced : Traced f h)
    (listed : t ∈ f.sched.threadAllList) : HasParent next h' t :=
  (traced.parents t listed).kept (joins.keeps t listed) (joins.parent _ (traced.born t listed))
    joins.main fun p member _ _ => ⟨(joins.member p).mpr (.inl member), joins.keeps p member⟩

theorem init (joins : Joins f h next h' childThread) (traced : Traced f h) :
    ∃ t, IsInit next h' t :=
  traced.init.imp fun t is =>
    is.kept (joins.keeps t is.listed) ((joins.member t).mpr (.inl is.listed)) joins.main

theorem hanging (joins : Joins f h next h' childThread) (traced : Traced f h)
    (listed : t ∈ next.sched.threadAllList) (hung : next.sched.statusOf t = some .hanging) :
    ∃ v, h'.exited (h'.serial t) = some v ∧ (next.proc t).exitStatus = v.bmod 256 := by
  rcases (joins.member t).mp listed with listed | rfl
  · exact (joins.keeps t listed).hanging traced listed (congrFun joins.exited _) hung
  · exact absurd hung joins.awake

/-- The entries of the history stay what they are. -/
theorem entries (joins : Joins f h next h' childThread) (traced : Traced f h)
    (waits : h'.waits = h.waits) :
    (∀ entry ∈ h'.waits, entry.Faithful h') ∧
      ∀ entry ∈ h'.waits, ∀ process, entry.process = some process →
        process < h'.born ∧ ∀ t ∈ next.sched.threadAllList, h'.serial t ≠ process := by
  rw [waits, joins.born]
  constructor
  · intro entry member
    obtain ⟨parent, process, v, is, pid, exited, status⟩ := traced.faithful entry member
    refine ⟨parent, process, v, is, ?_, ?_, status⟩
    · rw [pid, joins.pid _ (traced.gone entry member process is).1]
    · rw [joins.exited, exited]
  · intro entry member process is
    obtain ⟨less, gone⟩ := traced.gone entry member process is
    refine ⟨less.trans (Nat.lt_succ_self _), fun t listed => ?_⟩
    rcases (joins.member t).mp listed with listed | rfl
    · rw [(joins.keeps t listed).serial]
      exact gone t listed
    · rw [joins.serial]
      omega

end Joins

/-- `sys_fork` by a process that is no kernel thread. -/
theorem Traced.fork (traced : Traced f h) {pid : Int} (notMain : f.current ≠ f.sched.mainThread)
    (returned : (f.proc f.current).inWait = false)
    (ran : sysFork f childThread .enough = .ok (pid, next)) :
    Traced next (h.forked f.current childThread pid) := by
  have joins : Joins f h next (h.forked f.current childThread pid) childThread := sysFork_joins ran
  obtain ⟨unlisted, all, -, others, current, main, proc, bitIdx, isBit, free, bitmap⟩ :=
    sysFork_adds ran
  have listed := traced.current_listed notMain
  have procOld : ∀ u, u ≠ childThread → next.proc u = f.proc u := by
    intro u apart
    rw [proc, Function.update_of_ne apart]
  have procNew : next.proc childThread = { f.proc f.current with
      pid := pid, parentPid := (f.proc f.current).pid } := by
    rw [proc, Function.update_self]
  have sameCurrent : next.current = f.current := current
  have status : next.sched.statusOf f.current = f.sched.statusOf f.current :=
    others _ fun same => unlisted (same ▸ listed)
  obtain ⟨faithful, gone⟩ := joins.entries traced rfl
  refine
    { toNumbered := traced.toNumbered.start unlisted free all procOld
        (by rw [procNew]; exact isBit) bitmap
      blocks := ?blocks
      current := by rw [sameCurrent, status]; exact traced.current
      goesOn := by rw [sameCurrent, status]; exact traced.goesOn
      users := ?users
      born := (joins.serials traced).1
      serial := (joins.serials traced).2
      pids := ?pids
      parents := ?parents
      init := joins.init traced
      hanging := fun t member => joins.hanging traced member
      faithful := faithful
      gone := gone
      once := traced.once }
  case blocks =>
      intro u present
      rw [joins.member, main]
      by_cases same : u = childThread
      · exact .inl (.inr same)
      · rw [others u same] at present
        exact (traced.blocks u present).imp_left .inl
  case users =>
      intro u inWait
      rw [main]
      by_cases same : u = childThread
      · rw [same, procNew] at inWait
        simp [returned] at inWait
      · rw [procOld u same] at inWait
        exact traced.users u inWait
  case pids =>
      intro u member
      rcases (joins.member u).mp member with member | rfl
      · rw [(joins.keeps u member).serial, (joins.keeps u member).pid,
          joins.pid _ (traced.born u member)]
        exact traced.pids u member
      · rw [joins.serial, procNew]
        exact Function.update_self ..
  case parents =>
      intro u member
      rcases (joins.member u).mp member with member | rfl
      · exact joins.parents traced member
      · refine .inr ⟨f.current, (joins.member _).mpr (.inl listed), main ▸ notMain, ?_, ?_, ?_⟩
        · rw [status]
          exact traced.goesOn
        · rw [procNew, (joins.keeps _ listed).pid]
        · rw [joins.serial, (joins.keeps _ listed).serial]
          exact Function.update_self ..

/-- `thread_exit` keeps no control block, but for the main thread. -/
theorem threadExit_ends {s next : Sched} (ran : threadExit s t = .ok next) :
    next.current = s.current ∧ next.mainThread = s.mainThread ∧
      next.statusOf t = if t = s.mainThread then some .died else none := by
  obtain ⟨task, found, ran⟩ := except_bind_eq_ok.mp ran
  have ends : ∀ mid : Sched, mid.current = s.current → mid.mainThread = s.mainThread →
      mid.statusOf t = some .died →
      (if t ≠ mid.mainThread then
        pure { mid with
          threadAllList := mid.threadAllList.erase t, task := Function.update mid.task t none }
      else pure { mid with threadAllList := mid.threadAllList.erase t } : Except Fault Sched) =
        .ok next → next.current = s.current ∧ next.mainThread = s.mainThread ∧
          next.statusOf t = if t = s.mainThread then some .died else none := by
    intro mid current main died ran
    by_cases isMain : t = mid.mainThread
    · rw [if_neg (not_not.mpr isMain)] at ran
      cases ran
      rw [if_pos (isMain.trans main)]
      exact ⟨current, main, died⟩
    · rw [if_pos isMain] at ran
      cases ran
      rw [if_neg (main ▸ isMain)]
      exact ⟨current, main, by simp [Sched.statusOf]⟩
  have died : (s.put t { task with status := .died }).statusOf t = some .died := by
    rw [statusOf_put, if_pos rfl]
  by_cases member : t ∈ s.threadReadyList
  · exact ends { s.put t { task with status := .died } with
      threadReadyList := s.threadReadyList.erase t, intr := .off } rfl rfl died
      (by simpa [Sched.put, member] using ran)
  · exact ends { s.put t { task with status := .died } with intr := .off } rfl rfl died
      (by simpa [Sched.put, member] using ran)

/-- A task that hangs, or the main thread, is taken off the list: nobody has it as its parent. -/
theorem Traced.exitTask (traced : Traced f h) (listed : t ∈ f.sched.threadAllList)
    (ended : f.sched.statusOf t = some .hanging ∨ t = f.sched.mainThread)
    (ran : exitTask f t = .ok next) :
    Traced next h ∧ ∀ u ∈ next.sched.threadAllList, h.serial u ≠ h.serial t := by
  obtain ⟨all, proc, others, bitmap⟩ := exitTask_leaves ran
  obtain ⟨current, main, own⟩ : next.sched.current = f.sched.current ∧
      next.sched.mainThread = f.sched.mainThread ∧
      next.sched.statusOf t = if t = f.sched.mainThread then some .died else none := by
    obtain ⟨sched, exited, ran⟩ := except_bind_eq_ok.mp ran
    cases ran
    exact threadExit_ends exited
  have member : ∀ u, u ∈ next.sched.threadAllList ↔ u ∈ f.sched.threadAllList ∧ u ≠ t := by
    intro u
    rw [all, traced.all_nodup.mem_erase_iff]
    exact and_comm
  have sameCurrent : next.current = f.current := current
  have notHung : ∀ u, next.sched.statusOf u = some .hanging →
      f.sched.statusOf u = some .hanging := by
    intro u hung
    by_cases same : u = t
    · rw [same, own] at hung
      split at hung <;> cases hung
    · rwa [others u same] at hung
  have keeps : ∀ u, Keeps f h next h u := fun u =>
    { pid := by rw [proc]
      parentPid := by rw [proc]
      exitStatus := fun _ => by rw [proc]
      hangs := notHung u
      serial := rfl }
  have stays : ∀ u ∈ f.sched.threadAllList, u ≠ f.sched.mainThread →
      f.sched.statusOf u ≠ some .hanging → u ∈ next.sched.threadAllList := by
    intro u listed' notMain awake
    refine (member u).mpr ⟨listed', ?_⟩
    rintro rfl
    exact ended.elim awake notMain
  have apart : ∀ u ∈ next.sched.threadAllList, h.serial u ≠ h.serial t := by
    intro u listed' same
    obtain ⟨old, distinct⟩ := (member u).mp listed'
    exact distinct (traced.serial u old t listed same)
  refine ⟨
    { toNumbered := exitTask_numbered traced.toNumbered listed ran
      blocks := ?blocks
      current := ?current
      goesOn := ?goesOn
      users := by rw [proc, main]; exact traced.users
      born := fun u listed' => traced.born u ((member u).mp listed').1
      serial := fun u listed' v listed'' =>
        traced.serial u ((member u).mp listed').1 v ((member v).mp listed'').1
      pids := fun u listed' => by rw [proc]; exact traced.pids u ((member u).mp listed').1
      parents := ?parents
      init := ?init
      hanging := ?hanging
      faithful := traced.faithful
      gone := ?gone
      once := traced.once }, apart⟩
  case blocks =>
      intro u present
      rw [main]
      by_cases same : u = t
      · rw [same, own] at present
        rw [same]
        by_contra neither
        rw [if_neg fun isMain => neither (.inr isMain)] at present
        exact present rfl
      · rw [others u same] at present
        exact (traced.blocks u present).imp_left fun old => (member u).mpr ⟨old, same⟩
  case current =>
      rw [sameCurrent]
      by_cases same : f.current = t
      · have isMain : t = f.sched.mainThread :=
          ended.resolve_left fun hung => traced.goesOn (same ▸ hung)
        rw [same, own, if_pos isMain]
        simp
      · rw [others _ same]
        exact traced.current
  case goesOn =>
      rw [sameCurrent]
      exact fun hung => traced.goesOn (notHung _ hung)
  case parents =>
      intro u listed'
      exact (traced.parents u ((member u).mp listed').1).kept (keeps u) rfl main
        fun p old notMain awake => ⟨stays p old notMain awake, keeps p⟩
  case init =>
      exact traced.init.imp fun i is =>
        is.kept (keeps i) (stays i is.listed is.notMain is.awake) main
  case hanging =>
      intro u listed' hung
      exact (keeps u).hanging traced ((member u).mp listed').1 rfl hung
  case gone =>
      intro entry listed' process is
      obtain ⟨less, unlisted⟩ := traced.gone entry listed' process is
      exact ⟨less, fun u listed'' => unlisted u ((member u).mp listed'').1⟩

/-! ## The calls -/

/-- A listed task is the one that `pid2thread` finds for its number. -/
theorem Numbered.pid2thread_eq (numbered : Numbered f) (listed : t ∈ f.sched.threadAllList) :
    UKernel.Process.pid2thread f (f.proc t).pid = some t := by
  cases found : UKernel.Process.pid2thread f (f.proc t).pid with
  | none =>
      have passed := List.find?_eq_none.mp found t listed
      simp at passed
  | some u => rw [numbered.pid2thread found listed]

/-- What a round of `sys_wait` does. -/
theorem sysWait_cases {result : WaitResult} (ran : sysWait f = .ok (result, next)) :
    (∃ child ∈ f.sched.threadAllList, f.sched.statusOf child = some .hanging ∧
      (f.proc child).parentPid = (f.proc f.current).pid ∧
      result = .child (f.proc child).pid (f.proc child).exitStatus ∧
      exitTask f child = .ok next) ∨
    result = .noChild ∧ next = f ∨
    result = .asleep ∧ ∃ sched, threadBlock f.sched .waiting = .ok sched ∧
      next = { f with sched := sched }.setProc f.current
        { f.proc f.current with inWait := true } := by
  unfold sysWait at ran
  dsimp only at ran
  cases hanging : f.sched.threadAllList.find? (findHangingChild f (f.proc f.current).pid) with
  | some childThread =>
      rw [hanging] at ran
      obtain ⟨after, exited, ran⟩ := except_bind_eq_ok.mp ran
      cases ran
      obtain ⟨parent, hung⟩ : (f.proc childThread).parentPid = (f.proc f.current).pid ∧
          f.sched.statusOf childThread = some .hanging := by
        simpa [findHangingChild] using List.find?_some hanging
      exact .inl ⟨childThread, List.mem_of_find?_eq_some hanging, hung, parent, rfl, exited⟩
  | none =>
      rw [hanging] at ran
      cases child : f.sched.threadAllList.find? (findChild f (f.proc f.current).pid) with
      | none =>
          simp only [child] at ran
          cases ran
          exact .inr (.inl ⟨rfl, rfl⟩)
      | some childThread =>
          simp only [child] at ran
          obtain ⟨sched, blocked, ran⟩ := except_bind_eq_ok.mp ran
          cases ran
          exact .inr (.inr ⟨rfl, sched, blocked, rfl⟩)

/-- A process that is no kernel thread enters or leaves `sys_wait`. -/
theorem Traced.mark (traced : Traced f h) (t : TaskId) (inWait : Bool)
    (allowed : inWait = true → t ≠ f.sched.mainThread) :
    Traced (f.setProc t { f.proc t with inWait := inWait }) h := by
  refine traced.congr rfl (fun _ => Iff.rfl) rfl (fun _ hung => hung) (.inl rfl) rfl
    (Family.setProc_field Proc.pid rfl) (Family.setProc_field Proc.parentPid rfl)
    (fun u _ => Family.setProc_field Proc.exitStatus (by rfl) u) fun u waits => ?_
  rw [Family.proc_setProc] at waits
  split_ifs at waits with same
  · exact same ▸ allowed waits
  · exact traced.users u waits

/-- A round of `sys_wait` returns a child that called `sys_exit`, once. -/
theorem Traced.waitRound (traced : Traced f h) (notMain : f.current ≠ f.sched.mainThread)
    (ran : waitRound f = .ok next) : Traced next (recordWait f h) := by
  obtain ⟨⟨result, after⟩, round, ran⟩ := except_bind_eq_ok.mp ran
  have caller := traced.current_listed notMain
  rcases sysWait_cases round with
    ⟨child, listed, hung, parentPid, rfl, exited⟩ | ⟨rfl, same⟩ | ⟨rfl, sched, blocked, rfl⟩
  · obtain ⟨left, gone⟩ := traced.exitTask listed (.inl hung) exited
    have recorded : recordWait f h = h.reaped f.current (some child) (f.proc child).pid
        (f.proc child).exitStatus := by
      rw [recordWait, round]
      dsimp only
      rw [traced.toNumbered.pid2thread_eq listed]
    simp only [reduceCtorEq, if_false] at ran
    cases ran
    rw [recorded]
    refine (Traced.mark ?_ f.current false (by simp)).setIntr .on
    obtain ⟨v, exitedWith, status⟩ := traced.hanging child listed hung
    exact
      { left with
        init := left.init.imp fun _ is => ⟨is.listed, is.notMain, is.awake, is.pid, is.parentPid,
          is.serial⟩
        faithful := by
          intro entry member
          rcases List.mem_append.mp member with member | new
          · exact left.faithful entry member
          · rw [List.mem_singleton.mp new]
            exact ⟨traced.parent_of_pid listed caller parentPid, h.serial child, v, rfl,
              (traced.pids child listed).symm, exitedWith, status⟩
        gone := by
          intro entry member process is
          rcases List.mem_append.mp member with member | new
          · exact left.gone entry member process is
          · rw [List.mem_singleton.mp new] at is
            cases is
            exact ⟨traced.born child listed, gone⟩
        once := by
          change ((h.waits ++ [_]).map Reaped.process).Nodup
          rw [List.map_append, List.nodup_append]
          refine ⟨traced.once, List.nodup_singleton _, ?_⟩
          intro process member other new
          obtain ⟨entry, earlier, rfl⟩ := List.mem_map.mp member
          rw [List.mem_singleton.mp new]
          exact fun same => (traced.gone entry earlier _ same).2 child listed rfl }
  · have recorded : recordWait f h = h := by rw [recordWait, round]
    simp only [reduceCtorEq, if_false, same] at ran
    cases ran
    rw [recorded]
    exact (traced.mark f.current false (by simp)).setIntr .on
  · have recorded : recordWait f h = h := by rw [recordWait, round]
    simp only [if_true] at ran
    cases ran
    rw [recorded]
    obtain ⟨all, asleep⟩ := threadBlock_suspends blocked
    obtain ⟨blocks, running⟩ := threadBlock_blocks blocked
    have sleeps : Traced { f with sched := sched } h := by
      refine traced.congr all blocks.blocks blocks.main ?_ (.inr running) rfl (fun _ => rfl)
        (fun _ => rfl) (fun _ _ => rfl) traced.users
      intro u hangs
      rcases asleep u _ (.inr rfl) hangs with before | ⟨-, wrong⟩
      · exact before
      · cases wrong
    exact sleeps.mark f.current true fun _ => blocks.main ▸ notMain

/-- What `sys_exit` does to the processes: the status is stored, and `init` adopts. -/
structure Exits (f next : Family) (status : Int) : Prop where
  all : next.sched.threadAllList = f.sched.threadAllList
  blocks : SameBlocks f.sched next.sched
  hangs : ∀ u, next.sched.statusOf u = some .hanging →
    f.sched.statusOf u = some .hanging ∨ u = f.current
  running : next.sched.statusOf next.current = some .running
  bitmap : next.pidBitmap = f.pidBitmap
  hasParent : (f.proc f.current).parentPid ≠ -1
  pid : ∀ u, (next.proc u).pid = (f.proc u).pid
  parentPid : ∀ u ∈ f.sched.threadAllList, (next.proc u).parentPid =
    if (f.proc u).parentPid = (f.proc f.current).pid then 1 else (f.proc u).parentPid
  exitStatus : ∀ u, (next.proc u).exitStatus =
    if u = f.current then status.bmod 256 else (f.proc u).exitStatus
  inWait : ∀ u, (next.proc u).inWait = (f.proc u).inWait

theorem sysExit_exits {status : Int} (ran : sysExit f status = .ok next) :
    Exits f next status := by
  obtain ⟨woken, entered, ran⟩ := except_bind_eq_ok.mp ran
  obtain ⟨sched, blocked, ran⟩ := except_bind_eq_ok.mp ran
  cases ran
  obtain ⟨_, parent, entered⟩ := except_bind_eq_ok.mp entered
  have hasParent : (f.proc f.current).parentPid ≠ -1 := require_eq_ok.mp parent
  have wakes : ∃ sched, woken = { initAdoptChildren (f.setProc f.current
      { f.proc f.current with exitStatus := status.bmod 256 }) (f.proc f.current).pid with
        sched := sched } ∧ Settles f.sched sched ∧ SameBlocks f.sched sched ∧
        sched.current = f.current := by
    unfold wakeParent at entered
    split at entered
    · cases entered
    · obtain ⟨parent, -, entered⟩ := except_bind_eq_ok.mp entered
      split at entered
      · obtain ⟨sched, woken, entered⟩ := except_bind_eq_ok.mp entered
        cases entered
        obtain ⟨settles, sameCurrent, -⟩ := threadUnblock_settles woken
        exact ⟨sched, rfl, settles, threadUnblock_blocks woken, sameCurrent⟩
      · cases entered
        exact ⟨f.sched, rfl, .rfl, .rfl, rfl⟩
  obtain ⟨awake, rfl, settles, blocks, current⟩ := wakes
  obtain ⟨all, asleep⟩ := threadBlock_suspends blocked
  obtain ⟨blocks', running⟩ := threadBlock_blocks blocked
  have stored : ∀ u, (f.setProc f.current
      { f.proc f.current with exitStatus := status.bmod 256 }).proc u =
        { f.proc u with exitStatus :=
          if u = f.current then status.bmod 256 else (f.proc u).exitStatus } := by
    intro u
    rw [Family.proc_setProc]
    split
    case isTrue same => rw [same]
    case isFalse => rfl
  have procs : ∀ u, (initAdoptChildren (f.setProc f.current
      { f.proc f.current with exitStatus := status.bmod 256 }) (f.proc f.current).pid).proc u =
        { f.proc u with
          exitStatus := if u = f.current then status.bmod 256 else (f.proc u).exitStatus
          parentPid := if u ∈ f.sched.threadAllList ∧
            (f.proc u).parentPid = (f.proc f.current).pid then 1 else (f.proc u).parentPid } := by
    intro u
    dsimp only [initAdoptChildren]
    rw [stored]
    by_cases adopted : u ∈ f.sched.threadAllList ∧ (f.proc u).parentPid = (f.proc f.current).pid
    · rw [if_pos (by exact adopted), if_pos adopted]
    · rw [if_neg (by exact adopted), if_neg adopted]
  exact
    { all := all.trans settles.all
      blocks := blocks.trans blocks'
      hangs := by
        intro u hung
        rcases asleep u _ (.inr rfl) hung with before | ⟨same, -⟩
        · exact .inl (settles.asleep u _ (.inr rfl) before)
        · exact .inr (same.trans current)
      running := running
      bitmap := rfl
      hasParent := hasParent
      pid := fun u => (congrArg Proc.pid (procs u)).trans rfl
      parentPid := by
        intro u listed
        refine (congrArg Proc.parentPid (procs u)).trans ?_
        dsimp only
        simp only [listed, true_and]
      exitStatus := fun u => (congrArg Proc.exitStatus (procs u)).trans rfl
      inWait := fun u => (congrArg Proc.inWait (procs u)).trans rfl }

/-- `sys_exit` gives the children to `init`, and leaves a process that hangs. -/
theorem Traced.exit (traced : Traced f h) {status : Int}
    (notMain : f.current ≠ f.sched.mainThread) (ran : sysExit f status = .ok next) :
    Traced next (h.exits f.current status) := by
  have exits := sysExit_exits ran
  have listed := traced.current_listed notMain
  obtain ⟨i, is⟩ := traced.init
  have initApart : i ≠ f.current := by
    rintro rfl
    exact exits.hasParent is.parentPid
  have awake : ∀ u, u ≠ f.current → f.sched.statusOf u ≠ some .hanging →
      next.sched.statusOf u ≠ some .hanging := by
    intro u apart before hung
    exact (exits.hangs u hung).elim before apart
  have noNumber : ∀ u ∈ f.sched.threadAllList, (f.proc u).pid ≠ -1 := by
    intro u member negative
    obtain ⟨bitIdx, isBit, -⟩ := traced.taken u member
    rw [isBit, pidStart] at negative
    omega
  have others : ∀ n, n ≠ h.serial f.current →
      (h.exits f.current status).exited n = h.exited n :=
    fun n apart => Function.update_of_ne apart _ _
  have all := exits.all
  have goneApart : ∀ entry ∈ h.waits, ∀ process, entry.process = some process →
      process ≠ h.serial f.current :=
    fun entry member process is same =>
      (traced.gone entry member process is).2 f.current listed same.symm
  refine
    { toNumbered := traced.toNumbered.congr all exits.bitmap exits.pid
      blocks := ?blocks
      current := by rw [exits.running]; simp
      goesOn := by rw [exits.running]; simp
      users := fun t inWait => exits.blocks.main ▸ traced.users t (exits.inWait t ▸ inWait)
      born := fun t member => traced.born t (all ▸ member)
      serial := fun t member u member' => traced.serial t (all ▸ member) u (all ▸ member')
      pids := fun t member => (traced.pids t (all ▸ member)).trans (exits.pid t).symm
      parents := ?parents
      init := ?init
      hanging := ?hanging
      faithful := ?faithful
      gone := fun entry member process is => ⟨(traced.gone entry member process is).1,
        fun t member' => (traced.gone entry member process is).2 t (all ▸ member')⟩
      once := traced.once }
  case blocks =>
      intro t present
      rw [all, exits.blocks.main]
      exact traced.blocks t fun absent => present ((exits.blocks.blocks t).mpr absent)
  case parents =>
      intro t member
      rw [all] at member
      rw [HasParent, exits.parentPid t member]
      by_cases adopted : (f.proc t).parentPid = (f.proc f.current).pid
      · have parent := traced.parent_of_pid member listed adopted
        refine .inr ⟨i, all ▸ is.listed, exits.blocks.main ▸ is.notMain,
          awake i initApart is.awake, ?_, ?_⟩
        · rw [if_pos adopted, exits.pid, is.pid]
        · rw [History.exits_parent, History.exits_serial, if_pos parent, is.serial]
      · rw [if_neg adopted]
        rcases traced.parents t member with ⟨none, noParent⟩ | ⟨p, old, notMain', awake', pid,
          parent⟩
        · refine .inl ⟨none, ?_⟩
          rw [History.exits_parent, History.exits_serial, noParent]
          exact if_neg (Option.some_ne_none _).symm
        · have apart : p ≠ f.current := by
            rintro rfl
            exact adopted pid
          refine .inr ⟨p, all ▸ old, exits.blocks.main ▸ notMain', awake p apart awake', ?_, ?_⟩
          · rw [exits.pid, pid]
          · rw [History.exits_parent, History.exits_serial, parent, if_neg]
            exact fun same => apart (traced.serial p old _ listed (Option.some.inj same))
  case init =>
      refine ⟨i, all ▸ is.listed, exits.blocks.main ▸ is.notMain, awake i initApart is.awake,
        (exits.pid i).trans is.pid, ?_, is.serial⟩
      rw [exits.parentPid i is.listed, if_neg, is.parentPid]
      rw [is.parentPid]
      exact fun same => noNumber _ listed same.symm
  case hanging =>
      intro t member hung
      rw [all] at member
      rw [exits.exitStatus]
      by_cases same : t = f.current
      · rw [if_pos same, same]
        exact ⟨status, Function.update_self .., rfl⟩
      · rw [if_neg same, History.exits_serial,
          others _ fun equal => same (traced.serial t member _ listed equal)]
        exact traced.hanging t member ((exits.hangs t hung).resolve_right same)
  case faithful =>
      intro entry member
      obtain ⟨parent, process, v, is, pid, exited, stored⟩ := traced.faithful entry member
      exact ⟨parent, process, v, is, pid,
        by rw [others _ (goneApart entry member process is), exited], stored⟩

/-- **One step.** Every operation keeps the invariant. -/
theorem record_traced (traced : Traced f h) {op : FamilyOp} (enabled : FamilyEnabled f op)
    (ran : familyExec f op = .ok next) : Traced next (record f h op) := by
  cases op with
  | sched op =>
      obtain ⟨sched, scheduled, ran⟩ := except_bind_eq_ok.mp ran
      cases ran
      exact traced.switch (outside_switches enabled.2.1 scheduled)
  | mainExit =>
      obtain ⟨after, exited, ran⟩ := except_bind_eq_ok.mp ran
      obtain ⟨sched, scheduled, ran⟩ := except_bind_eq_ok.mp ran
      cases ran
      obtain ⟨blocks, running⟩ := schedule_blocks scheduled
      refine (traced.exitTask enabled.2 (.inr enabled.1) exited).1.switch ?_
      exact { toSettles := schedule_settles scheduled, toSameBlocks := blocks,
              current := .inr running }
  | fork childThread pages =>
      obtain ⟨⟨pid, after⟩, forked, ran⟩ := except_bind_eq_ok.mp ran
      cases ran
      cases pages with
      | noPages =>
          cases forked
          exact (traced.setIntr .off).setIntr .on
      | noBitmap =>
          obtain ⟨⟨number, after⟩, numberRan, forked⟩ := except_bind_eq_ok.mp forked
          obtain ⟨bitIdx, -, -, rfl⟩ := forkPid_returns numberRan
          cases forked
          refine Traced.setIntr ?_ .on
          have before := traced.setIntr .off
          exact { before with
            toNumbered := before.toNumbered.take bitIdx
            init := before.init.imp fun _ is => ⟨is.listed, is.notMain, is.awake, is.pid,
              is.parentPid, is.serial⟩ }
      | enough =>
          rw [record, forked]
          exact ((traced.setIntr .off).fork enabled.1.1 enabled.1.2.2.2 forked).setIntr .on
  | exit status => exact (traced.setIntr .off).exit enabled.1 ran
  | wait => exact (traced.setIntr .off).waitRound enabled.1 ran
  | waitAgain => exact traced.waitRound (traced.users _ enabled) ran

/-- The processes that `thread_init` makes have a history in which nothing happened. -/
theorem bootedFamily_traced {main init idle : TaskId} (distinct : [main, init, idle].Nodup) :
    Traced (bootedFamily main init idle) (bootedHistory main init) := by
  have numbered := (bootedFamily_watched distinct).toNumbered
  simp only [List.nodup_cons, List.mem_cons, List.not_mem_nil, or_false, not_or,
    not_false_eq_true, List.nodup_nil, and_true] at distinct
  obtain ⟨⟨mainInit, mainIdle⟩, initIdle⟩ := distinct
  have status : ∀ t, (bootedFamily main init idle).sched.statusOf t =
      if t = main then some .running else if t = init ∨ t = idle then some .ready else none := by
    intro t
    simp only [Sched.statusOf, bootedFamily, Thread.booted]
    split_ifs <;> simp_all
  have notHung : ∀ t, (bootedFamily main init idle).sched.statusOf t ≠ some .hanging := by
    intro t
    rw [status]
    split_ifs <;> simp
  have listed : ∀ t, t ∈ (bootedFamily main init idle).sched.threadAllList ↔
      t = init ∨ t = main ∨ t = idle := by
    intro t
    simp [bootedFamily, Thread.booted]
  have serial : ∀ t, (bootedHistory main init).serial t =
      if t = init then 0 else if t = main then 1 else 2 := fun _ => rfl
  have pidOf : ∀ t, ((bootedFamily main init idle).proc t).pid =
      if t = init then 1 else if t = main then 2 else 3 := fun _ => rfl
  refine
    { toNumbered := numbered
      blocks := ?blocks
      current := ?current
      goesOn := notHung _
      users := fun _ inWait => by cases inWait
      born := ?born
      serial := ?serial
      pids := ?pids
      parents := fun _ _ => .inl ⟨rfl, rfl⟩
      init := ⟨init, (listed init).mpr (.inl rfl), ?notMain, notHung init, ?pid, rfl, ?zero⟩
      hanging := fun t _ hung => absurd hung (notHung t)
      faithful := by simp [bootedHistory]
      gone := by simp [bootedHistory]
      once := by simp [bootedHistory] }
  case blocks =>
      intro t present
      rw [status] at present
      rw [listed]
      split_ifs at present with isMain isOther
      · exact .inl (.inr (.inl isMain))
      · exact .inl (isOther.imp_right .inr)
      · exact absurd rfl present
  case current =>
      change (bootedFamily main init idle).sched.statusOf main ≠ none
      rw [status, if_pos rfl]
      simp
  case born =>
      intro t _
      rw [serial]
      change _ < 3
      split_ifs <;> omega
  case serial =>
      intro t member u member' same
      rw [listed] at member member'
      rw [serial, serial] at same
      split_ifs at same <;> simp_all
  case pids =>
      intro t _
      rw [serial, pidOf]
      change ((_ : Nat) : Int) + 1 = _
      split_ifs <;> rfl
  case notMain => exact fun same => mainInit same.symm
  case pid => rw [pidOf, if_pos rfl]
  case zero => rw [serial, if_pos rfl]; rfl

/-- **The run lemma.** -/
theorem reachable_traced (reachable : recorded.Reachable (f, h)) : Traced f h := by
  refine reachable.invariant (fun state => Traced state.1 state.2) ?_ ?_
  · rintro _ ⟨main, init, idle, distinct, rfl⟩
    exact bootedFamily_traced distinct
  · rintro ⟨before, history⟩ op ⟨after, _⟩ - traced ⟨⟨enabled, ran⟩, rfl⟩
    exact record_traced traced enabled ran

/-- **Every exit is returned once.** In every state reached by forks, exits and waits in any order
the listed tasks have different numbers; every `sys_wait` that returned a number and a status
returned those of a process that had called `sys_exit` and whose parent was the caller; and no two
of them returned the same process. -/
theorem waits_return_exits (reachable : recorded.Reachable (f, h)) :
    (f.sched.threadAllList.map fun t => (f.proc t).pid).Nodup ∧
      (∀ entry ∈ h.waits, entry.Faithful h) ∧ (h.waits.map Reaped.process).Nodup := by
  have traced := reachable_traced reachable
  refine ⟨?_, traced.faithful, traced.once⟩
  exact (List.nodup_map_iff_inj_on traced.all_nodup).mpr traced.distinct

/-- Take a step of the processes and record it. -/
def recordStep (state : Family × History) (op : FamilyOp) : Option (Family × History) :=
  (familyStep state.1 op).map fun next => (next, record state.1 state.2 op)

theorem recordStep_sound (state : Family × History) (op : FamilyOp) (next : Family × History)
    (stepped : recordStep state op = some next) : recorded.step state op next := by
  obtain ⟨after, ran, rfl⟩ := Option.map_eq_some_iff.mp stepped
  exact ⟨familyStep_sound ran, rfl⟩

/-- `init` forks twice and waits; the first child exits with 300, and a later child takes its
number and its page and exits with -1. -/
theorem waits_return_two : ∃ f h, recorded.Reachable (f, h) ∧
    h.waits = [⟨0, some 3, some 0, 4, 44⟩, ⟨0, some 4, some 0, 4, -1⟩] ∧
    (f.sched.threadAllList.map fun t => (f.proc t).pid).Nodup ∧
      (∀ entry ∈ h.waits, entry.Faithful h) ∧ (h.waits.map Reaped.process).Nodup := by
  have ran : (TransitionSystem.run recordStep (bootedFamily 1 2 3, bootedHistory 1 2)
      [.sched (.block .blocked), .fork 10 .enough, .wait, .sched (.block .blocked), .exit 300,
        .waitAgain, .fork 10 .enough, .wait, .exit (-1), .waitAgain]).any
          (fun state => state.2.waits =
            [⟨0, some 3, some 0, 4, 44⟩, ⟨0, some 4, some 0, 4, -1⟩]) = true := by
    decide +kernel
  obtain ⟨⟨f, h⟩, ran, waits⟩ := (Option.any_eq_true _ _).mp ran
  have start : recorded.Reachable (bootedFamily 1 2 3, bootedHistory 1 2) :=
    .initial ⟨1, 2, 3, by decide, rfl⟩
  have reachable := start.run recordStep_sound ran
  exact ⟨f, h, reachable, of_decide_eq_true waits, waits_return_exits reachable⟩

end UKernel.Process
