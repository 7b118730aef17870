import UKernel.Fs.Bitmap
import UKernel.Thread.Scheduler

/-! # Processes that fork, exit and wait

`sys_fork`, `sys_exit` and `sys_wait` over the scheduler of `thread.c`
(`UKernel.Process.family`). A system call runs with interrupts off, so it is one step up to
the point where it blocks; a process that sleeps in `sys_wait` goes on, when the scheduler
switches back to it, with the next round of the loop. What the three calls do to frames,
page tables and descriptors does not show in this state.
-/

namespace UKernel.Process

open UKernel.Library UKernel.Thread UKernel.Fs

/-- The fields of `struct task_struct` that tie a process to its relatives. `inWait` marks a
process whose `sys_wait` has not returned yet. -/
structure Proc where
  pid : Int
  parentPid : Int
  exitStatus : Int
  inWait : Bool
  deriving DecidableEq, Repr

/-- The scheduler's state, the processes, and `pid_pool`. -/
structure Family where
  sched : Sched
  proc : TaskId → Proc
  pidBitmap : Bitmap 128

namespace Family

/-- What `running_thread` returns. -/
def current (f : Family) : TaskId :=
  f.sched.current

/-- Rewrite the fields of one process. -/
def setProc (f : Family) (t : TaskId) (proc : Proc) : Family :=
  { f with proc := Function.update f.proc t proc }

theorem proc_setProc {f : Family} {t u : TaskId} {proc : Proc} :
    (f.setProc t proc).proc u = if u = t then proc else f.proc u :=
  Function.update_apply f.proc t proc u

/-- An update of a process that keeps a field keeps it for all. -/
theorem setProc_field {β : Type} {f : Family} {t : TaskId} {proc : Proc} (field : Proc → β)
    (same : field proc = field (f.proc t)) (u : TaskId) :
    field ((f.setProc t proc).proc u) = field (f.proc u) := by
  rw [proc_setProc]
  split_ifs with here
  · rw [here, same]
  · rfl

/-- Turn interrupts on or off. -/
def setIntr (f : Family) (status : IntrStatus) : Family :=
  { f with sched := { f.sched with intr := status } }

end Family

/-! ## Process numbers -/

/-- `pid_pool.pid_start`. -/
def pidStart : Nat := 1

/-- `allocate_pid`. When all numbers are taken the index `-1` is out of bounds. -/
def allocatePid (f : Family) : Except Fault (Int × Family) := do
  match ← f.pidBitmap.scan 1 with
  | none => throw .outOfBounds
  | some bitIdx => pure (bitIdx + pidStart, { f with pidBitmap := f.pidBitmap.set bitIdx true })

/-- `release_pid`. -/
def releasePid (f : Family) (pid : Int) : Family :=
  { f with pidBitmap := f.pidBitmap.set (pid - pidStart).toNat false }

/-- `fork_pid`. -/
def forkPid (f : Family) : Except Fault (Int × Family) :=
  allocatePid f

/-- `pid2thread`. -/
def pid2thread (f : Family) (pid : Int) : Option TaskId :=
  f.sched.threadAllList.find? fun t => (f.proc t).pid = pid

/-! ## The three calls -/

/-- How far the kernel pages go that `sys_fork` asks for: all are there, or none is left for
the control block or the buffer, or none for the bitmap or the page directory, which are
asked for after the process number. -/
inductive ForkPages where
  | enough
  | noPages
  | noBitmap
  deriving DecidableEq, Repr

/-- `sys_fork`, with the page of the child's control block. -/
def sysFork (f : Family) (childThread : TaskId) : ForkPages → Except Fault (Int × Family)
  | .noPages => pure (-1, f)
  | .noBitmap => do
      let (_, f) ← forkPid f
      pure (-1, f)
  | .enough => do
      let parentThread ← f.sched.get f.current
      let (pid, f) ← forkPid f
      let sched ← threadStart f.sched childThread parentThread.priority
      let parent := f.proc f.current
      pure (pid, { f with sched := sched }.setProc childThread
        { parent with pid := pid, parentPid := parent.pid })

/-- `find_child`. -/
def findChild (f : Family) (ppid : Int) (t : TaskId) : Bool :=
  (f.proc t).parentPid = ppid

/-- `find_hanging_child`. -/
def findHangingChild (f : Family) (ppid : Int) (t : TaskId) : Bool :=
  (f.proc t).parentPid = ppid ∧ f.sched.statusOf t = some .hanging

/-- The traversal of `thread_all_list` with `init_adopt_a_child`. -/
def initAdoptChildren (f : Family) (pid : Int) : Family :=
  { f with
    proc := fun t =>
      if t ∈ f.sched.threadAllList ∧ (f.proc t).parentPid = pid then
        { f.proc t with parentPid := 1 }
      else f.proc t }

/-- `thread_exit(thread_over, false)`. The process number is read after the page was given
back, and is still there. -/
def exitTask (f : Family) (threadOver : TaskId) : Except Fault Family := do
  let sched ← threadExit f.sched threadOver
  pure (releasePid { f with sched := sched } (f.proc threadOver).pid)

/-- How a round of the loop of `sys_wait` ends. -/
inductive WaitResult where
  /-- A finished child was reaped; its number and its exit status. -/
  | child (pid status : Int)
  /-- There is no child: `-1`. -/
  | noChild
  /-- The process blocked. -/
  | asleep
  deriving DecidableEq, Repr

/-- One round of the loop of `sys_wait`. -/
def sysWait (f : Family) : Except Fault (WaitResult × Family) :=
  let parentThread := f.proc f.current
  match f.sched.threadAllList.find? (findHangingChild f parentThread.pid) with
  | some childThread => do
      let result := WaitResult.child (f.proc childThread).pid (f.proc childThread).exitStatus
      let f ← exitTask f childThread
      pure (result, f)
  | none =>
      match f.sched.threadAllList.find? (findChild f parentThread.pid) with
      | none => pure (.noChild, f)
      | some _ => do
          let sched ← threadBlock f.sched .waiting
          pure (.asleep, { f with sched := sched }.setProc f.current
            { parentThread with inWait := true })

/-- The part of `sys_exit` that wakes the parent, if it sleeps in `sys_wait`. -/
def wakeParent (f : Family) : Except Fault Family :=
  match pid2thread f (f.proc f.current).parentPid with
  | none => throw .badPointer
  | some parentThread => do
      let parent ← f.sched.get parentThread
      if parent.status = .waiting then
        let sched ← threadUnblock f.sched parentThread
        pure { f with sched := sched }
      else
        pure f

/-- `sys_exit`, up to the call of `thread_block`. A process without a parent panics. -/
def exitEntry (f : Family) (status : Int) : Except Fault Family := do
  let childThread := { f.proc f.current with exitStatus := status.bmod 256 }
  let f := f.setProc f.current childThread
  require (childThread.parentPid ≠ -1)
  wakeParent (initAdoptChildren f childThread.pid)

/-- `sys_exit`. -/
def sysExit (f : Family) (status : Int) : Except Fault Family := do
  let f ← exitEntry f status
  let sched ← threadBlock f.sched .hanging
  pure { f with sched := sched }

/-! ## The system -/

/-- What happens next: a scheduling event outside the three calls, or one of the calls by the
running process. -/
inductive FamilyOp where
  /-- An operation of the scheduler. -/
  | sched (op : Op)
  /-- `thread_exit(running_thread(), true)`, the end of the main thread. -/
  | mainExit
  /-- `sys_fork`. -/
  | fork (childThread : TaskId) (pages : ForkPages)
  /-- `sys_exit`. -/
  | exit (status : Int)
  /-- `sys_wait` is called. -/
  | wait
  /-- `sys_wait` goes on after it slept. -/
  | waitAgain
  deriving DecidableEq, Repr

/-- The end of a system call. -/
def sysReturn (f : Family) : Family :=
  f.setIntr .on

/-- A round of `sys_wait`, and the return of the call if it does not block. -/
def waitRound (f : Family) : Except Fault Family := do
  let (result, next) ← sysWait f
  if result = .asleep then
    pure next
  else
    pure (sysReturn (next.setProc f.current { next.proc f.current with inWait := false }))

/-- The main thread leaves its queues and its number, and the processor. -/
def mainExit (f : Family) : Except Fault Family := do
  let f ← exitTask f f.current
  let sched ← schedule f.sched
  pure { f with sched := sched }

/-- Run one operation. -/
def familyExec (f : Family) : FamilyOp → Except Fault Family
  | .sched op => do
      let sched ← exec f.sched op
      pure { f with sched := sched }
  | .mainExit => mainExit f
  | .fork childThread pages => do
      let (_, f) ← sysFork (f.setIntr .off) childThread pages
      pure (sysReturn f)
  | .exit status => sysExit (f.setIntr .off) status
  | .wait => waitRound (f.setIntr .off)
  | .waitAgain => waitRound f

/-- The scheduling events that are not part of the three calls: a task blocks and is woken
for other reasons with the status `TASK_BLOCKED`, and tasks start and end by the calls. -/
def Outside (s : Sched) : Op → Prop
  | .timer => True
  | .block stat => stat = .blocked
  | .unblock t => s.statusOf t = some .blocked
  | .yield => True
  | .start _ _ => False
  | .exit _ => False
  | .setIntr _ => True

/-- The running task is a user process outside the kernel. -/
def InUser (f : Family) : Prop :=
  f.current ≠ f.sched.mainThread ∧ f.current ≠ f.sched.idleThread ∧ f.sched.intr = .on ∧
    (f.proc f.current).inWait = false

/-- When an operation can happen. The main thread ends once. -/
def FamilyEnabled (f : Family) : FamilyOp → Prop
  | .sched op => Enabled f.sched op ∧ Outside f.sched op ∧ (f.proc f.current).inWait = false
  | .mainExit => f.current = f.sched.mainThread ∧ f.current ∈ f.sched.threadAllList
  | .fork childThread _ => InUser f ∧ f.sched.task childThread = none
  | .exit _ => InUser f
  | .wait => InUser f
  | .waitAgain => (f.proc f.current).inWait = true

/-- The state `thread_init` leaves: `init`, the main thread and the idle thread have the
numbers 1, 2 and 3 and no parent. -/
def bootedFamily (main init idle : TaskId) : Family where
  sched := booted main init idle
  proc t :=
    { pid := if t = init then 1 else if t = main then 2 else 3
      parentPid := -1
      exitStatus := 0
      inWait := false }
  pidBitmap := ((Bitmap.mk Memory.zeros).set 0 true |>.set 1 true).set 2 true

/-- Processes that fork, exit and wait, under every interleaving, from any boot state. -/
def family : TransitionSystem Family FamilyOp where
  initial f := ∃ main init idle, [main, init, idle].Nodup ∧ f = bootedFamily main init idle
  step f op next := FamilyEnabled f op ∧ familyExec f op = .ok next

/-! ## Running the system -/

instance (s : Sched) : (op : Op) → Decidable (Enabled s op)
  | .timer => inferInstanceAs (Decidable (s.intr = .on))
  | .block stat =>
      inferInstanceAs (Decidable (stat.Suspended ∧ (s.current = s.idleThread → stat = .blocked)))
  | .unblock t =>
      decidable_of_iff ((s.statusOf t).any (fun status => decide status.Suspended) = true)
        (by simp [Enabled, Option.any_eq_true])
  | .yield => .isTrue trivial
  | .start thread _ => inferInstanceAs (Decidable (s.task thread = none))
  | .exit threadOver => inferInstanceAs (Decidable (s.statusOf threadOver = some .hanging))
  | .setIntr _ => .isTrue trivial

instance (s : Sched) : (op : Op) → Decidable (Outside s op)
  | .timer => .isTrue trivial
  | .block stat => inferInstanceAs (Decidable (stat = .blocked))
  | .unblock t => inferInstanceAs (Decidable (s.statusOf t = some .blocked))
  | .yield => .isTrue trivial
  | .start _ _ => .isFalse id
  | .exit _ => .isFalse id
  | .setIntr _ => .isTrue trivial

instance (f : Family) : Decidable (InUser f) := by
  unfold InUser
  infer_instance

instance (f : Family) : (op : FamilyOp) → Decidable (FamilyEnabled f op)
  | .sched op =>
      inferInstanceAs (Decidable
        (Enabled f.sched op ∧ Outside f.sched op ∧ (f.proc f.current).inWait = false))
  | .mainExit => inferInstanceAs (Decidable
      (f.current = f.sched.mainThread ∧ f.current ∈ f.sched.threadAllList))
  | .fork childThread _ =>
      inferInstanceAs (Decidable (InUser f ∧ f.sched.task childThread = none))
  | .exit _ => inferInstanceAs (Decidable (InUser f))
  | .wait => inferInstanceAs (Decidable (InUser f))
  | .waitAgain => inferInstanceAs (Decidable ((f.proc f.current).inWait = true))

/-- One step, if it can happen. -/
def familyStep (f : Family) (op : FamilyOp) : Option Family :=
  if FamilyEnabled f op then (familyExec f op).toOption else none

theorem familyStep_sound {f next : Family} {op : FamilyOp}
    (stepped : familyStep f op = some next) : family.step f op next := by
  unfold familyStep at stepped
  split_ifs at stepped with enabled
  cases ran : familyExec f op with
  | error fault =>
      rw [ran] at stepped
      cases stepped
  | ok after =>
      rw [ran] at stepped
      cases stepped
      exact ⟨enabled, ran⟩

end UKernel.Process
