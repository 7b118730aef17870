import UKernel.Library.Fault
import UKernel.Library.Transition

/-! # The task scheduler

The ready queue, the task statuses and the operations of `thread.c` that move a task
between them. A task is named by the address of its page; `thread_ready_list` and
`thread_all_list` are the tasks in queue order. Every operation runs with interrupts off
from its first statement to the switch, so one operation is one step of the system
(`UKernel.Thread.scheduler`).

A suspended task keeps, in the frame `switch_to` returns to, the interrupt status that this
frame restores; it is the field `oldStatus`.
-/

namespace UKernel.Thread

open UKernel.Library

/-- `enum task_status`. -/
inductive TaskStatus where
  | running
  | ready
  | blocked
  | waiting
  | hanging
  | died
  deriving DecidableEq, Repr

/-- `enum intr_status`. -/
inductive IntrStatus where
  | off
  | on
  deriving DecidableEq, Repr

/-- The address of the page that holds a task's control block. -/
abbrev TaskId := Nat

/-- The fields of `struct task_struct` that scheduling reads and writes. -/
structure Task where
  status : TaskStatus
  priority : Nat
  ticks : Nat
  elapsedTicks : Nat
  oldStatus : IntrStatus
  deriving DecidableEq, Repr

/-- The scheduler's global state. `task` is defined at the pages that hold a control block,
and `current` is what `running_thread` returns. -/
structure Sched where
  task : TaskId → Option Task
  threadReadyList : List TaskId
  threadAllList : List TaskId
  current : TaskId
  idleThread : TaskId
  mainThread : TaskId
  intr : IntrStatus

namespace Sched

/-- The status of a task, if its control block exists. -/
def statusOf (s : Sched) (t : TaskId) : Option TaskStatus :=
  (s.task t).map Task.status

/-- Dereference a pointer to a control block. -/
def get (s : Sched) (t : TaskId) : Except Fault Task :=
  match s.task t with
  | some task => .ok task
  | none => .error .badPointer

/-- Store a control block. -/
def put (s : Sched) (t : TaskId) (task : Task) : Sched :=
  { s with task := Function.update s.task t (some task) }

end Sched

open Sched

/-- The statuses a task blocks itself with and is unblocked from. -/
def TaskStatus.Suspended (status : TaskStatus) : Prop :=
  status = .blocked ∨ status = .waiting ∨ status = .hanging

instance (status : TaskStatus) : Decidable status.Suspended := by
  unfold TaskStatus.Suspended
  infer_instance

/-- `thread_unblock`. -/
def threadUnblock (s : Sched) (t : TaskId) : Except Fault Sched := do
  let oldStatus := s.intr
  let s := { s with intr := .off }
  let pthread ← s.get t
  require pthread.status.Suspended
  if pthread.status ≠ .ready then
    require (t ∉ s.threadReadyList)
    let s := { s with threadReadyList := t :: s.threadReadyList }
    let s := s.put t { pthread with status := .ready }
    pure { s with intr := oldStatus }
  else
    pure { s with intr := oldStatus }

/-- The first half of `schedule`: a task that is still running used up its time slice and
goes to the end of the ready queue. -/
def requeueCurrent (s : Sched) : Except Fault Sched := do
  let cur ← s.get s.current
  if cur.status = .running then
    require (s.current ∉ s.threadReadyList)
    let s := { s with threadReadyList := s.threadReadyList ++ [s.current] }
    pure (s.put s.current { cur with ticks := cur.priority, status := .ready })
  else
    pure s

/-- `switch_to`, and the return of the frame it switches to. -/
def switchTo (s : Sched) (next : TaskId) (task : Task) : Sched :=
  { s with current := next, intr := task.oldStatus }

/-- The second half of `schedule`: pop the first ready task and switch to it. -/
def dispatch (s : Sched) : Except Fault Sched :=
  match s.threadReadyList with
  | [] => .error .assertion
  | threadTag :: rest => do
      let s := { s with threadReadyList := rest }
      let next ← s.get threadTag
      let s := s.put threadTag { next with status := .running }
      pure (switchTo s threadTag next)

/-- `schedule`. The queue is tested for emptiness in the state `requeueCurrent` leaves. -/
def schedule (s : Sched) : Except Fault Sched := do
  require (s.intr = .off)
  let s ← requeueCurrent s
  let s ← if s.threadReadyList = [] then threadUnblock s s.idleThread else pure s
  dispatch s

/-- The current task records the interrupt status its frame will restore, and turns
interrupts off. -/
def enterKernel (s : Sched) (oldStatus : IntrStatus) : Except Fault Sched := do
  let cur ← s.get s.current
  pure { s.put s.current { cur with oldStatus := oldStatus } with intr := .off }

/-- `thread_block`, up to the call of `schedule`. -/
def threadBlockEntry (s : Sched) (stat : TaskStatus) : Except Fault Sched := do
  require stat.Suspended
  let s ← enterKernel s s.intr
  let cur ← s.get s.current
  pure (s.put s.current { cur with status := stat })

/-- `thread_block`. -/
def threadBlock (s : Sched) (stat : TaskStatus) : Except Fault Sched := do
  let s ← threadBlockEntry s stat
  schedule s

/-- `thread_yield`, up to the call of `schedule`. -/
def threadYieldEntry (s : Sched) : Except Fault Sched := do
  let s ← enterKernel s s.intr
  require (s.current ∉ s.threadReadyList)
  let s := { s with threadReadyList := s.threadReadyList ++ [s.current] }
  let cur ← s.get s.current
  pure (s.put s.current { cur with status := .ready })

/-- `thread_yield`. -/
def threadYield (s : Sched) : Except Fault Sched := do
  let s ← threadYieldEntry s
  schedule s

/-- `intr_timer_handler`, up to its test of the time slice. The interrupt arrives with
interrupts on, which is what the return from the interrupt restores. -/
def timerEntry (s : Sched) : Except Fault Sched := do
  let s ← enterKernel s .on
  let curThread ← s.get s.current
  pure (s.put s.current
    { curThread with elapsedTicks := (curThread.elapsedTicks + 1) % 2 ^ 32 })

/-- `intr_timer_handler`. -/
def intrTimerHandler (s : Sched) : Except Fault Sched := do
  let s ← timerEntry s
  let curThread ← s.get s.current
  if curThread.ticks = 0 then
    schedule s
  else
    let s := s.put s.current { curThread with ticks := curThread.ticks - 1 }
    pure { s with intr := .on }

/-- What `thread_start`, `process_execute` and `sys_fork` do with a new control block: fill
it in and append it to both queues. The first frame of a new task turns interrupts on. -/
def threadStart (s : Sched) (thread : TaskId) (prio : Nat) : Except Fault Sched := do
  let task : Task :=
    { status := .ready, priority := prio, ticks := prio, elapsedTicks := 0, oldStatus := .on }
  let s := s.put thread task
  require (thread ∉ s.threadReadyList)
  let s := { s with threadReadyList := s.threadReadyList ++ [thread] }
  require (thread ∉ s.threadAllList)
  pure { s with threadAllList := s.threadAllList ++ [thread] }

/-- `thread_exit(thread_over, false)`: take the task out of both queues and give its page
back, unless it is the main thread's. -/
def threadExit (s : Sched) (threadOver : TaskId) : Except Fault Sched := do
  let s := { s with intr := .off }
  let task ← s.get threadOver
  let s := s.put threadOver { task with status := .died }
  let s := if threadOver ∈ s.threadReadyList then
    { s with threadReadyList := s.threadReadyList.erase threadOver } else s
  let s := { s with threadAllList := s.threadAllList.erase threadOver }
  if threadOver ≠ s.mainThread then
    pure { s with task := Function.update s.task threadOver none }
  else
    pure s

/-- The operations on the queues, each named with its arguments. -/
inductive Op where
  /-- A timer interrupt in the running task. -/
  | timer
  /-- The running task calls `thread_block`. -/
  | block (stat : TaskStatus)
  /-- `thread_unblock` of a suspended task, by the running task or an interrupt handler. -/
  | unblock (t : TaskId)
  /-- The running task calls `thread_yield`. -/
  | yield
  /-- A new task on a fresh page. -/
  | start (thread : TaskId) (prio : Nat)
  /-- `thread_exit` of a task that hangs. -/
  | exit (threadOver : TaskId)
  /-- The running task turns interrupts on or off. -/
  | setIntr (status : IntrStatus)
  deriving DecidableEq, Repr

/-- Run one operation. -/
def exec (s : Sched) : Op → Except Fault Sched
  | .timer => intrTimerHandler s
  | .block stat => threadBlock s stat
  | .unblock t => threadUnblock s t
  | .yield => threadYield s
  | .start thread prio => threadStart s thread prio
  | .exit threadOver => threadExit s threadOver
  | .setIntr status => .ok { s with intr := status }

/-- When an operation is called. The timer interrupts only a task that has interrupts on;
`get_kernel_pages` returns a page that holds no control block; and `idle`, whose body is
`thread_block(TASK_BLOCKED)` in a loop, blocks itself with no other status. -/
def Enabled (s : Sched) : Op → Prop
  | .timer => s.intr = .on
  | .block stat => stat.Suspended ∧ (s.current = s.idleThread → stat = .blocked)
  | .unblock t => ∃ status, s.statusOf t = some status ∧ status.Suspended
  | .yield => True
  | .start thread _ => s.task thread = none
  | .exit threadOver => s.statusOf threadOver = some .hanging
  | .setIntr _ => True

/-- The state in which an operation calls `schedule`, for those that do. -/
def scheduleEntry (s : Sched) : Op → Except Fault Sched
  | .timer => timerEntry s
  | .block stat => threadBlockEntry s stat
  | .yield => threadYieldEntry s
  | _ => .error .assertion

/-- The state `thread_init` leaves: the main thread runs, `init` and `idle` are ready. -/
def booted (main init idle : TaskId) : Sched where
  task := fun t =>
    if t = main then some ⟨.running, 31, 31, 0, .off⟩
    else if t = init then some ⟨.ready, 31, 31, 0, .on⟩
    else if t = idle then some ⟨.ready, 10, 10, 0, .on⟩
    else none
  threadReadyList := [init, idle]
  threadAllList := [init, main, idle]
  current := main
  idleThread := idle
  mainThread := main
  intr := .off

/-- The scheduler as a transition system, from any boot state. -/
def scheduler : TransitionSystem Sched Op where
  initial s := ∃ main init idle, [main, init, idle].Nodup ∧ s = booted main init idle
  step s op next := Enabled s op ∧ exec s op = .ok next

end UKernel.Thread
