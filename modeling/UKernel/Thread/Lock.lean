import UKernel.Library.Fault
import UKernel.Library.Transition

/-! # The recursive lock

`lock_acquire` and `lock_release` of `sync.c`, run by any number of threads on one lock. A
thread may be preempted between two statements, so each statement is a step of its own and a
thread's place in the two functions is its `Pc`; `sema_down` up to the point where it blocks,
and `sema_up`, run with interrupts off and are one step each.
-/

namespace UKernel.Thread

open UKernel.Library

/-- The next statement of a thread. -/
inductive Pc where
  /-- In neither function. -/
  | outside
  /-- `if (plock->holder != running_thread())`. -/
  | acquireTest
  /-- `sema_down(&plock->semaphore)`. -/
  | semaDown
  /-- In `thread_block`, called by `sema_down`. -/
  | blocked
  /-- `thread_block` returned: `sema_down` tests the value again. -/
  | woken
  /-- `plock->holder = running_thread()`. -/
  | setHolder
  /-- `ASSERT(plock->holder_repeat_nr == 0)`. -/
  | assertRepeatZero
  /-- `plock->holder_repeat_nr = 1`. -/
  | setRepeat
  /-- `plock->holder_repeat_nr++`. -/
  | incrRepeat
  /-- `ASSERT(plock->holder == running_thread())`. -/
  | assertHolder
  /-- `if(plock->holder_repeat_nr > 1)`. -/
  | testRepeat
  /-- `plock->holder_repeat_nr--`. -/
  | decrRepeat
  /-- `ASSERT(plock->holder_repeat_nr == 1)`. -/
  | assertRepeatOne
  /-- `plock->holder = NULL`. -/
  | clearHolder
  /-- `plock->holder_repeat_nr = 0`. -/
  | clearRepeat
  /-- `sema_up(&plock->semaphore)`. -/
  | semaUp
  deriving DecidableEq, Repr

/-- `struct lock` with its semaphore, and the threads that use it. The depth of a thread is
the number of its acquires that returned less the number of its releases that did; no
function reads it. -/
structure LockState (Tid : Type) where
  holder : Option Tid
  holderRepeatNr : Nat
  value : Nat
  waiters : List Tid
  pc : Tid → Pc
  depth : Tid → Nat

variable {Tid : Type} [DecidableEq Tid]

namespace LockState

/-- The thread goes on to its next statement. -/
def goto (s : LockState Tid) (t : Tid) (pc : Pc) : LockState Tid :=
  { s with pc := Function.update s.pc t pc }

/-- The thread returns to its caller at the given depth. -/
def returns (s : LockState Tid) (t : Tid) (depth : Nat) : LockState Tid :=
  { s.goto t .outside with depth := Function.update s.depth t depth }

end LockState

/-- `lock_init`. -/
def lockInit : LockState Tid where
  holder := none
  holderRepeatNr := 0
  value := 1
  waiters := []
  pc := fun _ => .outside
  depth := fun _ => 0

/-- `sema_down`, from a test of its loop to the return or to the next `thread_block`. -/
def semaDown (s : LockState Tid) (t : Tid) : Except Fault (LockState Tid) :=
  if s.value = 0 then do
    require (t ∉ s.waiters)
    pure ({ s with waiters := s.waiters ++ [t] }.goto t .blocked)
  else do
    let s := { s with value := (s.value + 2 ^ 8 - 1) % 2 ^ 8 }
    require (s.value = 0)
    pure (s.goto t .setHolder)

/-- The call of `thread_unblock` in `sema_up`, whose assertion is that the thread popped
from the waiters is blocked. -/
def wakeFirst (s : LockState Tid) : Except Fault (LockState Tid) :=
  match s.waiters with
  | [] => .ok s
  | threadBlocked :: rest => do
      require (s.pc threadBlocked = .blocked)
      pure ({ s with waiters := rest }.goto threadBlocked .woken)

/-- `sema_up`, the last statement of `lock_release`. -/
def semaUp (s : LockState Tid) (t : Tid) : Except Fault (LockState Tid) := do
  require (s.value = 0)
  let s ← wakeFirst s
  let s := { s with value := (s.value + 1) % 2 ^ 8 }
  require (s.value = 1)
  pure (s.returns t (s.depth t - 1))

/-- The next statement of a thread inside `lock_acquire` or `lock_release`. -/
def runStatement (s : LockState Tid) (t : Tid) : Except Fault (LockState Tid) :=
  match s.pc t with
  | .outside => .ok s
  | .acquireTest => .ok (s.goto t (if s.holder ≠ some t then .semaDown else .incrRepeat))
  | .semaDown => semaDown s t
  | .blocked => .ok s
  | .woken => semaDown s t
  | .setHolder => .ok ({ s with holder := some t }.goto t .assertRepeatZero)
  | .assertRepeatZero => do
      require (s.holderRepeatNr = 0)
      pure (s.goto t .setRepeat)
  | .setRepeat => .ok ({ s with holderRepeatNr := 1 }.returns t (s.depth t + 1))
  | .incrRepeat =>
      .ok ({ s with holderRepeatNr := (s.holderRepeatNr + 1) % 2 ^ 32 }.returns t (s.depth t + 1))
  | .assertHolder => do
      require (s.holder = some t)
      pure (s.goto t .testRepeat)
  | .testRepeat => .ok (s.goto t (if s.holderRepeatNr > 1 then .decrRepeat else .assertRepeatOne))
  | .decrRepeat =>
      .ok ({ s with holderRepeatNr := (s.holderRepeatNr + 2 ^ 32 - 1) % 2 ^ 32 }.returns t
        (s.depth t - 1))
  | .assertRepeatOne => do
      require (s.holderRepeatNr = 1)
      pure (s.goto t .clearHolder)
  | .clearHolder => .ok ({ s with holder := none }.goto t .clearRepeat)
  | .clearRepeat => .ok ({ s with holderRepeatNr := 0 }.goto t .semaUp)
  | .semaUp => semaUp s t

/-- What a thread does next. -/
inductive LockOp (Tid : Type) where
  /-- The thread calls `lock_acquire`. -/
  | acquire (t : Tid)
  /-- The thread calls `lock_release`. -/
  | release (t : Tid)
  /-- The thread runs its next statement. -/
  | run (t : Tid)
  deriving DecidableEq, Repr

/-- Take one step. -/
def lockExec (s : LockState Tid) : LockOp Tid → Except Fault (LockState Tid)
  | .acquire t => .ok (s.goto t .acquireTest)
  | .release t => .ok (s.goto t .assertHolder)
  | .run t => runStatement s t

/-- When a step can be taken: a thread calls `lock_release` only for an acquire of its own
that returned, and a blocked thread does not run. -/
def LockEnabled (s : LockState Tid) : LockOp Tid → Prop
  | .acquire t => s.pc t = .outside
  | .release t => s.pc t = .outside ∧ 0 < s.depth t
  | .run t => s.pc t ≠ .outside ∧ s.pc t ≠ .blocked

/-- The lock as a transition system, from `lock_init`, under every interleaving. -/
def lock : TransitionSystem (LockState Tid) (LockOp Tid) where
  initial s := s = lockInit
  step s op next := LockEnabled s op ∧ lockExec s op = .ok next

end UKernel.Thread
