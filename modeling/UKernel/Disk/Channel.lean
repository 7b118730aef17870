import UKernel.Fs.Partition
import UKernel.Library.Bytes
import UKernel.Thread.LockOwner

/-! # A channel of the disk controller

`ide_read`, `ide_write` and `intr_hd_handler` of `ide.c`, run by any number of threads on one
channel and by its interrupts (`UKernel.Ide.channel`). A thread may be preempted and the
interrupt may arrive between two statements, so each statement is a step; `sema_down` up to the
point where it blocks and the handler run with interrupts off and are one step each. The lock of
the channel is the one of `UKernel.Thread.LockState`.

What the registers and the data port transfer does not show in this state; whether the disk is
ready after `busy_wait` is an argument of the step.
-/

namespace UKernel.Ide

open UKernel.Library UKernel.Thread UKernel.Fs

/-- The next statement of a thread. -/
inductive IdePc where
  /-- In neither function. -/
  | outside
  /-- In `lock_acquire(&hd->my_channel->lock)`. -/
  | acquire
  /-- `while(secs_done < sec_cnt)`, and `select_sector`. -/
  | test
  /-- `channel->expecting_intr = true` in `cmd_out`. -/
  | setExpecting
  /-- `outb(reg_cmd(channel), cmd)` in `cmd_out`. -/
  | command
  /-- `sema_down(&hd->my_channel->disk_done)`. -/
  | down
  /-- In `thread_block`, called by `sema_down`. -/
  | asleep
  /-- `thread_block` returned: `sema_down` tests the value again. -/
  | woken
  /-- `if (!busy_wait(hd))`. -/
  | busyWait
  /-- `read_from_sector` or `write2sector`. -/
  | transfer
  /-- In `lock_release(&hd->my_channel->lock)`. -/
  | release
  deriving DecidableEq, Repr

/-- A call of `ide_read` or `ide_write`: its arguments and local variables. -/
structure IdeCall where
  write : Bool
  lba : Word
  secCnt : Word
  secsDone : Word
  deriving DecidableEq, Repr

/-- `secs_op`. -/
def IdeCall.secsOp (call : IdeCall) : Word :=
  if call.secsDone + 256 ≤ call.secCnt then 256 else call.secCnt - call.secsDone

/-- `secs_done += secs_op`. -/
def IdeCall.advance (call : IdeCall) : IdeCall :=
  { call with secsDone := call.secsDone + call.secsOp }

/-- `struct ide_channel` with its semaphore `disk_done`, and the threads that use it. No function
reads the last two fields: whether an interrupt arrived after the thread last set
`expecting_intr`, and after it last wrote a command. -/
structure Channel (Tid : Type) where
  lock : LockState Tid
  expectingIntr : Bool
  value : Nat
  waiters : List Tid
  pc : Tid → IdePc
  call : Tid → IdeCall
  sinceExpecting : Tid → Bool
  sinceCommand : Tid → Bool

variable {Tid : Type} [DecidableEq Tid]

namespace Channel

/-- The thread goes on to its next statement. -/
def goto (s : Channel Tid) (t : Tid) (pc : IdePc) : Channel Tid :=
  { s with pc := Function.update s.pc t pc }

/-- A sector count of a thread was done. -/
def nextRound (s : Channel Tid) (t : Tid) : Channel Tid :=
  { s.goto t .test with call := Function.update s.call t (s.call t).advance }

end Channel

/-- The part of `ide_init` that initialises a channel, when no thread uses it. -/
def channelInit : Channel Tid where
  lock := lockInit
  expectingIntr := false
  value := 0
  waiters := []
  pc _ := .outside
  call _ := ⟨false, 0, 0, 0⟩
  sinceExpecting _ := false
  sinceCommand _ := false

/-- `sema_down` on `disk_done`, from a test of its loop to the return or to the next
`thread_block`. -/
def diskDown (s : Channel Tid) (t : Tid) : Except Fault (Channel Tid) :=
  if s.value = 0 then do
    require (t ∉ s.waiters)
    pure ({ s with waiters := s.waiters ++ [t] }.goto t .asleep)
  else do
    let s := { s with value := (s.value + 2 ^ 8 - 1) % 2 ^ 8 }
    require (s.value = 0)
    pure (if (s.call t).write then s.nextRound t else s.goto t .busyWait)

/-- The call of `thread_unblock` in `sema_up`, whose assertion is that the thread popped from the
waiters is blocked. -/
def wakeDisk (s : Channel Tid) : Except Fault (Channel Tid) :=
  match s.waiters with
  | [] => .ok s
  | threadBlocked :: rest => do
      require (s.pc threadBlocked = .asleep)
      pure ({ s with waiters := rest }.goto threadBlocked .woken)

/-- `sema_up` on `disk_done`. -/
def diskUp (s : Channel Tid) : Except Fault (Channel Tid) := do
  require (s.value = 0)
  let s ← wakeDisk s
  let s := { s with value := (s.value + 1) % 2 ^ 8 }
  require (s.value = 1)
  pure s

/-- `intr_hd_handler`. -/
def intrHdHandler (s : Channel Tid) : Except Fault (Channel Tid) :=
  if s.expectingIntr then
    diskUp { s with expectingIntr := false }
  else
    .ok s

/-- The next statement of a thread inside `ide_read` or `ide_write`. -/
def runIde (s : Channel Tid) (t : Tid) (ready : Bool) : Except Fault (Channel Tid) :=
  match s.pc t with
  | .outside => .ok s
  | .acquire =>
      if s.lock.pc t = .outside then
        .ok (s.goto t .test)
      else do
        let lock ← runStatement s.lock t
        pure { s with lock := lock }
  | .test =>
      if (s.call t).secsDone < (s.call t).secCnt then do
        require (((s.call t).lba + (s.call t).secsDone).toNat ≤ maxLba)
        pure (s.goto t .setExpecting)
      else do
        let lock ← lockExec s.lock (.release t)
        pure ({ s with lock := lock }.goto t .release)
  | .setExpecting =>
      .ok ({ s with
        expectingIntr := true
        sinceExpecting := Function.update s.sinceExpecting t false }.goto t .command)
  | .command =>
      .ok ({ s with sinceCommand := Function.update s.sinceCommand t false }.goto t
        (if (s.call t).write then .busyWait else .down))
  | .down => diskDown s t
  | .asleep => .ok s
  | .woken => diskDown s t
  | .busyWait => do
      require (ready = true)
      pure (s.goto t .transfer)
  | .transfer => .ok (if (s.call t).write then s.goto t .down else s.nextRound t)
  | .release =>
      if s.lock.pc t = .outside then
        .ok (s.goto t .outside)
      else do
        let lock ← runStatement s.lock t
        pure { s with lock := lock }

/-- What happens next. -/
inductive IdeOp (Tid : Type) where
  /-- The thread calls `ide_read` or `ide_write`. -/
  | call (t : Tid) (write : Bool) (lba secCnt : Word)
  /-- The thread runs its next statement; the last argument is the result of `busy_wait`. -/
  | run (t : Tid) (ready : Bool)
  /-- An interrupt of the channel arrives. -/
  | interrupt
  deriving DecidableEq, Repr

/-- Take one step. -/
def ideExec (s : Channel Tid) : IdeOp Tid → Except Fault (Channel Tid)
  | .call t write lba secCnt => do
      require (lba.toNat ≤ maxLba)
      require (secCnt > 0)
      let lock ← lockExec s.lock (.acquire t)
      pure ({ s with
        lock := lock
        call := Function.update s.call t ⟨write, lba, secCnt, 0⟩ }.goto t .acquire)
  | .run t ready => runIde s t ready
  | .interrupt => do
      let s ← intrHdHandler s
      pure { s with sinceExpecting := fun _ => true, sinceCommand := fun _ => true }

/-- When a step can be taken: a blocked thread does not run. -/
def IdeEnabled (s : Channel Tid) : IdeOp Tid → Prop
  | .call t _ _ _ => s.pc t = .outside
  | .run t _ => s.pc t ≠ .outside ∧ s.pc t ≠ .asleep ∧ s.lock.pc t ≠ .blocked
  | .interrupt => True

instance (s : Channel Tid) : (op : IdeOp Tid) → Decidable (IdeEnabled s op)
  | .call t _ _ _ => inferInstanceAs (Decidable (s.pc t = .outside))
  | .run t _ =>
      inferInstanceAs (Decidable (s.pc t ≠ .outside ∧ s.pc t ≠ .asleep ∧ s.lock.pc t ≠ .blocked))
  | .interrupt => inferInstanceAs (Decidable True)

/-- The channel as a transition system, under every interleaving of threads and interrupts. -/
def channel : TransitionSystem (Channel Tid) (IdeOp Tid) where
  initial s := s = channelInit
  step s op next := IdeEnabled s op ∧ ideExec s op = .ok next

end UKernel.Ide
