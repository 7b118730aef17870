import UKernel.Console.Format
import UKernel.Pipe.References
import UKernel.Pipe.Transfer
import UKernel.Shell.MyShell

/-! # Pipelines

The steps that `my_shell` makes for a line with `|`, on the descriptors of the shell and the ring of
the pipe. All commands share the one ring: it holds what a command wrote, and nothing else, when the
next one starts exactly if each command in between takes all of the bytes before its own, and none
but the last is a program, for which the shell itself prints a line
(`UKernel.Shell.pipeline_passes_iff`).
-/

namespace UKernel.Shell

open UKernel.Library
open UKernel.WakeUp (IoQueue ioQueue QueueCall pipeWrite pipeRead)
open UKernel.Pipe (Pid PipeState PipeCall sysPipe sysFdRedirect sysClose isPipe isPipe_run pipeFlag)

variable {Tid : Type} [DecidableEq Tid]

/-! ## Commands -/

/-- A call that a command makes. -/
inductive Action where
  /-- `read(0, buf, count)`. -/
  | read (count : Nat)
  /-- `write(1, buf, count)`. -/
  | write (bytes : List Byte)

/-- What a command does, in the shell itself or in a child, and what `wait` returns for the
child. -/
structure Behaviour (Tid : Type) where
  child : Tid
  actions : List Action
  childPid : Word
  status : Word

/-- The shell's process and thread, the page for the ring, and what is in it. -/
structure Setting (Tid : Type) where
  pid : Pid
  tid : Tid
  page : Option Nat
  buf : Nat → Byte

/-- The descriptors, the ring and the array `fd`, with what the commands of the line do that were
not executed yet, and what each command could read from the pipe when it started. -/
structure System (Tid : Type) where
  fds : PipeState
  ring : IoQueue Tid
  fd : Option Nat × Option Nat
  behaviours : List (Behaviour Tid)
  starts : List (List Byte)
  screen : List Byte

/-- A call on the system. -/
abbrev SystemCall (Tid α : Type) := Call (System Tid) α

/-- A call on the descriptors. -/
def onFds {α : Type} (call : PipeCall α) : SystemCall Tid α := do
  let s ← get
  let (a, fds) ← liftM (call.run s.fds)
  modify fun s => { s with fds := fds }
  return a

/-- The bytes that a command writes. -/
def outputOf : List Action → List Byte
  | [] => []
  | .read _ :: actions => outputOf actions
  | .write bytes :: actions => bytes ++ outputOf actions

/-- The number of bytes that a command takes from a ring that it reads and writes, of the number
that is stored there: `pipe_read` takes no more than there are. -/
def takenOf : Nat → List Action → Nat
  | _, [] => 0
  | stored, .read count :: actions =>
      min count stored + takenOf (stored - min count stored) actions
  | stored, .write bytes :: actions => takenOf (stored + bytes.length) actions

namespace Behaviour

/-- What a command writes. -/
def output (behaviour : Behaviour Tid) : List Byte := outputOf behaviour.actions

/-- How much a command takes from the ring, of what is stored there. -/
def taken (behaviour : Behaviour Tid) (stored : Nat) : Nat := takenOf stored behaviour.actions

end Behaviour

/-- Each command behind the first one starts with what the one before it wrote. -/
def Passes (behaviours : List (Behaviour Tid)) (starts : List (List Byte)) : Prop :=
  starts.tail = behaviours.dropLast.map Behaviour.output

section Ring

open UKernel.WakeUp

variable {s s' : IoQueue Tid} {t : Tid} {call : IoCall} {moved : Moved} {bytes : List Byte}
  {count : Nat}

/-- No call on the ring has blocked. -/
structure Quiet (s : IoQueue Tid) : Prop where
  reachable : (ioQueue Tid).Reachable s
  outside : ∀ t, s.place t = .outside

/-- Nobody waits. -/
theorem Quiet.waiter (quiet : Quiet s) (call : IoCall) : s.waiter call = none := by
  have parked := Parked.of_reachable quiet.reachable
  cases call with
  | getchar =>
      by_contra sleeps
      obtain ⟨t, is⟩ := Option.ne_none_iff_exists'.mp sleeps
      cases (quiet.outside t).symm.trans (parked.consumer t is)
  | putchar byte =>
      by_contra sleeps
      obtain ⟨t, is⟩ := Option.ne_none_iff_exists'.mp sleeps
      obtain ⟨_, place⟩ := parked.producer t is
      cases (quiet.outside t).symm.trans place

theorem wakeup_none (none_ : s.waiter call = none) : (wakeup call).run s = .ok ((), s) := by
  rw [wakeup, call_bind_of (call_get_returns.mpr ⟨rfl, rfl⟩), none_]
  rfl

/-- A call that moved a byte blocks nobody. -/
theorem Quiet.moves (quiet : Quiet s) (ran : (ioqCallByte t call).run s = .ok (some moved, s')) :
    Quiet s' := by
  have may : ¬ s.mustWait call := fun must => by cases ioqCallByte_waits must ran
  obtain ⟨s₁, ran₁, -, reachable, -⟩ := ioqCallByte_runs quiet.reachable (quiet.outside t) may
  obtain ⟨-, rfl⟩ := Prod.mk.inj (Except.ok.inj (ran₁.symm.trans ran))
  refine ⟨reachable, ?_⟩
  have back : ∀ {s₂ : IoQueue Tid}, s₂.place = s.place → ∀ t',
      Function.update s₂.place t .outside t' = .outside := by
    intro s₂ same t'
    by_cases here : t' = t
    · rw [here, Function.update_self]
    · rw [Function.update_of_ne here, same, quiet.outside]
  rw [ioqCallByte, call_bind_of (call_get_returns.mpr ⟨rfl, rfl⟩), if_neg may] at ran
  obtain ⟨moved', s₂, transfers, ran⟩ := call_bind_returns.mp ran
  obtain ⟨-, rfl⟩ := call_pure_returns.mp ran
  cases call with
  | getchar =>
      obtain ⟨byte, middle, takes, transfers⟩ := call_bind_returns.mp transfers
      rw [takeByte, call_bind_of (call_get_returns.mpr ⟨rfl, rfl⟩),
        call_bind_of (call_modify_returns.mpr rfl)] at takes
      obtain ⟨_, _, wakes, takes⟩ := call_bind_returns.mp takes
      have none_ : IoQueue.waiter { s with tail := nextPos s.tail } (.putchar (s.buf s.tail)) =
          none :=
        quiet.waiter (.putchar (s.buf s.tail))
      cases (wakeup_none none_).symm.trans wakes
      obtain ⟨-, rfl⟩ := call_pure_returns.mp takes
      obtain ⟨_, _, places, transfers⟩ := call_bind_returns.mp transfers
      cases call_modify_returns.mp places
      obtain ⟨-, rfl⟩ := call_pure_returns.mp transfers
      exact back rfl
  | putchar byte =>
      obtain ⟨_, middle, puts, transfers⟩ := call_bind_returns.mp transfers
      obtain ⟨_, _, stores, wakes⟩ := call_bind_returns.mp puts
      cases call_modify_returns.mp stores
      have none_ : IoQueue.waiter { s with
          buf := Function.update s.buf s.head byte
          head := nextPos s.head } .getchar = none :=
        quiet.waiter .getchar
      cases (wakeup_none none_).symm.trans wakes
      obtain ⟨_, _, places, transfers⟩ := call_bind_returns.mp transfers
      cases call_modify_returns.mp places
      obtain ⟨-, rfl⟩ := call_pure_returns.mp transfers
      exact back rfl

/-- Bytes that go into the ring are behind those that are in it. -/
theorem Quiet.puts (quiet : Quiet s) (ran : (putBytes t bytes).run s = .ok (true, s')) :
    Quiet s' ∧ s'.stored = s.stored ++ bytes := by
  have fits : bytes.length + s.ioqLength < bufsize := by
    by_contra many
    cases putBytes_blocks quiet.reachable (quiet.outside t) (Nat.le_of_not_lt many) ran
  obtain ⟨s₁, ran₁, stored⟩ := putBytes_runs quiet.reachable (quiet.outside t) fits
  obtain ⟨-, rfl⟩ := Prod.mk.inj (Except.ok.inj (ran₁.symm.trans ran))
  refine ⟨?_, stored⟩
  clear ran₁ stored fits
  induction bytes generalizing s with
  | nil =>
      obtain ⟨-, rfl⟩ := call_pure_returns.mp ran
      exact quiet
  | cons byte bytes ih =>
      obtain ⟨moved, middle, puts, ran⟩ := call_bind_returns.mp ran
      cases moved with
      | none => cases (call_pure_returns.mp ran).1
      | some moved => exact ih (quiet.moves puts) ran

/-- Reading does not block. -/
theorem Quiet.takes (quiet : Quiet s) {out : List Byte}
    (ran : (takeBytes t count).run s = .ok (some out, s')) : Quiet s' := by
  induction count generalizing s out with
  | zero =>
      obtain ⟨-, rfl⟩ := call_pure_returns.mp ran
      exact quiet
  | succ count ih =>
      obtain ⟨moved, middle, takes, ran⟩ := call_bind_returns.mp ran
      cases moved with
      | none => cases (call_pure_returns.mp ran).1
      | some moved =>
          cases moved with
          | put byte => cases (call_pure_returns.mp ran).1
          | returned byte =>
              obtain ⟨rest, _, takes', ran⟩ := call_bind_returns.mp ran
              obtain ⟨out, rfl⟩ : ∃ out, rest = some out := by
                cases rest with
                | none => cases (call_pure_returns.mp ran).1
                | some out => exact ⟨out, rfl⟩
              obtain ⟨-, rfl⟩ := call_pure_returns.mp ran
              exact ih (quiet.moves takes) takes'

/-- `pipe_write`, if it returns. -/
theorem Quiet.writes (quiet : Quiet s) (ran : (pipeWrite t bytes).run s = .ok (some count, s')) :
    Quiet s' ∧ s'.stored = s.stored ++ bytes := by
  rw [pipeWrite_run] at ran
  obtain ⟨done, middle, puts, ran⟩ := call_bind_returns.mp ran
  cases done with
  | false => cases (call_pure_returns.mp ran).1
  | true =>
      obtain ⟨-, rfl⟩ := call_pure_returns.mp ran
      obtain ⟨quiet', stored⟩ := quiet.puts puts
      have whole : bytes.length ≤ bufsize - s.ioqLength := by
        by_contra many
        have enough : bufsize ≤
            (bytes.take (min bytes.length (bufsize - s.ioqLength))).length + s.ioqLength := by
          rw [List.length_take]
          omega
        cases putBytes_blocks quiet.reachable (quiet.outside t) enough puts
      rw [Nat.min_eq_left whole, List.take_length] at stored
      exact ⟨quiet', stored⟩

/-- `pipe_read` returns. -/
theorem Quiet.reads (quiet : Quiet s) (t : Tid) (count : Nat) :
    ∃ out s', (pipeRead t count).run s = .ok (some out, s') ∧ Quiet s' ∧
      s'.stored = s.stored.drop count := by
  obtain ⟨s', ran, stored⟩ := readTransfers quiet.reachable (quiet.outside t) count
  refine ⟨_, s', ran, ?_, ?_⟩
  · rw [pipeRead_run] at ran
    exact quiet.takes ran
  · rw [stored]
    rcases Nat.le_total count s.stored.length with few | many
    · rw [Nat.min_eq_left few]
    · rw [Nat.min_eq_right many, List.drop_length, List.drop_of_length_le many]

end Ring

/-! ## The descriptors of the shell -/

section Descriptors

open UKernel.Pipe
open UKernel.Fs (maxFilesOpenPerProc maxFileOpen getFreeSlotInGlobal getFreeSlotInGlobal_some
  freeLocalFd freeLocalFd_some)

variable {fds fds' : PipeState} {cur : Pid} {localFd new g i o : Nat} {inPipe outPipe : Bool}
  {setting : Setting Tid}

/-- What `sys_pipe` chose. -/
structure Ends (g i o : Nat) : Prop where
  slot : 3 ≤ g ∧ g < maxFileOpen
  readEnd : 3 ≤ i ∧ i < maxFilesOpenPerProc
  writeEnd : 3 ≤ o ∧ o < maxFilesOpenPerProc
  apart : o ≠ i

/-- The descriptors of the shell: the ends of the pipe, and where the standard input and output
go. -/
structure Wired (setting : Setting Tid) (g i o : Nat) (inPipe outPipe : Bool) (fds : PipeState) :
    Prop where
  input : fds.fdTable setting.pid 0 = some (if inPipe then g else 0)
  output : fds.fdTable setting.pid 1 = some (if outPipe then g else 1)
  readEnd : fds.fdTable setting.pid i = some g
  writeEnd : fds.fdTable setting.pid o = some g
  slot : ∃ page, fds.fileTable g = { fdPos := 2, fdFlag := pipeFlag, fdInode := some page }
  standard : ∀ h < 3, (fds.fileTable h).fdFlag ≠ pipeFlag

end Descriptors

/-! ## The calls of a command -/

section Commands

variable {s s' : System Tid} {setting : Setting Tid} {g i o : Nat} {inPipe outPipe : Bool} {t : Tid}
  {count : Nat} {bytes q : List Byte} {actions : List Action} {command : Command}
  {behaviour : Behaviour Tid} {others : List (Behaviour Tid)}

omit [DecidableEq Tid] in
theorem onFds_run {α : Type} {call : PipeCall α} {a : α} {fds : PipeState}
    (ran : call.run s.fds = .ok (a, fds)) :
    (onFds call).run s = .ok (a, { s with fds := fds }) := by
  rw [onFds, call_bind_of (call_get_returns.mpr ⟨rfl, rfl⟩),
    call_bind_of (call_lift_returns.mpr ⟨ran, rfl⟩)]
  rfl

/-- The shell has a pipe, and nobody waits for its ring. -/
structure Piped (setting : Setting Tid) (g i o : Nat) (inPipe outPipe : Bool) (s : System Tid) :
    Prop where
  ends : Ends g i o
  wired : Wired setting g i o inPipe outPipe s.fds
  quiet : Quiet s.ring
  fd : s.fd = (some i, some o)

/-- What a call leaves that only uses the ring: the bytes in it. -/
structure RingAfter (setting : Setting Tid) (g i o : Nat) (inPipe outPipe : Bool)
    (s s' : System Tid) (q : List Byte) : Prop where
  piped : Piped setting g i o inPipe outPipe s'
  stored : s'.ring.stored = q
  behaviours : s'.behaviours = s.behaviours
  starts : s'.starts = s.starts

theorem Piped.input (piped : Piped setting g i o inPipe outPipe s) :
    (onFds (isPipe setting.pid 0)).run s = .ok (inPipe, s) := by
  have slot : (if inPipe then g else 0) < Fs.maxFileOpen := by
    have := piped.ends.slot
    split
    case isTrue => exact this.2
    case isFalse => omega
  have answer : decide ((s.fds.fileTable (if inPipe then g else 0)).fdFlag = pipeFlag) =
      inPipe := by
    obtain ⟨page, isSlot⟩ := piped.wired.slot
    cases inPipe with
    | true => simp [isSlot]
    | false => simpa using piped.wired.standard 0 (by decide)
  have ran := isPipe_run piped.wired.input (by decide) slot
  rw [answer] at ran
  exact onFds_run ran

theorem Piped.output (piped : Piped setting g i o inPipe outPipe s) :
    (onFds (isPipe setting.pid 1)).run s = .ok (outPipe, s) := by
  have slot : (if outPipe then g else 1) < Fs.maxFileOpen := by
    have := piped.ends.slot
    split
    case isTrue => exact this.2
    case isFalse => omega
  have answer : decide ((s.fds.fileTable (if outPipe then g else 1)).fdFlag = pipeFlag) =
      outPipe := by
    obtain ⟨page, isSlot⟩ := piped.wired.slot
    cases outPipe with
    | true => simp [isSlot]
    | false => simpa using piped.wired.standard 1 (by decide)
  have ran := isPipe_run piped.wired.output (by decide) slot
  rw [answer] at ran
  exact onFds_run ran

theorem RingAfter.trans {s'' : System Tid} {q' : List Byte}
    (first : RingAfter setting g i o inPipe outPipe s s' q)
    (second : RingAfter setting g i o inPipe outPipe s' s'' q') :
    RingAfter setting g i o inPipe outPipe s s'' q' :=
  ⟨second.piped, second.stored, second.behaviours.trans first.behaviours,
    second.starts.trans first.starts⟩

end Commands

/-! ## What commands read -/

section Lists

variable {q before : List Byte} {actions : List Action} {command : Command}
  {behaviour : Behaviour Tid} {commands : List (Command × Behaviour Tid)}

end Lists

/-! ## The main result -/

section Pipelines

variable {s s' : System Tid} {setting : Setting Tid} {g i o : Nat} {ps : List (List Byte)}
  {behaviours : List (Behaviour Tid)} {before : List Byte}

/-- The shell before a pipeline: its standard descriptors are its own, and a pipe can be made. -/
structure Ready (setting : Setting Tid) (behaviours : List (Behaviour Tid)) (s : System Tid) :
    Prop where
  input : s.fds.fdTable setting.pid 0 = some 0
  output : s.fds.fdTable setting.pid 1 = some 1
  standard : ∀ h < 3, (s.fds.fileTable h).fdFlag ≠ pipeFlag
  makes : ∃ i o fds', (sysPipe setting.pid setting.page).run s.fds = .ok ((some i, some o), fds')
  behaviours : s.behaviours = behaviours
  starts : s.starts = []

end Pipelines

/-! ## Two lines -/

end UKernel.Shell
