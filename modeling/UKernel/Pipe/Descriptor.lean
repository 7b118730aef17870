import UKernel.Fs.FileTable
import UKernel.Library.Count
import UKernel.Library.Transition

/-! # Pipe descriptors

The file table and the descriptor tables of any number of processes, and the calls that make,
copy, move and drop references to a pipe (`UKernel.Pipe.descriptors`). A pipe is a slot of the
file table whose `fd_flag` is `PIPE_FLAG`; its `fd_inode` points to the page of its ring and its
`fd_pos` counts its descriptors. Each call runs with interrupts off and is one step.
-/

namespace UKernel.Pipe

open UKernel.Library UKernel.Fs

/-- A process. -/
abbrev Pid := Nat

/-- A slot of `file_table`. For a pipe `fd_inode` is the address of the ring's page. -/
structure Slot where
  fdPos : Word
  fdFlag : Word
  fdInode : Option Nat
  deriving DecidableEq, Repr

/-- `PIPE_FLAG`. -/
def pipeFlag : Word := 0xffff

/-- The file table, the live processes with their `fd_table`, and the pages that hold a ring:
those which `get_kernel_pages` gave to `sys_pipe` and which were not given back. -/
structure PipeState where
  fileTable : Nat → Slot
  live : Finset Pid
  fdTable : Pid → Nat → Option Nat
  rings : Finset Nat

/-- A call that reads and changes descriptors. -/
abbrev PipeCall (α : Type) := Call PipeState α

namespace PipeState

/-- Rewrite a slot of the file table. -/
def setSlot (s : PipeState) (globalFd : Nat) (slot : Slot) : PipeState :=
  { s with fileTable := Function.update s.fileTable globalFd slot }

/-- Rewrite an entry of a process's `fd_table`. -/
def setFd (s : PipeState) (cur : Pid) (localFd : Nat) (globalFd : Option Nat) : PipeState :=
  { s with
    fdTable := Function.update s.fdTable cur
      (Function.update (s.fdTable cur) localFd globalFd) }

section

variable {s : PipeState} {cur : Pid} {g globalFd localFd : Nat} {slot : Slot} {new : Option Nat}

theorem fileTable_setSlot : (s.setSlot globalFd slot).fileTable g =
    if g = globalFd then slot else s.fileTable g :=
  Function.update_apply s.fileTable globalFd slot g

@[simp] theorem live_setSlot : (s.setSlot globalFd slot).live = s.live := rfl

@[simp] theorem fdTable_setSlot : (s.setSlot globalFd slot).fdTable = s.fdTable := rfl

@[simp] theorem rings_setSlot : (s.setSlot globalFd slot).rings = s.rings := rfl

@[simp] theorem fileTable_setFd : (s.setFd cur localFd new).fileTable = s.fileTable := rfl

@[simp] theorem live_setFd : (s.setFd cur localFd new).live = s.live := rfl

@[simp] theorem rings_setFd : (s.setFd cur localFd new).rings = s.rings := rfl

theorem fdTable_setFd {pid fd : Nat} : (s.setFd cur localFd new).fdTable pid fd =
    if pid = cur ∧ fd = localFd then new else s.fdTable pid fd := by
  by_cases samePid : pid = cur
  · by_cases sameFd : fd = localFd <;> simp [setFd, samePid, sameFd]
  · simp [setFd, samePid]

end

end PipeState

/-- Read an entry of the running process's `fd_table`. The array has eight entries; for a greater
number the code reads the members of the task behind it as a slot, and the run ends here. -/
def fdEntry (cur : Pid) (localFd : Nat) : PipeCall (Option Nat) := do
  if localFd < maxFilesOpenPerProc then
    let s ← get
    return s.fdTable cur localFd
  else
    throw .outOfBounds

/-- `fd_local2global`. -/
def fdLocal2global (cur : Pid) (localFd : Nat) : PipeCall Nat := do
  match ← fdEntry cur localFd with
  | none => throw .assertion
  | some globalFd =>
      require (globalFd < maxFileOpen)
      return globalFd

/-- `is_pipe`. -/
def isPipe (cur : Pid) (localFd : Nat) : PipeCall Bool := do
  let globalFd ← fdLocal2global cur localFd
  let s ← get
  return (s.fileTable globalFd).fdFlag = pipeFlag

/-- What `sys_close` and `release_prog_resource` do with a descriptor of a pipe: one
reference less, and the ring's page is given back with the last one. -/
def dropReference (globalFd : Nat) : PipeCall Unit := do
  let s ← get
  let slot := s.fileTable globalFd
  let fdPos := slot.fdPos - 1
  if fdPos = 0 then
    if let some page := slot.fdInode then
      modify fun s => { s.setSlot globalFd { slot with fdPos := fdPos, fdInode := none } with
        rings := s.rings.erase page }
    else
      throw .badPointer
  else
    modify fun s => s.setSlot globalFd { slot with fdPos := fdPos }

/-- `file_close`; the inode it closes is not part of this state. -/
def fileClose (globalFd : Nat) : PipeCall Unit := do
  let s ← get
  let slot := s.fileTable globalFd
  if slot.fdInode = none then
    throw .badPointer
  else
    modify fun s => s.setSlot globalFd { slot with fdInode := none }

/-- `sys_close`. -/
def sysClose (cur : Pid) (fd : Int) : PipeCall Int := do
  if 2 < fd then
    let globalFd ← fdLocal2global cur fd.toNat
    if ← isPipe cur fd.toNat then
      dropReference globalFd
    else
      fileClose globalFd
    modify fun s => s.setFd cur fd.toNat none
    return 0
  else
    return -1

/-- `pcb_fd_install`. -/
def pcbFdInstall (cur : Pid) (globalFd : Nat) : PipeCall (Option Nat) := do
  let s ← get
  let (localFd, fdTable) := Fs.pcbFdInstall (s.fdTable cur) globalFd
  modify fun s => { s with fdTable := Function.update s.fdTable cur fdTable }
  return localFd

/-- `sys_pipe`, with the page `get_kernel_pages` returns. With a full file table the slot `-1`
is written, and without a page `ioqueue_init` writes to address zero. -/
def sysPipe (cur : Pid) (page : Option Nat) : PipeCall (Option Nat × Option Nat) := do
  let s ← get
  match getFreeSlotInGlobal fun g => (s.fileTable g).fdInode.isNone with
  | none => throw .outOfBounds
  | some globalFd =>
      if let some ring := page then
        modify fun s => { s.setSlot globalFd
          { fdPos := 2, fdFlag := pipeFlag, fdInode := some ring } with
          rings := insert ring s.rings }
        let readEnd ← pcbFdInstall cur globalFd
        let writeEnd ← pcbFdInstall cur globalFd
        return (readEnd, writeEnd)
      else
        throw .badPointer

/-- The loop of `update_inode_open_cnts` over the given entries. The child's entries are those
of the running process. -/
def updateInodeOpenCnts (cur : Pid) : List Nat → PipeCall Unit
  | [] => pure ()
  | localFd :: rest => do
      if let some globalFd := (← get).fdTable cur localFd then
        require (globalFd < maxFileOpen)
        let slot := (← get).fileTable globalFd
        if ← isPipe cur localFd then
          modify fun s => s.setSlot globalFd { slot with fdPos := slot.fdPos + 1 }
        else if slot.fdInode = none then
          throw .badPointer
      updateInodeOpenCnts cur rest

/-- The entries that belong to files a process opened itself. -/
def openedFds : List Nat := List.range' 3 (maxFilesOpenPerProc - 3)

/-- `sys_fork`, when there is memory for the child. -/
def sysFork (cur child : Pid) : PipeCall Unit := do
  updateInodeOpenCnts cur openedFds
  modify fun s => { s with
    live := insert child s.live
    fdTable := Function.update s.fdTable child (s.fdTable cur) }

/-- The loop of `release_prog_resource` over the given entries. -/
def releaseFds (cur : Pid) : List Nat → PipeCall Unit
  | [] => pure ()
  | localFd :: rest => do
      if (← get).fdTable cur localFd ≠ none then
        if ← isPipe cur localFd then
          let globalFd ← fdLocal2global cur localFd
          dropReference globalFd
        else
          let _ ← sysClose cur localFd
      releaseFds cur rest

/-- `sys_exit`: the process's descriptors are released, and it lives no more. -/
def sysExit (cur : Pid) : PipeCall Unit := do
  releaseFds cur openedFds
  modify fun s => { s with live := s.live.erase cur }

/-- The entry that `sys_fd_redirect` stores. -/
def redirectTarget (s : PipeState) (cur : Pid) (newLocalFd : Nat) : Option Nat :=
  if newLocalFd < 3 then some newLocalFd else s.fdTable cur newLocalFd

/-- `sys_fd_redirect`. -/
def sysFdRedirect (cur : Pid) (oldLocalFd newLocalFd : Nat) : PipeCall Unit := do
  if oldLocalFd < maxFilesOpenPerProc ∧ newLocalFd < maxFilesOpenPerProc then
    modify fun s => s.setFd cur oldLocalFd (redirectTarget s cur newLocalFd)
  else
    throw .outOfBounds

/-- The word that `sys_lseek` reads as the `i_size` of a ring: the value of the semaphore in
its lock, which no process holds, and zero padding. -/
def ringISize : Word := 1

/-- The position that `sys_lseek` computes. -/
def lseekTarget (fdPos offset fileSize : Word) (whence : Nat) : Word :=
  if whence = 1 then offset
  else if whence = 2 then fdPos + offset
  else fileSize + offset

/-- `sys_lseek`. -/
def sysLseek (cur : Pid) (fd : Int) (offset : Word) (whence : Nat) : PipeCall Int := do
  if fd < 0 then
    return -1
  require (0 < whence ∧ whence < 4)
  let globalFd ← fdLocal2global cur fd.toNat
  let slot := (← get).fileTable globalFd
  if slot.fdInode = none then
    throw .badPointer
  let newPos := lseekTarget slot.fdPos offset ringISize whence
  if newPos.toInt < 0 ∨ newPos.toInt > ringISize.toInt - 1 then
    return -1
  modify fun s => s.setSlot globalFd { slot with fdPos := newPos }
  return newPos.toInt

/-! ## The system -/

/-- A call by a process. -/
inductive PipeOp where
  /-- `sys_pipe`. -/
  | pipe (cur : Pid) (page : Option Nat)
  /-- `sys_fork`; without a child there was no memory for it. -/
  | fork (cur : Pid) (child : Option Pid)
  /-- `sys_close`. -/
  | close (cur : Pid) (fd : Int)
  /-- `sys_fd_redirect`. -/
  | fdRedirect (cur : Pid) (oldLocalFd newLocalFd : Nat)
  /-- `sys_lseek`. -/
  | lseek (cur : Pid) (fd : Int) (offset : Word) (whence : Nat)
  /-- `sys_exit`. -/
  | exit (cur : Pid)
  deriving DecidableEq, Repr

namespace PipeOp

/-- The process that makes the call. -/
def caller : PipeOp → Pid
  | pipe cur _ => cur
  | fork cur _ => cur
  | close cur _ => cur
  | fdRedirect cur _ _ => cur
  | lseek cur _ _ _ => cur
  | exit cur => cur

/-- What a call needs of its surroundings: a page that holds no ring, and a process number
that is free. -/
def Fresh (s : PipeState) : PipeOp → Prop
  | pipe _ (some page) => page ∉ s.rings
  | fork _ (some child) => child ∉ s.live ∧ child < 1024
  | _ => True

end PipeOp

/-- Make a call. -/
def pipeExec : PipeOp → PipeCall Unit
  | .pipe cur page => do let _ ← sysPipe cur page
  | .fork cur (some child) => sysFork cur child
  | .fork _ none => pure ()
  | .close cur fd => do let _ ← sysClose cur fd
  | .fdRedirect cur oldLocalFd newLocalFd => sysFdRedirect cur oldLocalFd newLocalFd
  | .lseek cur fd offset whence => do let _ ← sysLseek cur fd offset whence
  | .exit cur => sysExit cur

/-- The `fd_table` that `init_thread` fills in. -/
def standardFds (localFd : Nat) : Option Nat :=
  if localFd < 3 then some localFd else none

/-- The state before the first pipe: no slot of the file table is in use, and each process has
its standard descriptors. -/
def noPipes (live : Finset Pid) : PipeState where
  fileTable := fun _ => { fdPos := 0, fdFlag := 0, fdInode := none }
  live := live
  fdTable := fun _ => standardFds
  rings := ∅

/-- Processes that share pipes, under every interleaving of their calls. There are 1024
process numbers. -/
def descriptors : TransitionSystem PipeState PipeOp where
  initial s := ∃ live, (∀ pid ∈ live, pid < 1024) ∧ s = noPipes live
  step s op next := op.caller ∈ s.live ∧ op.Fresh s ∧ (pipeExec op).run s = .ok ((), next)

end UKernel.Pipe
