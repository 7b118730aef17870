import UKernel.Library.Bytes
import UKernel.Library.Layout
import UKernel.Pipe.Descriptor

/-! # The ring of a pipe in memory

`struct ioqueue` of `ioqueue.h` as it lies in memory, with the functions of `ioqueue.c`,
`sync.c` and `list.c` that read and write it, and `pipe_read` and `pipe_write` on top. Every
access is recorded with the ring it is made for. A call gives up the processor where it blocks:
inside `sema_down`, and inside `ioq_wait`.
-/

namespace UKernel.Pipe

open UKernel.Library UKernel.Fs

/-! ## The structures -/

/-- `struct list_elem`: `prev`, `next`. -/
def listElemMembers : List CType := [.pointer, .pointer]

/-- `struct list`: `head`, `tail`. -/
def listMembers : List CType := [.struct listElemMembers, .struct listElemMembers]

/-- `struct semaphore`: `value`, `waiters`. -/
def semaphoreMembers : List CType := [.byte, .struct listMembers]

/-- `struct lock`: `holder`, `semaphore`, `holder_repeat_nr`. -/
def lockMembers : List CType := [.pointer, .struct semaphoreMembers, .word]

/-- `bufsize`. -/
def bufsize : Nat := 4096

/-- `struct ioqueue`: `lock`, `producer`, `consumer`, `buf`, `head`, `tail`. -/
def ioqueueMembers : List CType :=
  [.struct lockMembers, .pointer, .pointer, .array .byte bufsize, .word, .word]

/-- `sizeof(struct ioqueue)`. -/
def ioqueueSize : Nat := (CType.struct ioqueueMembers).size

/-- The part of `struct task_struct` up to `general_tag`. -/
def taskMembers : List CType :=
  [.pointer, .half, .word, .array .byte 16, .byte, .byte, .word, .struct listElemMembers]

/-- The address of a member. -/
def member (base : Word) (members : List CType) (index : Nat) : Word :=
  base + BitVec.ofNat 32 (CType.offset members index)

/-- `&elem->prev`. -/
def prev (elem : Word) : Word := member elem listElemMembers 0

/-- `&elem->next`. -/
def next (elem : Word) : Word := member elem listElemMembers 1

/-- `&plist->head`. -/
def listHead (plist : Word) : Word := member plist listMembers 0

/-- `&plist->tail`. -/
def listTail (plist : Word) : Word := member plist listMembers 1

/-- `&ioq->lock`. -/
def lock (ioq : Word) : Word := member ioq ioqueueMembers 0

/-- `&ioq->producer`. -/
def producer (ioq : Word) : Word := member ioq ioqueueMembers 1

/-- `&ioq->consumer`. -/
def consumer (ioq : Word) : Word := member ioq ioqueueMembers 2

/-- `&ioq->buf[index]`. -/
def buf (ioq index : Word) : Word := member ioq ioqueueMembers 3 + index

/-- `&ioq->head`. -/
def head (ioq : Word) : Word := member ioq ioqueueMembers 4

/-- `&ioq->tail`. -/
def tail (ioq : Word) : Word := member ioq ioqueueMembers 5

/-- `&plock->holder`. -/
def holder (plock : Word) : Word := member plock lockMembers 0

/-- `&plock->semaphore`. -/
def semaphore (plock : Word) : Word := member plock lockMembers 1

/-- `&plock->holder_repeat_nr`. -/
def holderRepeatNr (plock : Word) : Word := member plock lockMembers 2

/-- `&psema->value`. -/
def value (psema : Word) : Word := member psema semaphoreMembers 0

/-- `&psema->waiters`. -/
def waiters (psema : Word) : Word := member psema semaphoreMembers 1

/-- `&pthread->general_tag`, for a process whose control block is at the address. -/
def generalTag (pthread : Word) : Word := member pthread taskMembers 7

/-! ## The state -/

/-- A range of bytes that was read or written for a ring. -/
structure Access where
  ioq : Word
  addr : Word
  len : Nat
  deriving DecidableEq, Repr

/-- Where a call has given up the processor. -/
inductive Point where
  /-- In `thread_block`, called by `sema_down`. -/
  | semaDown
  /-- In `thread_block`, called by `ioq_wait`. -/
  | ioqWait
  deriving DecidableEq, Repr

/-- What is left of a call: the bytes to write, or the number of bytes to read. -/
inductive Transfer where
  | write (bytes : List Byte)
  | read (count : Nat)
  deriving DecidableEq, Repr

/-- A blocked call of a process. -/
structure Parked where
  ioq : Word
  point : Point
  transfer : Transfer
  awake : Bool
  deriving DecidableEq, Repr

/-- The descriptors, the kernel's memory and the blocked calls. A process is named by the
address of its control block. -/
structure Rings where
  files : PipeState
  mem : Memory
  accesses : List Access
  parked : Nat → Option Parked

/-- A call that reads and changes rings. -/
abbrev RingCall (α : Type) := Call Rings α

/-! ## Memory accesses -/

/-- Record an access. -/
def record (ioq addr : Word) (len : Nat) : RingCall Unit :=
  modify fun s => { s with accesses := ⟨ioq, addr, len⟩ :: s.accesses }

/-- Read a word. -/
def loadWord (ioq addr : Word) : RingCall Word := do
  record ioq addr 4
  let s ← get
  return getWord s.mem addr.toNat

/-- Write a word. -/
def storeWord (ioq addr w : Word) : RingCall Unit := do
  record ioq addr 4
  modify fun s => { s with mem := s.mem.splice addr.toNat (wordByte w) 4 }

/-- Read a byte. -/
def loadByte (ioq addr : Word) : RingCall Byte := do
  record ioq addr 1
  let s ← get
  return s.mem addr.toNat

/-- Write a byte. -/
def storeByte (ioq addr : Word) (byte : Byte) : RingCall Unit := do
  record ioq addr 1
  modify fun s => { s with mem := Function.update s.mem addr.toNat byte }

/-! ## `list.c` -/

/-- `list_init`. -/
def listInit (ioq plist : Word) : RingCall Unit := do
  storeWord ioq (prev (listHead plist)) 0
  storeWord ioq (next (listHead plist)) (listTail plist)
  storeWord ioq (prev (listTail plist)) (listHead plist)
  storeWord ioq (next (listTail plist)) 0

/-- `list_insert_before`. -/
def listInsertBefore (ioq before elem : Word) : RingCall Unit := do
  storeWord ioq (next (← loadWord ioq (prev before))) elem
  storeWord ioq (prev elem) (← loadWord ioq (prev before))
  storeWord ioq (next elem) before
  storeWord ioq (prev before) elem

/-- `list_append`. -/
def listAppend (ioq plist elem : Word) : RingCall Unit :=
  listInsertBefore ioq (listTail plist) elem

/-- `list_remove`. -/
def listRemove (ioq pelem : Word) : RingCall Unit := do
  storeWord ioq (next (← loadWord ioq (prev pelem))) (← loadWord ioq (next pelem))
  storeWord ioq (prev (← loadWord ioq (next pelem))) (← loadWord ioq (prev pelem))

/-- `list_pop`. -/
def listPop (ioq plist : Word) : RingCall Word := do
  let elem ← loadWord ioq (next (listHead plist))
  listRemove ioq elem
  return elem

/-- `list_empty`. -/
def listEmpty (ioq plist : Word) : RingCall Bool := do
  return (← loadWord ioq (next (listHead plist))) = listTail plist

/-- The loop of `elem_find`. A list that is longer than memory is a cycle. -/
def elemFindFrom (ioq plist objElem : Word) : Nat → Word → RingCall Bool
  | 0, _ => throw .diverges
  | fuel + 1, elem =>
      if elem = listTail plist then
        return false
      else if elem = objElem then
        return true
      else do
        elemFindFrom ioq plist objElem fuel (← loadWord ioq (next elem))

/-- `elem_find`. -/
def elemFind (ioq plist objElem : Word) : RingCall Bool := do
  elemFindFrom ioq plist objElem (2 ^ 32) (← loadWord ioq (next (listHead plist)))

/-! ## Blocking and waking -/

/-- `thread_block`: the call of the running process is parked. -/
def threadBlock (cur : Word) (ioq : Word) (point : Point) (transfer : Transfer) :
    RingCall Unit :=
  modify fun s => { s with
    parked := Function.update s.parked cur.toNat (some ⟨ioq, point, transfer, false⟩) }

/-- `thread_unblock`. -/
def threadUnblock (pthread : Word) : RingCall Unit := do
  match (← get).parked pthread.toNat with
  | none => throw .assertion
  | some call =>
      require (call.awake = false)
      modify fun s => { s with
        parked := Function.update s.parked pthread.toNat (some { call with awake := true }) }

/-! ## `sync.c` -/

/-- `sema_init`. -/
def semaInit (ioq psema : Word) (initial : Byte) : RingCall Unit := do
  storeByte ioq (value psema) initial
  listInit ioq (waiters psema)

/-- `lock_init`. -/
def lockInit (ioq plock : Word) : RingCall Unit := do
  storeWord ioq (holder plock) 0
  storeWord ioq (holderRepeatNr plock) 0
  semaInit ioq (semaphore plock) 1

/-- `sema_down`, up to its return (`true`) or to the call of `thread_block`. -/
def semaDown (cur ioq psema : Word) : RingCall Bool := do
  if (← loadByte ioq (value psema)) = 0 then
    require (¬ (← elemFind ioq (waiters psema) (generalTag cur)))
    require (¬ (← elemFind ioq (waiters psema) (generalTag cur)))
    listAppend ioq (waiters psema) (generalTag cur)
    return false
  else
    storeByte ioq (value psema) ((← loadByte ioq (value psema)) - 1)
    require ((← loadByte ioq (value psema)) = 0)
    return true

/-- `sema_up`. -/
def semaUp (ioq psema : Word) : RingCall Unit := do
  require ((← loadByte ioq (value psema)) = 0)
  if ¬ (← listEmpty ioq (waiters psema)) then
    let elem ← listPop ioq (waiters psema)
    threadUnblock (elem - BitVec.ofNat 32 (CType.offset taskMembers 7))
  storeByte ioq (value psema) ((← loadByte ioq (value psema)) + 1)
  require ((← loadByte ioq (value psema)) = 1)

/-- The part of `lock_acquire` after `sema_down`. -/
def takeLock (cur ioq plock : Word) : RingCall Unit := do
  storeWord ioq (holder plock) cur
  require ((← loadWord ioq (holderRepeatNr plock)) = 0)
  storeWord ioq (holderRepeatNr plock) 1

/-- `lock_acquire`, up to its return (`true`) or to the call of `thread_block`. -/
def lockAcquire (cur ioq plock : Word) : RingCall Bool := do
  if (← loadWord ioq (holder plock)) ≠ cur then
    if ← semaDown cur ioq (semaphore plock) then
      takeLock cur ioq plock
      return true
    else
      return false
  else
    storeWord ioq (holderRepeatNr plock) ((← loadWord ioq (holderRepeatNr plock)) + 1)
    return true

/-- `lock_release`. -/
def lockRelease (cur ioq plock : Word) : RingCall Unit := do
  require ((← loadWord ioq (holder plock)) = cur)
  if (← loadWord ioq (holderRepeatNr plock)) > 1 then
    storeWord ioq (holderRepeatNr plock) ((← loadWord ioq (holderRepeatNr plock)) - 1)
  else
    require ((← loadWord ioq (holderRepeatNr plock)) = 1)
    storeWord ioq (holder plock) 0
    storeWord ioq (holderRepeatNr plock) 0
    semaUp ioq (semaphore plock)

/-! ## `ioqueue.c` -/

/-- `ioqueue_init`. -/
def ioqueueInit (ioq : Word) : RingCall Unit := do
  lockInit ioq (lock ioq)
  storeWord ioq (consumer ioq) 0
  storeWord ioq (producer ioq) 0
  storeWord ioq (tail ioq) 0
  storeWord ioq (head ioq) 0

/-- `next_pos`, on signed integers. -/
def nextPos (pos : Word) : Word :=
  (pos + 1).srem (BitVec.ofNat 32 bufsize)

/-- `ioq_full`. -/
def ioqFull (ioq : Word) : RingCall Bool := do
  return nextPos (← loadWord ioq (head ioq)) = (← loadWord ioq (tail ioq))

/-- `ioq_empty`. -/
def ioqEmpty (ioq : Word) : RingCall Bool := do
  return (← loadWord ioq (head ioq)) = (← loadWord ioq (tail ioq))

/-- `ioq_wait`, up to the call of `thread_block`. -/
def ioqWait (cur ioq waiter : Word) : RingCall Unit := do
  require ((← loadWord ioq waiter) = 0 ∧ waiter ≠ 0)
  storeWord ioq waiter cur

/-- `wakeup`. -/
def wakeup (ioq waiter : Word) : RingCall Unit := do
  require ((← loadWord ioq waiter) ≠ 0)
  threadUnblock (← loadWord ioq waiter)
  storeWord ioq waiter 0

/-- `ioq_length`, with the signed comparison of the source. -/
def ioqLength (ioq : Word) : RingCall Word := do
  let h ← loadWord ioq (head ioq)
  let t ← loadWord ioq (tail ioq)
  if t.toInt ≤ h.toInt then
    return (← loadWord ioq (head ioq)) - (← loadWord ioq (tail ioq))
  else
    return BitVec.ofNat 32 bufsize - ((← loadWord ioq (tail ioq)) - (← loadWord ioq (head ioq)))

/-- `lock_acquire` and `ioq_wait` in the loops of `ioq_getchar` and `ioq_putchar`: the call
blocks for the lock, or with the lock for the other side. -/
def waitFor (cur ioq waiter : Word) (transfer : Transfer) : RingCall Unit := do
  if ← lockAcquire cur ioq (lock ioq) then
    ioqWait cur ioq waiter
    threadBlock cur ioq .ioqWait transfer
  else
    threadBlock cur ioq .semaDown transfer

/-- The rest of `ioq_putchar`, once the ring is not full. -/
def putByte (ioq : Word) (byte : Byte) : RingCall Unit := do
  storeByte ioq (buf ioq (← loadWord ioq (head ioq))) byte
  storeWord ioq (head ioq) (nextPos (← loadWord ioq (head ioq)))
  if (← loadWord ioq (consumer ioq)) ≠ 0 then
    wakeup ioq (consumer ioq)

/-- The rest of `ioq_getchar`, once the ring is not empty. -/
def takeByte (ioq : Word) : RingCall Byte := do
  let byte ← loadByte ioq (buf ioq (← loadWord ioq (tail ioq)))
  storeWord ioq (tail ioq) (nextPos (← loadWord ioq (tail ioq)))
  if (← loadWord ioq (producer ioq)) ≠ 0 then
    wakeup ioq (producer ioq)
  return byte

/-- The loop of `pipe_write`, up to its end or to the point where a call of `ioq_putchar`
blocks. -/
def putBytes (cur ioq : Word) : List Byte → RingCall Unit
  | [] => pure ()
  | byte :: rest => do
      if ← ioqFull ioq then
        waitFor cur ioq (producer ioq) (.write (byte :: rest))
      else
        putByte ioq byte
        putBytes cur ioq rest

/-- The loop of `pipe_read`, up to its end or to the point where a call of `ioq_getchar`
blocks; with the bytes read so far. -/
def takeBytes (cur ioq : Word) : Nat → RingCall (List Byte)
  | 0 => return []
  | left + 1 => do
      if ← ioqEmpty ioq then
        waitFor cur ioq (consumer ioq) (.read (left + 1))
        return []
      else
        let byte ← takeByte ioq
        return byte :: (← takeBytes cur ioq left)

/-- The rest of a call. -/
def transferBytes (cur ioq : Word) : Transfer → RingCall Unit
  | .write bytes => putBytes cur ioq bytes
  | .read count => do
      let _ ← takeBytes cur ioq count

/-- A blocked call goes on after `thread_block` returned. -/
def resume (cur : Word) (call : Parked) : RingCall Unit := do
  modify fun s => { s with parked := Function.update s.parked cur.toNat none }
  match call.point with
  | .semaDown =>
      if ← semaDown cur call.ioq (semaphore (lock call.ioq)) then
        takeLock cur call.ioq (lock call.ioq)
        ioqWait cur call.ioq (waiterOf call)
        threadBlock cur call.ioq .ioqWait call.transfer
      else
        threadBlock cur call.ioq .semaDown call.transfer
  | .ioqWait =>
      lockRelease cur call.ioq (lock call.ioq)
      transferBytes cur call.ioq call.transfer
where
  /-- The side of the ring that a call waits on. -/
  waiterOf (call : Parked) : Word :=
    if let .write _ := call.transfer then producer call.ioq else consumer call.ioq

/-! ## The calls -/

/-- A call on the descriptors. -/
def onFiles {α : Type} (call : PipeCall α) : RingCall α := do
  let s ← get
  let (a, files) ← call.run s.files
  modify fun s => { s with files := files }
  return a

/-- `PG_SIZE`. -/
def pgSize : Nat := 4096

/-- `sys_pipe`. The page that `get_kernel_pages` returns is filled with zeros. -/
def makePipe (cur : Word) (page : Option Nat) : RingCall Unit := do
  let _ ← onFiles (sysPipe cur.toNat page)
  if let some ring := page then
    modify fun s => { s with mem := s.mem.splice ring Memory.zeros pgSize }
    ioqueueInit (BitVec.ofNat 32 ring)

/-- The ring that a descriptor refers to. -/
def ringOf (cur : Word) (fd : Nat) : RingCall Word := do
  let globalFd ← onFiles (fdLocal2global cur.toNat fd)
  match ((← get).files.fileTable globalFd).fdInode with
  | none => throw .badPointer
  | some ring => return BitVec.ofNat 32 ring

/-- `pipe_write`. -/
def pipeWrite (cur : Word) (fd : Nat) (bytes : List Byte) : RingCall Unit := do
  let ioq ← ringOf cur fd
  let ioqLeft := BitVec.ofNat 32 bufsize - (← ioqLength ioq)
  let count := BitVec.ofNat 32 bytes.length
  let size := if ioqLeft > count then count else ioqLeft
  putBytes cur ioq (bytes.take size.toNat)

/-- `pipe_read`. -/
def pipeRead (cur : Word) (fd : Nat) (count : Word) : RingCall Unit := do
  let ioq ← ringOf cur fd
  let ioqLen ← ioqLength ioq
  let size := if ioqLen > count then count else ioqLen
  let _ ← takeBytes cur ioq size.toNat

/-- What happens next on the pipes. -/
inductive RingOp where
  /-- `sys_pipe`, with the page of the ring. -/
  | pipe (cur : Word) (page : Option Nat)
  /-- `sys_write`, which calls `pipe_write` for a descriptor of a pipe. -/
  | write (cur : Word) (fd : Nat) (bytes : List Byte)
  /-- `sys_read`, which calls `pipe_read` for a descriptor of a pipe. -/
  | read (cur : Word) (fd : Nat) (count : Word)
  /-- A blocked call that was woken goes on. -/
  | resume (cur : Word) (call : Parked)
  deriving DecidableEq, Repr

/-- Take one step. A descriptor that is no pipe's is a file's, which is not part of this
state. -/
def ringExec : RingOp → RingCall Unit
  | .pipe cur page => makePipe cur page
  | .write cur fd bytes => do
      if ← onFiles (isPipe cur.toNat fd) then
        pipeWrite cur fd bytes
  | .read cur fd count => do
      if ← onFiles (isPipe cur.toNat fd) then
        pipeRead cur fd count
  | .resume cur call => resume cur call

/-- The address from which on the page tables are mapped. -/
def pageTables : Nat := 0xffc00000

/-- When a step can be taken: a process whose call is parked makes no other, and the page of a
new ring is a page below the page tables that holds no ring and no control block. -/
def RingEnabled (s : Rings) : RingOp → Prop
  | .pipe cur page => cur.toNat ∈ s.files.live ∧ s.parked cur.toNat = none ∧
      ∀ ring ∈ page, ring % pgSize = 0 ∧ 0 < ring ∧ ring < pageTables ∧
        ring ∉ s.files.rings ∧ ring ∉ s.files.live
  | .write cur _ bytes => cur.toNat ∈ s.files.live ∧ s.parked cur.toNat = none ∧
      bytes.length < 2 ^ 32
  | .read cur _ _ => cur.toNat ∈ s.files.live ∧ s.parked cur.toNat = none
  | .resume cur call => s.parked cur.toNat = some call ∧ call.awake = true

/-- Any number of processes and pipes, from a state without pipes. -/
def rings : TransitionSystem Rings RingOp where
  initial s := ∃ live mem, s = ⟨noPipes live, mem, [], fun _ => none⟩
  step s op next := RingEnabled s op ∧ (ringExec op).run s = .ok ((), next)

end UKernel.Pipe
