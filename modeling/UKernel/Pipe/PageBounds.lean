import UKernel.Pipe.IoQueue
import UKernel.Pipe.References

/-! # The ring does not fit into its page

`struct ioqueue` takes 4140 bytes, and `sys_pipe` gives it a page of 4096: the last 36 bytes of
`buf`, and `head` and `tail`, lie behind the page. As `ioqueue_init` writes `head` and `tail`,
the accesses of a run stay inside the pages exactly when the run makes no pipe
(`UKernel.Pipe.accesses_inPage_iff`); with two rings on adjacent pages, a byte written
to one pipe changes the other (`UKernel.Pipe.write_changes_other_pipe`).
-/

namespace UKernel.Pipe

open UKernel.Library UKernel.Fs

variable {s s' : Rings} {α : Type}

/-- Accesses are recorded and never forgotten. -/
def Grows (s s' : Rings) : Prop :=
  ∀ access ∈ s.accesses, access ∈ s'.accesses

instance : Std.Refl Grows := ⟨fun _ _ member => member⟩

instance : IsTrans Rings Grows := ⟨fun _ _ _ first second access member =>
  second access (first access member)⟩

/-- A computation that keeps every access on record. -/
abbrev Records (call : RingCall α) : Prop := Keeps Grows call

/-- Two calls, one after the other, that keep every access on record. -/
theorem Records.bind {β : Type} {first : RingCall α} {second : α → RingCall β}
    (one : Records first) (two : ∀ a, Records (second a)) : Records (first >>= second) :=
  Keeps.bind one two

/-- Returning keeps every access on record. -/
theorem Records.pure (a : α) : Records (Pure.pure a) := Keeps.pure a

/-- Recording an access keeps the earlier ones. -/
theorem record_records (ioq addr : Word) (len : Nat) : Records (record ioq addr len) := by
  intro s a s' ran
  cases call_modify_returns.mp ran
  exact fun access member => List.mem_cons_of_mem _ member

/-- Reading the state keeps every access on record. -/
theorem get_records : Records (get : RingCall Rings) := by
  intro s a s' ran
  obtain ⟨rfl, rfl⟩ := call_get_returns.mp ran
  exact fun access member => member

/-- A change that leaves the record alone. -/
theorem modify_records {f : Rings → Rings} (same : ∀ s, (f s).accesses = s.accesses) :
    Records (modify f) := by
  intro s a s' ran
  cases call_modify_returns.mp ran
  intro access member
  rwa [same]

/-- A check keeps every access on record. -/
theorem lift_records (result : Except Fault α) : Records (liftM result : RingCall α) := by
  intro s a s' ran
  obtain ⟨-, rfl⟩ := call_lift_returns.mp ran
  exact fun access member => member

/-- A call that stops the machine leaves nothing behind. -/
theorem throw_records (fault : Fault) : Records (throw fault : RingCall α) := by
  intro s a s' ran
  exact (call_throw_returns ran).elim

attribute [grind ←] Records.bind Records.pure record_records get_records modify_records
  lift_records throw_records

section

variable (ioq addr plist elem cur waiter psema plock w : Word) (byte : Byte)

/-- Reading a word. -/
theorem loadWord_records : Records (loadWord ioq addr) := by
  grind [loadWord]

/-- Writing a word. -/
theorem storeWord_records : Records (storeWord ioq addr w) := by
  grind [storeWord]

/-- Reading a byte. -/
theorem loadByte_records : Records (loadByte ioq addr) := by
  grind [loadByte]

/-- Writing a byte. -/
theorem storeByte_records : Records (storeByte ioq addr byte) := by
  grind [storeByte]

attribute [grind ←] loadWord_records storeWord_records loadByte_records storeByte_records

/-- `list_init` keeps every access on record. -/
theorem listInit_records : Records (listInit ioq plist) := by
  grind [listInit]

/-- `list_append` keeps every access on record. -/
theorem listAppend_records : Records (listAppend ioq plist elem) := by
  unfold listAppend listInsertBefore
  repeat' first
    | with_reducible refine .bind ?_ fun _ => ?_
    | exact loadWord_records _ _
    | exact storeWord_records _ _ _

/-- `list_remove` keeps every access on record. -/
theorem listRemove_records : Records (listRemove ioq elem) := by
  unfold listRemove
  repeat' first
    | with_reducible refine .bind ?_ fun _ => ?_
    | exact loadWord_records _ _
    | exact storeWord_records _ _ _

/-- `list_pop` keeps every access on record. -/
theorem listPop_records : Records (listPop ioq plist) :=
  .bind (loadWord_records _ _) fun _ => .bind (listRemove_records _ _) fun _ => .pure _

/-- `list_empty` keeps every access on record. -/
theorem listEmpty_records : Records (listEmpty ioq plist) := by
  grind [listEmpty]

/-- The loop of `elem_find` keeps every access on record, however long it runs. -/
theorem elemFindFrom_records (fuel : Nat) (from_ : Word) :
    Records (elemFindFrom ioq plist elem fuel from_) := by
  induction fuel generalizing from_ with
  | zero => exact throw_records .diverges
  | succ fuel ih => grind [elemFindFrom]

/-- `elem_find` keeps every access on record. -/
theorem elemFind_records : Records (elemFind ioq plist elem) := by
  exact .bind (loadWord_records _ _) fun elem' => elemFindFrom_records _ _ _ _ elem'

/-- `thread_block` accesses no ring. -/
theorem threadBlock_records (point : Point) (transfer : Transfer) :
    Records (threadBlock cur ioq point transfer) := by
  grind [threadBlock]

/-- `thread_unblock` accesses no ring. -/
theorem threadUnblock_records : Records (threadUnblock cur) := by
  grind [threadUnblock]

attribute [grind ←] listInit_records listAppend_records listPop_records listEmpty_records
  elemFind_records threadBlock_records threadUnblock_records

/-- `lock_init` keeps every access on record. -/
theorem lockInit_records : Records (lockInit ioq plock) := by
  grind [lockInit, semaInit]

/-- `sema_down` keeps every access on record. -/
theorem semaDown_records : Records (semaDown cur ioq psema) := by
  grind [semaDown]

/-- `sema_up` keeps every access on record. -/
theorem semaUp_records : Records (semaUp ioq psema) := by
  unfold semaUp
  repeat' first
    | with_reducible refine .bind ?_ fun _ => ?_
    | split
    | grind

/-- The end of `lock_acquire` keeps every access on record. -/
theorem takeLock_records : Records (takeLock cur ioq plock) := by
  grind [takeLock]

attribute [grind ←] lockInit_records semaDown_records semaUp_records takeLock_records

/-- `lock_acquire` keeps every access on record. -/
theorem lockAcquire_records : Records (lockAcquire cur ioq plock) := by
  grind [lockAcquire]

/-- `lock_release` keeps every access on record. -/
theorem lockRelease_records : Records (lockRelease cur ioq plock) := by
  unfold lockRelease
  repeat' first
    | with_reducible refine .bind ?_ fun _ => ?_
    | split
    | grind

/-- `ioqueue_init` keeps every access on record. -/
theorem ioqueueInit_records : Records (ioqueueInit ioq) := by
  grind [ioqueueInit]

/-- `ioq_wait` keeps every access on record. -/
theorem ioqWait_records : Records (ioqWait cur ioq waiter) := by
  grind [ioqWait]

/-- `wakeup` keeps every access on record. -/
theorem wakeup_records : Records (wakeup ioq waiter) := by
  grind [wakeup]

/-- `ioq_full` keeps every access on record. -/
theorem ioqFull_records : Records (ioqFull ioq) := by
  grind [ioqFull]

/-- `ioq_empty` keeps every access on record. -/
theorem ioqEmpty_records : Records (ioqEmpty ioq) := by
  grind [ioqEmpty]

/-- `ioq_length` keeps every access on record. -/
theorem ioqLength_records : Records (ioqLength ioq) := by
  grind [ioqLength]

attribute [grind ←] lockAcquire_records lockRelease_records ioqueueInit_records ioqWait_records
  wakeup_records ioqFull_records ioqEmpty_records ioqLength_records

/-- A call that blocks keeps every access on record. -/
theorem waitFor_records (transfer : Transfer) : Records (waitFor cur ioq waiter transfer) := by
  grind [waitFor]

/-- `ioq_putchar` keeps every access on record. -/
theorem putByte_records : Records (putByte ioq byte) := by
  grind [putByte]

/-- `ioq_getchar` keeps every access on record. -/
theorem takeByte_records : Records (takeByte ioq) := by
  grind [takeByte]

attribute [grind ←] waitFor_records putByte_records takeByte_records

/-- The loop of `pipe_write` keeps every access on record. -/
theorem putBytes_records (bytes : List Byte) : Records (putBytes cur ioq bytes) := by
  induction bytes with
  | nil => exact .pure ()
  | cons byte rest ih => grind [putBytes]

/-- The loop of `pipe_read` keeps every access on record. -/
theorem takeBytes_records (count : Nat) : Records (takeBytes cur ioq count) := by
  induction count with
  | zero => exact .pure []
  | succ left ih => grind [takeBytes]

/-- A call on the descriptors accesses no ring. -/
theorem onFiles_records (call : PipeCall α) : Records (onFiles call) :=
  .bind get_records fun _ => .bind (lift_records _) fun _ =>
    .bind (modify_records fun _ => rfl) fun _ => .pure _

attribute [grind ←] putBytes_records takeBytes_records onFiles_records

/-- A call that goes on keeps every access on record. -/
theorem resume_records (call : Parked) : Records (resume cur call) := by
  unfold resume transferBytes
  repeat' first
    | with_reducible refine .bind ?_ fun _ => ?_
    | split
    | grind

/-- `sys_pipe` keeps every access on record. -/
theorem makePipe_records (page : Option Nat) : Records (makePipe cur page) := by
  unfold makePipe
  repeat' first
    | with_reducible refine .bind ?_ fun _ => ?_
    | split
    | grind

end

/-- No step forgets an access. -/
theorem ringExec_records (op : RingOp) : Records (ringExec op) := by
  cases op with
  | pipe cur page => exact makePipe_records cur page
  | write cur fd bytes =>
      unfold ringExec pipeWrite ringOf
      repeat' first
        | with_reducible refine .bind ?_ fun _ => ?_
        | split
        | grind
  | read cur fd count =>
      unfold ringExec pipeRead ringOf
      repeat' first
        | with_reducible refine .bind ?_ fun _ => ?_
        | split
        | grind
  | resume cur call => exact resume_records cur call

/-! ## Inside the page -/

/-- The bytes of the ring that are accessed lie in the first page from its address on. -/
def Access.InPage (access : Access) : Prop :=
  ∀ k < access.len, access.ioq.toNat ≤ access.addr.toNat + k →
    access.addr.toNat + k < access.ioq.toNat + ioqueueSize →
    access.addr.toNat + k < access.ioq.toNat + pgSize

/-- The address of the head of a ring. -/
theorem head_toNat {ioq : Word} (low : ioq.toNat < pageTables) :
    (head ioq).toNat = ioq.toNat + 4132 := by
  have offset : CType.offset ioqueueMembers 4 = 4132 := rfl
  unfold pageTables at low
  rw [head, member, offset, BitVec.toNat_add, BitVec.toNat_ofNat]
  omega

/-- The head of a ring lies behind the page. -/
theorem head_outside {ioq : Word} (low : ioq.toNat < pageTables) :
    ¬ (Access.mk ioq (head ioq) 4).InPage := by
  intro inside
  have first := inside 0 (show 0 < 4 by decide)
  -- the members of the ring take more than a page
  have size : ioqueueSize = 4140 := rfl
  simp only [head_toNat low, size, pgSize] at first
  omega

/-- Writing a word is put on record. -/
theorem storeWord_accesses {ioq addr w : Word} (ran : (storeWord ioq addr w).run s = .ok ((), s')) :
    ⟨ioq, addr, 4⟩ ∈ s'.accesses := by
  obtain ⟨_, recorded, record, ran⟩ := call_bind_returns.mp ran
  cases call_modify_returns.mp record
  cases call_modify_returns.mp ran
  exact List.mem_cons_self

/-- `ioqueue_init` writes the head of the ring. -/
theorem ioqueueInit_accesses {ioq : Word} (ran : (ioqueueInit ioq).run s = .ok ((), s')) :
    ⟨ioq, head ioq, 4⟩ ∈ s'.accesses := by
  obtain ⟨_, _, -, ran⟩ := call_bind_returns.mp ran
  obtain ⟨_, _, -, ran⟩ := call_bind_returns.mp ran
  obtain ⟨_, _, -, ran⟩ := call_bind_returns.mp ran
  obtain ⟨_, _, -, ran⟩ := call_bind_returns.mp ran
  exact storeWord_accesses ran

/-- A step that makes a pipe. -/
def RingOp.MakesPipe : RingOp → Prop
  | pipe _ _ => True
  | _ => False

/-- No pipe was made, so no ring was accessed. -/
structure Untouched (s : Rings) : Prop where
  noPipe : ∀ g, ¬ s.files.IsPipeSlot g
  noAccess : s.accesses = []
  noCall : ∀ pid, s.parked pid = none

/-- A call on the descriptors changes nothing else. -/
theorem onFiles_returns {call : PipeCall α} {a : α} (ran : (onFiles call).run s = .ok (a, s')) :
    ∃ files, call.run s.files = .ok (a, files) ∧ { s with files := files } = s' := by
  obtain ⟨_, _, read, ran⟩ := call_bind_returns.mp ran
  obtain ⟨rfl, rfl⟩ := call_get_returns.mp read
  obtain ⟨⟨b, files⟩, _, lifted, ran⟩ := call_bind_returns.mp ran
  obtain ⟨called, rfl⟩ := call_lift_returns.mp lifted
  obtain ⟨_, _, set, ran⟩ := call_bind_returns.mp ran
  cases call_modify_returns.mp set
  obtain ⟨rfl, rfl⟩ := call_pure_returns.mp ran
  exact ⟨files, called, rfl⟩

/-- Without a page `sys_pipe` does not return. -/
theorem sysPipe_none {files files' : PipeState} {cur : Pid} {ends : Option Nat × Option Nat} :
    (sysPipe cur none).run files ≠ .ok (ends, files') := by
  intro ran
  rw [sysPipe, call_bind_of (call_get_returns.mpr ⟨rfl, rfl⟩)] at ran
  cases slot : getFreeSlotInGlobal fun g => (files.fileTable g).fdInode.isNone with
  | none =>
      rw [slot] at ran
      exact call_throw_returns ran
  | some globalFd =>
      rw [slot] at ran
      exact call_throw_returns ran

/-- The step that makes a pipe leaves an access behind its page. -/
theorem makesPipe_outside {op : RingOp} (enabled : RingEnabled s op) (makes : op.MakesPipe)
    (ran : (ringExec op).run s = .ok ((), s')) : ∃ access ∈ s'.accesses, ¬ access.InPage := by
  cases op with
  | pipe cur page =>
      obtain ⟨ends, middle, made, ran⟩ := call_bind_returns.mp ran
      cases page with
      | none =>
          obtain ⟨files, called, -⟩ := onFiles_returns made
          exact (sysPipe_none called).elim
      | some ring =>
          obtain ⟨_, zeroed, -, ran⟩ := call_bind_returns.mp ran
          obtain ⟨-, -, low, -⟩ := enabled.2.2 ring rfl
          refine ⟨_, ioqueueInit_accesses ran, head_outside ?_⟩
          rw [BitVec.toNat_ofNat]
          unfold pageTables at low ⊢
          omega
  | write cur fd bytes => exact makes.elim
  | read cur fd count => exact makes.elim
  | resume cur call => exact makes.elim

/-- Without a pipe no step accesses a ring. -/
theorem untouched_step (untouched : Untouched s) {op : RingOp} (enabled : RingEnabled s op)
    (makes : ¬ op.MakesPipe) (ran : (ringExec op).run s = .ok ((), s')) : Untouched s' := by
  have noPipe : ∀ {cur : Word} {fd : Nat} {answer : Bool} {middle : Rings},
      (onFiles (isPipe cur.toNat fd)).run s = .ok (answer, middle) →
        answer = false ∧ s = middle := by
    intro cur fd answer middle asked
    obtain ⟨files, called, rfl⟩ := onFiles_returns asked
    obtain ⟨rfl, -, globalFd, -, isSlot⟩ := isPipe_returns called
    refine ⟨?_, rfl⟩
    rw [Bool.eq_false_iff]
    exact fun isTrue => untouched.noPipe globalFd (isSlot.mp isTrue)
  cases op with
  | pipe cur page => exact (makes trivial).elim
  | write cur fd bytes =>
      obtain ⟨answer, middle, asked, ran⟩ := call_bind_returns.mp ran
      obtain ⟨rfl, rfl⟩ := noPipe asked
      obtain ⟨-, rfl⟩ := call_pure_returns.mp ran
      exact untouched
  | read cur fd count =>
      obtain ⟨answer, middle, asked, ran⟩ := call_bind_returns.mp ran
      obtain ⟨rfl, rfl⟩ := noPipe asked
      obtain ⟨-, rfl⟩ := call_pure_returns.mp ran
      exact untouched
  | resume cur call =>
      have parked := enabled.1
      rw [untouched.noCall] at parked
      cases parked

/-- **The ring of a pipe does not fit into its page.** In every run of `sys_pipe`,
`pipe_write` and `pipe_read` on any number of pipes, all bytes of rings that are read or
written lie inside the page of their ring if and only if the run makes no pipe. -/
theorem accesses_inPage_iff {first last : Rings} {labels : List RingOp}
    (start : rings.initial first) (ran : rings.Steps first labels last) :
    (∀ access ∈ last.accesses, access.InPage) ↔ ∀ op ∈ labels, ¬ op.MakesPipe := by
  -- After the first pipe an access behind a page stays on record; before it nothing is
  -- accessed.
  have split : ((∀ op ∈ labels, ¬ op.MakesPipe) → Untouched last) ∧
      ((∃ op ∈ labels, op.MakesPipe) → ∃ access ∈ last.accesses, ¬ access.InPage) := by
    induction ran with
    | nil =>
        obtain ⟨live, mem, rfl⟩ := start
        refine ⟨fun _ => ⟨fun g pipe => ?_, rfl, fun _ => rfl⟩, fun made => ?_⟩
        · have wrong : (0 : Word) = pipeFlag := pipe
          revert wrong
          decide
        · obtain ⟨op, member, -⟩ := made
          exact (List.not_mem_nil member).elim
    | snoc label _ step ih =>
        obtain ⟨before, outside⟩ := ih
        obtain ⟨enabled, stepped⟩ := step
        constructor
        · intro none
          have earlier := before fun op member => none op (List.mem_append_left _ member)
          exact untouched_step earlier enabled (none label (by simp)) stepped
        · intro made
          obtain ⟨op, member, makes⟩ := made
          rcases List.mem_append.mp member with earlier | now
          · obtain ⟨access, recorded, far⟩ := outside ⟨op, earlier, makes⟩
            exact ⟨access, ringExec_records label _ _ _ stepped access recorded, far⟩
          · rw [List.mem_singleton.mp now] at makes
            exact makesPipe_outside enabled makes stepped
  constructor
  · intro inside op member makes
    obtain ⟨access, recorded, far⟩ := split.2 ⟨op, member, makes⟩
    exact far (inside access recorded)
  · intro none access recorded
    rw [(split.1 none).noAccess] at recorded
    exact (List.not_mem_nil recorded).elim

instance (s : Rings) (op : RingOp) : Decidable (RingEnabled s op) :=
  match op with
  | .pipe cur page => inferInstanceAs (Decidable (cur.toNat ∈ s.files.live ∧
      s.parked cur.toNat = none ∧ ∀ ring ∈ page, ring % pgSize = 0 ∧ 0 < ring ∧
        ring < pageTables ∧ ring ∉ s.files.rings ∧ ring ∉ s.files.live))
  | .write cur _ bytes => inferInstanceAs (Decidable (cur.toNat ∈ s.files.live ∧
      s.parked cur.toNat = none ∧ bytes.length < 2 ^ 32))
  | .read cur _ _ => inferInstanceAs (Decidable (cur.toNat ∈ s.files.live ∧
      s.parked cur.toNat = none))
  | .resume cur call => inferInstanceAs (Decidable (s.parked cur.toNat = some call ∧
      call.awake = true))

/-- One step, if it can be taken. -/
def ringStep (s : Rings) (op : RingOp) : Option Rings :=
  if RingEnabled s op then ((ringExec op).run s).toOption.map Prod.snd else none

/-- A step that was computed is a step. -/
theorem ringStep_sound {op : RingOp} (stepped : ringStep s op = some s') :
    rings.step s op s' := by
  unfold ringStep at stepped
  split_ifs at stepped with enabled
  cases ran : (ringExec op).run s with
  | error fault =>
      rw [ran] at stepped
      cases stepped
  | ok result =>
      rw [ran] at stepped
      cases stepped
      exact ⟨enabled, ran⟩

/-- One process without pipes and with empty memory. -/
def oneProcess : Rings := ⟨noPipes {40960}, Memory.zeros, [], fun _ => none⟩

/-- A page of the kernel. -/
def somePage : Nat := 257 * pgSize

/-- The theorem after a first pipe was made: an access of its ring lies behind the page. -/
theorem accesses_not_inPage_first :
    ∃ s : Rings, ¬ ∀ access ∈ s.accesses, access.InPage := by
  have ran : (ringStep oneProcess (.pipe 40960 (some somePage))).isSome = true := by
    decide +kernel
  obtain ⟨s, stepped⟩ := Option.isSome_iff_exists.mp ran
  have start : rings.Steps oneProcess [] oneProcess := .nil
  have steps := start.snoc _ (ringStep_sound stepped)
  refine ⟨s, fun inside => ?_⟩
  have none := (accesses_inPage_iff ⟨_, _, rfl⟩ steps).mp inside
  exact none (.pipe 40960 (some somePage)) List.mem_cons_self trivial

/-- A process has two pipes, whose pages are adjacent. The first byte it writes to the second
one is stored where the first one has its head. -/
theorem write_changes_other_pipe : ∃ s s' : Rings, rings.Reachable s ∧
    (s.files.fileTable 3).fdInode = some somePage ∧
    (s.files.fileTable 4).fdInode = some (somePage + pgSize) ∧
    s.files.fdTable 40960 6 = some 4 ∧ rings.step s (.write 40960 6 [7]) s' ∧
    getWord s.mem (head (BitVec.ofNat 32 somePage)).toNat = 0 ∧
    getWord s'.mem (head (BitVec.ofNat 32 somePage)).toNat = 7 := by
  have ran : (TransitionSystem.run ringStep oneProcess
      [.pipe 40960 (some somePage), .pipe 40960 (some (somePage + pgSize))]).any
        (fun s : Rings => (s.files.fileTable 3).fdInode = some somePage ∧
          (s.files.fileTable 4).fdInode = some (somePage + pgSize) ∧
          s.files.fdTable 40960 6 = some 4 ∧
          getWord s.mem (head (BitVec.ofNat 32 somePage)).toNat = 0 ∧
          (ringStep s (.write 40960 6 [7])).any (fun s' : Rings =>
            getWord s'.mem (head (BitVec.ofNat 32 somePage)).toNat = 7) = true) = true := by
    decide +kernel
  obtain ⟨s, ran, holds⟩ := (Option.any_eq_true _ _).mp ran
  obtain ⟨first, second, fd, empty, written⟩ := of_decide_eq_true holds
  obtain ⟨s', stepped, changed⟩ := (Option.any_eq_true _ _).mp written
  have start : rings.Reachable oneProcess := .initial ⟨_, _, rfl⟩
  exact ⟨s, s', start.run (fun _ _ _ => ringStep_sound) ran, first, second, fd,
    ringStep_sound stepped, empty, of_decide_eq_true changed⟩

end UKernel.Pipe
