import UKernel.Library.Refinement
import UKernel.Pipe.RingMembers

/-! # The ring in memory as a queue

The functions of `ioqueue.c` and `sync.c` are embedded twice: in `UKernel.Pipe` with what they read
and write in memory, and in `UKernel.WakeUp` with the members of the queue. While the control blocks
keep away from the pages of a ring, each of the first that returns is one of the second, so that
what is left of a call of `pipe_write` or `pipe_read` is a run of the threads on the queue
(`UKernel.Pipe.transferBytes_shown`, `UKernel.Pipe.resume_shown`).
-/

namespace UKernel.Pipe

open UKernel.Library
open UKernel.WakeUp (IoQueue IoCall Place)

/-! ## What the calls on a ring show -/

/-- The call of `ioq_putchar` or `ioq_getchar` that blocks in a transfer. -/
inductive Blocks : Transfer → IoCall → Prop where
  | write (byte : Byte) (rest : List Byte) : Blocks (.write (byte :: rest)) (.putchar byte)
  | read (left : Nat) : Blocks (.read (left + 1)) .getchar

/-- Where a thread is, as far as a ring is concerned. -/
inductive At (ioq : Word) : Option Parked → Place → Prop where
  | outside : At ioq none .outside
  | elsewhere {call : Parked} : call.ioq ≠ ioq → At ioq (some call) .outside
  | locking {transfer : Transfer} {call : IoCall} : Blocks transfer call →
      At ioq (some ⟨ioq, .semaDown, transfer, false⟩) (.locking call)
  | unlocked {transfer : Transfer} {call : IoCall} : Blocks transfer call →
      At ioq (some ⟨ioq, .semaDown, transfer, true⟩) (.unlocked call)
  | sleeping {transfer : Transfer} {call : IoCall} : Blocks transfer call →
      At ioq (some ⟨ioq, .ioqWait, transfer, false⟩) (.sleeping call)
  | woken {transfer : Transfer} {call : IoCall} : Blocks transfer call →
      At ioq (some ⟨ioq, .ioqWait, transfer, true⟩) (.woken call)

/-- The threads that a queue knows are blocked there. -/
structure Blocked (q : IoQueue Word) : Prop where
  waiters : ∀ t ∈ q.waiters, ∃ call, q.place t = .locking call
  consumer : ∀ t, q.consumer = some t → q.place t = .sleeping .getchar
  producer : ∀ t, q.producer = some t → ∃ byte, q.place t = .sleeping (.putchar byte)

/-- The queue that a ring shows, while no thread runs in a call on it. -/
structure Rests (ioq : Word) (task : Word → Prop) (s : Rings) (q : IoQueue Word) : Prop where
  inMemory : InMemory ioq task s.mem q
  place : ∀ t, At ioq (s.parked t.toNat) (q.place t)
  blocked : Blocked q

/-- The queue that a ring shows, while a thread runs in a call on it. -/
structure Runs (ioq : Word) (task : Word → Prop) (cur : Word) (s : Rings) (q : IoQueue Word) :
    Prop where
  inMemory : InMemory ioq task s.mem q
  place : ∀ t, t ≠ cur → At ioq (s.parked t.toNat) (q.place t)
  blocked : Blocked q
  running : ∀ call, q.place cur ≠ .locking call ∧ q.place cur ≠ .sleeping call
  free : s.parked cur.toNat = none

variable {ioq cur t w : Word} {task : Word → Prop} {s s' : Rings} {q q' : IoQueue Word}
  {call : IoCall} {transfer : Transfer} {byte : Byte}

/-- A thread whose call is not blocked may call. -/
theorem Rests.runs (rests : Rests ioq task s q) (free : s.parked cur.toNat = none) :
    Runs ioq task cur s q where
  inMemory := rests.inMemory
  place t _ := rests.place t
  blocked := rests.blocked
  running call := by
    have at_ := rests.place cur
    rw [free] at at_
    generalize q.place cur = place at at_
    cases at_
    exact ⟨nofun, nofun⟩
  free := free

/-- A thread that runs is not among those that wait. -/
theorem Runs.not_mem (runs : Runs ioq task cur s q) : cur ∉ q.waiters := by
  intro waits
  obtain ⟨call, place⟩ := runs.blocked.waiters cur waits
  exact (runs.running call).1 place

/-- A thread that runs does not wait for the ring. -/
theorem Runs.not_waiter (runs : Runs ioq task cur s q) (call : IoCall) :
    q.waiter call ≠ some cur := by
  intro waits
  cases call with
  | getchar => exact (runs.running _).2 (runs.blocked.consumer cur waits)
  | putchar byte =>
      obtain ⟨byte', place⟩ := runs.blocked.producer cur waits
      exact (runs.running _).2 place

/-- Some of the threads that a queue knew. -/
theorem Blocked.some (blocked : Blocked q)
    (waiters : ∀ t ∈ q'.waiters, t ∈ q.waiters ∧ q'.place t = q.place t)
    (consumer : ∀ t, q'.consumer = some t → q.consumer = some t ∧ q'.place t = q.place t)
    (producer : ∀ t, q'.producer = some t → q.producer = some t ∧ q'.place t = q.place t) :
    Blocked q' where
  waiters t waits := by
    obtain ⟨waited, same⟩ := waiters t waits
    exact same ▸ blocked.waiters t waited
  consumer t waits := by
    obtain ⟨waited, same⟩ := consumer t waits
    exact same ▸ blocked.consumer t waited
  producer t waits := by
    obtain ⟨waited, same⟩ := producer t waits
    exact same ▸ blocked.producer t waited

/-- The members change, and the waiters do not. -/
theorem Runs.change (runs : Runs ioq task cur s q) (inMemory : InMemory ioq task s'.mem q')
    (parked : s'.parked = s.parked) (waiters : q'.waiters = q.waiters)
    (consumer : q'.consumer = q.consumer) (producer : q'.producer = q.producer)
    (place : q'.place = q.place) : Runs ioq task cur s' q' where
  inMemory := inMemory
  place t other := by
    rw [parked, place]
    exact runs.place t other
  blocked := runs.blocked.some (fun t waits => ⟨waiters ▸ waits, by rw [place]⟩)
    (fun t waits => ⟨consumer ▸ waits, by rw [place]⟩)
    fun t waits => ⟨producer ▸ waits, by rw [place]⟩
  running := by
    rw [place]
    exact runs.running
  free := parked ▸ runs.free

/-- A step that changes neither memory nor the blocked calls. -/
theorem Runs.same (runs : Runs ioq task cur s q) (same : SameData s s') :
    Runs ioq task cur s' q :=
  runs.change (same.1 ▸ runs.inMemory) same.2 rfl rfl rfl rfl

/-- The threads that wait are others than the one that runs. -/
theorem Runs.blocked_update (runs : Runs ioq task cur s q) (place : Place) :
    Blocked { q with place := Function.update q.place cur place } := by
  refine runs.blocked.some (fun t waits => ⟨waits, Function.update_of_ne ?_ _ _⟩)
    (fun t waits => ⟨waits, Function.update_of_ne ?_ _ _⟩)
    fun t waits => ⟨waits, Function.update_of_ne ?_ _ _⟩
  · exact fun same => runs.not_mem (same ▸ waits)
  · exact fun same => runs.not_waiter .getchar (same ▸ waits)
  · exact fun same => runs.not_waiter (.putchar 0) (same ▸ waits)

/-- The thread that runs blocks. -/
theorem Runs.block (runs : Runs ioq task cur s q) {parked : Parked} {place : Place}
    (at_ : At ioq (some parked) place)
    (others : s'.parked = Function.update s.parked cur.toNat (some parked))
    (places : q'.place = Function.update q.place cur place)
    (inMemory : InMemory ioq task s'.mem q') (blocked : Blocked q') : Rests ioq task s' q' where
  inMemory := inMemory
  place t := by
    rw [others, places]
    by_cases same : t = cur
    · rw [same, Function.update_self, Function.update_self]
      exact at_
    · have apart : t.toNat ≠ cur.toNat := fun equal => same (BitVec.eq_of_toNat_eq equal)
      rw [Function.update_of_ne apart, Function.update_of_ne same]
      exact runs.place t same
  blocked := blocked

/-- The thread that runs comes to the end of its call. -/
theorem Runs.leave (runs : Runs ioq task cur s q) :
    Rests ioq task s { q with place := Function.update q.place cur .outside } where
  inMemory := runs.inMemory.setPlace _
  place t := by
    change At ioq (s.parked t.toNat) (Function.update q.place cur .outside t)
    by_cases same : t = cur
    · rw [same, runs.free, Function.update_self]
      exact .outside
    · rw [Function.update_of_ne same]
      exact runs.place t same
  blocked := runs.blocked_update _

/-- `thread_unblock` of a thread that is blocked on the ring. -/
theorem threadUnblock_shown (others : ∀ t, t ≠ cur → At ioq (s.parked t.toNat) (q.place t))
    (other : t ≠ cur)
    (blocked : (∃ call, q.place t = .locking call) ∨ ∃ call, q.place t = .sleeping call)
    (ran : (threadUnblock t).run s = .ok ((), s')) :
    ∃ place, (WakeUp.threadUnblock t).run q =
        .ok ((), { q with place := Function.update q.place t place }) ∧
      s'.mem = s.mem ∧ s'.parked cur.toNat = s.parked cur.toNat ∧
      ∀ t', t' ≠ cur → At ioq (s'.parked t'.toNat) (Function.update q.place t place t') := by
  have at_ := others t other
  rw [threadUnblock, call_bind_of (call_get_returns.mpr ⟨rfl, rfl⟩)] at ran
  obtain ⟨call, place, here, woken, unblocks⟩ : ∃ call place,
      s.parked t.toNat = some call ∧ At ioq (some { call with awake := true }) place ∧
        (WakeUp.threadUnblock t).run q =
          .ok ((), { q with place := Function.update q.place t place }) := by
    rw [WakeUp.threadUnblock, call_bind_of (call_get_returns.mpr ⟨rfl, rfl⟩)]
    generalize s.parked t.toNat = parked at at_
    rcases blocked with ⟨call, place⟩ | ⟨call, place⟩
    · rw [place] at at_ ⊢
      cases at_ with
      | locking blocks => exact ⟨_, _, rfl, .unlocked blocks, rfl⟩
    · rw [place] at at_ ⊢
      cases at_ with
      | sleeping blocks => exact ⟨_, _, rfl, .woken blocks, rfl⟩
  simp only [here] at ran
  obtain ⟨_, _, checked, ran⟩ := call_bind_returns.mp ran
  obtain ⟨-, rfl⟩ := call_lift_returns.mp checked
  cases call_modify_returns.mp ran
  have apart : cur.toNat ≠ t.toNat := fun same => other (BitVec.eq_of_toNat_eq same).symm
  refine ⟨place, unblocks, rfl, Function.update_of_ne apart _ _, fun t' notCur => ?_⟩
  change At ioq (Function.update s.parked t.toNat (some { call with awake := true }) t'.toNat) _
  by_cases same : t' = t
  · rw [same, Function.update_self, Function.update_self]
    exact woken
  · have apart' : t'.toNat ≠ t.toNat := fun equal => same (BitVec.eq_of_toNat_eq equal)
    rw [Function.update_of_ne same, Function.update_of_ne apart']
    exact others t' notCur

/-- A thread that the queue knew is unblocked, and the queue does not know it any more. -/
theorem Runs.unblock (runs : Runs ioq task cur s q) (other : t ≠ cur)
    (blocked : (∃ call, q.place t = .locking call) ∨ ∃ call, q.place t = .sleeping call)
    (ran : (threadUnblock t).run s = .ok ((), s')) :
    ∃ place, (WakeUp.threadUnblock t).run q =
        .ok ((), { q with place := Function.update q.place t place }) ∧ s'.mem = s.mem ∧
      ∀ {s'' : Rings} {q' : IoQueue Word}, s''.parked = s'.parked →
        q'.place = Function.update q.place t place → InMemory ioq task s''.mem q' →
        Blocked q' → Runs ioq task cur s'' q' := by
  obtain ⟨place, unblocks, mem, free, others⟩ := threadUnblock_shown runs.place other blocked ran
  refine ⟨place, unblocks, mem, fun parked places held blocked => ?_⟩
  refine ⟨held, fun t' notCur => ?_, blocked, ?_, ?_⟩
  · rw [parked, places]
    exact others t' notCur
  · rw [places, Function.update_of_ne other.symm]
    exact runs.running
  · rw [parked, free]
    exact runs.free

/-- A thread that waits for the ring is not among those that wait for the lock. -/
theorem Blocked.not_mem (blocked : Blocked q) (place : q.place t = .sleeping call) :
    t ∉ q.waiters := by
  intro waits
  obtain ⟨call', place'⟩ := blocked.waiters t waits
  cases place.symm.trans place'

variable (apart : Apart ioq task) (isTask : task cur)
include apart

/-! ## The lock -/

include isTask in
/-- The part of `lock_acquire` after `sema_down`. -/
theorem takeLock_shown : Refines (Runs ioq task cur) (takeLock cur ioq (lock ioq))
    (WakeUp.takeLock cur) (SameValue (Runs ioq task cur)) := by
  intro s q _ s' runs ran
  have ran := storeWord_bind.mp ran
  have held := runs.inMemory.setHolder (w := cur) apart
  have ran := loadWord_bind.mp ran
  obtain ⟨_, _, checked, ran⟩ := call_bind_returns.mp ran
  obtain ⟨zero, rfl⟩ := call_lift_returns.mp checked
  cases storeWord_returns.mp ran
  have repeats := held.members.holderRepeatNr
  have held := held.setRepeatNr (w := 1) apart
  have none_ : q.holderRepeatNr = 0 := by
    have zero := require_eq_ok.mp zero
    exact repeats.trans (congrArg BitVec.toNat zero)
  have pointer : thread cur = some cur := thread_eq_some.mpr ⟨rfl, apart.present cur isTask⟩
  rw [pointer] at held
  refine ⟨(), { q with holder := some cur, holderRepeatNr := 1 }, ?_, rfl,
    runs.change held rfl rfl rfl rfl rfl⟩
  rw [WakeUp.takeLock, call_bind_of (call_get_returns.mpr ⟨rfl, rfl⟩),
    call_bind_of (call_lift_returns.mpr ⟨require_of none_, rfl⟩)]
  rfl

/-- The thread that runs comes to `thread_block` in `sema_down`, whatever is left of its call. -/
def BlocksForLock (ioq : Word) (task : Word → Prop) (cur : Word) (call : IoCall) (s : Rings)
    (q : IoQueue Word) : Prop :=
  ∀ transfer, Blocks transfer call → Rests ioq task
    { s with parked := Function.update s.parked cur.toNat (some ⟨ioq, .semaDown, transfer, false⟩) }
    q

/-- `sema_down` and `lock_acquire` return with the lock, or wait for it. -/
def Acquires (ioq : Word) (task : Word → Prop) (cur : Word) (call : IoCall) (taken taken' : Bool)
    (s : Rings) (q : IoQueue Word) : Prop :=
  taken = taken' ∧ if taken then Runs ioq task cur s q else BlocksForLock ioq task cur call s q

include isTask in
/-- `sema_down` takes the value, or puts the thread behind the other waiters. -/
theorem semaDown_shown (call : IoCall) : Refines (Runs ioq task cur)
    (semaDown cur ioq (semaphore (lock ioq))) (WakeUp.semaDown cur call)
    (Acquires ioq task cur call) := by
  intro s q taken s' runs ran
  have value := runs.inMemory.members.value
  rw [WakeUp.semaDown, call_bind_of (call_get_returns.mpr ⟨rfl, rfl⟩)]
  obtain ⟨_, _, loaded, ran⟩ := call_bind_returns.mp ran
  obtain ⟨rfl, rfl⟩ := loadByte_returns.mp loaded
  by_cases zero : s.mem (Pipe.value (semaphore (lock ioq))).toNat = 0
  · rw [if_pos zero] at ran
    have none_ : q.value = 0 := value.trans (congrArg BitVec.toNat zero)
    obtain ⟨_, _, found, ran⟩ := call_bind_returns.mp ran
    have same := elemFind_same _ _ _ found
    obtain ⟨_, _, checked, ran⟩ := call_bind_returns.mp ran
    obtain ⟨-, rfl⟩ := call_lift_returns.mp checked
    obtain ⟨_, middle, found', ran⟩ := call_bind_returns.mp ran
    have same' := elemFind_same _ _ _ found'
    obtain ⟨_, _, checked', ran⟩ := call_bind_returns.mp ran
    obtain ⟨-, rfl⟩ := call_lift_returns.mp checked'
    have runs : Runs ioq task cur middle q :=
      runs.same ⟨same'.1.trans same.1, same'.2.trans same.2⟩
    obtain ⟨_, _, appended, ran⟩ := call_bind_returns.mp ran
    obtain ⟨rfl, rfl⟩ := call_pure_returns.mp ran
    obtain ⟨parked, held⟩ :=
      listAppend_inMemory apart runs.inMemory isTask runs.not_mem appended
    rw [if_pos none_,
      call_bind_of (call_lift_returns.mpr ⟨require_of runs.not_mem, rfl⟩)]
    refine ⟨false, { q with
      waiters := q.waiters ++ [cur]
      place := Function.update q.place cur (.locking call) }, rfl, rfl, ?_⟩
    rw [if_neg Bool.false_ne_true]
    intro transfer blocks
    have blocked := runs.blocked_update (.locking call)
    refine runs.block (.locking blocks) (by rw [parked]) rfl (held.setPlace _)
      ⟨fun t waits => ?_, blocked.consumer, blocked.producer⟩
    rcases List.mem_append.mp waits with waited | new
    · exact blocked.waiters t waited
    · rw [List.mem_singleton.mp new]
      exact ⟨call, Function.update_self cur _ q.place⟩
  · rw [if_neg zero] at ran
    have some_ : q.value ≠ 0 := fun none_ =>
      zero (BitVec.eq_of_toNat_eq (value.symm.trans none_))
    obtain ⟨_, _, loaded, ran⟩ := call_bind_returns.mp ran
    obtain ⟨rfl, rfl⟩ := loadByte_returns.mp loaded
    obtain ⟨_, _, stored, ran⟩ := call_bind_returns.mp ran
    cases storeByte_returns.mp stored
    obtain ⟨_, _, loaded, ran⟩ := call_bind_returns.mp ran
    obtain ⟨rfl, rfl⟩ := loadByte_returns.mp loaded
    obtain ⟨_, _, checked, ran⟩ := call_bind_returns.mp ran
    obtain ⟨one, rfl⟩ := call_lift_returns.mp checked
    obtain ⟨rfl, rfl⟩ := call_pure_returns.mp ran
    have held := runs.inMemory.setValue apart
      (s.mem (Pipe.value (semaphore (lock ioq))).toNat - 1)
    have lowered : (s.mem (Pipe.value (semaphore (lock ioq))).toNat - 1).toNat =
        (q.value + 2 ^ 8 - 1) % 2 ^ 8 := by
      rw [value, BitVec.toNat_sub, show (1 : Byte).toNat = 1 from rfl]
      omega
    rw [lowered] at held
    have zero' : (q.value + 2 ^ 8 - 1) % 2 ^ 8 = 0 := by
      have one := require_eq_ok.mp one
      rw [← lowered]
      exact congrArg BitVec.toNat ((Function.update_self _ _ s.mem).symm.trans one)
    rw [if_neg some_, call_bind_of (call_lift_returns.mpr ⟨require_of zero', rfl⟩)]
    exact ⟨true, { q with value := (q.value + 2 ^ 8 - 1) % 2 ^ 8 }, rfl, rfl,
      runs.change held rfl rfl rfl rfl rfl⟩

include isTask in
/-- `lock_acquire` counts, takes the lock or waits for it. -/
theorem lockAcquire_shown (call : IoCall) : Refines (Runs ioq task cur)
    (lockAcquire cur ioq (lock ioq)) (WakeUp.lockAcquire cur call)
    (Acquires ioq task cur call) := by
  intro s q taken s' runs ran
  have pointer := runs.inMemory.members.holder
  rw [WakeUp.lockAcquire, call_bind_of (call_get_returns.mpr ⟨rfl, rfl⟩)]
  have ran := loadWord_bind.mp ran
  have runs : Runs ioq task cur (s.recorded ioq (holder (lock ioq)) 4) q := runs.same ⟨rfl, rfl⟩
  by_cases own : getWord s.mem (holder (lock ioq)).toNat = cur
  · rw [if_neg (not_not.mpr own)] at ran
    have holds : q.holder = some cur :=
      pointer.trans (thread_eq_some.mpr ⟨own, apart.present cur isTask⟩)
    have ran := loadWord_bind.mp ran
    have ran := storeWord_bind.mp ran
    obtain ⟨rfl, rfl⟩ := call_pure_returns.mp ran
    have repeats := runs.inMemory.members.holderRepeatNr
    have held := runs.inMemory.setRepeatNr (w :=
      getWord s.mem (holderRepeatNr (lock ioq)).toNat + 1) apart
    have more : (getWord s.mem (holderRepeatNr (lock ioq)).toNat + 1).toNat =
        (q.holderRepeatNr + 1) % 2 ^ 32 := by
      rw [repeats, BitVec.toNat_add]
      rfl
    rw [more] at held
    rw [if_neg (not_not.mpr holds)]
    exact ⟨true, { q with holderRepeatNr := (q.holderRepeatNr + 1) % 2 ^ 32 }, rfl, rfl,
      runs.change held rfl rfl rfl rfl rfl⟩
  · rw [if_pos own] at ran
    have other : q.holder ≠ some cur := fun holds =>
      own (thread_eq_some.mp (pointer.symm.trans holds)).1
    rw [if_pos other]
    obtain ⟨taken, _, downs, ran⟩ := call_bind_returns.mp ran
    obtain ⟨_, q', downs', rfl, acquired⟩ := semaDown_shown apart isTask call _ _ _ _ runs downs
    rw [call_bind_of downs']
    cases taken with
    | true =>
        obtain ⟨_, _, takes, ran⟩ := call_bind_returns.mp ran
        obtain ⟨rfl, rfl⟩ := call_pure_returns.mp ran
        obtain ⟨_, q'', takes', -, runs⟩ := takeLock_shown apart isTask _ _ _ _ acquired takes
        exact ⟨true, q'', by rw [if_pos rfl, call_bind_of takes']; rfl, rfl, runs⟩
    | false =>
        obtain ⟨rfl, rfl⟩ := call_pure_returns.mp ran
        exact ⟨false, q', rfl, rfl, acquired⟩

include isTask in
/-- `ioq_wait` and `thread_block`. -/
theorem ioqWait_shown (blocks : Blocks transfer call) : Refines (Runs ioq task cur)
    (do ioqWait cur ioq (waiterAddr ioq call); threadBlock cur ioq .ioqWait transfer)
    (WakeUp.ioqWait cur call) fun _ _ => Rests ioq task := by
  intro s q _ s' runs ran
  obtain ⟨_, _, waits, ran⟩ := call_bind_returns.mp ran
  have waits := loadWord_bind.mp waits
  obtain ⟨_, _, checked, waits⟩ := call_bind_returns.mp waits
  obtain ⟨null, rfl⟩ := call_lift_returns.mp checked
  cases storeWord_returns.mp waits
  cases call_modify_returns.mp ran
  have none_ : q.waiter call = none :=
    runs.inMemory.members.waiter.trans (thread_eq_none.mpr (require_eq_ok.mp null).1)
  have held := runs.inMemory.setWaiter apart call cur
  rw [thread_eq_some.mpr ⟨rfl, apart.present cur isTask⟩] at held
  have blocked := runs.blocked_update (.sleeping call)
  refine ⟨(), { q.setWaiter call (some cur) with
    place := Function.update q.place cur (.sleeping call) }, ?_,
    runs.block (.sleeping blocks) rfl rfl (held.setPlace _) ?_⟩
  · rw [WakeUp.ioqWait, call_bind_of (call_get_returns.mpr ⟨rfl, rfl⟩),
      call_bind_of (call_lift_returns.mpr ⟨require_of none_, rfl⟩)]
    cases call <;> rfl
  · have here : Function.update q.place cur (.sleeping call) cur = .sleeping call :=
      Function.update_self cur _ q.place
    cases call with
    | getchar =>
        refine ⟨blocked.waiters, fun t waits => ?_, blocked.producer⟩
        cases waits
        exact here
    | putchar byte =>
        refine ⟨blocked.waiters, blocked.consumer, fun t waits => ?_⟩
        cases waits
        exact ⟨byte, here⟩

include isTask in
/-- A call that has to wait for the ring blocks. -/
theorem waitFor_shown (blocks : Blocks transfer call) : Refines (Runs ioq task cur)
    (waitFor cur ioq (waiterAddr ioq call) transfer)
    (do if ← WakeUp.lockAcquire cur call then WakeUp.ioqWait cur call)
    fun _ _ => Rests ioq task := by
  intro s q _ s' runs ran
  obtain ⟨taken, _, acquires, ran⟩ := call_bind_returns.mp ran
  obtain ⟨_, q', acquires', rfl, acquired⟩ :=
    lockAcquire_shown apart isTask call _ _ _ _ runs acquires
  rw [call_bind_of acquires']
  cases taken with
  | true => exact ioqWait_shown apart isTask blocks _ _ _ _ acquired ran
  | false =>
      cases call_modify_returns.mp ran
      exact ⟨(), q', rfl, acquired transfer blocks⟩

/-- `wakeup` of the waiter of a call. -/
theorem wakeup_shown (runs : Runs ioq task cur s q)
    (present : getWord s.mem (waiterAddr ioq call).toNat ≠ 0)
    (ran : (wakeup ioq (waiterAddr ioq call)).run s = .ok ((), s')) :
    ∃ q', (WakeUp.wakeup call).run q = .ok ((), q') ∧ Runs ioq task cur s' q' := by
  have ran := loadWord_bind.mp ran
  obtain ⟨_, _, checked, ran⟩ := call_bind_returns.mp ran
  obtain ⟨-, rfl⟩ := call_lift_returns.mp checked
  obtain ⟨t, _, loaded, ran⟩ := call_bind_returns.mp ran
  obtain ⟨known, rfl⟩ := loadWord_returns.mp loaded
  obtain ⟨_, middle, unblocks, ran⟩ := call_bind_returns.mp ran
  cases storeWord_returns.mp ran
  have known : getWord s.mem (waiterAddr ioq call).toNat = t := known
  have waiter : q.waiter call = some t :=
    runs.inMemory.members.waiter.trans (thread_eq_some.mpr ⟨known, known ▸ present⟩)
  have other : t ≠ cur := fun same => runs.not_waiter _ (waiter.trans (congrArg some same))
  obtain ⟨call', place'⟩ : ∃ call', q.place t = .sleeping call' := by
    cases call with
    | getchar => exact ⟨_, runs.blocked.consumer t waiter⟩
    | putchar byte =>
        obtain ⟨byte', place⟩ := runs.blocked.producer t waiter
        exact ⟨_, place⟩
  have runs : Runs ioq task cur
      ((s.recorded ioq (waiterAddr ioq call) 4).recorded ioq (waiterAddr ioq call) 4) q :=
    runs.same ⟨rfl, rfl⟩
  obtain ⟨place, unblocks', mem, after⟩ := runs.unblock other (.inr ⟨call', place'⟩) unblocks
  have held := (runs.inMemory.setPlace (Function.update q.place t place)).setWaiter
    apart call 0
  refine ⟨{ q with place := Function.update q.place t place }.setWaiter call none, ?_,
    after rfl (by cases call <;> rfl) ?_ ?_⟩
  · rw [WakeUp.wakeup, call_bind_of (call_get_returns.mpr ⟨rfl, rfl⟩), waiter]
    exact (call_bind_of unblocks').trans rfl
  · rw [Rings.stored_mem, mem]
    exact held
  · have waits : ∀ t' ∈ q.waiters, t' ∈ q.waiters ∧
        Function.update q.place t place t' = q.place t' := fun t' waits =>
      ⟨waits, Function.update_of_ne (fun same : t' = t =>
        runs.blocked.not_mem place' (same ▸ waits)) _ _⟩
    cases call with
    | getchar =>
        refine runs.blocked.some waits
          (fun t' consumes => (Option.some_ne_none t' consumes.symm).elim)
          fun t' produces => ⟨produces, ?_⟩
        refine Function.update_of_ne (fun same => ?_) _ _
        obtain ⟨byte, putting⟩ := runs.blocked.producer t' produces
        cases (runs.blocked.consumer t waiter).symm.trans (same ▸ putting)
    | putchar byte =>
        refine runs.blocked.some waits (fun t' consumes => ⟨consumes, ?_⟩)
          fun t' produces => (Option.some_ne_none t' produces.symm).elim
        refine Function.update_of_ne (fun same => ?_) _ _
        obtain ⟨byte, putting⟩ := runs.blocked.producer t waiter
        cases (runs.blocked.consumer t' consumes).symm.trans (same ▸ putting)

/-- The call of `thread_unblock` in `sema_up`. -/
theorem wakeFirst_shown {first : Word} {rest : List Word} (runs : Runs ioq task cur s q)
    (waits : q.waiters = first :: rest)
    (ran : (do
      let elem ← listPop ioq (waitersOf ioq)
      threadUnblock (elem - BitVec.ofNat 32 (CType.offset taskMembers 7)) :
        RingCall Unit).run s = .ok ((), s')) :
    ∃ q', (WakeUp.wakeFirst : WakeUp.QueueCall Word Unit).run q = .ok ((), q') ∧
      Runs ioq task cur s' q' := by
  have tasks : first ∈ q.waiters := waits ▸ List.mem_cons_self
  have once : first ∉ rest := by
    have row := runs.inMemory.row.once
    rw [waits, nodes] at row
    have tags := (List.nodup_append.mp (List.nodup_cons.mp row).2).1
    exact fun member => (List.nodup_cons.mp tags).1 (List.mem_map_of_mem member)
  have other : first ≠ cur := fun same => runs.not_mem (same ▸ tasks)
  obtain ⟨call, locking⟩ := runs.blocked.waiters first tasks
  obtain ⟨elem, middle, pops, ran⟩ := call_bind_returns.mp ran
  obtain ⟨rfl, parked, held⟩ := listPop_inMemory apart runs.inMemory waits pops
  rw [generalTag_sub] at ran
  have shorter : Runs ioq task cur middle { q with waiters := rest } := by
    refine ⟨held, fun t other => ?_, ?_, runs.running, parked ▸ runs.free⟩
    · rw [parked]
      exact runs.place t other
    · exact runs.blocked.some (fun t member => ⟨waits ▸ List.mem_cons_of_mem first member, rfl⟩)
        (fun t consumes => ⟨consumes, rfl⟩) fun t produces => ⟨produces, rfl⟩
  obtain ⟨place, unblocks, mem, after⟩ := shorter.unblock other (.inl ⟨call, locking⟩) ran
  refine ⟨_, ?_, after rfl rfl (mem ▸ held.setPlace _) ?_⟩
  · rw [WakeUp.wakeFirst, call_bind_of (call_get_returns.mpr ⟨rfl, rfl⟩), waits]
    exact (call_bind_of (call_modify_returns.mpr rfl)).trans unblocks
  · refine shorter.blocked.some
      (fun t member => ⟨member, Function.update_of_ne
        (fun same : t = first => once (same ▸ member)) _ _⟩)
      (fun t consumes => ⟨consumes, Function.update_of_ne (fun same => ?_) _ _⟩)
      fun t produces => ⟨produces, Function.update_of_ne (fun same => ?_) _ _⟩
    · cases (runs.blocked.consumer t consumes).symm.trans (same ▸ locking)
    · obtain ⟨byte, putting⟩ := runs.blocked.producer t produces
      cases putting.symm.trans (same ▸ locking)

/-- The value of the semaphore is raised. -/
theorem raiseValue_shown : Refines (Runs ioq task cur)
    (do
      storeByte ioq (value (semaphore (lock ioq)))
        ((← loadByte ioq (value (semaphore (lock ioq)))) + 1)
      require ((← loadByte ioq (value (semaphore (lock ioq)))) = 1))
    (do
      modify fun q => { q with value := (q.value + 1) % 2 ^ 8 }
      require ((← get).value = 1) : WakeUp.QueueCall Word Unit)
    (SameValue (Runs ioq task cur)) := by
  intro s q _ s' runs ran
  have value := runs.inMemory.members.value
  obtain ⟨_, _, loaded, ran⟩ := call_bind_returns.mp ran
  obtain ⟨rfl, rfl⟩ := loadByte_returns.mp loaded
  obtain ⟨_, _, stored, ran⟩ := call_bind_returns.mp ran
  cases storeByte_returns.mp stored
  obtain ⟨_, _, loaded, ran⟩ := call_bind_returns.mp ran
  obtain ⟨rfl, rfl⟩ := loadByte_returns.mp loaded
  obtain ⟨one, rfl⟩ := call_lift_returns.mp ran
  have held := runs.inMemory.setValue apart
    (s.mem (Pipe.value (semaphore (lock ioq))).toNat + 1)
  have raised : (s.mem (Pipe.value (semaphore (lock ioq))).toNat + 1).toNat =
      (q.value + 1) % 2 ^ 8 := by
    rw [value, BitVec.toNat_add]
    rfl
  have one' : (q.value + 1) % 2 ^ 8 = 1 := by
    rw [← raised]
    exact congrArg BitVec.toNat ((Function.update_self _ _ s.mem).symm.trans (require_eq_ok.mp one))
  rw [raised] at held
  refine ⟨(), { q with value := (q.value + 1) % 2 ^ 8 }, ?_, rfl,
    runs.change held rfl rfl rfl rfl rfl⟩
  rw [call_bind_of (call_modify_returns.mpr rfl), call_bind_of (call_get_returns.mpr ⟨rfl, rfl⟩)]
  exact call_lift_returns.mpr ⟨require_of one', rfl⟩

/-- `sema_up` wakes the first waiter and raises the value. -/
theorem semaUp_shown : Refines (Runs ioq task cur) (semaUp ioq (semaphore (lock ioq)))
    (WakeUp.semaUp : WakeUp.QueueCall Word Unit) (SameValue (Runs ioq task cur)) := by
  intro s q _ s' runs ran
  obtain ⟨_, _, loaded, ran⟩ := call_bind_returns.mp ran
  obtain ⟨rfl, rfl⟩ := loadByte_returns.mp loaded
  obtain ⟨_, _, checked, ran⟩ := call_bind_returns.mp ran
  obtain ⟨zero, rfl⟩ := call_lift_returns.mp checked
  have none_ : q.value = 0 :=
    runs.inMemory.members.value.trans (congrArg BitVec.toNat (require_eq_ok.mp zero))
  rw [WakeUp.semaUp, call_bind_of (call_get_returns.mpr ⟨rfl, rfl⟩),
    call_bind_of (call_lift_returns.mpr ⟨require_of none_, rfl⟩)]
  have runs : Runs ioq task cur (s.recorded ioq (value (semaphore (lock ioq))) 1) q :=
    runs.same ⟨rfl, rfl⟩
  obtain ⟨empty, middle, looked, ran⟩ := call_bind_returns.mp ran
  obtain ⟨isEmpty, parked, mem⟩ := listEmpty_inMemory runs.inMemory looked
  have runs : Runs ioq task cur middle q := runs.same ⟨mem, parked⟩
  cases empty with
  | true =>
      have woke : (WakeUp.wakeFirst : WakeUp.QueueCall Word Unit).run q = .ok ((), q) := by
        rw [WakeUp.wakeFirst, call_bind_of (call_get_returns.mpr ⟨rfl, rfl⟩), isEmpty.mp rfl]
        rfl
      rw [call_bind_of woke]
      exact raiseValue_shown apart _ _ _ _ runs ran
  | false =>
      obtain ⟨first, rest, waits⟩ := List.exists_cons_of_ne_nil
        (fun none_ => Bool.false_ne_true (isEmpty.mpr none_))
      obtain ⟨elem, popped, pops, ran⟩ := call_bind_returns.mp ran
      obtain ⟨_, after, unblocks, ran⟩ := call_bind_returns.mp ran
      obtain ⟨q', woke, runs⟩ := wakeFirst_shown apart runs waits
        (call_bind_returns.mpr ⟨_, _, pops, unblocks⟩)
      rw [call_bind_of woke]
      exact raiseValue_shown apart _ _ _ _ runs ran

include isTask in
/-- `lock_release` counts down, or gives the lock away. -/
theorem lockRelease_shown : Refines (Runs ioq task cur) (lockRelease cur ioq (lock ioq))
    (WakeUp.lockRelease cur) (SameValue (Runs ioq task cur)) := by
  intro s q _ s' runs ran
  have repeats := runs.inMemory.members.holderRepeatNr
  have ran := loadWord_bind.mp ran
  obtain ⟨_, _, checked, ran⟩ := call_bind_returns.mp ran
  obtain ⟨own, rfl⟩ := call_lift_returns.mp checked
  have holds : q.holder = some cur := runs.inMemory.members.holder.trans
    (thread_eq_some.mpr ⟨require_eq_ok.mp own, apart.present cur isTask⟩)
  rw [WakeUp.lockRelease, call_bind_of (call_get_returns.mpr ⟨rfl, rfl⟩),
    call_bind_of (call_lift_returns.mpr ⟨require_of holds, rfl⟩)]
  have ran := loadWord_bind.mp ran
  by_cases more : q.holderRepeatNr > 1
  · have more' : getWord s.mem (holderRepeatNr (lock ioq)).toNat > 1 := by
      rw [gt_iff_lt, BitVec.lt_def, ← repeats]
      exact more
    rw [Rings.recorded_mem, if_pos more'] at ran
    have ran := loadWord_bind.mp ran
    cases storeWord_returns.mp ran
    have held := runs.inMemory.setRepeatNr (w :=
      getWord s.mem (holderRepeatNr (lock ioq)).toNat - 1) apart
    have less : (getWord s.mem (holderRepeatNr (lock ioq)).toNat - 1).toNat =
        q.holderRepeatNr - 1 := by
      rw [repeats] at more ⊢
      rw [BitVec.toNat_sub, show (1 : Word).toNat = 1 from rfl]
      omega
    rw [less] at held
    rw [if_pos more]
    exact ⟨(), { q with holderRepeatNr := q.holderRepeatNr - 1 }, rfl, rfl,
      runs.change held rfl rfl rfl rfl rfl⟩
  · have more' : ¬ getWord s.mem (holderRepeatNr (lock ioq)).toNat > 1 := by
      rw [gt_iff_lt, BitVec.lt_def, ← repeats]
      exact more
    rw [Rings.recorded_mem, if_neg more'] at ran
    have ran := loadWord_bind.mp ran
    obtain ⟨_, _, checked, ran⟩ := call_bind_returns.mp ran
    obtain ⟨one, rfl⟩ := call_lift_returns.mp checked
    have ran := storeWord_bind.mp ran
    have ran := storeWord_bind.mp ran
    have once : q.holderRepeatNr = 1 :=
      repeats.trans (congrArg BitVec.toNat (require_eq_ok.mp one))
    have held := (runs.inMemory.setHolder (w := 0) apart).setRepeatNr (w := 0) apart
    rw [if_neg more, call_bind_of (call_lift_returns.mpr ⟨require_of once, rfl⟩),
      call_bind_of (call_modify_returns.mpr rfl)]
    refine semaUp_shown apart _ _ _ _ ?_ ran
    exact runs.change held rfl rfl rfl rfl rfl

/-! ## The ring -/

omit apart in
/-- The next position, of one in the buffer. -/
theorem nextPos_toNat (small : w.toNat < bufsize) :
    (nextPos w).toNat = WakeUp.nextPos w.toNat := by
  unfold bufsize at small
  have sum : (w + 1).toNat = w.toNat + 1 := by
    rw [BitVec.toNat_add, show (1 : Word).toNat = 1 from rfl]
    omega
  have positive : (w + 1).msb = false := BitVec.msb_eq_false_iff_two_mul_lt.mpr (by omega)
  rw [nextPos, BitVec.srem_eq, positive, show (BitVec.ofNat 32 bufsize).msb = false by decide]
  change ((w + 1) % BitVec.ofNat 32 bufsize).toNat = _
  rw [BitVec.toNat_umod, sum]
  rfl

omit apart in
/-- The next position is in the buffer. -/
theorem nextPos_lt (pos : Nat) : WakeUp.nextPos pos < bufsize := Nat.mod_lt _ (by decide)

omit apart in
/-- `ioq_full`. -/
theorem ioqFull_shown {full : Bool} (runs : Runs ioq task cur s q)
    (ran : (ioqFull ioq).run s = .ok (full, s')) :
    (full = true ↔ q.ioqFull) ∧ Runs ioq task cur s' q := by
  have members := runs.inMemory.members
  have ran := loadWord_bind.mp ran
  have ran := loadWord_bind.mp ran
  obtain ⟨rfl, rfl⟩ := call_pure_returns.mp ran
  refine ⟨?_, runs.same ⟨rfl, rfl⟩⟩
  have small := members.head ▸ runs.inMemory.head_lt
  rw [decide_eq_true_eq, ← BitVec.toNat_inj, nextPos_toNat small, ← members.head]
  exact iff_of_eq (congrArg (WakeUp.nextPos q.head = ·) members.tail.symm)

omit apart in
/-- `ioq_empty`. -/
theorem ioqEmpty_shown {empty : Bool} (runs : Runs ioq task cur s q)
    (ran : (ioqEmpty ioq).run s = .ok (empty, s')) :
    (empty = true ↔ q.ioqEmpty) ∧ Runs ioq task cur s' q := by
  have members := runs.inMemory.members
  have ran := loadWord_bind.mp ran
  have ran := loadWord_bind.mp ran
  obtain ⟨rfl, rfl⟩ := call_pure_returns.mp ran
  refine ⟨?_, runs.same ⟨rfl, rfl⟩⟩
  rw [decide_eq_true_eq, ← BitVec.toNat_inj]
  exact iff_of_eq (congrArg₂ Eq members.head.symm members.tail.symm)

/-- `wakeup` of the waiter of a call, if there is one. -/
theorem wakeWaiter_shown (call : IoCall) (ran : (do
      if (← loadWord ioq (waiterAddr ioq call)) ≠ 0 then
        wakeup ioq (waiterAddr ioq call) : RingCall Unit).run s = .ok ((), s'))
    (runs : Runs ioq task cur s q) :
    ∃ q', (WakeUp.wakeup call).run q = .ok ((), q') ∧ Runs ioq task cur s' q' := by
  have ran := loadWord_bind.mp ran
  by_cases null : getWord s.mem (waiterAddr ioq call).toNat = 0
  · rw [if_neg (not_not.mpr null)] at ran
    obtain ⟨-, rfl⟩ := call_pure_returns.mp ran
    have none_ : q.waiter call = none :=
      runs.inMemory.members.waiter.trans (thread_eq_none.mpr null)
    refine ⟨q, ?_, runs.same ⟨rfl, rfl⟩⟩
    rw [WakeUp.wakeup, call_bind_of (call_get_returns.mpr ⟨rfl, rfl⟩), none_]
    rfl
  · rw [if_pos null] at ran
    have runs : Runs ioq task cur (s.recorded ioq (waiterAddr ioq call) 4) q :=
      runs.same ⟨rfl, rfl⟩
    exact wakeup_shown apart runs null ran

omit apart in
/-- `wakeup` comes before the return, in one of two branches. -/
theorem wakeWaiter_returns (call : IoCall) {byte' : Byte} (ran : (do
      if (← loadWord ioq (waiterAddr ioq call)) ≠ 0 then
        wakeup ioq (waiterAddr ioq call)
      return byte : RingCall Byte).run s = .ok (byte', s')) :
    byte = byte' ∧ (do
      if (← loadWord ioq (waiterAddr ioq call)) ≠ 0 then
        wakeup ioq (waiterAddr ioq call) : RingCall Unit).run s = .ok ((), s') := by
  obtain ⟨w, _, loaded, ran⟩ := call_bind_returns.mp ran
  by_cases null : w = 0
  · rw [if_neg (not_not.mpr null)] at ran
    obtain ⟨rfl, rfl⟩ := call_pure_returns.mp ran
    refine ⟨rfl, call_bind_returns.mpr ⟨w, _, loaded, ?_⟩⟩
    rw [if_neg (not_not.mpr null)]
    rfl
  · rw [if_pos null] at ran
    obtain ⟨_, _, wakes, ran⟩ := call_bind_returns.mp ran
    obtain ⟨rfl, rfl⟩ := call_pure_returns.mp ran
    refine ⟨rfl, call_bind_returns.mpr ⟨w, _, loaded, ?_⟩⟩
    rw [if_pos null]
    exact wakes

/-- The rest of `ioq_putchar`. -/
theorem putByte_shown (byte : Byte) : Refines (Runs ioq task cur) (putByte ioq byte)
    (WakeUp.putByte byte) (SameValue (Runs ioq task cur)) := by
  intro s q _ s' runs ran
  have members := runs.inMemory.members
  have at_ : getWord s.mem (head ioq).toNat = BitVec.ofNat 32 q.head := by
    rw [members.head, BitVec.ofNat_toNat, BitVec.setWidth_eq]
  have held := runs.inMemory.setBuf apart byte runs.inMemory.head_lt
  have ran := loadWord_bind.mp ran
  obtain ⟨_, _, stored, ran⟩ := call_bind_returns.mp ran
  cases storeByte_returns.mp stored
  rw [at_] at ran
  obtain ⟨pos, _, loaded, ran⟩ := call_bind_returns.mp ran
  obtain ⟨same, rfl⟩ := loadWord_returns.mp loaded
  have pos_eq : q.head = pos.toNat := same ▸ held.members.head
  have next : (nextPos pos).toNat = WakeUp.nextPos q.head := by
    rw [nextPos_toNat (pos_eq ▸ runs.inMemory.head_lt), pos_eq]
  have held := held.setHead (w := nextPos pos) apart (next ▸ nextPos_lt q.head)
  rw [next] at held
  have ran := storeWord_bind.mp ran
  obtain ⟨q', wakes, runs⟩ := wakeWaiter_shown apart .getchar ran
    (show Runs ioq task cur _ { q with
      buf := Function.update q.buf q.head byte
      head := WakeUp.nextPos q.head } from
      runs.change (by simpa using held) (by simp) rfl rfl rfl rfl)
  refine ⟨(), q', ?_, rfl, runs⟩
  rw [WakeUp.putByte, call_bind_of (call_modify_returns.mpr rfl)]
  exact wakes

/-- The rest of `ioq_getchar`. -/
theorem takeByte_shown : Refines (Runs ioq task cur) (takeByte ioq)
    WakeUp.takeByte (SameValue (Runs ioq task cur)) := by
  intro s q _ s' runs ran
  have members := runs.inMemory.members
  have inside := runs.inMemory.tail_lt
  have at_ : getWord s.mem (tail ioq).toNat = BitVec.ofNat 32 q.tail := by
    rw [members.tail, BitVec.ofNat_toNat, BitVec.setWidth_eq]
  have next : (nextPos (BitVec.ofNat 32 q.tail)).toNat = WakeUp.nextPos q.tail := by
    rw [← at_, nextPos_toNat (members.tail ▸ inside), ← members.tail]
  have held := runs.inMemory.setTail (w := nextPos (BitVec.ofNat 32 q.tail)) apart
    (next ▸ nextPos_lt q.tail)
  rw [next] at held
  have ran := loadWord_bind.mp ran
  obtain ⟨_, _, loaded, ran⟩ := call_bind_returns.mp ran
  obtain ⟨rfl, rfl⟩ := loadByte_returns.mp loaded
  have ran := loadWord_bind.mp ran
  have ran := storeWord_bind.mp ran
  simp only [Rings.recorded_mem, at_] at ran
  obtain ⟨rfl, wakes⟩ := wakeWaiter_returns (.putchar (q.buf q.tail)) ran
  obtain ⟨q', woke, runs⟩ := wakeWaiter_shown apart _ wakes
    (show Runs ioq task cur _ { q with tail := WakeUp.nextPos q.tail } from
      runs.change (by simpa using held) (by simp) rfl rfl rfl rfl)
  refine ⟨_, q', ?_, (members.buf q.tail inside).symm, runs⟩
  rw [WakeUp.takeByte, call_bind_of (call_get_returns.mpr ⟨rfl, rfl⟩),
    call_bind_of (call_modify_returns.mpr rfl), call_bind_of woke]
  rfl

/-! ## The calls -/

/-- How many bytes are left of a transfer. -/
def Transfer.left : Transfer → Nat
  | .write bytes => bytes.length
  | .read count => count

/-- A transfer after its first byte. -/
def Transfer.next : Transfer → Transfer
  | .write bytes => .write bytes.tail
  | .read count => .read (count - 1)

omit apart in
/-- A byte less is left. -/
theorem Transfer.next_left (transfer : Transfer) : transfer.next.left = transfer.left - 1 := by
  cases transfer with
  | write bytes => exact List.length_tail
  | read count => rfl

omit apart in
/-- A transfer with bytes left is at a call of `ioq_putchar` or `ioq_getchar`. -/
theorem Transfer.blocks (transfer : Transfer) (some_ : 0 < transfer.left) :
    ∃ call, Blocks transfer call := by
  cases transfer with
  | write bytes =>
      cases bytes with
      | nil => exact absurd some_ (Nat.lt_irrefl 0)
      | cons byte rest => exact ⟨_, .write byte rest⟩
  | read count =>
      cases count with
      | zero => exact absurd some_ (Nat.lt_irrefl 0)
      | succ left => exact ⟨_, .read left⟩

omit apart in
/-- A blocked call waits where the call it is at waits. -/
theorem Transfer.waiterOf {ioq' : Word} {point : Point} {awake : Bool}
    (blocks : Blocks transfer call) :
    resume.waiterOf ⟨ioq', point, transfer, awake⟩ = waiterAddr ioq' call := by
  cases blocks <;> rfl

/-- After its first byte a transfer is over, blocked, or goes on with the next one. -/
def GoesOn (ioq : Word) (task : Word → Prop) (cur : Word) (transfer : Transfer) (s' : Rings)
    (q' : IoQueue Word) : Prop :=
  Rests ioq task s' q' ∨ ∃ middle, Rests ioq task middle q' ∧ middle.parked cur.toNat = none ∧
    (transferBytes cur ioq transfer.next).run middle = .ok ((), s')

include isTask in
/-- The first byte of a transfer is a call of `ioq_putchar` or `ioq_getchar`. -/
theorem transferBytes_call (blocks : Blocks transfer call) (runs : Runs ioq task cur s q)
    (ran : (transferBytes cur ioq transfer).run s = .ok ((), s')) :
    ∃ q', (WakeUp.ioqCall cur call).run q = .ok ((), q') ∧
      GoesOn ioq task cur transfer s' q' := by
  cases blocks with
  | write byte rest =>
      obtain ⟨full, _, tested, ran⟩ := call_bind_returns.mp ran
      obtain ⟨isFull, runs⟩ := ioqFull_shown runs tested
      rw [WakeUp.ioqCall, call_bind_of (call_get_returns.mpr ⟨rfl, rfl⟩)]
      cases full with
      | true =>
          rw [if_pos (show q.mustWait (.putchar byte) from isFull.mp rfl)]
          obtain ⟨_, q', waits, rests⟩ :=
            waitFor_shown apart isTask (.write byte rest) _ _ _ _ runs ran
          exact ⟨q', waits, .inl rests⟩
      | false =>
          rw [if_neg (show ¬ q.mustWait (.putchar byte) from
            fun is => Bool.false_ne_true (isFull.mpr is))]
          obtain ⟨_, middle, puts, ran⟩ := call_bind_returns.mp ran
          obtain ⟨_, q', puts', -, runs⟩ := putByte_shown apart byte _ _ _ _ runs puts
          refine ⟨_, ?_, .inr ⟨middle, runs.leave, runs.free, ran⟩⟩
          rw [WakeUp.transfer, call_bind_of puts']
          rfl
  | read left =>
      obtain ⟨_, _, all, ran⟩ := call_bind_returns.mp ran
      obtain ⟨-, rfl⟩ := call_pure_returns.mp ran
      obtain ⟨empty, _, tested, ran⟩ := call_bind_returns.mp all
      obtain ⟨isEmpty, runs⟩ := ioqEmpty_shown runs tested
      rw [WakeUp.ioqCall, call_bind_of (call_get_returns.mpr ⟨rfl, rfl⟩)]
      cases empty with
      | true =>
          rw [if_pos (show q.mustWait .getchar from isEmpty.mp rfl)]
          obtain ⟨_, _, waits, ran⟩ := call_bind_returns.mp ran
          obtain ⟨-, rfl⟩ := call_pure_returns.mp ran
          obtain ⟨_, q', waits, rests⟩ := waitFor_shown apart isTask (.read left) _ _ _ _ runs waits
          exact ⟨q', waits, .inl rests⟩
      | false =>
          rw [if_neg (show ¬ q.mustWait .getchar from
            fun is => Bool.false_ne_true (isEmpty.mpr is))]
          obtain ⟨byte, middle, takes, ran⟩ := call_bind_returns.mp ran
          obtain ⟨_, q', takes', -, runs⟩ := takeByte_shown apart _ _ _ _ runs takes
          obtain ⟨bytes, _, reads, ran⟩ := call_bind_returns.mp ran
          obtain ⟨-, rfl⟩ := call_pure_returns.mp ran
          refine ⟨_, ?_, .inr ⟨middle, runs.leave, runs.free,
            call_bind_returns.mpr ⟨_, _, reads, rfl⟩⟩⟩
          rw [WakeUp.transfer, call_bind_of takes']
          rfl

variable {first : IoQueue Word} {labels : List (WakeUp.QueueOp Word)}

include isTask in
/-- **A transfer is a run of the queue.** What a process reads from a ring or writes to it, up to
its end or to where it blocks, is a run of the calls of one thread. -/
theorem transferBytes_shown (steps : (WakeUp.ioQueue Word).Steps first labels q)
    (rests : Rests ioq task s q) (free : s.parked cur.toNat = none)
    (ran : (transferBytes cur ioq transfer).run s = .ok ((), s')) :
    ∃ labels' q', (WakeUp.ioQueue Word).Steps first labels' q' ∧ Rests ioq task s' q' := by
  -- by induction on the bytes that are left
  generalize bytes : transfer.left = left
  induction left generalizing transfer s q labels with
  | zero =>
      have done : s' = s := by
        cases transfer with
        | write bytes' =>
            rw [List.eq_nil_of_length_eq_zero bytes] at ran
            exact (call_pure_returns.mp ran).2.symm
        | read count =>
            obtain rfl : count = 0 := bytes
            exact (call_pure_returns.mp ran).2.symm
      exact ⟨labels, q, steps, done ▸ rests⟩
  | succ left ih =>
      obtain ⟨call, blocks⟩ := transfer.blocks (by omega)
      obtain ⟨q', called, goesOn⟩ := transferBytes_call apart isTask blocks (rests.runs free) ran
      have outside : q.place cur = .outside := by
        have at_ := rests.place cur
        rw [free] at at_
        generalize q.place cur = place at at_
        cases at_
        rfl
      have stepped : (WakeUp.ioQueue Word).step q (.start cur call) q' := by
        change WakeUp.queueExec q (.start cur call) = some q'
        rw [WakeUp.queueExec, if_pos outside, called]
        rfl
      have steps := steps.snoc (.start cur call) stepped
      rcases goesOn with rests | ⟨middle, rests, free, ran⟩
      · exact ⟨_, q', steps, rests⟩
      · exact ih steps rests free ran (by rw [Transfer.next_left, bytes, Nat.add_sub_cancel])

omit apart in
/-- A thread that was woken runs again. -/
theorem Rests.woken {call : Parked} (rests : Rests ioq task s q)
    (parked : s.parked cur.toNat = some call) (awake : call.awake = true) :
    Runs ioq task cur { s with parked := Function.update s.parked cur.toNat none } q where
  inMemory := rests.inMemory
  place t other := by
    have apart : t.toNat ≠ cur.toNat := fun same => other (BitVec.eq_of_toNat_eq same)
    change At ioq (Function.update s.parked cur.toNat none t.toNat) (q.place t)
    rw [Function.update_of_ne apart]
    exact rests.place t
  blocked := rests.blocked
  running call' := by
    have at_ := rests.place cur
    rw [parked] at at_
    generalize q.place cur = place at at_
    cases at_ with
    | elsewhere | unlocked | woken => exact ⟨nofun, nofun⟩
    | locking | sleeping => exact absurd awake Bool.false_ne_true
  free := Function.update_self _ _ _

include isTask in
/-- **A blocked transfer goes on.** When a process that was woken goes on with a transfer, this is a
run of the queue as well. -/
theorem resume_shown {call : Parked} (steps : (WakeUp.ioQueue Word).Steps first labels q)
    (rests : Rests ioq task s q) (parked : s.parked cur.toNat = some call) (ring : call.ioq = ioq)
    (awake : call.awake = true) (ran : (resume cur call).run s = .ok ((), s')) :
    ∃ labels' q', (WakeUp.ioQueue Word).Steps first labels' q' ∧ Rests ioq task s' q' := by
  have runs := rests.woken parked awake
  have at_ := rests.place cur
  rw [parked] at at_
  obtain ⟨_, _, woken, ran⟩ := call_bind_returns.mp ran
  cases call_modify_returns.mp woken
  have resumed : ∀ {q'}, (WakeUp.resume cur).run q = .ok ((), q') →
      (WakeUp.ioQueue Word).Steps first (labels ++ [.resume cur]) q' := by
    intro q' ran
    refine steps.snoc (.resume cur) ?_
    change ((WakeUp.resume cur).run q).toOption.map Prod.snd = some q'
    rw [ran]
    rfl
  rw [WakeUp.resume, call_bind_of (call_get_returns.mpr ⟨rfl, rfl⟩)] at resumed
  generalize q.place cur = place at at_ resumed
  cases at_ with
  | elsewhere other => exact absurd ring other
  | locking | sleeping => exact absurd awake Bool.false_ne_true
  | unlocked blocks =>
      obtain ⟨taken, _, downs, ran⟩ := call_bind_returns.mp ran
      obtain ⟨_, q', downs', rfl, acquired⟩ := semaDown_shown apart isTask _ _ _ _ _ runs downs
      rw [call_bind_of downs'] at resumed
      cases taken with
      | true =>
          obtain ⟨_, _, takes, ran⟩ := call_bind_returns.mp ran
          obtain ⟨_, q', takes', -, runs⟩ := takeLock_shown apart isTask _ _ _ _ acquired takes
          rw [Transfer.waiterOf blocks] at ran
          obtain ⟨_, q', waits, rests⟩ := ioqWait_shown apart isTask blocks _ _ _ _ runs ran
          exact ⟨_, q', resumed ((call_bind_of takes').trans waits), rests⟩
      | false =>
          cases call_modify_returns.mp ran
          exact ⟨_, q', resumed rfl, acquired _ blocks⟩
  | woken blocks =>
      obtain ⟨_, _, releases, ran⟩ := call_bind_returns.mp ran
      obtain ⟨_, q', releases', -, runs⟩ :=
        lockRelease_shown apart isTask _ _ _ _ runs releases
      obtain ⟨q', called, goesOn⟩ := transferBytes_call apart isTask blocks runs ran
      have steps := resumed ((call_bind_of releases').trans called)
      rcases goesOn with rests | ⟨middle, rests, free, ran⟩
      · exact ⟨_, q', steps, rests⟩
      · exact transferBytes_shown apart isTask steps rests free ran

/-- **A new ring.** `ioqueue_init` makes an empty queue, which no thread waits for. -/
theorem ioqueueInit_shown (free : ∀ t call, s.parked t = some call → call.ioq ≠ ioq)
    (ran : (ioqueueInit ioq).run s = .ok ((), s')) :
    ∃ buf, Rests ioq task s' (WakeUp.ioqueueInit buf) := by
  have low := apart.low
  have isHead : IsNode ioq task (listHead (waitersOf ioq)) := .inl rfl
  have isTail : IsNode ioq task (listTail (waitersOf ioq)) := .inr (.inl rfl)
  obtain ⟨_, locked, lockInit, ran⟩ := call_bind_returns.mp ran
  -- the lock and its semaphore
  have lockInit := storeWord_bind.mp lockInit
  obtain ⟨_, _, stored, semaInit⟩ := call_bind_returns.mp lockInit
  cases storeWord_returns.mp stored
  obtain ⟨_, middle, stored, listInit⟩ := call_bind_returns.mp semaInit
  have members : Members ioq middle.mem { readMembers ioq s.mem with
      holder := none, holderRepeatNr := 0, value := 1 } := by
    cases storeByte_returns.mp stored
    have read : Members ioq s.mem (readMembers ioq s.mem) :=
      ⟨rfl, rfl, rfl, rfl, rfl, fun _ _ => rfl, rfl, rfl⟩
    exact ((read.setHolder (w := 0) low).setRepeatNr (w := 0) low).setValue low 1
  have parked : middle.parked = s.parked := by
    cases storeByte_returns.mp stored
    rfl
  -- the list, whose first and last element are linked
  obtain ⟨_, _, stored, listInit⟩ := call_bind_returns.mp listInit
  have linked : Relinked ioq task (links middle.mem) middle middle := Relinked.refl
  have linked := linked.storePrev apart isHead stored
  obtain ⟨_, _, stored, listInit⟩ := call_bind_returns.mp listInit
  have linked := linked.storeNext apart isHead stored
  obtain ⟨_, _, stored, listInit⟩ := call_bind_returns.mp listInit
  have linked := linked.storePrev apart isTail stored
  have linked := linked.storeNext apart isTail listInit
  have members := linked.same.keptMembers low members
  have other : listHead (waitersOf ioq) ≠ listTail (waitersOf ioq) := by
    intro same
    have at_ := congrArg BitVec.toNat same
    rw [listHead_toNat low, listTail_toNat low] at at_
    omega
  have none_ : ∀ t ∈ ([] : List Word), task t := fun t member => (List.not_mem_nil member).elim
  have row : (links locked.mem).Row (nodes ioq []) := by
    refine Links.Row.congr ⟨?_, ?_⟩ fun a member => ⟨linked.next a (isNode_of_mem none_ member),
      linked.prev a (isNode_of_mem none_ member)⟩
    · refine List.isChain_cons_cons.mpr ⟨⟨?_, Function.update_self _ _ _⟩,
        List.isChain_singleton _⟩
      exact (Function.update_of_ne other _ _).trans (Function.update_self _ _ _)
    · exact List.nodup_cons.mpr ⟨fun member => other (List.mem_singleton.mp member),
        List.nodup_singleton _⟩
  -- the waiters and the two positions
  have ran := storeWord_bind.mp ran
  have ran := storeWord_bind.mp ran
  have ran := storeWord_bind.mp ran
  cases storeWord_returns.mp ran
  have members := (((members.setConsumer (w := 0) low).setProducer (w := 0) low).setTail
    (w := 0) low).setHead (w := 0) low
  have row := row_storeWord (w := 0) apart none_ (head_toNat low) (.inr (by decide)) (by decide)
    (row_storeWord (w := 0) apart none_ (tail_toNat low) (.inr (by decide)) (by decide)
      (row_storeWord (w := 0) apart none_ (producer_toNat low) (.inr (by decide)) (by decide)
        (row_storeWord (w := 0) apart none_ (consumer_toNat low) (.inr (by decide)) (by decide)
          row)))
  have positions : (0 : Nat) < bufsize := by decide
  refine ⟨(readMembers ioq s.mem).buf, ⟨?_, ?_, none_, positions, positions⟩, fun t => ?_,
    fun t member => (List.not_mem_nil member).elim, nofun, nofun⟩
  · simp only [Rings.stored_mem]
    exact members
  · simp only [Rings.stored_mem]
    exact row
  · simp only [Rings.stored_parked]
    rw [linked.parked, parked]
    change At ioq (s.parked t.toNat) .outside
    cases here : s.parked t.toNat with
    | none => exact .outside
    | some call => exact .elsewhere (free _ call here)

end UKernel.Pipe
