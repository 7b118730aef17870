import UKernel.Library.Bytes
import UKernel.Library.Call
import UKernel.Library.Transition

/-! # Waiting for a ring

Any number of threads call `ioq_getchar` and `ioq_putchar` on one `struct ioqueue`. A thread gives
up the processor only where it blocks, in `sema_down` and in `ioq_wait`. It tests the ring before it
acquires the lock and not again before it sleeps, so a thread that had to wait for the lock may
sleep beside a ring that is no longer empty, or no longer full. In every run in which the test
still holds when such a thread gets the lock, a sleeping consumer means an empty ring and a sleeping
producer a full one (`UKernel.WakeUp.no_wakeup_lost`).
-/

namespace UKernel.WakeUp

open UKernel.Library

/-! ## The queue -/

/-- `bufsize`. -/
def bufsize : Nat := 4096

/-- A call of a thread. -/
inductive IoCall where
  /-- `ioq_getchar`. -/
  | getchar
  /-- `ioq_putchar`. -/
  | putchar (byte : Byte)
  deriving DecidableEq, Repr

/-- Where a thread is. -/
inductive Place where
  /-- In neither function. -/
  | outside
  /-- In `thread_block`, called by `sema_down`. -/
  | locking (call : IoCall)
  /-- Unblocked there, and not run since. -/
  | unlocked (call : IoCall)
  /-- In `thread_block`, called by `ioq_wait`. -/
  | sleeping (call : IoCall)
  /-- Unblocked there, and not run since. -/
  | woken (call : IoCall)
  deriving DecidableEq, Repr

/-- `struct ioqueue` with its lock and the semaphore of that, and the threads that use it. -/
structure IoQueue (Tid : Type) where
  holder : Option Tid
  holderRepeatNr : Nat
  value : Nat
  waiters : List Tid
  producer : Option Tid
  consumer : Option Tid
  buf : Nat → Byte
  head : Nat
  tail : Nat
  place : Tid → Place

variable {Tid : Type} [DecidableEq Tid]

/-- A call that reads and changes the queue. -/
abbrev QueueCall (Tid : Type) (α : Type) := Call (IoQueue Tid) α

/-- `ioqueue_init`, before any thread uses the queue. -/
def ioqueueInit (buf : Nat → Byte) : IoQueue Tid where
  holder := none
  holderRepeatNr := 0
  value := 1
  waiters := []
  producer := none
  consumer := none
  buf := buf
  head := 0
  tail := 0
  place := fun _ => .outside

/-- `next_pos`. -/
def nextPos (pos : Nat) : Nat := (pos + 1) % bufsize

namespace IoQueue

/-- `ioq_full`. -/
def ioqFull (s : IoQueue Tid) : Prop := nextPos s.head = s.tail

/-- `ioq_empty`. -/
def ioqEmpty (s : IoQueue Tid) : Prop := s.head = s.tail

/-- The condition of the loop of a call. -/
def mustWait (s : IoQueue Tid) : IoCall → Prop
  | .getchar => s.ioqEmpty
  | .putchar _ => s.ioqFull

instance (s : IoQueue Tid) (call : IoCall) : Decidable (s.mustWait call) := by
  cases call with
  | getchar => exact inferInstanceAs (Decidable (s.head = s.tail))
  | putchar byte => exact inferInstanceAs (Decidable (nextPos s.head = s.tail))

/-- The waiter of a call. -/
def waiter (s : IoQueue Tid) : IoCall → Option Tid
  | .getchar => s.consumer
  | .putchar _ => s.producer

/-- Set the waiter of a call. -/
def setWaiter (s : IoQueue Tid) (call : IoCall) (waiter : Option Tid) : IoQueue Tid :=
  match call with
  | .getchar => { s with consumer := waiter }
  | .putchar _ => { s with producer := waiter }

end IoQueue

/-! ## Blocking and waking -/

/-- `thread_block`, and where the thread returns to. -/
def setPlace (t : Tid) (place : Place) : QueueCall Tid Unit :=
  modify fun s => { s with place := Function.update s.place t place }

/-- `thread_unblock`. -/
def threadUnblock (t : Tid) : QueueCall Tid Unit := do
  match (← get).place t with
  | .locking call => setPlace t (.unlocked call)
  | .sleeping call => setPlace t (.woken call)
  | _ => throw .assertion

/-- `sema_down`, up to its return (`true`) or to the call of `thread_block`. -/
def semaDown (t : Tid) (call : IoCall) : QueueCall Tid Bool := do
  let s ← get
  if s.value = 0 then
    require (t ∉ s.waiters)
    modify fun s => { s with waiters := s.waiters ++ [t] }
    setPlace t (.locking call)
    return false
  else
    require ((s.value + 2 ^ 8 - 1) % 2 ^ 8 = 0)
    modify fun s => { s with value := (s.value + 2 ^ 8 - 1) % 2 ^ 8 }
    return true

/-- The part of `lock_acquire` after `sema_down`. -/
def takeLock (t : Tid) : QueueCall Tid Unit := do
  require ((← get).holderRepeatNr = 0)
  modify fun s => { s with holder := some t, holderRepeatNr := 1 }

/-- `lock_acquire`, up to its return (`true`) or to the call of `thread_block`. -/
def lockAcquire (t : Tid) (call : IoCall) : QueueCall Tid Bool := do
  if (← get).holder ≠ some t then
    if ← semaDown t call then
      takeLock t
      return true
    else
      return false
  else
    modify fun s => { s with holderRepeatNr := (s.holderRepeatNr + 1) % 2 ^ 32 }
    return true

/-- The call of `thread_unblock` in `sema_up`. -/
def wakeFirst : QueueCall Tid Unit := do
  match (← get).waiters with
  | [] => pure ()
  | threadBlocked :: rest => do
      modify fun s => { s with waiters := rest }
      threadUnblock threadBlocked

/-- `sema_up`. -/
def semaUp : QueueCall Tid Unit := do
  require ((← get).value = 0)
  wakeFirst
  modify fun s => { s with value := (s.value + 1) % 2 ^ 8 }
  require ((← get).value = 1)

/-- `lock_release`. -/
def lockRelease (t : Tid) : QueueCall Tid Unit := do
  let s ← get
  require (s.holder = some t)
  if s.holderRepeatNr > 1 then
    modify fun s => { s with holderRepeatNr := s.holderRepeatNr - 1 }
  else
    require (s.holderRepeatNr = 1)
    modify fun s => { s with holder := none, holderRepeatNr := 0 }
    semaUp

/-! ## The two calls -/

/-- `ioq_wait`, up to the call of `thread_block`. -/
def ioqWait (t : Tid) (call : IoCall) : QueueCall Tid Unit := do
  require ((← get).waiter call = none)
  modify fun s => s.setWaiter call (some t)
  setPlace t (.sleeping call)

/-- `if(ioq->producer != NULL) wakeup(&ioq->producer)`, and the same for the consumer; the call is
that of the waiter. -/
def wakeup (call : IoCall) : QueueCall Tid Unit := do
  match (← get).waiter call with
  | none => pure ()
  | some t => do
      threadUnblock t
      modify fun s => s.setWaiter call none

/-- The part of `ioq_getchar` after its loop. -/
def takeByte : QueueCall Tid Byte := do
  let s ← get
  let byte := s.buf s.tail
  modify fun s => { s with tail := nextPos s.tail }
  wakeup (.putchar byte)
  return byte

/-- The part of `ioq_putchar` after its loop. -/
def putByte (byte : Byte) : QueueCall Tid Unit := do
  modify fun s => { s with
    buf := Function.update s.buf s.head byte
    head := nextPos s.head }
  wakeup .getchar

/-- The end of a call. -/
def transfer (t : Tid) : IoCall → QueueCall Tid Unit
  | .getchar => do
      let _ ← takeByte
      setPlace t .outside
  | .putchar byte => do
      putByte byte
      setPlace t .outside

/-- A call from the test of its loop to its return or to the next `thread_block`. -/
def ioqCall (t : Tid) (call : IoCall) : QueueCall Tid Unit := do
  if (← get).mustWait call then
    if ← lockAcquire t call then
      ioqWait t call
  else
    transfer t call

/-- A thread that was unblocked goes on. -/
def resume (t : Tid) : QueueCall Tid Unit := do
  match (← get).place t with
  | .unlocked call =>
      if ← semaDown t call then
        takeLock t
        ioqWait t call
  | .woken call => do
      lockRelease t
      ioqCall t call
  | _ => throw .assertion

/-! ## Runs -/

/-- A thread makes a call, or goes on with one. -/
inductive QueueOp (Tid : Type) where
  | start (t : Tid) (call : IoCall)
  | resume (t : Tid)

/-- Take one step. -/
def queueExec (s : IoQueue Tid) : QueueOp Tid → Option (IoQueue Tid)
  | .start t call =>
      if s.place t = .outside then ((ioqCall t call).run s).toOption.map Prod.snd else none
  | .resume t => ((resume t).run s).toOption.map Prod.snd

/-- The threads on a queue, from `ioqueue_init` on, under every interleaving. -/
def ioQueue (Tid : Type) [DecidableEq Tid] : TransitionSystem (IoQueue Tid) (QueueOp Tid) where
  initial s := ∃ buf, s = ioqueueInit buf
  step s op next := queueExec s op = some next

/-- A consumer sleeps only beside an empty ring, and a producer only beside a full one. -/
structure WakeUpsKept (s : IoQueue Tid) : Prop where
  consumer : s.consumer ≠ none → s.ioqEmpty
  producer : s.producer ≠ none → s.ioqFull

/-- A thread that waited for the lock gets it only while it has to wait for the ring. -/
def StillMustWait (s : IoQueue Tid) (op : QueueOp Tid) : Prop :=
  ∀ t call, op = .resume t → s.place t = .unlocked call → s.value ≠ 0 → s.mustWait call

/-! ## What the calls change -/

/-- The ring and its waiters are the same. -/
structure SameRing (s s' : IoQueue Tid) : Prop where
  buf : s'.buf = s.buf
  head : s'.head = s.head
  tail : s'.tail = s.tail
  producer : s'.producer = s.producer
  consumer : s'.consumer = s.consumer

omit [DecidableEq Tid] in
theorem SameRing.trans {s s' s'' : IoQueue Tid} (first : SameRing s s') (second : SameRing s' s'') :
    SameRing s s'' :=
  ⟨second.buf.trans first.buf, second.head.trans first.head, second.tail.trans first.tail,
    second.producer.trans first.producer, second.consumer.trans first.consumer⟩

instance : Std.Refl (@SameRing Tid) := ⟨fun _ => ⟨rfl, rfl, rfl, rfl, rfl⟩⟩

instance : IsTrans (IoQueue Tid) SameRing := ⟨fun _ _ _ => SameRing.trans⟩

variable {s s' : IoQueue Tid} {t : Tid} {call : IoCall}

omit [DecidableEq Tid] in
theorem SameRing.mustWait (same : SameRing s s') (call : IoCall) :
    s'.mustWait call ↔ s.mustWait call := by
  cases call with
  | getchar =>
      change s'.head = s'.tail ↔ s.head = s.tail
      rw [same.head, same.tail]
  | putchar byte =>
      change nextPos s'.head = s'.tail ↔ nextPos s.head = s.tail
      rw [same.head, same.tail]

omit [DecidableEq Tid] in
theorem SameRing.wakeUpsKept (same : SameRing s s') (kept : WakeUpsKept s) : WakeUpsKept s' where
  consumer sleeps := (same.mustWait .getchar).mpr (kept.consumer (same.consumer ▸ sleeps))
  producer sleeps := (same.mustWait (.putchar 0)).mpr (kept.producer (same.producer ▸ sleeps))

theorem setPlace_sameRing (t : Tid) (place : Place) : Keeps SameRing (setPlace t place) :=
  .modify fun _ => ⟨rfl, rfl, rfl, rfl, rfl⟩

theorem threadUnblock_sameRing (t : Tid) : Keeps SameRing (threadUnblock t) := by
  refine .bind .get fun s => ?_
  split
  · exact setPlace_sameRing t _
  · exact setPlace_sameRing t _
  · exact .throw _

theorem semaDown_sameRing (t : Tid) (call : IoCall) : Keeps SameRing (semaDown t call) := by
  refine .bind .get fun s => ?_
  split
  · exact .bind (.lift _) fun _ => .bind (.modify fun _ => ⟨rfl, rfl, rfl, rfl, rfl⟩) fun _ =>
      .bind (setPlace_sameRing t _) fun _ => .pure _
  · exact .bind (.lift _) fun _ => .bind (.modify fun _ => ⟨rfl, rfl, rfl, rfl, rfl⟩) fun _ =>
      .pure _

omit [DecidableEq Tid] in
theorem takeLock_sameRing (t : Tid) : Keeps SameRing (takeLock t) :=
  .bind .get fun _ => .bind (.lift _) fun _ => .modify fun _ => ⟨rfl, rfl, rfl, rfl, rfl⟩

theorem lockAcquire_sameRing (t : Tid) (call : IoCall) : Keeps SameRing (lockAcquire t call) := by
  refine .bind .get fun s => ?_
  split
  · refine .bind (semaDown_sameRing t call) fun taken => ?_
    split
    · exact .bind (takeLock_sameRing t) fun _ => .pure _
    · exact .pure _
  · exact .bind (.modify fun _ => ⟨rfl, rfl, rfl, rfl, rfl⟩) fun _ => .pure _

theorem wakeFirst_sameRing : Keeps SameRing (wakeFirst : QueueCall Tid Unit) := by
  refine .bind .get fun s => ?_
  split
  · exact .pure _
  · exact .bind (.modify fun _ => ⟨rfl, rfl, rfl, rfl, rfl⟩) fun _ => threadUnblock_sameRing _

theorem semaUp_sameRing : Keeps SameRing (semaUp : QueueCall Tid Unit) :=
  .bind .get fun _ => .bind (.lift _) fun _ => .bind wakeFirst_sameRing fun _ =>
    .bind (.modify fun _ => ⟨rfl, rfl, rfl, rfl, rfl⟩) fun _ => .bind .get fun _ => .lift _

theorem lockRelease_sameRing (t : Tid) : Keeps SameRing (lockRelease t) := by
  refine .bind .get fun s => .bind (.lift _) fun _ => ?_
  split
  · exact .modify fun _ => ⟨rfl, rfl, rfl, rfl, rfl⟩
  · exact .bind (.lift _) fun _ => .bind (.modify fun _ => ⟨rfl, rfl, rfl, rfl, rfl⟩) fun _ =>
      semaUp_sameRing

/-- After `ioq_wait` the thread is the waiter of its call. -/
theorem ioqWait_returns (ran : (ioqWait t call).run s = .ok ((), s')) :
    ∃ middle, middle = s.setWaiter call (some t) ∧ SameRing middle s' := by
  rw [ioqWait, call_bind_of (call_get_returns.mpr ⟨rfl, rfl⟩)] at ran
  obtain ⟨_, _, checks, ran⟩ := call_bind_returns.mp ran
  obtain ⟨-, rfl⟩ := call_lift_returns.mp checks
  obtain ⟨_, _, sets, ran⟩ := call_bind_returns.mp ran
  cases call_modify_returns.mp sets
  exact ⟨_, rfl, setPlace_sameRing _ _ _ _ _ ran⟩

/-- A thread that sleeps keeps the wake-ups exactly when it has to wait. -/
theorem ioqWait_kept_iff (kept : WakeUpsKept s) (ran : (ioqWait t call).run s = .ok ((), s')) :
    WakeUpsKept s' ↔ s.mustWait call := by
  obtain ⟨_, rfl, same⟩ := ioqWait_returns ran
  have sets : WakeUpsKept (s.setWaiter call (some t)) ↔ s.mustWait call := by
    cases call with
    | getchar => exact ⟨fun kept' => kept'.consumer (Option.some_ne_none t),
        fun waits => ⟨fun _ => waits, kept.producer⟩⟩
    | putchar byte => exact ⟨fun kept' => kept'.producer (Option.some_ne_none t),
        fun waits => ⟨kept.consumer, fun _ => waits⟩⟩
  rw [← sets]
  exact ⟨SameRing.wakeUpsKept ⟨same.buf.symm, same.head.symm, same.tail.symm,
    same.producer.symm, same.consumer.symm⟩, same.wakeUpsKept⟩

/-- After `wakeup` a call has no waiter. -/
theorem wakeup_returns (ran : (wakeup call).run s = .ok ((), s')) :
    SameRing (s.setWaiter call none) s' := by
  rw [wakeup, call_bind_of (call_get_returns.mpr ⟨rfl, rfl⟩)] at ran
  cases sleeps : s.waiter call with
  | none =>
      simp only [sleeps] at ran
      obtain ⟨-, rfl⟩ := call_pure_returns.mp ran
      cases call with
      | getchar => exact ⟨rfl, rfl, rfl, rfl, sleeps⟩
      | putchar byte => exact ⟨rfl, rfl, rfl, sleeps, rfl⟩
  | some waiter =>
      simp only [sleeps] at ran
      obtain ⟨_, middle, unblocks, ran⟩ := call_bind_returns.mp ran
      have same := threadUnblock_sameRing _ _ _ _ unblocks
      cases call_modify_returns.mp ran
      cases call with
      | getchar => exact ⟨same.buf, same.head, same.tail, same.producer, rfl⟩
      | putchar byte => exact ⟨same.buf, same.head, same.tail, rfl, same.consumer⟩

/-- A transfer leaves nobody asleep. -/
theorem transfer_kept (kept : WakeUpsKept s) (may : ¬ s.mustWait call)
    (ran : (transfer t call).run s = .ok ((), s')) : WakeUpsKept s' := by
  cases call with
  | getchar =>
      have awake : s.consumer = none := by
        by_contra sleeps
        exact may (kept.consumer sleeps)
      obtain ⟨_, _, takes, ran⟩ := call_bind_returns.mp ran
      rw [takeByte, call_bind_of (call_get_returns.mpr ⟨rfl, rfl⟩)] at takes
      obtain ⟨_, _, moves, takes⟩ := call_bind_returns.mp takes
      cases call_modify_returns.mp moves
      obtain ⟨_, _, wakes, takes⟩ := call_bind_returns.mp takes
      obtain ⟨-, rfl⟩ := call_pure_returns.mp takes
      have same := (wakeup_returns wakes).trans (setPlace_sameRing _ _ _ _ _ ran)
      exact ⟨fun sleeps => absurd (same.consumer.trans awake) sleeps,
        fun sleeps => absurd same.producer sleeps⟩
  | putchar byte =>
      have awake : s.producer = none := by
        by_contra sleeps
        exact may (kept.producer sleeps)
      obtain ⟨_, _, puts, ran⟩ := call_bind_returns.mp ran
      obtain ⟨_, _, moves, puts⟩ := call_bind_returns.mp puts
      cases call_modify_returns.mp moves
      have same := (wakeup_returns puts).trans (setPlace_sameRing _ _ _ _ _ ran)
      exact ⟨fun sleeps => absurd same.consumer sleeps,
        fun sleeps => absurd (same.producer.trans awake) sleeps⟩

/-- A thread that tests the ring and does not wait for the lock. -/
theorem ioqCall_kept (kept : WakeUpsKept s) (ran : (ioqCall t call).run s = .ok ((), s')) :
    WakeUpsKept s' := by
  rw [ioqCall, call_bind_of (call_get_returns.mpr ⟨rfl, rfl⟩)] at ran
  by_cases waits : s.mustWait call
  · rw [if_pos waits] at ran
    obtain ⟨taken, _, acquires, ran⟩ := call_bind_returns.mp ran
    have same := lockAcquire_sameRing _ _ _ _ _ acquires
    cases taken with
    | true =>
        have waits := (same.mustWait call).mpr waits
        exact (ioqWait_kept_iff (same.wakeUpsKept kept) ran).mpr waits
    | false =>
        obtain ⟨-, rfl⟩ := call_pure_returns.mp ran
        exact same.wakeUpsKept kept
  · rw [if_neg waits] at ran
    exact transfer_kept kept waits ran

/-- `sema_down` takes the value if there is one. -/
theorem semaDown_taken {taken : Bool} (ran : (semaDown t call).run s = .ok (taken, s')) :
    taken = true ↔ s.value ≠ 0 := by
  rw [semaDown, call_bind_of (call_get_returns.mpr ⟨rfl, rfl⟩)] at ran
  by_cases zero : s.value = 0
  · rw [if_pos zero] at ran
    obtain ⟨_, _, _, ran⟩ := call_bind_returns.mp ran
    obtain ⟨_, _, _, ran⟩ := call_bind_returns.mp ran
    obtain ⟨_, _, _, ran⟩ := call_bind_returns.mp ran
    obtain ⟨rfl, -⟩ := call_pure_returns.mp ran
    exact iff_of_false Bool.false_ne_true (not_not.mpr zero)
  · rw [if_neg zero] at ran
    obtain ⟨_, _, _, ran⟩ := call_bind_returns.mp ran
    obtain ⟨_, _, _, ran⟩ := call_bind_returns.mp ran
    obtain ⟨rfl, -⟩ := call_pure_returns.mp ran
    exact iff_of_true rfl zero

/-- A thread that goes on. -/
theorem resume_kept_iff (kept : WakeUpsKept s) (ran : (resume t).run s = .ok ((), s')) :
    WakeUpsKept s' ↔ StillMustWait s (.resume t) := by
  rw [resume, call_bind_of (call_get_returns.mpr ⟨rfl, rfl⟩)] at ran
  cases place : s.place t with
  | unlocked call =>
      have only : StillMustWait s (.resume t) ↔ (s.value ≠ 0 → s.mustWait call) := by
        constructor
        · exact fun still => still t call rfl place
        · intro still t' call' same place'
          cases same
          cases place.symm.trans place'
          exact still
      rw [only]
      simp only [place] at ran
      obtain ⟨taken, _, downs, ran⟩ := call_bind_returns.mp ran
      have same := semaDown_sameRing _ _ _ _ _ downs
      have value := semaDown_taken downs
      cases taken with
      | true =>
          obtain ⟨_, _, takes, ran⟩ := call_bind_returns.mp ran
          have same := same.trans (takeLock_sameRing _ _ _ _ takes)
          rw [ioqWait_kept_iff (same.wakeUpsKept kept) ran, same.mustWait]
          exact ⟨fun waits _ => waits, fun waits => waits (value.mp rfl)⟩
      | false =>
          obtain ⟨-, rfl⟩ := call_pure_returns.mp ran
          refine iff_of_true (same.wakeUpsKept kept) fun taken => ?_
          exact absurd (value.mpr taken) Bool.false_ne_true
  | woken call =>
      simp only [place] at ran
      obtain ⟨_, _, releases, ran⟩ := call_bind_returns.mp ran
      have same := lockRelease_sameRing _ _ _ _ releases
      refine iff_of_true (ioqCall_kept (same.wakeUpsKept kept) ran) ?_
      intro t' call' is place'
      cases is
      cases place.symm.trans place'
  | outside | locking | sleeping =>
      simp only [place] at ran
      exact (call_throw_returns ran).elim

/-- A step keeps the wake-ups exactly when a thread that gets the lock still has to wait. -/
theorem step_kept_iff {op : QueueOp Tid} {next : IoQueue Tid} (kept : WakeUpsKept s)
    (stepped : queueExec s op = some next) : WakeUpsKept next ↔ StillMustWait s op := by
  cases op with
  | start t call =>
      have still : StillMustWait s (.start t call) := by
        intro t' call' is
        cases is
      by_cases outside : s.place t = .outside
      · have ran : ((ioqCall t call).run s).toOption.map Prod.snd = some next :=
          (if_pos outside).symm.trans stepped
        obtain ⟨⟨_, s'⟩, returned, rfl⟩ := Option.map_eq_some_iff.mp ran
        exact iff_of_true (ioqCall_kept kept (returned_of_toOption returned)) still
      · cases (if_neg outside).symm.trans stepped
  | resume t =>
      have ran : ((resume t).run s).toOption.map Prod.snd = some next := stepped
      obtain ⟨⟨_, s'⟩, returned, rfl⟩ := Option.map_eq_some_iff.mp ran
      exact resume_kept_iff kept (returned_of_toOption returned)

/-- **Wake-ups.** In every run in which a thread that waited for the lock gets it only while it has
to wait for the ring, a consumer sleeps only beside an empty ring and a producer only beside a
full one; and a step in which a thread gets the lock otherwise breaks this. -/
theorem no_wakeup_lost (reachable : ((ioQueue Tid).under StillMustWait).Reachable s) :
    WakeUpsKept s ∧ ∀ op next, queueExec s op = some next →
      (WakeUpsKept next ↔ StillMustWait s op) := by
  have kept : WakeUpsKept s := by
    apply reachable.invariant WakeUpsKept
    · rintro s ⟨buf, rfl⟩
      exact ⟨fun sleeps => absurd rfl sleeps, fun sleeps => absurd rfl sleeps⟩
    · exact fun s op next _ kept taken => (step_kept_iff kept taken.2).mpr taken.1
  exact ⟨kept, fun op next stepped => step_kept_iff kept stepped⟩

/-! ## A sleeper beside a byte -/

/-- Thread 1 sleeps, thread 2 waits for the lock, and thread 3 puts a byte that thread 1 takes. -/
def contended : List (QueueOp Nat) :=
  [.start 1 .getchar, .start 2 .getchar, .start 3 (.putchar 0x61), .resume 1]

/-- A thread that sleeps and one that waits for the lock. -/
theorem no_wakeup_lost_contended : ∃ s : IoQueue Nat, s.consumer = some 1 ∧ s.waiters = [2] ∧
    WakeUpsKept s ∧ ∀ op next, queueExec s op = some next →
      (WakeUpsKept next ↔ StillMustWait s op) := by
  have found : ((queueExec (ioqueueInit fun _ => 0) (.start 1 .getchar)).bind fun s =>
      queueExec s (.start 2 .getchar)).any (fun (s : IoQueue Nat) =>
        decide (s.consumer = some 1 ∧ s.waiters = [2])) = true := by
    decide +kernel
  obtain ⟨s, ran, facts⟩ := Option.any_eq_true _ _ |>.mp found
  obtain ⟨sleeps, waits⟩ := of_decide_eq_true facts
  obtain ⟨slept, first, second⟩ := Option.bind_eq_some_iff.mp ran
  have quiet : ∀ (s : IoQueue Nat) t call, StillMustWait s (.start t call) := by
    intro s t call t' call' is
    cases is
  have start : ((ioQueue Nat).under StillMustWait).Reachable (ioqueueInit fun _ => 0) :=
    .initial ⟨_, rfl⟩
  have reached := (start.step _ ⟨quiet _ _ _, first⟩).step _ ⟨quiet _ _ _, second⟩
  exact ⟨s, sleeps, waits, no_wakeup_lost reached⟩

/-- Thread 3 puts one more byte before thread 2 gets the lock, and thread 2 sleeps beside it. -/
theorem consumer_sleeps_beside_byte : ¬ ∀ s : IoQueue Nat, (ioQueue Nat).Reachable s →
    WakeUpsKept s := by
  intro all
  have found : (TransitionSystem.run queueExec (ioqueueInit fun _ => 0)
      (contended ++ [.start 3 (.putchar 0x62), .resume 2])).any (fun (s : IoQueue Nat) =>
        decide (s.consumer = some 2 ∧ s.head = 2 ∧ s.tail = 1)) = true := by
    decide +kernel
  obtain ⟨s, ran, facts⟩ := Option.any_eq_true _ _ |>.mp found
  obtain ⟨sleeps, head, tail⟩ := of_decide_eq_true facts
  have start : (ioQueue Nat).Reachable (ioqueueInit fun _ => 0) := .initial ⟨_, rfl⟩
  have empty : s.head = s.tail :=
    (all s (start.run (fun _ _ _ stepped => stepped) ran)).consumer (by rw [sleeps]; simp)
  omega

end UKernel.WakeUp
