import UKernel.Library.RingBuffer
import UKernel.Pipe.WakeUp

/-! # The ring as a queue

What `ioq_putchar` puts, `ioq_getchar` returns in the same order. The calls are those of
`UKernel.Pipe.WakeUp`, with the byte that each of them moved when it came to its end; in every run,
however the calls are interleaved, the bytes in the ring are those that were put and not yet
returned (`UKernel.WakeUp.ioq_fifo`).
-/

namespace UKernel.WakeUp

open UKernel.Library

variable {Tid : Type} [DecidableEq Tid]

/-! ## Calls with what they moved -/

/-- What a call did when it came to its end. -/
inductive Moved where
  /-- `ioq_putchar` put a byte. -/
  | put (byte : Byte)
  /-- `ioq_getchar` returned a byte. -/
  | returned (byte : Byte)
  deriving DecidableEq, Repr

/-- The end of a call. -/
def transferByte (t : Tid) : IoCall → QueueCall Tid Moved
  | .getchar => do
      let byte ← takeByte
      setPlace t .outside
      return .returned byte
  | .putchar byte => do
      putByte byte
      setPlace t .outside
      return .put byte

/-- A call from the test of its loop to its return or, with nothing moved, to the next
`thread_block`. -/
def ioqCallByte (t : Tid) (call : IoCall) : QueueCall Tid (Option Moved) := do
  if (← get).mustWait call then
    if ← lockAcquire t call then
      ioqWait t call
    return none
  else
    return some (← transferByte t call)

/-- A thread that was unblocked goes on. -/
def resumeByte (t : Tid) : QueueCall Tid (Option Moved) := do
  match (← get).place t with
  | .unlocked call =>
      if ← semaDown t call then
        takeLock t
        ioqWait t call
      return none
  | .woken call => do
      lockRelease t
      ioqCallByte t call
  | _ => throw .assertion

/-- The queue with the bytes that were put and returned so far, in order. -/
structure Recorded (Tid : Type) where
  queue : IoQueue Tid
  put : List Byte
  returned : List Byte

/-- Record what a call did. -/
def Recorded.record (r : Recorded Tid) : Option Moved → IoQueue Tid → Recorded Tid
  | none, queue => { r with queue := queue }
  | some (.put byte), queue => { r with queue := queue, put := r.put ++ [byte] }
  | some (.returned byte), queue => { r with queue := queue, returned := r.returned ++ [byte] }

/-- Take one step. -/
def recordedExec (r : Recorded Tid) : QueueOp Tid → Option (Recorded Tid)
  | .start t call =>
      if r.queue.place t = .outside then
        ((ioqCallByte t call).run r.queue).toOption.map fun result => r.record result.1 result.2
      else
        none
  | .resume t =>
      ((resumeByte t).run r.queue).toOption.map fun result => r.record result.1 result.2

/-- The threads on a queue with a record of the bytes. -/
def recordedQueue (Tid : Type) [DecidableEq Tid] :
    TransitionSystem (Recorded Tid) (QueueOp Tid) where
  initial r := ∃ buf, r = ⟨ioqueueInit buf, [], []⟩
  step r op next := recordedExec r op = some next

/-! ## The record changes nothing -/

section Forget

variable {s s' : IoQueue Tid} {t : Tid} {call : IoCall}

theorem transfer_eq (t : Tid) (call : IoCall) :
    transfer t call = (fun _ => ()) <$> transferByte t call := by
  cases call with
  | getchar => simp only [transfer, transferByte, map_bind, map_pure, bind_pure_unit]
  | putchar byte => simp only [transfer, transferByte, map_bind, map_pure, bind_pure_unit]

theorem ioqCall_eq (t : Tid) (call : IoCall) :
    ioqCall t call = (fun _ => ()) <$> ioqCallByte t call := by
  unfold ioqCall ioqCallByte
  rw [map_bind]
  refine bind_congr fun s => ?_
  split
  · simp only [map_bind]
    refine bind_congr fun taken => ?_
    split
    · simp only [map_pure, map_bind, bind_pure_unit]
    · rfl
  · rw [transfer_eq, map_bind, ← bind_pure_comp]
    rfl

theorem resume_eq (t : Tid) : resume t = (fun _ => ()) <$> resumeByte t := by
  unfold resume resumeByte
  rw [map_bind]
  refine bind_congr fun s => ?_
  cases s.place t with
  | unlocked call =>
      simp only [map_bind]
      refine bind_congr fun taken => ?_
      split
      · simp only [map_bind, map_pure, bind_pure_unit]
      · rfl
  | woken call => simp only [map_bind, ioqCall_eq]
  | outside | locking | sleeping => rfl

/-- A recorded step is a step. -/
theorem queueExec_eq (r : Recorded Tid) (op : QueueOp Tid) :
    queueExec r.queue op = (recordedExec r op).map Recorded.queue := by
  have after : ∀ (recorded : QueueCall Tid (Option Moved)),
      (((fun _ => ()) <$> recorded).run r.queue).toOption.map Prod.snd =
        ((recorded.run r.queue).toOption.map fun result => r.record result.1 result.2).map
          Recorded.queue := by
    intro recorded
    rw [StateT.run_map]
    cases recorded.run r.queue with
    | error fault => rfl
    | ok result =>
        obtain ⟨moved, queue⟩ := result
        rcases moved with - | - | - <;> rfl
  cases op with
  | start t call =>
      dsimp only [queueExec, recordedExec]
      rw [ioqCall_eq]
      split
      · exact after _
      · rfl
  | resume t =>
      dsimp only [queueExec, recordedExec]
      rw [resume_eq]
      exact after _

/-- A recorded run is a run. -/
theorem Recorded.reachable {r : Recorded Tid} (reachable : (recordedQueue Tid).Reachable r) :
    (ioQueue Tid).Reachable r.queue := by
  apply reachable.invariant fun r => (ioQueue Tid).Reachable r.queue
  · rintro r ⟨buf, rfl⟩
    exact .initial ⟨buf, rfl⟩
  · intro r op next _ reached stepped
    apply reached.step op
    change queueExec r.queue op = some next.queue
    rw [queueExec_eq, stepped]
    rfl

/-- Every run can be recorded. -/
theorem exists_recorded (reachable : (ioQueue Tid).Reachable s) :
    ∃ r : Recorded Tid, (recordedQueue Tid).Reachable r ∧ r.queue = s := by
  induction reachable with
  | initial start =>
      obtain ⟨buf, rfl⟩ := start
      exact ⟨_, .initial ⟨buf, rfl⟩, rfl⟩
  | step op _ stepped ih =>
      obtain ⟨r, reached, rfl⟩ := ih
      obtain ⟨r', recorded, same⟩ :=
        Option.map_eq_some_iff.mp ((queueExec_eq r op).symm.trans stepped)
      exact ⟨r', reached.step op recorded, same⟩

end Forget

/-! ## The queue in the ring -/

/-- The bytes and the two positions. -/
def IoQueue.ring (s : IoQueue Tid) : RingBuffer Byte := ⟨s.buf, s.head, s.tail⟩

/-- `ioq_length`. -/
def IoQueue.ioqLength (s : IoQueue Tid) : Nat :=
  if s.tail ≤ s.head then s.head - s.tail else bufsize - (s.tail - s.head)

/-- What a call does to the ring. -/
def Moves (s s' : IoQueue Tid) : Option Moved → Prop
  | none => s'.ring = s.ring
  | some (.put byte) => ¬ s.ioqFull ∧ s'.ring = s.ring.put bufsize byte
  | some (.returned byte) =>
      ¬ s.ioqEmpty ∧ byte = s.buf s.tail ∧ s'.ring = s.ring.take bufsize

section Moves

variable {s s' s'' : IoQueue Tid} {t : Tid} {call : IoCall} {moved : Option Moved}

omit [DecidableEq Tid] in
theorem SameRing.ring (same : SameRing s s') : s'.ring = s.ring := by
  unfold IoQueue.ring
  rw [same.buf, same.head, same.tail]

omit [DecidableEq Tid] in
theorem Moves.of_same (same : SameRing s s') (moves : Moves s' s'' moved) :
    Moves s s'' moved := by
  have ring := same.ring
  rcases moved with - | byte | byte
  · exact moves.trans ring
  · refine ⟨fun full => moves.1 ((same.mustWait (.putchar byte)).mpr full), ?_⟩
    rw [moves.2, ring]
  · refine ⟨fun empty => moves.1 ((same.mustWait .getchar).mpr empty), ?_, ?_⟩
    · rw [moves.2.1, same.buf, same.tail]
    · rw [moves.2.2, ring]

theorem takeByte_returns {byte : Byte} (ran : takeByte.run s = .ok (byte, s')) :
    byte = s.buf s.tail ∧ s'.ring = s.ring.take bufsize := by
  rw [takeByte, call_bind_of (call_get_returns.mpr ⟨rfl, rfl⟩)] at ran
  obtain ⟨_, _, moves, ran⟩ := call_bind_returns.mp ran
  cases call_modify_returns.mp moves
  obtain ⟨_, _, wakes, ran⟩ := call_bind_returns.mp ran
  obtain ⟨rfl, rfl⟩ := call_pure_returns.mp ran
  exact ⟨rfl, (wakeup_returns wakes).ring⟩

theorem putByte_returns {byte : Byte} (ran : (putByte byte).run s = .ok ((), s')) :
    s'.ring = s.ring.put bufsize byte := by
  obtain ⟨_, _, moves, wakes⟩ := call_bind_returns.mp ran
  cases call_modify_returns.mp moves
  exact (wakeup_returns wakes).ring

theorem transferByte_moves {moved : Moved} (may : ¬ s.mustWait call)
    (ran : (transferByte t call).run s = .ok (moved, s')) : Moves s s' (some moved) := by
  cases call with
  | getchar =>
      obtain ⟨byte, _, takes, ran⟩ := call_bind_returns.mp ran
      obtain ⟨_, _, places, ran⟩ := call_bind_returns.mp ran
      obtain ⟨rfl, rfl⟩ := call_pure_returns.mp ran
      obtain ⟨is, ring⟩ := takeByte_returns takes
      exact ⟨may, is, (setPlace_sameRing _ _ _ _ _ places).ring.trans ring⟩
  | putchar byte =>
      obtain ⟨_, _, puts, ran⟩ := call_bind_returns.mp ran
      obtain ⟨_, _, places, ran⟩ := call_bind_returns.mp ran
      obtain ⟨rfl, rfl⟩ := call_pure_returns.mp ran
      exact ⟨may, (setPlace_sameRing _ _ _ _ _ places).ring.trans (putByte_returns puts)⟩

theorem ioqWait_ring (ran : (ioqWait t call).run s = .ok ((), s')) : s'.ring = s.ring := by
  obtain ⟨_, rfl, same⟩ := ioqWait_returns ran
  rw [same.ring]
  cases call <;> rfl

theorem ioqCallByte_moves (ran : (ioqCallByte t call).run s = .ok (moved, s')) :
    Moves s s' moved := by
  rw [ioqCallByte, call_bind_of (call_get_returns.mpr ⟨rfl, rfl⟩)] at ran
  by_cases waits : s.mustWait call
  · rw [if_pos waits] at ran
    obtain ⟨taken, _, acquires, ran⟩ := call_bind_returns.mp ran
    have same := lockAcquire_sameRing _ _ _ _ _ acquires
    cases taken with
    | true =>
        obtain ⟨_, _, sleeps, ran⟩ := call_bind_returns.mp ran
        obtain ⟨rfl, rfl⟩ := call_pure_returns.mp ran
        exact (ioqWait_ring sleeps).trans same.ring
    | false =>
        obtain ⟨rfl, rfl⟩ := call_pure_returns.mp ran
        exact same.ring
  · rw [if_neg waits] at ran
    obtain ⟨moved, _, transfers, ran⟩ := call_bind_returns.mp ran
    obtain ⟨rfl, rfl⟩ := call_pure_returns.mp ran
    exact transferByte_moves waits transfers

theorem resumeByte_moves (ran : (resumeByte t).run s = .ok (moved, s')) : Moves s s' moved := by
  rw [resumeByte, call_bind_of (call_get_returns.mpr ⟨rfl, rfl⟩)] at ran
  cases place : s.place t with
  | unlocked call =>
      simp only [place] at ran
      obtain ⟨taken, _, downs, ran⟩ := call_bind_returns.mp ran
      have same := semaDown_sameRing _ _ _ _ _ downs
      cases taken with
      | true =>
          obtain ⟨_, _, takes, ran⟩ := call_bind_returns.mp ran
          obtain ⟨_, _, sleeps, ran⟩ := call_bind_returns.mp ran
          obtain ⟨rfl, rfl⟩ := call_pure_returns.mp ran
          exact (ioqWait_ring sleeps).trans (same.trans (takeLock_sameRing _ _ _ _ takes)).ring
      | false =>
          obtain ⟨rfl, rfl⟩ := call_pure_returns.mp ran
          exact same.ring
  | woken call =>
      simp only [place] at ran
      obtain ⟨_, _, releases, ran⟩ := call_bind_returns.mp ran
      exact (ioqCallByte_moves ran).of_same (lockRelease_sameRing _ _ _ _ releases)
  | outside | locking | sleeping =>
      simp only [place] at ran
      exact (call_throw_returns ran).elim

/-- A step records what it did to the ring. -/
theorem recordedExec_moves {r next : Recorded Tid} {op : QueueOp Tid}
    (stepped : recordedExec r op = some next) :
    ∃ moved queue, next = r.record moved queue ∧ Moves r.queue queue moved := by
  cases op with
  | start t call =>
      dsimp only [recordedExec] at stepped
      split at stepped
      · obtain ⟨⟨moved, queue⟩, ran, rfl⟩ := Option.map_eq_some_iff.mp stepped
        exact ⟨moved, queue, rfl, ioqCallByte_moves (returned_of_toOption ran)⟩
      · cases stepped
  | resume t =>
      obtain ⟨⟨moved, queue⟩, ran, rfl⟩ := Option.map_eq_some_iff.mp stepped
      exact ⟨moved, queue, rfl, resumeByte_moves (returned_of_toOption ran)⟩

end Moves

/-- The ring holds the bytes that were put and not yet returned. -/
structure Fifo (r : Recorded Tid) : Prop where
  inside : r.queue.ring.Inside bufsize
  conserved : r.put = r.returned ++ r.queue.ring.contents bufsize

section Fifo

variable {r : Recorded Tid}

omit [DecidableEq Tid] in
theorem Fifo.record (fifo : Fifo r) {queue : IoQueue Tid} {moved : Option Moved}
    (moves : Moves r.queue queue moved) : Fifo (r.record moved queue) := by
  have inside := fifo.inside
  rcases moved with - | byte | byte
  · constructor
    · exact (moves : queue.ring = _) ▸ inside
    · exact (moves : queue.ring = _) ▸ fifo.conserved
  · obtain ⟨notFull, ring⟩ := moves
    constructor
    · exact ring ▸ inside.put
    · change r.put ++ [byte] = r.returned ++ queue.ring.contents bufsize
      rw [ring, inside.contents_put notFull, fifo.conserved, List.append_assoc]
  · obtain ⟨notEmpty, is, ring⟩ := moves
    constructor
    · exact ring ▸ inside.take
    · change r.put = (r.returned ++ [byte]) ++ queue.ring.contents bufsize
      rw [ring, fifo.conserved, inside.contents_take notEmpty, is, List.append_assoc]
      rfl

theorem Fifo.of_reachable (reachable : (recordedQueue Tid).Reachable r) : Fifo r := by
  apply reachable.invariant Fifo
  · rintro r ⟨buf, rfl⟩
    have some_ : 0 < bufsize := by decide
    exact ⟨⟨some_, some_⟩, rfl⟩
  · intro r op next _ fifo stepped
    obtain ⟨moved, queue, rfl, moves⟩ := recordedExec_moves stepped
    exact fifo.record moves

/-- **First in, first out.** In every run the bytes that `ioq_getchar` returned are a prefix of
those that `ioq_putchar` put, the positions lie in the buffer, and `ioq_length` is the number of
bytes that were put and not yet returned. -/
theorem ioq_fifo (reachable : (recordedQueue Tid).Reachable r) :
    r.returned <+: r.put ∧ r.queue.head < bufsize ∧ r.queue.tail < bufsize ∧
      r.returned.length + r.queue.ioqLength = r.put.length := by
  have fifo := Fifo.of_reachable reachable
  refine ⟨⟨_, fifo.conserved.symm⟩, fifo.inside.head, fifo.inside.tail, ?_⟩
  rw [fifo.conserved, List.length_append, RingBuffer.length_contents]
  rfl

end Fifo

/-- Thread 1 waits for the first byte of thread 2, and takes it when two were put. -/
theorem ioq_fifo_waits : ∃ r : Recorded Nat, r.put = [0x61, 0x62] ∧ r.returned = [0x61] ∧
    r.returned <+: r.put ∧ r.queue.head < bufsize ∧ r.queue.tail < bufsize ∧
      r.returned.length + r.queue.ioqLength = r.put.length := by
  have found : (TransitionSystem.run recordedExec ⟨ioqueueInit fun _ => 0, [], []⟩
      [.start 1 .getchar, .start 2 (.putchar 0x61), .start 2 (.putchar 0x62),
        .resume 1]).any (fun (r : Recorded Nat) =>
          decide (r.put = [0x61, 0x62] ∧ r.returned = [0x61])) = true := by
    decide +kernel
  obtain ⟨r, ran, facts⟩ := Option.any_eq_true _ _ |>.mp found
  obtain ⟨put, returned⟩ := of_decide_eq_true facts
  have start : (recordedQueue Nat).Reachable ⟨ioqueueInit fun _ => 0, [], []⟩ := .initial ⟨_, rfl⟩
  exact ⟨r, put, returned, ioq_fifo (start.run (fun _ _ _ stepped => stepped) ran)⟩

end UKernel.WakeUp
