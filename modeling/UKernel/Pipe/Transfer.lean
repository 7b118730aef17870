import UKernel.Pipe.Fifo

/-! # How much a pipe takes

`pipe_read` and `pipe_write` ask `ioq_length` first, so as not to block. The ring holds one byte
less than `bufsize`, which `pipe_write` does not know: it does what its comment says exactly if the
bytes leave one place free (`UKernel.WakeUp.pipe_transfers_iff`). Reading never blocks.
-/

namespace UKernel.WakeUp

open UKernel.Library

variable {Tid : Type} [DecidableEq Tid]

/-! ## The two loops -/

/-- The loop of `pipe_write`; `false` if a call of `ioq_putchar` found the ring full. -/
def putBytes (t : Tid) : List Byte → QueueCall Tid Bool
  | [] => return true
  | byte :: buffer => do
      if (← ioqCallByte t (.putchar byte)).isSome then
        putBytes t buffer
      else
        return false

/-- The loop of `pipe_read`; `none` if a call of `ioq_getchar` found the ring empty. -/
def takeBytes (t : Tid) : Nat → QueueCall Tid (Option (List Byte))
  | 0 => return some []
  | left + 1 => do
      match ← ioqCallByte t .getchar with
      | some (.returned byte) => return (← takeBytes t left).map (byte :: ·)
      | _ => return none

/-- `pipe_write`, up to its return with the number of bytes or to a call that blocks. -/
def pipeWrite (t : Tid) (buf : List Byte) : QueueCall Tid (Option Nat) := do
  let ioqLeft := bufsize - (← get).ioqLength
  let size := if ioqLeft > buf.length then buf.length else ioqLeft
  if ← putBytes t (buf.take size) then
    return some size
  else
    return none

/-- `pipe_read`, up to its return with the bytes or to a call that blocks. -/
def pipeRead (t : Tid) (count : Nat) : QueueCall Tid (Option (List Byte)) := do
  let ioqLen := (← get).ioqLength
  let size := if ioqLen > count then count else ioqLen
  takeBytes t size

/-- The bytes in the ring, in the order in which they were put. -/
def IoQueue.stored (s : IoQueue Tid) : List Byte := s.ring.contents bufsize

/-- The number of bytes that the ring takes before it is full. -/
def IoQueue.freeSpace (s : IoQueue Tid) : Nat := bufsize - 1 - s.stored.length

/-- `pipe_write` puts the bytes for which there is space, and returns their number. -/
def WriteTransfers (s : IoQueue Tid) (t : Tid) (buf : List Byte) : Prop :=
  ∃ s', (pipeWrite t buf).run s = .ok (some (min buf.length s.freeSpace), s') ∧
    s'.stored = s.stored ++ buf.take (min buf.length s.freeSpace)

/-- `pipe_read` takes the bytes that are stored, up to a number, and returns them. -/
def ReadTransfers (s : IoQueue Tid) (t : Tid) (count : Nat) : Prop :=
  ∃ s', (pipeRead t count).run s = .ok (some (s.stored.take (min count s.stored.length)), s') ∧
    s'.stored = s.stored.drop (min count s.stored.length)

/-! ## Who waits where -/

/-- The thread has not called `thread_block`, or was unblocked since. -/
def Place.Awake : Place → Prop
  | .locking _ => False
  | .sleeping _ => False
  | _ => True

/-- The threads in the list of the lock, and the two waiters, are those in `thread_block`. -/
structure Parked (s : IoQueue Tid) : Prop where
  locking : ∀ t ∈ s.waiters, ∃ call, s.place t = .locking call
  once : s.waiters.Nodup
  consumer : ∀ t, s.consumer = some t → s.place t = .sleeping .getchar
  producer : ∀ t, s.producer = some t → ∃ byte, s.place t = .sleeping (.putchar byte)

/-- A thread runs. -/
structure Running (t : Tid) (s : IoQueue Tid) : Prop extends Parked s where
  awake : (s.place t).Awake

section Parked

variable {s s' : IoQueue Tid} {t t' : Tid} {call : IoCall}

omit [DecidableEq Tid] in
/-- No thread runs that is in one of the lists. -/
theorem Running.apart (running : Running t s) :
    t ∉ s.waiters ∧ s.consumer ≠ some t ∧ s.producer ≠ some t := by
  have awake := running.awake
  refine ⟨fun member => ?_, fun sleeps => ?_, fun sleeps => ?_⟩
  · obtain ⟨call, place⟩ := running.locking t member
    rw [place] at awake
    exact awake
  · rw [running.consumer t sleeps] at awake
    exact awake
  · obtain ⟨byte, place⟩ := running.producer t sleeps
    rw [place] at awake
    exact awake

/-- A thread in none of the lists may go anywhere. -/
theorem Parked.setPlace (parked : Parked s)
    (apart : t ∉ s.waiters ∧ s.consumer ≠ some t ∧ s.producer ≠ some t) (place : Place) :
    Parked { s with place := Function.update s.place t place } := by
  obtain ⟨notWaiter, notConsumer, notProducer⟩ := apart
  refine ⟨fun t' member => ?_, parked.once, fun t' sleeps => ?_, fun t' sleeps => ?_⟩
  · change ∃ call, Function.update s.place t place t' = _
    rw [Function.update_of_ne (fun same : t' = t => notWaiter (same ▸ member))]
    exact parked.locking t' member
  · change Function.update s.place t place t' = _
    rw [Function.update_of_ne (fun same : t' = t => notConsumer (same ▸ sleeps))]
    exact parked.consumer t' sleeps
  · change ∃ byte, Function.update s.place t place t' = _
    rw [Function.update_of_ne (fun same : t' = t => notProducer (same ▸ sleeps))]
    exact parked.producer t' sleeps

/-! ### Calls that do not block -/

/-- The lists and the places are the same. -/
structure SameParking (s s' : IoQueue Tid) : Prop where
  waiters : s'.waiters = s.waiters
  consumer : s'.consumer = s.consumer
  producer : s'.producer = s.producer
  place : s'.place = s.place

omit [DecidableEq Tid] in
theorem Parked.of_same (parked : Parked s) (same : SameParking s s') : Parked s' where
  locking := by
    rw [same.waiters, same.place]
    exact parked.locking
  once := by
    rw [same.waiters]
    exact parked.once
  consumer := by
    rw [same.consumer, same.place]
    exact parked.consumer
  producer := by
    rw [same.producer, same.place]
    exact parked.producer

omit [DecidableEq Tid] in
theorem Running.of_same (running : Running t s) (same : SameParking s s') : Running t s' where
  toParked := running.toParked.of_same same
  awake := by
    rw [same.place]
    exact running.awake

omit [DecidableEq Tid] in
/-- A call that changes no list and no place lets a thread run on. -/
theorem running_modify {f : IoQueue Tid → IoQueue Tid} (same : ∀ s, SameParking s (f s)) :
    Triple (Running t) (modify f : QueueCall Tid Unit) fun _ => Running t := by
  intro s _ s' running ran
  cases call_modify_returns.mp ran
  exact running.of_same (same s)

/-- A blocked thread that is in no list any more is unblocked. -/
theorem threadUnblock_returns (ran : (threadUnblock t').run s = .ok ((), s')) :
    ∃ place : Place, place.Awake ∧ ¬ (s.place t').Awake ∧
      s' = { s with place := Function.update s.place t' place } := by
  rw [threadUnblock, call_bind_of (call_get_returns.mpr ⟨rfl, rfl⟩)] at ran
  cases place : s.place t' with
  | locking call =>
      simp only [place] at ran
      cases call_modify_returns.mp ran
      exact ⟨.unlocked call, trivial, id, rfl⟩
  | sleeping call =>
      simp only [place] at ran
      cases call_modify_returns.mp ran
      exact ⟨.woken call, trivial, id, rfl⟩
  | outside | unlocked | woken =>
      simp only [place] at ran
      exact (call_throw_returns ran).elim

/-- A running thread wakes another one, which it takes from its list. -/
theorem Running.wakes (running : Running t s) (asleep : ¬ (s.place t').Awake)
    (parked : Parked s') (apart : t' ∉ s'.waiters ∧ s'.consumer ≠ some t' ∧ s'.producer ≠ some t')
    (same : s'.place = s.place) (place : Place) :
    Running t { s' with place := Function.update s'.place t' place } where
  toParked := parked.setPlace apart place
  awake := by
    have other : t ≠ t' := by
      rintro rfl
      exact asleep running.awake
    change (Function.update s'.place t' place t).Awake
    rw [Function.update_of_ne other, same]
    exact running.awake

theorem wakeFirst_running : Triple (Running t) wakeFirst fun _ => Running t := by
  intro s _ s' running ran
  rw [wakeFirst, call_bind_of (call_get_returns.mpr ⟨rfl, rfl⟩)] at ran
  cases waiting : s.waiters with
  | nil =>
      simp only [waiting] at ran
      obtain ⟨-, rfl⟩ := call_pure_returns.mp ran
      exact running
  | cons first rest =>
      simp only [waiting] at ran
      obtain ⟨_, _, pops, ran⟩ := call_bind_returns.mp ran
      cases call_modify_returns.mp pops
      obtain ⟨place, -, asleep, rfl⟩ := threadUnblock_returns ran
      have once := running.once
      rw [waiting, List.nodup_cons] at once
      obtain ⟨call, blocked⟩ := running.locking first (waiting ▸ List.mem_cons_self)
      have popped : Parked { s with waiters := rest } := by
        refine ⟨fun t' member => ?_, once.2, running.consumer, running.producer⟩
        exact running.locking t' (waiting ▸ List.mem_cons_of_mem first member)
      refine running.wakes asleep popped ⟨once.1, fun sleeps => ?_, fun sleeps => ?_⟩ rfl place
      · cases blocked.symm.trans (running.consumer first sleeps)
      · obtain ⟨byte, sleeping⟩ := running.producer first sleeps
        cases blocked.symm.trans sleeping

theorem semaUp_running : Triple (Running t) semaUp fun _ => Running t :=
  .bind .get_keeps fun _ => .bind (.lift _) fun _ => .bind wakeFirst_running fun _ =>
    .bind (running_modify fun _ => ⟨rfl, rfl, rfl, rfl⟩) fun _ => .bind .get_keeps fun _ =>
      .lift _

theorem lockRelease_running : Triple (Running t) (lockRelease t) fun _ => Running t := by
  refine .bind .get_keeps fun s => .bind (.lift _) fun _ => ?_
  split
  · exact running_modify fun _ => ⟨rfl, rfl, rfl, rfl⟩
  · exact .bind (.lift _) fun _ => .bind (running_modify fun _ => ⟨rfl, rfl, rfl, rfl⟩) fun _ =>
      semaUp_running

omit [DecidableEq Tid] in
theorem takeLock_running : Triple (Running t) (takeLock t) fun _ => Running t :=
  .bind .get_keeps fun _ => .bind (.lift _) fun _ =>
    running_modify fun _ => ⟨rfl, rfl, rfl, rfl⟩

/-- A call that wakes a waiter takes it from its list, and leaves the other lists alone. -/
theorem wakeup_wakes (parked : Parked s) (ran : (wakeup call).run s = .ok ((), s')) :
    s' = s ∨ ∃ waiter cleared place, ¬ (s.place waiter).Awake ∧ Parked cleared ∧
      (waiter ∉ cleared.waiters ∧ cleared.consumer ≠ some waiter ∧
        cleared.producer ≠ some waiter) ∧ cleared.place = s.place ∧
      s' = { cleared with place := Function.update cleared.place waiter place } := by
  rw [wakeup, call_bind_of (call_get_returns.mpr ⟨rfl, rfl⟩)] at ran
  cases sleeps : s.waiter call with
  | none =>
      simp only [sleeps] at ran
      obtain ⟨-, rfl⟩ := call_pure_returns.mp ran
      exact .inl rfl
  | some waiter =>
      simp only [sleeps] at ran
      obtain ⟨_, _, unblocks, ran⟩ := call_bind_returns.mp ran
      obtain ⟨place, -, asleep, rfl⟩ := threadUnblock_returns unblocks
      cases call_modify_returns.mp ran
      cases call with
      | getchar =>
          have blocked := parked.consumer waiter sleeps
          have cleared : Parked { s with consumer := none } :=
            ⟨parked.locking, parked.once, fun _ is => (Option.some_ne_none _ is.symm).elim,
              parked.producer⟩
          refine .inr ⟨waiter, _, place, asleep, cleared,
            ⟨fun member => ?_, (Option.some_ne_none waiter).symm, fun sleeps => ?_⟩, rfl, rfl⟩
          · obtain ⟨_, locking⟩ := parked.locking waiter member
            cases blocked.symm.trans locking
          · obtain ⟨_, sleeping⟩ := parked.producer waiter sleeps
            cases blocked.symm.trans sleeping
      | putchar byte =>
          obtain ⟨_, blocked⟩ := parked.producer waiter sleeps
          have cleared : Parked { s with producer := none } :=
            ⟨parked.locking, parked.once, parked.consumer,
              fun _ is => (Option.some_ne_none _ is.symm).elim⟩
          refine .inr ⟨waiter, _, place, asleep, cleared,
            ⟨fun member => ?_, fun sleeps => ?_, (Option.some_ne_none waiter).symm⟩, rfl, rfl⟩
          · obtain ⟨_, locking⟩ := parked.locking waiter member
            cases blocked.symm.trans locking
          · cases blocked.symm.trans (parked.consumer waiter sleeps)

theorem wakeup_running : Triple (Running t) (wakeup call) fun _ => Running t := by
  intro s _ s' running ran
  rcases wakeup_wakes running.toParked ran with
    rfl | ⟨waiter, cleared, place, asleep, parked, apart, same, rfl⟩
  · exact running
  · exact running.wakes asleep parked apart same place

/-- The same for a call from outside of any thread. -/
theorem wakeup_parked : Triple Parked (wakeup call : QueueCall Tid Unit) fun _ => Parked := by
  intro s _ s' parked ran
  rcases wakeup_wakes parked ran with rfl | ⟨waiter, cleared, place, -, parked, apart, -, rfl⟩
  · exact parked
  · exact parked.setPlace apart place

/-! ### Calls that block -/

theorem setPlace_parked (place : Place) :
    Triple (Running t) (setPlace t place) fun _ => Parked := by
  intro s _ s' running ran
  cases call_modify_returns.mp ran
  exact running.setPlace running.apart place

/-- After `sema_down` the thread runs on, or is in the list. -/
theorem semaDown_parked : Triple (Running t) (semaDown t call) fun taken s =>
    Parked s ∧ (taken = true → Running t s) := by
  intro s taken s' running ran
  rw [semaDown, call_bind_of (call_get_returns.mpr ⟨rfl, rfl⟩)] at ran
  split at ran
  · obtain ⟨_, _, checks, ran⟩ := call_bind_returns.mp ran
    obtain ⟨-, rfl⟩ := call_lift_returns.mp checks
    obtain ⟨_, _, appends, ran⟩ := call_bind_returns.mp ran
    cases call_modify_returns.mp appends
    obtain ⟨_, _, places, ran⟩ := call_bind_returns.mp ran
    cases call_modify_returns.mp places
    obtain ⟨rfl, rfl⟩ := call_pure_returns.mp ran
    have placed := running.setPlace running.apart (.locking call)
    have here : Function.update s.place t (.locking call) t = .locking call :=
      Function.update_self ..
    refine ⟨⟨fun t' member => ?_, ?_, placed.consumer, placed.producer⟩, Bool.noConfusion⟩
    · rcases List.mem_append.mp member with before | last
      · exact placed.locking t' before
      · rw [List.mem_singleton.mp last]
        exact ⟨call, here⟩
    · refine List.nodup_append.mpr ⟨running.once, List.nodup_singleton t, ?_⟩
      rintro t' before t'' last rfl
      exact running.apart.1 (List.mem_singleton.mp last ▸ before)
  · obtain ⟨_, _, checks, ran⟩ := call_bind_returns.mp ran
    obtain ⟨-, rfl⟩ := call_lift_returns.mp checks
    obtain ⟨_, _, takes, ran⟩ := call_bind_returns.mp ran
    cases call_modify_returns.mp takes
    obtain ⟨rfl, rfl⟩ := call_pure_returns.mp ran
    exact ⟨running.toParked.of_same ⟨rfl, rfl, rfl, rfl⟩,
      fun _ => running.of_same ⟨rfl, rfl, rfl, rfl⟩⟩

theorem lockAcquire_parked : Triple (Running t) (lockAcquire t call) fun taken s =>
    Parked s ∧ (taken = true → Running t s) := by
  refine .bind .get_keeps fun s => ?_
  split
  · refine .bind semaDown_parked fun taken => ?_
    split
    case isTrue is =>
      refine .bind (.weaken takeLock_running fun s after => after.2 is) fun _ => .pure ?_
      exact fun s running => ⟨running.toParked, fun _ => running⟩
    case isFalse => exact .pure fun s after => ⟨after.1, Bool.noConfusion⟩
  · refine .bind (running_modify fun _ => ⟨rfl, rfl, rfl, rfl⟩) fun _ => .pure ?_
    exact fun s running => ⟨running.toParked, fun _ => running⟩

theorem ioqWait_parked : Triple (Running t) (ioqWait t call) fun _ => Parked := by
  intro s _ s' running ran
  rw [ioqWait, call_bind_of (call_get_returns.mpr ⟨rfl, rfl⟩)] at ran
  obtain ⟨_, _, checks, ran⟩ := call_bind_returns.mp ran
  obtain ⟨-, rfl⟩ := call_lift_returns.mp checks
  obtain ⟨_, _, sets, ran⟩ := call_bind_returns.mp ran
  cases call_modify_returns.mp sets
  cases call_modify_returns.mp ran
  have placed := running.setPlace running.apart (.sleeping call)
  have here : Function.update s.place t (.sleeping call) t = .sleeping call :=
    Function.update_self ..
  cases call with
  | getchar =>
      refine ⟨placed.locking, placed.once, fun t' is => ?_, placed.producer⟩
      cases is
      exact here
  | putchar byte =>
      refine ⟨placed.locking, placed.once, placed.consumer, fun t' is => ?_⟩
      cases is
      exact ⟨byte, here⟩

theorem takeByte_running : Triple (Running t) takeByte fun _ => Running t :=
  .bind .get_keeps fun _ => .bind (running_modify fun _ => ⟨rfl, rfl, rfl, rfl⟩) fun _ =>
    .bind wakeup_running fun _ => .pure fun _ running => running

theorem putByte_running (byte : Byte) : Triple (Running t) (putByte byte) fun _ => Running t :=
  .bind (running_modify fun _ => ⟨rfl, rfl, rfl, rfl⟩) fun _ => wakeup_running

theorem transfer_parked : Triple (Running t) (transfer t call) fun _ => Parked := by
  cases call with
  | getchar => exact .bind takeByte_running fun _ => setPlace_parked .outside
  | putchar byte => exact .bind (putByte_running byte) fun _ => setPlace_parked .outside

theorem ioqCall_parked : Triple (Running t) (ioqCall t call) fun _ => Parked := by
  refine .bind .get_keeps fun s => ?_
  split
  · refine .bind lockAcquire_parked fun taken => ?_
    split
    case isTrue is => exact .weaken ioqWait_parked fun s after => after.2 is
    case isFalse => exact .pure fun s after => after.1
  · exact transfer_parked

theorem resume_parked : Triple Parked (resume t) fun _ => Parked := by
  intro s _ s' parked ran
  rw [resume, call_bind_of (call_get_returns.mpr ⟨rfl, rfl⟩)] at ran
  cases place : s.place t with
  | unlocked call =>
      simp only [place] at ran
      have running : Running t s := ⟨parked, place ▸ trivial⟩
      refine Triple.bind (Q := fun _ => Parked) semaDown_parked (fun taken => ?_) _ _ _ running ran
      split
      case isTrue is =>
        exact .bind (.weaken takeLock_running fun s after => after.2 is) fun _ => ioqWait_parked
      case isFalse => exact .pure fun s after => after.1
  | woken call =>
      simp only [place] at ran
      have running : Running t s := ⟨parked, place ▸ trivial⟩
      exact Triple.bind lockRelease_running (fun _ => ioqCall_parked) _ _ _ running ran
  | outside | locking | sleeping =>
      simp only [place] at ran
      exact (call_throw_returns ran).elim

theorem queueExec_parked {op : QueueOp Tid} (parked : Parked s)
    (stepped : queueExec s op = some s') : Parked s' := by
  cases op with
  | start t call =>
      by_cases outside : s.place t = .outside
      · have ran : ((ioqCall t call).run s).toOption.map Prod.snd = some s' :=
          (if_pos outside).symm.trans stepped
        obtain ⟨⟨_, after⟩, returned, rfl⟩ := Option.map_eq_some_iff.mp ran
        exact ioqCall_parked _ _ _ ⟨parked, outside ▸ trivial⟩ (returned_of_toOption returned)
      · cases (if_neg outside).symm.trans stepped
  | resume t =>
      have ran : ((resume t).run s).toOption.map Prod.snd = some s' := stepped
      obtain ⟨⟨_, after⟩, returned, rfl⟩ := Option.map_eq_some_iff.mp ran
      exact resume_parked _ _ _ parked (returned_of_toOption returned)

omit [DecidableEq Tid] in
theorem parked_init (buf : Nat → Byte) : Parked (ioqueueInit buf : IoQueue Tid) :=
  ⟨(fun _ member => nomatch member), List.nodup_nil, (fun _ is => nomatch is),
    (fun _ is => nomatch is)⟩

theorem Parked.of_reachable (reachable : (ioQueue Tid).Reachable s) : Parked s := by
  apply reachable.invariant Parked
  · rintro s ⟨buf, rfl⟩
    exact parked_init buf
  · intro s op next _ parked stepped
    exact queueExec_parked parked stepped

end Parked

/-! ## A call that need not wait -/

section Progress

variable {s s' : IoQueue Tid} {t : Tid} {call : IoCall}

/-- A waiter can be woken. -/
theorem wakeup_runs (parked : Parked s) : ∃ s', (wakeup call).run s = .ok ((), s') := by
  have unblocks : ∀ {t : Tid} {of : IoCall}, s.place t = .sleeping of →
      ∃ s', (threadUnblock t).run s = .ok ((), s') := by
    intro t of place
    rw [threadUnblock, call_bind_of (call_get_returns.mpr ⟨rfl, rfl⟩), place]
    exact ⟨_, rfl⟩
  rw [wakeup, call_bind_of (call_get_returns.mpr ⟨rfl, rfl⟩)]
  cases sleeps : s.waiter call with
  | none => exact ⟨s, rfl⟩
  | some waiter =>
      have blocked : ∃ of, s.place waiter = .sleeping of := by
        cases call with
        | getchar => exact ⟨_, parked.consumer waiter sleeps⟩
        | putchar byte =>
            obtain ⟨byte, place⟩ := parked.producer waiter sleeps
            exact ⟨_, place⟩
      obtain ⟨s', ran⟩ := unblocks blocked.choose_spec
      exact ⟨_, call_bind_of ran⟩

/-- A byte is put from outside of any thread. -/
theorem putByte_runs (parked : Parked s) (byte : Byte) : ∃ s',
    (putByte byte).run s = .ok ((), s') ∧ Parked s' ∧ s'.ring = s.ring.put bufsize byte := by
  have written : Parked
      { s with buf := Function.update s.buf s.head byte, head := nextPos s.head } :=
    parked.of_same ⟨rfl, rfl, rfl, rfl⟩
  obtain ⟨s', ran⟩ : ∃ s', (wakeup .getchar).run _ = .ok ((), s') := wakeup_runs written
  have puts : (putByte byte).run s = .ok ((), s') := by
    rw [putByte, call_bind_of (call_modify_returns.mpr rfl), ran]
  exact ⟨s', puts, wakeup_parked _ _ _ written ran, putByte_returns puts⟩

/-- What a call moves if it need not wait. -/
def IoQueue.moved (s : IoQueue Tid) : IoCall → Moved
  | .getchar => .returned (s.buf s.tail)
  | .putchar byte => .put byte

/-- If a call need not wait, it comes to its end. -/
theorem ioqCallByte_runs (reachable : (ioQueue Tid).Reachable s) (outside : s.place t = .outside)
    (may : ¬ s.mustWait call) : ∃ s', (ioqCallByte t call).run s = .ok (some (s.moved call), s') ∧
      Moves s s' (some (s.moved call)) ∧ (ioQueue Tid).Reachable s' ∧ s'.place t = .outside := by
  have parked := Parked.of_reachable reachable
  have ends : ∃ s', (transferByte t call).run s = .ok (s.moved call, s') ∧
      s'.place t = .outside := by
    cases call with
    | getchar =>
        obtain ⟨s', wakes⟩ :=
          @wakeup_runs _ _ { s with tail := nextPos s.tail } (.putchar (s.buf s.tail))
          (parked.of_same ⟨rfl, rfl, rfl, rfl⟩)
        have takes : takeByte.run s = .ok (s.buf s.tail, s') := by
          rw [takeByte, call_bind_of (call_get_returns.mpr ⟨rfl, rfl⟩),
            call_bind_of (call_modify_returns.mpr rfl), call_bind_of wakes]
          rfl
        refine ⟨_, call_bind_of takes, ?_⟩
        exact Function.update_self ..
    | putchar byte =>
        obtain ⟨s', wakes⟩ := @wakeup_runs _ _ { s with
            buf := Function.update s.buf s.head byte
            head := nextPos s.head } .getchar (parked.of_same ⟨rfl, rfl, rfl, rfl⟩)
        have puts : (putByte byte).run s = .ok ((), s') :=
          (call_bind_of (call_modify_returns.mpr rfl)).trans wakes
        refine ⟨_, call_bind_of puts, ?_⟩
        exact Function.update_self ..
  obtain ⟨s', transfers, back⟩ := ends
  have ran : (ioqCallByte t call).run s = .ok (some (s.moved call), s') := by
    rw [ioqCallByte, call_bind_of (call_get_returns.mpr ⟨rfl, rfl⟩), if_neg may,
      call_bind_of transfers]
    rfl
  refine ⟨s', ran, ioqCallByte_moves ran, reachable.step (.start t call) ?_, back⟩
  change queueExec s (.start t call) = some s'
  rw [queueExec, if_pos outside, ioqCall_eq, StateT.run_map, ran]
  rfl

/-- If a call has to wait, it moves nothing. -/
theorem ioqCallByte_waits {moved : Option Moved} (must : s.mustWait call)
    (ran : (ioqCallByte t call).run s = .ok (moved, s')) : moved = none := by
  rw [ioqCallByte, call_bind_of (call_get_returns.mpr ⟨rfl, rfl⟩), if_pos must] at ran
  obtain ⟨taken, _, _, ran⟩ := call_bind_returns.mp ran
  cases taken with
  | true =>
      obtain ⟨_, _, _, ran⟩ := call_bind_returns.mp ran
      exact (call_pure_returns.mp ran).1.symm
  | false => exact (call_pure_returns.mp ran).1.symm

end Progress

/-! ## The transfers -/

section Transfers

variable {s s' : IoQueue Tid} {t : Tid}

theorem queueExec_inside {op : QueueOp Tid} (inside : s.ring.Inside bufsize)
    (stepped : queueExec s op = some s') : s'.ring.Inside bufsize := by
  have both := (queueExec_eq ⟨s, [], []⟩ op).symm.trans stepped
  obtain ⟨r, recorded, rfl⟩ := Option.map_eq_some_iff.mp both
  obtain ⟨moved, queue, rfl, moves⟩ := recordedExec_moves recorded
  rcases moved with - | byte | byte
  · exact (moves : queue.ring = _) ▸ inside
  · exact moves.2 ▸ inside.put
  · exact moves.2.2 ▸ inside.take

theorem ring_inside (reachable : (ioQueue Tid).Reachable s) : s.ring.Inside bufsize := by
  obtain ⟨r, recorded, rfl⟩ := exists_recorded reachable
  exact (Fifo.of_reachable recorded).inside

omit [DecidableEq Tid] in
theorem length_stored (s : IoQueue Tid) : s.stored.length = s.ioqLength :=
  RingBuffer.length_contents

/-- The loop of `pipe_write` puts bytes that leave one place free. -/
theorem putBytes_runs (reachable : (ioQueue Tid).Reachable s) (outside : s.place t = .outside)
    {buf : List Byte} (fits : buf.length + s.ioqLength < bufsize) :
    ∃ s', (putBytes t buf).run s = .ok (true, s') ∧ s'.stored = s.stored ++ buf := by
  induction buf generalizing s with
  | nil => exact ⟨s, rfl, (List.append_nil _).symm⟩
  | cons byte buf ih =>
      have inside := ring_inside reachable
      rw [List.length_cons] at fits
      have may : ¬ s.mustWait (.putchar byte) := by
        intro full
        have length : s.ioqLength + 1 = bufsize := inside.full_iff.mp full
        omega
      obtain ⟨middle, puts, ⟨notFull, ring⟩, reached, back⟩ :=
        ioqCallByte_runs reachable outside may
      have stored : middle.stored = s.stored ++ [byte] := by
        rw [IoQueue.stored, ring, inside.contents_put notFull]
        rfl
      have length : middle.ioqLength = s.ioqLength + 1 := by
        rw [← length_stored, stored, List.length_append, length_stored]
        rfl
      obtain ⟨s', ran, all⟩ := ih reached back (by omega)
      refine ⟨s', (call_bind_of puts).trans ran, ?_⟩
      rw [all, stored, List.append_assoc]
      rfl

/-- More bytes than that block `pipe_write`. -/
theorem putBytes_blocks (reachable : (ioQueue Tid).Reachable s) (outside : s.place t = .outside)
    {buf : List Byte} (many : bufsize ≤ buf.length + s.ioqLength) {done : Bool}
    (ran : (putBytes t buf).run s = .ok (done, s')) : done = false := by
  induction buf generalizing s with
  | nil =>
      have less : s.ioqLength < bufsize := (ring_inside reachable).length_lt
      rw [List.length_nil] at many
      omega
  | cons byte buf ih =>
      have inside := ring_inside reachable
      rw [List.length_cons] at many
      by_cases full : s.mustWait (.putchar byte)
      · obtain ⟨moved, _, waits, ran⟩ := call_bind_returns.mp ran
        rw [ioqCallByte_waits full waits] at ran
        exact (call_pure_returns.mp ran).1.symm
      · obtain ⟨middle, puts, ⟨notFull, ring⟩, reached, back⟩ :=
          ioqCallByte_runs reachable outside full
        have length : middle.ioqLength = s.ioqLength + 1 := by
          change middle.ring.length bufsize = _
          rw [ring, inside.length_put notFull]
          rfl
        exact ih reached back (by omega) ((call_bind_of puts).symm.trans ran)

/-- The loop of `pipe_read` takes bytes that are stored. -/
theorem takeBytes_runs (reachable : (ioQueue Tid).Reachable s) (outside : s.place t = .outside)
    {left : Nat} (enough : left ≤ s.stored.length) :
    ∃ s', (takeBytes t left).run s = .ok (some (s.stored.take left), s') ∧
      s'.stored = s.stored.drop left := by
  induction left generalizing s with
  | zero => exact ⟨s, rfl, rfl⟩
  | succ left ih =>
      have inside := ring_inside reachable
      have may : ¬ s.mustWait .getchar := by
        intro empty
        have length : s.ioqLength = 0 := inside.empty_iff.mp empty
        rw [length_stored] at enough
        omega
      obtain ⟨middle, takes, ⟨notEmpty, -, ring⟩, reached, back⟩ :=
        ioqCallByte_runs reachable outside may
      have stored : s.stored = s.buf s.tail :: middle.stored := by
        rw [IoQueue.stored, inside.contents_take notEmpty, IoQueue.stored, ring]
        rfl
      rw [stored, List.length_cons] at enough
      obtain ⟨s', ran, rest⟩ := ih reached back (Nat.le_of_succ_le_succ enough)
      refine ⟨s', ?_, ?_⟩
      · rw [takeBytes, call_bind_of takes, stored]
        dsimp only [IoQueue.moved]
        rw [call_bind_of ran]
        rfl
      · rw [rest, stored, List.drop_succ_cons]

/-- `pipe_write` after the test of `ioq_length`. -/
theorem pipeWrite_run (s : IoQueue Tid) (t : Tid) (buf : List Byte) :
    (pipeWrite t buf).run s = (do
      if ← putBytes t (buf.take (min buf.length (bufsize - s.ioqLength))) then
        return some (min buf.length (bufsize - s.ioqLength))
      else
        return none : QueueCall Tid (Option Nat)).run s := by
  have size : min buf.length (bufsize - s.ioqLength) =
      if bufsize - s.ioqLength > buf.length then buf.length else bufsize - s.ioqLength := by
    split <;> omega
  rw [pipeWrite, call_bind_of (call_get_returns.mpr ⟨rfl, rfl⟩), size]

/-- `pipe_read` after the test of `ioq_length`. -/
theorem pipeRead_run (s : IoQueue Tid) (t : Tid) (count : Nat) :
    (pipeRead t count).run s = (takeBytes t (min count s.ioqLength)).run s := by
  have size : min count s.ioqLength = if s.ioqLength > count then count else s.ioqLength := by
    split <;> omega
  rw [pipeRead, call_bind_of (call_get_returns.mpr ⟨rfl, rfl⟩), size]

theorem writeTransfers (reachable : (ioQueue Tid).Reachable s) (outside : s.place t = .outside)
    {buf : List Byte} (fits : buf.length + s.ioqLength < bufsize) : WriteTransfers s t buf := by
  obtain ⟨s', puts, all⟩ := putBytes_runs reachable outside fits
  have free : min buf.length s.freeSpace = buf.length := by
    rw [IoQueue.freeSpace, length_stored]
    omega
  have size : min buf.length (bufsize - s.ioqLength) = buf.length := by omega
  refine ⟨s', ?_, ?_⟩
  · rw [pipeWrite_run, size, free, List.take_length, call_bind_of puts]
    rfl
  · rw [free, List.take_length]
    exact all

theorem not_writeTransfers (reachable : (ioQueue Tid).Reachable s)
    (outside : s.place t = .outside) {buf : List Byte}
    (many : bufsize ≤ buf.length + s.ioqLength) : ¬ WriteTransfers s t buf := by
  rintro ⟨s', ran, -⟩
  rw [pipeWrite_run] at ran
  obtain ⟨done, middle, puts, ran⟩ := call_bind_returns.mp ran
  have enough : bufsize ≤
      (buf.take (min buf.length (bufsize - s.ioqLength))).length + s.ioqLength := by
    rw [List.length_take]
    omega
  rw [putBytes_blocks reachable outside enough puts] at ran
  cases (call_pure_returns.mp ran).1

theorem readTransfers (reachable : (ioQueue Tid).Reachable s) (outside : s.place t = .outside)
    (count : Nat) : ReadTransfers s t count := by
  obtain ⟨s', ran, rest⟩ :=
    takeBytes_runs reachable outside (Nat.min_le_right count s.stored.length)
  refine ⟨s', ?_, rest⟩
  rw [pipeRead_run, ← length_stored]
  exact ran

/-- **Transfers of a pipe.** From every state that the calls of any threads reach, `pipe_write` puts
as many bytes as fit and `pipe_read` takes as many as are stored, neither of them coming to a full
or an empty ring, if and only if the bytes to write and the stored ones are fewer than `bufsize`. -/
theorem pipe_transfers_iff (reachable : (ioQueue Tid).Reachable s) (outside : s.place t = .outside)
    (buf : List Byte) (count : Nat) :
    WriteTransfers s t buf ∧ ReadTransfers s t count ↔ buf.length + s.ioqLength < bufsize := by
  constructor
  · rintro ⟨writes, -⟩
    by_contra many
    exact not_writeTransfers reachable outside (Nat.not_lt.mp many) writes
  · exact fun fits => ⟨writeTransfers reachable outside fits, readTransfers reachable outside count⟩

end Transfers

/-- An empty ring takes a byte, and gives none. -/
theorem pipe_transfers_one : WriteTransfers (ioqueueInit fun _ => 0 : IoQueue Nat) 1 [0x61] ∧
    ReadTransfers (ioqueueInit fun _ => 0 : IoQueue Nat) 1 10 :=
  (pipe_transfers_iff (.initial ⟨_, rfl⟩) rfl [0x61] 10).mpr (by decide)

/-- As many bytes as the buffer has do not go into an empty ring. -/
theorem pipeWrite_blocks :
    ¬ WriteTransfers (ioqueueInit fun _ => 0 : IoQueue Nat) 1 (List.replicate bufsize 0) := by
  apply not_writeTransfers (.initial ⟨_, rfl⟩) rfl
  rw [List.length_replicate]
  exact Nat.le_add_right _ _

end UKernel.WakeUp
