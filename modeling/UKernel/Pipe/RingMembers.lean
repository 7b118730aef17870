import UKernel.Library.Links
import UKernel.Pipe.PageBounds
import UKernel.Pipe.WakeUp

/-! # The members of a ring in memory

`UKernel.Pipe` has the ring of a pipe and its lock as bytes, and `UKernel.WakeUp` has their members,
with the waiters of the lock in a list. A ring in memory is such a queue where each member has the
value that lies at its address, and the waiters are linked in a row (`UKernel.Pipe.InMemory`). A
store to a member sets it and leaves the others as they were, and the list functions append a
waiter and take the first one. The ring runs into the page behind its own, so no control block may
lie there (`UKernel.Pipe.Apart`): its tag would have the bytes of the head and the tail of the ring.
-/

namespace UKernel.Pipe

open UKernel.Library
open UKernel.WakeUp (IoQueue IoCall)

/-! ## What lies at the addresses -/

/-- The thread that a pointer is for. -/
def thread (pointer : Word) : Option Word :=
  if pointer = 0 then none else some pointer

/-- The links of list elements, by their addresses. -/
def links (m : Memory) : Links Word where
  prev elem := getWord m (prev elem).toNat
  next elem := getWord m (next elem).toNat

/-- The list of the waiters for the lock of a ring. -/
def waitersOf (ioq : Word) : Word := waiters (semaphore (lock ioq))

/-- The list elements of the threads, between the first and the last element of the list. -/
def nodes (ioq : Word) (ts : List Word) : List Word :=
  listHead (waitersOf ioq) :: (ts.map generalTag ++ [listTail (waitersOf ioq)])

/-- Where the waiter of a call is kept. -/
def waiterAddr (ioq : Word) : IoCall → Word
  | .getchar => consumer ioq
  | .putchar _ => producer ioq

/-- The members of a ring and of its lock, but for the list. -/
structure Members (ioq : Word) (m : Memory) (q : IoQueue Word) : Prop where
  holder : q.holder = thread (getWord m (holder (lock ioq)).toNat)
  holderRepeatNr : q.holderRepeatNr = (getWord m (holderRepeatNr (lock ioq)).toNat).toNat
  value : q.value = (m (value (semaphore (lock ioq))).toNat).toNat
  producer : q.producer = thread (getWord m (producer ioq).toNat)
  consumer : q.consumer = thread (getWord m (consumer ioq).toNat)
  buf : ∀ i < bufsize, q.buf i = m (buf ioq (BitVec.ofNat 32 i)).toNat
  head : q.head = (getWord m (head ioq).toNat).toNat
  tail : q.tail = (getWord m (tail ioq).toNat).toNat

/-- The members that lie in memory, without waiters. -/
def readMembers (ioq : Word) (m : Memory) : IoQueue Word where
  holder := thread (getWord m (holder (lock ioq)).toNat)
  holderRepeatNr := (getWord m (holderRepeatNr (lock ioq)).toNat).toNat
  value := (m (value (semaphore (lock ioq))).toNat).toNat
  waiters := []
  producer := thread (getWord m (producer ioq).toNat)
  consumer := thread (getWord m (consumer ioq).toNat)
  buf i := m (buf ioq (BitVec.ofNat 32 i)).toNat
  head := (getWord m (head ioq).toNat).toNat
  tail := (getWord m (tail ioq).toNat).toNat
  place _ := .outside

/-- A ring and its waiters. -/
structure InMemory (ioq : Word) (task : Word → Prop) (m : Memory) (q : IoQueue Word) : Prop where
  members : Members ioq m q
  row : (links m).Row (nodes ioq q.waiters)
  tasks : ∀ t ∈ q.waiters, task t
  head_lt : q.head < bufsize
  tail_lt : q.tail < bufsize

/-- The ring and the control blocks lie on pages, and no control block on one that the ring
touches. -/
structure Apart (ioq : Word) (task : Word → Prop) : Prop where
  aligned : ioq.toNat % pgSize = 0
  low : ioq.toNat < pageTables
  page : ∀ t, task t → t.toNat % pgSize = 0
  present : ∀ t, task t → t ≠ 0
  other : ∀ t, task t → t.toNat ≠ ioq.toNat
  behind : ∀ t, task t → t.toNat ≠ ioq.toNat + pgSize

variable {ioq cur t t' w a b elem addrW : Word} {task : Word → Prop} {s s' s'' : Rings}
  {q q' : IoQueue Word}
  {m m' : Memory} {byte : Byte} {ts : List Word} {addr off k i n : Nat} {call : IoCall}

/-- A pointer that is not null is for its thread. -/
theorem thread_eq_some : thread w = some t ↔ w = t ∧ t ≠ 0 := by
  unfold thread
  split_ifs with null
  · refine iff_of_false (by simp) fun both => both.2 (both.1 ▸ null)
  · simp only [Option.some.injEq]
    exact ⟨fun same => ⟨same, same ▸ null⟩, fun same => same.1⟩

/-- A null pointer is for no thread. -/
theorem thread_eq_none : thread w = none ↔ w = 0 := by
  unfold thread
  split_ifs with null
  · exact iff_of_true rfl null
  · exact iff_of_false (by simp) null

/-! ## Addresses -/

/-- A place in a ring, by its offset. -/
theorem inRing_toNat (low : ioq.toNat < pageTables) (small : off ≤ 4140) :
    (ioq + BitVec.ofNat 32 off).toNat = ioq.toNat + off := by
  unfold pageTables at low
  rw [BitVec.toNat_add, BitVec.toNat_ofNat]
  omega

section Addresses

variable (low : ioq.toNat < pageTables)
include low

/-- `holder` is the first member of the lock, and the lock the first one of the ring. -/
theorem holder_toNat : (holder (lock ioq)).toNat = ioq.toNat := by
  have at_ : holder (lock ioq) = ioq + BitVec.ofNat 32 0 := by
    simp only [holder, lock, member, BitVec.add_assoc]
    rfl
  rw [at_, inRing_toNat low (by decide), Nat.add_zero]

/-- The value of the semaphore, behind the holder. -/
theorem value_toNat : (value (semaphore (lock ioq))).toNat = ioq.toNat + 4 := by
  have at_ : value (semaphore (lock ioq)) = ioq + BitVec.ofNat 32 4 := by
    simp only [value, semaphore, lock, member, BitVec.add_assoc]
    rfl
  rw [at_, inRing_toNat low (by decide)]

/-- The first element of the list, at the next word. -/
theorem listHead_toNat : (listHead (waitersOf ioq)).toNat = ioq.toNat + 8 := by
  have at_ : listHead (waitersOf ioq) = ioq + BitVec.ofNat 32 8 := by
    simp only [listHead, waitersOf, waiters, semaphore, lock, member, BitVec.add_assoc]
    rfl
  rw [at_, inRing_toNat low (by decide)]

/-- The last element of the list, behind the links of the first. -/
theorem listTail_toNat : (listTail (waitersOf ioq)).toNat = ioq.toNat + 16 := by
  have at_ : listTail (waitersOf ioq) = ioq + BitVec.ofNat 32 16 := by
    simp only [listTail, waitersOf, waiters, semaphore, lock, member, BitVec.add_assoc]
    rfl
  rw [at_, inRing_toNat low (by decide)]

/-- `holder_repeat_nr`, behind the semaphore. -/
theorem holderRepeatNr_toNat : (holderRepeatNr (lock ioq)).toNat = ioq.toNat + 24 := by
  have at_ : holderRepeatNr (lock ioq) = ioq + BitVec.ofNat 32 24 := by
    simp only [holderRepeatNr, lock, member, BitVec.add_assoc]
    rfl
  rw [at_, inRing_toNat low (by decide)]

/-- `producer`, behind the lock. -/
theorem producer_toNat : (producer ioq).toNat = ioq.toNat + 28 := inRing_toNat low (by decide)

/-- `consumer`, behind `producer`. -/
theorem consumer_toNat : (consumer ioq).toNat = ioq.toNat + 32 := inRing_toNat low (by decide)

/-- A byte of `buf`, behind `consumer`. -/
theorem buf_toNat (small : i < bufsize) :
    (buf ioq (BitVec.ofNat 32 i)).toNat = ioq.toNat + (36 + i) := by
  unfold bufsize at small
  have at_ : buf ioq (BitVec.ofNat 32 i) = ioq + BitVec.ofNat 32 (36 + i) := by
    rw [buf, member, BitVec.add_assoc, BitVec.ofNat_add]
    rfl
  rw [at_, inRing_toNat low (by omega)]

/-- `tail`, at the end of the ring. -/
theorem tail_toNat : (tail ioq).toNat = ioq.toNat + 4136 := inRing_toNat low (by decide)

end Addresses

/-! ## Words in memory -/

/-- A word that was stored is read back. -/
theorem getWord_store : getWord (m.splice addr (wordByte w) 4) addr = w :=
  getWord_of_bytes fun k small => by
    rw [Memory.splice_inside (by omega) (by omega), Nat.add_sub_cancel_left]

/-- The state with an access on record. -/
def Rings.recorded (s : Rings) (ioq addr : Word) (len : Nat) : Rings :=
  { s with accesses := ⟨ioq, addr, len⟩ :: s.accesses }

/-- The state after a word was written. -/
def Rings.stored (s : Rings) (ioq addr w : Word) : Rings :=
  { s.recorded ioq addr 4 with mem := s.mem.splice addr.toNat (wordByte w) 4 }

/-- The state after a byte was written. -/
def Rings.storedByte (s : Rings) (ioq addr : Word) (byte : Byte) : Rings :=
  { s.recorded ioq addr 1 with mem := Function.update s.mem addr.toNat byte }

/-- Memory after a word was written. -/
@[simp] theorem Rings.stored_mem (s : Rings) :
    (s.stored ioq addrW w).mem = s.mem.splice addrW.toNat (wordByte w) 4 :=
  rfl

/-- Memory after a byte was written. -/
@[simp] theorem Rings.storedByte_mem (s : Rings) :
    (s.storedByte ioq addrW byte).mem = Function.update s.mem addrW.toNat byte :=
  rfl

/-- Putting an access on record leaves memory alone. -/
@[simp] theorem Rings.recorded_mem (s : Rings) {len : Nat} :
    (s.recorded ioq addrW len).mem = s.mem :=
  rfl

/-- Writing a word blocks no call. -/
@[simp] theorem Rings.stored_parked (s : Rings) : (s.stored ioq addrW w).parked = s.parked :=
  rfl

/-- Writing a byte blocks no call. -/
@[simp] theorem Rings.storedByte_parked (s : Rings) :
    (s.storedByte ioq addrW byte).parked = s.parked :=
  rfl

/-- Putting an access on record blocks no call. -/
@[simp] theorem Rings.recorded_parked (s : Rings) {len : Nat} :
    (s.recorded ioq addrW len).parked = s.parked :=
  rfl

/-- Memory and the blocked calls are the same. -/
def SameData (s s' : Rings) : Prop := s'.mem = s.mem ∧ s'.parked = s.parked

instance : Std.Refl SameData := ⟨fun _ => ⟨rfl, rfl⟩⟩

instance : IsTrans Rings SameData := ⟨fun _ _ _ first second =>
  ⟨second.1.trans first.1, second.2.trans first.2⟩⟩

/-- Putting an access on record. -/
theorem record_runs {len : Nat} :
    (record ioq addrW len).run s = .ok ((), s.recorded ioq addrW len) :=
  rfl

/-- What is read is the word at the address. -/
theorem loadWord_returns : (loadWord ioq addrW).run s = .ok (w, s') ↔
    getWord s.mem addrW.toNat = w ∧ s.recorded ioq addrW 4 = s' := by
  rw [loadWord, call_bind_of record_runs, call_bind_of (call_get_returns.mpr ⟨rfl, rfl⟩)]
  exact call_pure_returns

/-- What is read is the byte at the address. -/
theorem loadByte_returns : (loadByte ioq addrW).run s = .ok (byte, s') ↔
    s.mem addrW.toNat = byte ∧ s.recorded ioq addrW 1 = s' := by
  rw [loadByte, call_bind_of record_runs, call_bind_of (call_get_returns.mpr ⟨rfl, rfl⟩)]
  exact call_pure_returns

/-- The word is written at the address. -/
theorem storeWord_returns : (storeWord ioq addrW w).run s = .ok ((), s') ↔
    s.stored ioq addrW w = s' := by
  rw [storeWord, call_bind_of record_runs]
  exact call_modify_returns

/-- The byte is written at the address. -/
theorem storeByte_returns : (storeByte ioq addrW byte).run s = .ok ((), s') ↔
    s.storedByte ioq addrW byte = s' := by
  rw [storeByte, call_bind_of record_runs]
  exact call_modify_returns

/-- A call that reads a word first. -/
theorem loadWord_bind {α : Type} {a : α} {rest : Word → RingCall α} :
    (loadWord ioq addrW >>= rest).run s = .ok (a, s') ↔
      (rest (getWord s.mem addrW.toNat)).run (s.recorded ioq addrW 4) = .ok (a, s') := by
  rw [call_bind_of (loadWord_returns.mpr ⟨rfl, rfl⟩)]

/-- A call that writes a word first. -/
theorem storeWord_bind {α : Type} {a : α} {rest : Unit → RingCall α} :
    (storeWord ioq addrW w >>= rest).run s = .ok (a, s') ↔
      (rest ()).run (s.stored ioq addrW w) = .ok (a, s') := by
  rw [call_bind_of (storeWord_returns.mpr rfl)]

/-- Bytes of a ring that are not among some others, by their offsets and numbers. -/
def Clear (off n k len : Nat) : Prop := k + len ≤ off ∨ off + n ≤ k

instance : Decidable (Clear off n k i) := inferInstanceAs (Decidable (_ ∨ _))

/-- A ring is the same but for some of its bytes. -/
def SameBut (ioq : Word) (off n : Nat) (m m' : Memory) : Prop :=
  ∀ k < 4140, Clear off n k 1 → m' (ioq.toNat + k) = m (ioq.toNat + k)

/-- Two changes of the same bytes. -/
theorem SameBut.trans {m'' : Memory} (first : SameBut ioq off n m m')
    (second : SameBut ioq off n m' m'') : SameBut ioq off n m m'' :=
  fun k small clear => (second k small clear).trans (first k small clear)

/-- A stored word changes its four bytes. -/
theorem sameBut_store (at_ : addr = ioq.toNat + off) :
    SameBut ioq off 4 m (m.splice addr (wordByte w) 4) := by
  intro k _ clear
  unfold Clear at clear
  exact Memory.splice_outside (by omega)

/-- A stored byte changes nothing else. -/
theorem sameBut_update (byte : Byte) (at_ : addr = ioq.toNat + off) :
    SameBut ioq off 1 m (Function.update m addr byte) := by
  intro k _ clear
  unfold Clear at clear
  exact Function.update_of_ne (by omega) _ _

/-- A word of the ring that is not among the bytes that changed. -/
theorem SameBut.word (same : SameBut ioq off n m m') (at_ : addr = ioq.toNat + k)
    (inside : k + 4 ≤ 4140) (clear : Clear off n k 4) : getWord m' addr = getWord m addr := by
  unfold Clear at clear
  refine getWord_congr fun j small => ?_
  rw [at_, Nat.add_assoc]
  exact same _ (by omega) (by unfold Clear; omega)

/-! ## Stores to members -/

/-- The members of a ring that are not among the bytes that changed. -/
structure Kept (ioq : Word) (off n : Nat) (m : Memory) (q : IoQueue Word) : Prop where
  holder : Clear off n 0 4 → q.holder = thread (getWord m (holder (lock ioq)).toNat)
  holderRepeatNr : Clear off n 24 4 →
    q.holderRepeatNr = (getWord m (holderRepeatNr (lock ioq)).toNat).toNat
  value : Clear off n 4 1 → q.value = (m (value (semaphore (lock ioq))).toNat).toNat
  producer : Clear off n 28 4 → q.producer = thread (getWord m (producer ioq).toNat)
  consumer : Clear off n 32 4 → q.consumer = thread (getWord m (consumer ioq).toNat)
  buf : ∀ i < bufsize, Clear off n (36 + i) 1 → q.buf i = m (buf ioq (BitVec.ofNat 32 i)).toNat
  head : Clear off n 4132 4 → q.head = (getWord m (head ioq).toNat).toNat
  tail : Clear off n 4136 4 → q.tail = (getWord m (tail ioq).toNat).toNat

section Members

variable (low : ioq.toNat < pageTables) (holds : Members ioq m q)
include low holds

/-- The members keep their values where their bytes were not changed. -/
theorem SameBut.kept (same : SameBut ioq off n m m') : Kept ioq off n m' q where
  holder clear := by
    rw [holds.holder, same.word (holder_toNat low) (by decide) clear]
  holderRepeatNr clear := by
    rw [holds.holderRepeatNr, same.word (holderRepeatNr_toNat low) (by decide) clear]
  value clear := by
    rw [holds.value, value_toNat low, same _ (by decide) clear]
  producer clear := by
    rw [holds.producer, same.word (producer_toNat low) (by decide) clear]
  consumer clear := by
    rw [holds.consumer, same.word (consumer_toNat low) (by decide) clear]
  buf i small clear := by
    rw [holds.buf i small, buf_toNat low small]
    unfold bufsize at small
    exact (same _ (by omega) clear).symm
  head clear := by
    rw [holds.head, same.word (head_toNat low) (by decide) clear]
  tail clear := by
    rw [holds.tail, same.word (tail_toNat low) (by decide) clear]

/-- The list of the waiters has none of the holds. -/
theorem SameBut.keptMembers (same : SameBut ioq 8 16 m m') : Members ioq m' q := by
  have kept := same.kept low holds
  refine ⟨kept.holder (by decide), kept.holderRepeatNr (by decide), kept.value (by decide),
    kept.producer (by decide), kept.consumer (by decide), fun i small => kept.buf i small ?_,
    kept.head (by decide), kept.tail (by decide)⟩
  exact .inr (by omega)

/-- A store to `holder`. -/
theorem Members.setHolder :
    Members ioq (m.splice (Pipe.holder (lock ioq)).toNat (wordByte w) 4)
      { q with holder := thread w } := by
  have same : SameBut ioq 0 4 m (m.splice (Pipe.holder (lock ioq)).toNat (wordByte w) 4) :=
    sameBut_store (holder_toNat low)
  have kept := same.kept low holds
  refine ⟨congrArg thread getWord_store.symm, kept.holderRepeatNr (by decide),
    kept.value (by decide), kept.producer (by decide), kept.consumer (by decide),
    fun i small => kept.buf i small ?_, kept.head (by decide), kept.tail (by decide)⟩
  exact .inr (by omega)

/-- A store to `holder_repeat_nr`. -/
theorem Members.setRepeatNr :
    Members ioq (m.splice (Pipe.holderRepeatNr (lock ioq)).toNat (wordByte w) 4)
      { q with holderRepeatNr := w.toNat } := by
  have kept := (sameBut_store (w := w) (holderRepeatNr_toNat low)).kept low holds
  refine ⟨kept.holder (by decide), congrArg BitVec.toNat getWord_store.symm,
    kept.value (by decide), kept.producer (by decide), kept.consumer (by decide),
    fun i small => kept.buf i small ?_, kept.head (by decide), kept.tail (by decide)⟩
  exact .inr (by omega)

/-- A store to the value of the semaphore. -/
theorem Members.setValue (byte : Byte) :
    Members ioq (Function.update m (Pipe.value (semaphore (lock ioq))).toNat byte)
      { q with value := byte.toNat } := by
  have kept := (sameBut_update byte (value_toNat low)).kept low holds
  refine ⟨kept.holder (by decide), kept.holderRepeatNr (by decide),
    congrArg BitVec.toNat (Function.update_self _ _ m).symm, kept.producer (by decide),
    kept.consumer (by decide), fun i small => kept.buf i small ?_, kept.head (by decide),
    kept.tail (by decide)⟩
  exact .inr (by omega)

/-- A store to `producer`. -/
theorem Members.setProducer :
    Members ioq (m.splice (Pipe.producer ioq).toNat (wordByte w) 4)
      { q with producer := thread w } := by
  have kept := (sameBut_store (w := w) (producer_toNat low)).kept low holds
  refine ⟨kept.holder (by decide), kept.holderRepeatNr (by decide), kept.value (by decide),
    congrArg thread getWord_store.symm, kept.consumer (by decide),
    fun i small => kept.buf i small ?_, kept.head (by decide), kept.tail (by decide)⟩
  exact .inr (by omega)

/-- A store to `consumer`. -/
theorem Members.setConsumer :
    Members ioq (m.splice (Pipe.consumer ioq).toNat (wordByte w) 4)
      { q with consumer := thread w } := by
  have kept := (sameBut_store (w := w) (consumer_toNat low)).kept low holds
  refine ⟨kept.holder (by decide), kept.holderRepeatNr (by decide), kept.value (by decide),
    kept.producer (by decide), congrArg thread getWord_store.symm,
    fun i small => kept.buf i small ?_, kept.head (by decide), kept.tail (by decide)⟩
  exact .inr (by omega)

/-- A store to `head`. -/
theorem Members.setHead :
    Members ioq (m.splice (Pipe.head ioq).toNat (wordByte w) 4) { q with head := w.toNat } := by
  have kept := (sameBut_store (w := w) (head_toNat low)).kept low holds
  refine ⟨kept.holder (by decide), kept.holderRepeatNr (by decide), kept.value (by decide),
    kept.producer (by decide), kept.consumer (by decide), fun i small => kept.buf i small ?_,
    congrArg BitVec.toNat getWord_store.symm, kept.tail (by decide)⟩
  unfold bufsize at small
  exact .inl (by omega)

/-- A store to `tail`. -/
theorem Members.setTail :
    Members ioq (m.splice (Pipe.tail ioq).toNat (wordByte w) 4) { q with tail := w.toNat } := by
  have kept := (sameBut_store (w := w) (tail_toNat low)).kept low holds
  refine ⟨kept.holder (by decide), kept.holderRepeatNr (by decide), kept.value (by decide),
    kept.producer (by decide), kept.consumer (by decide), fun i small => kept.buf i small ?_,
    kept.head (by decide), congrArg BitVec.toNat getWord_store.symm⟩
  unfold bufsize at small
  exact .inl (by omega)

/-- A store to a byte of `buf`. -/
theorem Members.setBuf (byte : Byte) (less : i < bufsize) :
    Members ioq (Function.update m (Pipe.buf ioq (BitVec.ofNat 32 i)).toNat byte)
      { q with buf := Function.update q.buf i byte } := by
  have kept := (sameBut_update byte (buf_toNat low less)).kept low holds
  have end_ : i < 4096 := less
  refine ⟨kept.holder (.inl (by omega)), kept.holderRepeatNr (.inl (by omega)),
    kept.value (.inl (by omega)), kept.producer (.inl (by omega)), kept.consumer (.inl (by omega)),
    fun j small => ?_, kept.head (.inr (by omega)), kept.tail (.inr (by omega))⟩
  by_cases here : j = i
  · subst here
    exact (Function.update_self _ _ _).trans (Function.update_self _ _ m).symm
  · refine (Function.update_of_ne here _ _).trans (kept.buf j small ?_)
    unfold Clear
    omega

/-- Where the waiter of a call is kept, it is set. -/
theorem Members.setWaiter (call : WakeUp.IoCall) (w : Word) :
    Members ioq (m.splice (waiterAddr ioq call).toNat (wordByte w) 4)
      (q.setWaiter call (thread w)) := by
  cases call with
  | getchar => exact holds.setConsumer low
  | putchar byte => exact holds.setProducer low

omit low in
/-- The waiter of a call, as it is in memory. -/
theorem Members.waiter : q.waiter call = thread (getWord m (waiterAddr ioq call).toNat) := by
  cases call with
  | getchar => exact holds.consumer
  | putchar byte => exact holds.producer

end Members

/-! ## The elements of the list -/

/-- An element that may be on the list of the waiters. -/
def IsNode (ioq : Word) (task : Word → Prop) (a : Word) : Prop :=
  a = listHead (waitersOf ioq) ∨ a = listTail (waitersOf ioq) ∨ ∃ t, task t ∧ a = generalTag t

/-- `prev` is the first link of an element. -/
theorem prev_toNat (a : Word) : (prev a).toNat = a.toNat := by
  rw [prev, member, show CType.offset listElemMembers 0 = 0 from rfl, BitVec.add_zero]

/-- `next` is the second link of an element. -/
theorem next_toNat (room : a.toNat + 8 ≤ 2 ^ 32) : (next a).toNat = a.toNat + 4 := by
  rw [next, member, show CType.offset listElemMembers 1 = 4 from rfl, BitVec.toNat_add,
    BitVec.toNat_ofNat]
  omega

/-- Two tasks have two tags. -/
theorem generalTag_inj (same : generalTag t = generalTag t') : t = t' :=
  (BitVec.add_left_inj _).mp same

/-- `elem2entry` finds the task of a tag. -/
theorem generalTag_sub :
    generalTag t - BitVec.ofNat 32 (CType.offset taskMembers 7) = t :=
  BitVec.add_sub_cancel _ _

variable (apart : Apart ioq task)
include apart

/-- The tag of a task lies in the page of its control block. -/
theorem Apart.generalTag_toNat (isTask : task t) : (generalTag t).toNat = t.toNat + 36 := by
  have page := apart.page t isTask
  unfold pgSize at page
  rw [generalTag, member, show CType.offset taskMembers 7 = 36 from rfl, BitVec.toNat_add,
    BitVec.toNat_ofNat]
  omega

/-- The tag of a task lies outside the ring. -/
theorem Apart.generalTag_outside (isTask : task t) :
    (generalTag t).toNat + 8 ≤ ioq.toNat ∨ ioq.toNat + 4140 ≤ (generalTag t).toNat := by
  have page := apart.page t isTask
  have aligned := apart.aligned
  have other := apart.other t isTask
  have behind := apart.behind t isTask
  rw [apart.generalTag_toNat isTask]
  unfold pgSize at page aligned behind
  omega

/-- The links of an element do not wrap around. -/
theorem IsNode.room (isNode : IsNode ioq task a) : a.toNat + 8 ≤ 2 ^ 32 := by
  have low := apart.low
  unfold pageTables at low
  rcases isNode with rfl | rfl | ⟨t, isTask, rfl⟩
  · rw [listHead_toNat apart.low]
    omega
  · rw [listTail_toNat apart.low]
    omega
  · have page := apart.page t isTask
    unfold pgSize at page
    rw [apart.generalTag_toNat isTask]
    omega

/-- The links of an element are among those of the list, or outside the ring. -/
theorem IsNode.clear (isNode : IsNode ioq task a) (small : i < 8) (inside : k < 4140)
    (clear : Clear 8 16 k 1) : ioq.toNat + k ≠ a.toNat + i := by
  unfold Clear at clear
  rcases isNode with rfl | rfl | ⟨t, isTask, rfl⟩
  · rw [listHead_toNat apart.low]
    omega
  · rw [listTail_toNat apart.low]
    omega
  · have outside := apart.generalTag_outside isTask
    omega

/-- Two elements share no bytes. -/
theorem IsNode.disjoint (isA : IsNode ioq task a) (isB : IsNode ioq task b) (other : a ≠ b) :
    a.toNat + 8 ≤ b.toNat ∨ b.toNat + 8 ≤ a.toNat := by
  have head := listHead_toNat apart.low
  have tail := listTail_toNat apart.low
  rcases isA with rfl | rfl | ⟨t, isTask, rfl⟩
  · rcases isB with rfl | rfl | ⟨t', isTask', rfl⟩
    · exact absurd rfl other
    · omega
    · have outside := apart.generalTag_outside isTask'
      omega
  · rcases isB with rfl | rfl | ⟨t', isTask', rfl⟩
    · omega
    · exact absurd rfl other
    · have outside := apart.generalTag_outside isTask'
      omega
  · rcases isB with rfl | rfl | ⟨t', isTask', rfl⟩
    · have outside := apart.generalTag_outside isTask
      omega
    · have outside := apart.generalTag_outside isTask
      omega
    · have page := apart.page t isTask
      have page' := apart.page t' isTask'
      have other' : t.toNat ≠ t'.toNat := fun same =>
        other (congrArg generalTag (BitVec.eq_of_toNat_eq same))
      rw [apart.generalTag_toNat isTask, apart.generalTag_toNat isTask']
      unfold pgSize at page page'
      omega

/-! ## Following and changing links -/

/-- The links of the elements after some changes: what else lies in the ring, and the blocked calls,
are as before. -/
structure Relinked (ioq : Word) (task : Word → Prop) (changed : Links Word) (s s' : Rings) :
    Prop where
  parked : s'.parked = s.parked
  same : SameBut ioq 8 16 s.mem s'.mem
  next : ∀ a, IsNode ioq task a → (links s'.mem).next a = changed.next a
  prev : ∀ a, IsNode ioq task a → (links s'.mem).prev a = changed.prev a

omit apart in
/-- No link is changed yet. -/
theorem Relinked.refl : Relinked ioq task (links s.mem) s s :=
  ⟨rfl, fun _ _ _ => rfl, fun _ _ => rfl, fun _ _ => rfl⟩

variable {changed : Links Word} {middle : Rings} (linked : Relinked ioq task changed s middle)
include linked

omit apart in
/-- `next` of an element is read. -/
theorem Relinked.loadNext (isNode : IsNode ioq task a)
    (ran : (loadWord ioq (Pipe.next a)).run middle = .ok (w, s')) :
    w = changed.next a ∧ Relinked ioq task changed s s' := by
  obtain ⟨rfl, rfl⟩ := loadWord_returns.mp ran
  exact ⟨linked.next a isNode, linked.parked, linked.same, linked.next, linked.prev⟩

omit apart in
/-- `prev` of an element is read. -/
theorem Relinked.loadPrev (isNode : IsNode ioq task a)
    (ran : (loadWord ioq (Pipe.prev a)).run middle = .ok (w, s')) :
    w = changed.prev a ∧ Relinked ioq task changed s s' := by
  obtain ⟨rfl, rfl⟩ := loadWord_returns.mp ran
  exact ⟨linked.prev a isNode, linked.parked, linked.same, linked.next, linked.prev⟩

/-- `next` of an element is written, and no other link. -/
theorem Relinked.storeNext (isNode : IsNode ioq task a)
    (ran : (storeWord ioq (Pipe.next a) w).run middle = .ok ((), s')) :
    Relinked ioq task { changed with next := Function.update changed.next a w } s s' := by
  obtain rfl := storeWord_returns.mp ran
  have at_ := next_toNat (isNode.room apart)
  constructor
  case parked => exact linked.parked
  case same =>
    refine linked.same.trans fun k inside clear => Memory.splice_outside ?_
    have first := isNode.clear apart (show 4 < 8 by decide) inside clear
    have second := isNode.clear apart (show 5 < 8 by decide) inside clear
    have third := isNode.clear apart (show 6 < 8 by decide) inside clear
    have fourth := isNode.clear apart (show 7 < 8 by decide) inside clear
    omega
  case next =>
    intro b isB
    change getWord (middle.mem.splice (Pipe.next a).toNat (wordByte w) 4) (Pipe.next b).toNat =
      Function.update changed.next a w b
    by_cases here : b = a
    · rw [here, Function.update_self]
      exact getWord_store
    · rw [Function.update_of_ne here, ← linked.next b isB]
      have other := isB.disjoint apart isNode here
      refine getWord_congr fun j small => Memory.splice_outside ?_
      rw [at_, next_toNat (isB.room apart)]
      omega
  case prev =>
    intro b isB
    rw [← linked.prev b isB]
    refine getWord_congr fun j small => Memory.splice_outside ?_
    rw [at_, prev_toNat]
    by_cases here : b = a
    · rw [here]
      omega
    · have other := isB.disjoint apart isNode here
      omega

/-- `prev` of an element is written, and no other link. -/
theorem Relinked.storePrev (isNode : IsNode ioq task a)
    (ran : (storeWord ioq (Pipe.prev a) w).run middle = .ok ((), s')) :
    Relinked ioq task { changed with prev := Function.update changed.prev a w } s s' := by
  obtain rfl := storeWord_returns.mp ran
  have at_ := prev_toNat a
  constructor
  case parked => exact linked.parked
  case same =>
    refine linked.same.trans fun k inside clear => Memory.splice_outside ?_
    have first := isNode.clear apart (show 0 < 8 by decide) inside clear
    have second := isNode.clear apart (show 1 < 8 by decide) inside clear
    have third := isNode.clear apart (show 2 < 8 by decide) inside clear
    have fourth := isNode.clear apart (show 3 < 8 by decide) inside clear
    omega
  case prev =>
    intro b isB
    change getWord (middle.mem.splice (Pipe.prev a).toNat (wordByte w) 4) (Pipe.prev b).toNat =
      Function.update changed.prev a w b
    by_cases here : b = a
    · rw [here, Function.update_self]
      exact getWord_store
    · rw [Function.update_of_ne here, ← linked.prev b isB]
      have other := isB.disjoint apart isNode here
      refine getWord_congr fun j small => Memory.splice_outside ?_
      rw [at_, prev_toNat]
      omega
  case next =>
    intro b isB
    rw [← linked.next b isB]
    refine getWord_congr fun j small => Memory.splice_outside ?_
    rw [at_, next_toNat (isB.room apart)]
    by_cases here : b = a
    · rw [here]
      omega
    · have other := isB.disjoint apart isNode here
      omega

/-- `list_insert_before` puts an element between two others. -/
theorem Relinked.listInsertBefore (isA : IsNode ioq task a) (isB : IsNode ioq task b)
    (isNode : IsNode ioq task elem) (before : changed.prev b = a)
    (ran : (listInsertBefore ioq b elem).run middle = .ok ((), s')) :
    Relinked ioq task (changed.insert a elem b) s s' := by
  obtain ⟨_, _, loaded, ran⟩ := call_bind_returns.mp ran
  obtain ⟨rfl, linked⟩ := linked.loadPrev isB loaded
  rw [before] at ran
  obtain ⟨_, _, stored, ran⟩ := call_bind_returns.mp ran
  have linked := linked.storeNext apart isA stored
  obtain ⟨_, _, loaded, ran⟩ := call_bind_returns.mp ran
  obtain ⟨rfl, linked⟩ := linked.loadPrev isB loaded
  obtain ⟨_, _, stored, ran⟩ := call_bind_returns.mp ran
  have linked := linked.storePrev apart isNode stored
  obtain ⟨_, _, stored, ran⟩ := call_bind_returns.mp ran
  have linked := linked.storeNext apart isNode stored
  have linked := linked.storePrev apart isB ran
  rw [before] at linked
  exact linked

/-- `list_remove` links the neighbours of an element. -/
theorem Relinked.listRemove (isA : IsNode ioq task a) (isB : IsNode ioq task b)
    (isNode : IsNode ioq task elem) (before : changed.prev elem = a)
    (behind : changed.next elem = b) (other : elem ≠ a)
    (ran : (listRemove ioq elem).run middle = .ok ((), s')) :
    Relinked ioq task (changed.bypass a b) s s' := by
  obtain ⟨_, _, loaded, ran⟩ := call_bind_returns.mp ran
  obtain ⟨rfl, linked⟩ := linked.loadPrev isNode loaded
  obtain ⟨_, _, loaded, ran⟩ := call_bind_returns.mp ran
  obtain ⟨rfl, linked⟩ := linked.loadNext isNode loaded
  rw [before, behind] at ran
  obtain ⟨_, _, stored, ran⟩ := call_bind_returns.mp ran
  have linked := linked.storeNext apart isA stored
  obtain ⟨_, _, loaded, ran⟩ := call_bind_returns.mp ran
  obtain ⟨rfl, linked⟩ := linked.loadNext isNode loaded
  obtain ⟨_, _, loaded, ran⟩ := call_bind_returns.mp ran
  obtain ⟨rfl, linked⟩ := linked.loadPrev isNode loaded
  dsimp only at ran
  rw [Function.update_of_ne other, before, behind] at ran
  exact linked.storePrev apart isB ran

/-! ## The waiters in memory -/

omit linked apart

/-- The elements of the list are nodes. -/
theorem isNode_of_mem (tasks : ∀ t ∈ ts, task t) (member : a ∈ nodes ioq ts) :
    IsNode ioq task a := by
  rcases List.mem_cons.mp member with rfl | member
  · exact .inl rfl
  · rcases List.mem_append.mp member with tagged | isTail
    · obtain ⟨t, listed, rfl⟩ := List.mem_map.mp tagged
      exact .inr (.inr ⟨t, tasks t listed, rfl⟩)
    · exact .inr (.inl (List.mem_singleton.mp isTail))

/-- The last waiter, or the first element of the list, is before its last element. -/
theorem nodes_last (ioq : Word) (ts : List Word) : ∃ front a,
    nodes ioq ts = front ++ [a, listTail (waitersOf ioq)] ∧
      ∀ t, nodes ioq (ts ++ [t]) = front ++ [a, generalTag t, listTail (waitersOf ioq)] := by
  have nonempty : listHead (waitersOf ioq) :: ts.map generalTag ≠ [] := List.cons_ne_nil _ _
  obtain ⟨front, a, split⟩ : ∃ front a,
      listHead (waitersOf ioq) :: ts.map generalTag = front ++ [a] :=
    ⟨_, _, (List.dropLast_append_getLast nonempty).symm⟩
  refine ⟨front, a, ?_, fun t => ?_⟩
  · rw [nodes, ← List.cons_append, split, List.append_assoc]
    rfl
  · rw [nodes, List.map_append, List.append_assoc, ← List.cons_append, split, List.append_assoc]
    rfl

/-- After its links were changed, the list is a row again. -/
theorem Relinked.inMemory (low : ioq.toNat < pageTables) (linked : Relinked ioq task changed s s')
    (held : InMemory ioq task s.mem q) (tasks : ∀ t ∈ ts, task t)
    (row : changed.Row (nodes ioq ts)) : InMemory ioq task s'.mem { q with waiters := ts } where
  members := by
    have members := linked.same.keptMembers low held.members
    exact ⟨members.holder, members.holderRepeatNr, members.value, members.producer,
      members.consumer, members.buf, members.head, members.tail⟩
  row := row.congr fun a member =>
    ⟨linked.next a (isNode_of_mem tasks member), linked.prev a (isNode_of_mem tasks member)⟩
  tasks := tasks
  head_lt := held.head_lt
  tail_lt := held.tail_lt

/-- The places of the threads are not in memory. -/
theorem InMemory.setPlace (held : InMemory ioq task m q) (place : Word → WakeUp.Place) :
    InMemory ioq task m { q with place := place } := by
  obtain ⟨holder, holderRepeatNr, value, producer, consumer, buf, head, tail⟩ := held.members
  exact ⟨⟨holder, holderRepeatNr, value, producer, consumer, buf, head, tail⟩, held.row,
    held.tasks, held.head_lt, held.tail_lt⟩

/-- A store to a member leaves the list alone. -/
theorem row_store (apart : Apart ioq task) (tasks : ∀ t ∈ ts, task t)
    (row : (links m).Row (nodes ioq ts))
    (same : ∀ i, i < ioq.toNat + off ∨ ioq.toNat + off + n ≤ i → m' i = m i)
    (outside : Clear 8 16 off n) (inside : off + n ≤ 4140) : (links m').Row (nodes ioq ts) := by
  unfold Clear at outside
  refine row.congr fun a member => ?_
  have isNode := isNode_of_mem tasks member
  have away : ∀ i, a.toNat ≤ i → i < a.toNat + 8 → m' i = m i := by
    intro i low high
    apply same
    by_contra between
    push Not at between
    have clear := isNode.clear apart (i := i - a.toNat) (k := i - ioq.toNat) (by omega)
      (by omega) (by unfold Clear; omega)
    omega
  constructor
  · refine getWord_congr fun j small => ?_
    rw [next_toNat (isNode.room apart)]
    exact away _ (by omega) (by omega)
  · refine getWord_congr fun j small => ?_
    rw [prev_toNat]
    exact away _ (by omega) (by omega)

/-- A word that is stored to a member leaves the list alone. -/
theorem row_storeWord (apart : Apart ioq task) (tasks : ∀ t ∈ ts, task t)
    (at_ : addrW.toNat = ioq.toNat + off) (outside : Clear 8 16 off 4) (inside : off + 4 ≤ 4140)
    (row : (links m).Row (nodes ioq ts)) :
    (links (m.splice addrW.toNat (wordByte w) 4)).Row (nodes ioq ts) :=
  row_store apart tasks row (fun _ away => Memory.splice_outside (by omega)) outside inside

section Stores

variable (apart : Apart ioq task) (held : InMemory ioq task m q) (head_lt : q'.head < bufsize)
  (tail_lt : q'.tail < bufsize) (waiters : q'.waiters = q.waiters)
include apart held head_lt tail_lt waiters

/-- A word is stored to a member. -/
theorem InMemory.storeWord (at_ : addrW.toNat = ioq.toNat + off) (outside : Clear 8 16 off 4)
    (inside : off + 4 ≤ 4140) (members : Members ioq (m.splice addrW.toNat (wordByte w) 4) q') :
    InMemory ioq task (m.splice addrW.toNat (wordByte w) 4) q' :=
  ⟨members, waiters ▸ row_storeWord apart held.tasks at_ outside inside held.row,
    waiters ▸ held.tasks, head_lt, tail_lt⟩

/-- A byte is stored to a member. -/
theorem InMemory.storeByte (at_ : addrW.toNat = ioq.toNat + off) (outside : Clear 8 16 off 1)
    (inside : off + 1 ≤ 4140) (members : Members ioq (Function.update m addrW.toNat byte) q') :
    InMemory ioq task (Function.update m addrW.toNat byte) q' :=
  ⟨members, waiters ▸ row_store apart held.tasks held.row
    (fun _ away => Function.update_of_ne (by omega) _ _) outside inside, waiters ▸ held.tasks,
    head_lt, tail_lt⟩

end Stores

section Setters

variable (apart : Apart ioq task) (held : InMemory ioq task m q)
include apart held

/-- The holder of the lock is set. -/
theorem InMemory.setHolder :
    InMemory ioq task (m.splice (Pipe.holder (lock ioq)).toNat (wordByte w) 4)
      { q with holder := thread w } :=
  held.storeWord apart held.head_lt held.tail_lt rfl
    (show _ = ioq.toNat + 0 from holder_toNat apart.low)
    (.inl (by decide)) (by decide) (held.members.setHolder apart.low)

/-- `holder_repeat_nr` is set. -/
theorem InMemory.setRepeatNr :
    InMemory ioq task (m.splice (Pipe.holderRepeatNr (lock ioq)).toNat (wordByte w) 4)
      { q with holderRepeatNr := w.toNat } :=
  held.storeWord apart held.head_lt held.tail_lt rfl (holderRepeatNr_toNat apart.low)
    (.inr (by decide)) (by decide) (held.members.setRepeatNr apart.low)

/-- The value of the semaphore is set. -/
theorem InMemory.setValue (byte : Byte) :
    InMemory ioq task (Function.update m (Pipe.value (semaphore (lock ioq))).toNat byte)
      { q with value := byte.toNat } :=
  held.storeByte apart held.head_lt held.tail_lt rfl (value_toNat apart.low) (.inl (by decide))
    (by decide) (held.members.setValue apart.low byte)

/-- The position of the next byte to put is set. -/
theorem InMemory.setHead (less : w.toNat < bufsize) :
    InMemory ioq task (m.splice (Pipe.head ioq).toNat (wordByte w) 4)
      { q with head := w.toNat } :=
  held.storeWord apart less held.tail_lt rfl (head_toNat apart.low) (.inr (by decide))
    (by decide) (held.members.setHead apart.low)

/-- The position of the next byte to take is set. -/
theorem InMemory.setTail (less : w.toNat < bufsize) :
    InMemory ioq task (m.splice (Pipe.tail ioq).toNat (wordByte w) 4)
      { q with tail := w.toNat } :=
  held.storeWord apart held.head_lt less rfl (tail_toNat apart.low) (.inr (by decide))
    (by decide) (held.members.setTail apart.low)

/-- A byte of the buffer is set. -/
theorem InMemory.setBuf (byte : Byte) (less : i < bufsize) :
    InMemory ioq task (Function.update m (Pipe.buf ioq (BitVec.ofNat 32 i)).toNat byte)
      { q with buf := Function.update q.buf i byte } := by
  have end_ : i < 4096 := less
  exact held.storeByte apart held.head_lt held.tail_lt rfl (buf_toNat apart.low less)
    (.inr (by omega)) (by omega) (held.members.setBuf apart.low byte less)

/-- The waiter of a call is set. -/
theorem InMemory.setWaiter (call : WakeUp.IoCall) (w : Word) :
    InMemory ioq task (m.splice (waiterAddr ioq call).toNat (wordByte w) 4)
      (q.setWaiter call (thread w)) := by
  have members := held.members.setWaiter apart.low call w
  cases call with
  | getchar =>
      exact held.storeWord apart held.head_lt held.tail_lt rfl (consumer_toNat apart.low)
        (.inr (by decide)) (by decide) members
  | putchar byte =>
      exact held.storeWord apart held.head_lt held.tail_lt rfl (producer_toNat apart.low)
        (.inr (by decide)) (by decide) members

end Setters

variable (held : InMemory ioq task s.mem q)
include apart held

omit held in
/-- The elements of the list are apart from the tag of a task that does not wait. -/
theorem generalTag_new (isTask : task t) (free : t ∉ q.waiters) :
    generalTag t ∉ nodes ioq q.waiters := by
  have outside := apart.generalTag_outside isTask
  have head := listHead_toNat apart.low
  have tail := listTail_toNat apart.low
  intro member
  rcases List.mem_cons.mp member with same | member
  · rw [same] at outside
    omega
  · rcases List.mem_append.mp member with tagged | isTail
    · obtain ⟨t', listed, same⟩ := List.mem_map.mp tagged
      exact free (generalTag_inj same ▸ listed)
    · rw [List.mem_singleton.mp isTail] at outside
      omega

/-- `list_append` puts the tag of a task behind the others. -/
theorem listAppend_inMemory (isTask : task t) (free : t ∉ q.waiters)
    (ran : (listAppend ioq (waitersOf ioq) (generalTag t)).run s = .ok ((), s')) :
    s'.parked = s.parked ∧ InMemory ioq task s'.mem { q with waiters := q.waiters ++ [t] } := by
  obtain ⟨front, a, split, split'⟩ := nodes_last ioq q.waiters
  have row := held.row
  rw [split] at row
  have isA : IsNode ioq task a := isNode_of_mem held.tasks (by rw [split]; simp)
  have linked := Relinked.refl.listInsertBefore apart isA (.inr (.inl rfl))
    (.inr (.inr ⟨t, isTask, rfl⟩)) row.neighbours.prev ran
  refine ⟨linked.parked, linked.inMemory apart.low held ?_ ?_⟩
  · intro t' member
    rcases List.mem_append.mp member with waits | new
    · exact held.tasks t' waits
    · exact List.mem_singleton.mp new ▸ isTask
  · rw [split' t]
    exact row.insert (split ▸ generalTag_new apart isTask free)

/-- `list_pop` takes the first waiter. -/
theorem listPop_inMemory (first : q.waiters = t :: ts)
    (ran : (listPop ioq (waitersOf ioq)).run s = .ok (elem, s')) :
    elem = generalTag t ∧ s'.parked = s.parked ∧
      InMemory ioq task s'.mem { q with waiters := ts } := by
  have isHead : IsNode ioq task (listHead (waitersOf ioq)) := .inl rfl
  have tasks : ∀ t' ∈ t :: ts, task t' := first ▸ held.tasks
  have row := held.row
  rw [first] at row
  obtain ⟨b, back, split⟩ : ∃ b back, ts.map generalTag ++ [listTail (waitersOf ioq)] = b :: back :=
    List.exists_cons_of_ne_nil (by simp)
  have split' : nodes ioq (t :: ts) = listHead (waitersOf ioq) :: generalTag t :: b :: back := by
    rw [nodes, List.map_cons, List.cons_append, split]
  have rest : nodes ioq ts = listHead (waitersOf ioq) :: b :: back := by rw [nodes, split]
  rw [split'] at row
  have isTag : IsNode ioq task (generalTag t) := .inr (.inr ⟨t, tasks t List.mem_cons_self, rfl⟩)
  have isB : IsNode ioq task b :=
    isNode_of_mem (fun t' member => tasks t' (List.mem_cons_of_mem t member))
      (by rw [rest]; simp)
  have joined := row.first
  have joined' := row.tail.first
  obtain ⟨_, _, loaded, ran⟩ := call_bind_returns.mp ran
  obtain ⟨same, linked⟩ := Relinked.refl.loadNext isHead loaded
  obtain rfl := same.trans joined.next
  obtain ⟨_, _, removed, ran⟩ := call_bind_returns.mp ran
  obtain ⟨rfl, rfl⟩ := call_pure_returns.mp ran
  have other : generalTag t ≠ listHead (waitersOf ioq) :=
    (List.ne_of_not_mem_cons (List.nodup_cons.mp row.once).1).symm
  have linked := linked.listRemove apart isHead isB isTag joined.prev joined'.next other removed
  refine ⟨rfl, linked.parked, linked.inMemory apart.low held ?_ ?_⟩
  · exact fun t' member => tasks t' (List.mem_cons_of_mem t member)
  · rw [rest]
    exact (show Links.Row _ ([] ++ _ :: _ :: _ :: _) from row).remove

omit apart in
/-- `list_empty`. -/
theorem listEmpty_inMemory {empty : Bool}
    (ran : (listEmpty ioq (waitersOf ioq)).run s = .ok (empty, s')) :
    (empty = true ↔ q.waiters = []) ∧ s'.parked = s.parked ∧ s'.mem = s.mem := by
  obtain ⟨_, _, loaded, ran⟩ := call_bind_returns.mp ran
  obtain ⟨rfl, rfl⟩ := loadWord_returns.mp loaded
  obtain ⟨rfl, rfl⟩ := call_pure_returns.mp ran
  refine ⟨?_, rfl, rfl⟩
  have row := held.row
  rw [decide_eq_true_eq]
  cases waits : q.waiters with
  | nil =>
      rw [waits] at row
      exact iff_of_true row.first.next rfl
  | cons t ts =>
      rw [waits] at row
      have joined := row.first
      refine iff_of_false (fun same => ?_) (List.cons_ne_nil t ts)
      have isTail : generalTag t = listTail (waitersOf ioq) := joined.next.symm.trans same
      have once := row.once
      rw [nodes, List.map_cons, isTail] at once
      simp at once

omit apart held in
/-- `elem_find` only looks. -/
theorem elemFind_same {plist objElem : Word} : Keeps SameData (elemFind ioq plist objElem) := by
  have loads : ∀ addrW : Word, Keeps SameData (loadWord ioq addrW) := by
    intro addrW s w s' ran
    obtain ⟨rfl, rfl⟩ := loadWord_returns.mp ran
    exact ⟨rfl, rfl⟩
  have steps : ∀ (fuel : Nat) (elem : Word), Keeps SameData
      (elemFindFrom ioq plist objElem fuel elem) := by
    intro fuel
    induction fuel with
    | zero => exact fun elem => .throw _
    | succ fuel ih =>
        intro elem
        rw [elemFindFrom]
        split_ifs
        · exact .pure _
        · exact .pure _
        · exact .bind (loads _) ih
  exact .bind (loads _) (steps _)

end UKernel.Pipe
