import UKernel.Fs.FileSizes

/-! # The position of an open file

`sys_write`, `sys_read` and `sys_lseek` move the position of a slot of the file table by different
rules. It stays inside the file in every run in which no write leaves the file empty; a write that
succeeds leaves it one byte before the end (`UKernel.Fs.descriptor_calls_positions`).
-/

namespace UKernel.Fs

open UKernel.Library

variable {part : Partition} {s s' : FsState part} {ptr : Ptr} {inode : Inode} {globalFd : Nat}

/-! ## Calls on descriptors -/

/-- `memcpy` of the bytes into an array of 1024 zero bytes, and `console_print_str` of it. -/
def printBuf (buf : List Byte) : Except Fault Unit :=
  if buf.length < 1024 ∨ (buf.length = 1024 ∧ 0 ∈ buf) then .ok () else .error .outOfBounds

/-- The slot is open with `O_WRONLY` or `O_RDWR`. -/
def File.mayWrite (file : File) : Prop :=
  file.fdFlag &&& oWronly.setWidth 32 ≠ 0 ∨ file.fdFlag &&& oRdwr.setWidth 32 ≠ 0

instance (file : File) : Decidable file.mayWrite :=
  inferInstanceAs (Decidable (_ ∨ _))

/-- `sys_write`, to a descriptor that is not one of a pipe; `none` is the result `-1`. -/
def sysWrite (fd : Int) (buf : List Byte) : FsCall part (Option Nat) :=
  if fd < 0 then return none
  else do
    let globalFd ← fdLocal2global fd.toNat
    if fd = 1 then
      printBuf buf
      return some buf.length
    else
      let s ← get
      if (s.fileTable globalFd).mayWrite then
        fileWrite globalFd buf
      else
        return none

/-- `sys_read`, from a descriptor that is not one of a pipe; `kbdBuf` are the next characters of the
keyboard. -/
def sysRead (kbdBuf : Nat → Byte) (fd : Int) (count : Word) : FsCall part (Option (List Byte)) :=
  if fd < 0 ∨ fd = 1 ∨ fd = 2 then return none
  else do
    let globalFd ← fdLocal2global fd.toNat
    if fd = 0 then
      return if count = 0 then none else some ((List.range count.toNat).map kbdBuf)
    else
      fileRead globalFd count

/-- `SEEK_SET`. -/
def seekSet : Byte := 1

/-- `SEEK_CUR`. -/
def seekCur : Byte := 2

/-- The position that `sys_lseek` computes, in signed arithmetic that wraps. -/
def newPos (fileSize fdPos offset : Word) (whence : Byte) : Word :=
  if whence = seekSet then offset
  else if whence = seekCur then fdPos + offset
  else fileSize + offset

/-- `sys_lseek`; `none` is the result `-1`. -/
def sysLseek (fd : Int) (offset : Word) (whence : Byte) : FsCall part (Option Word) :=
  if fd < 0 then return none
  else do
    require (0 < whence.toNat ∧ whence.toNat < 4)
    let globalFd ← fdLocal2global fd.toNat
    let inode ← deref (← fdInodeOf globalFd)
    let s ← get
    let pos := newPos inode.iSize (s.fileTable globalFd).fdPos offset whence
    if pos.slt 0 ∨ (inode.iSize - 1).slt pos then
      return none
    else
      setFile globalFd { s.fileTable globalFd with fdPos := pos }
      return some pos

/-- A call on a descriptor. -/
inductive FileCall where
  | write (fd : Int) (buf : List Byte)
  | read (fd : Int) (count : Word)
  | lseek (fd : Int) (offset : Word) (whence : Byte)

/-- The descriptor of a call. -/
def FileCall.fd : FileCall → Int
  | write fd _ => fd
  | read fd _ => fd
  | lseek fd _ _ => fd

/-- A call by a task with the given descriptors; `false` is the result `-1`. -/
structure DescriptorCall where
  fdTable : Nat → Option Nat
  kbdBuf : Nat → Byte
  call : FileCall

/-- Make the call. -/
def DescriptorCall.run (call : DescriptorCall) : FsCall part Bool := do
  modify fun s => { s with fdTable := call.fdTable }
  match call.call with
  | .write fd buf => return (← sysWrite fd buf).isSome
  | .read fd count => return (← sysRead call.kbdBuf fd count).isSome
  | .lseek fd offset whence => return (← sysLseek fd offset whence).isSome

/-- The slot that the descriptor of a call stands for. -/
def DescriptorCall.slot (call : DescriptorCall) : Option Nat :=
  if call.call.fd < 0 then none else call.fdTable call.call.fd.toNat

/-! ## Positions inside a file -/

/-- The positions of the slots of a file are inside it. -/
def PositionsInside (ptr : Ptr) (s : FsState part) : Prop :=
  ∃ inode, s.inodes ptr = some inode ∧ ∀ g < maxFileOpen, (s.fileTable g).fdInode = some ptr →
    (s.fileTable g).fdPos.toNat ≤ inode.iSize.toNat

/-- Calls through the descriptors of one file, by any tasks. -/
def descriptorCalls (part : Partition) (ptr : Ptr) :
    TransitionSystem (FsState part) DescriptorCall where
  initial := PositionsInside ptr
  step s call s' := (∃ g, call.slot = some g ∧ (s.fileTable g).fdInode = some ptr) ∧
    ∃ success, call.run.run s = .ok (success, s')

/-- A slot of an open file is at the end of it, and the next `file_read` says so. -/
def AtEnd (ptr : Ptr) (g : Nat) (s : FsState part) : Prop :=
  ∃ inode, s.inodes ptr = some inode ∧ (s.fileTable g).fdPos = inode.iSize ∧
    ∀ count : Word, count ≠ 0 → inode.iSize.toNat + count.toNat < 2 ^ 32 →
      (fileRead g count).run s = .ok (none, s)

/-- What a call through a slot of a file does to the positions: they are inside the file, a write
that succeeds ends at its end, and a `sys_lseek` that fails changes none. -/
structure MovesPosition (ptr : Ptr) (g : Nat) (call : FileCall) (success : Bool)
    (s s' : FsState part) : Prop where
  inside : PositionsInside ptr s'
  atEnd : ∀ fd buf, call = .write fd buf → success = true → AtEnd ptr g s'
  failed : ∀ fd offset whence, call = .lseek fd offset whence → success = false →
    s'.fileTable = s.fileTable

/-- A write through a slot is admitted by the checks of `sys_write` and `file_write`. -/
def Admitted (inode : Inode) (file : File) (call : FileCall) : Prop :=
  ∃ fd buf, call = .write fd buf ∧ fd ≠ 1 ∧ file.mayWrite ∧
    (inode.iSize + BitVec.ofNat 32 buf.length).toNat ≤ 512 * 140

/-- A write that is admitted and leaves the file empty. -/
def LeavesEmpty (ptr : Ptr) (s : FsState part) (call : DescriptorCall) : Prop :=
  ∃ g inode, call.slot = some g ∧ s.inodes ptr = some inode ∧
    Admitted inode (s.fileTable g) call.call ∧ inode.iSize = 0 ∧
    ∃ fd, call.call = .write fd []

/-- A write that succeeds away from the end of the file: it is admitted, or it goes to the console
while the slot is not at the end. -/
def LeavesBehind (ptr : Ptr) (s : FsState part) (call : DescriptorCall) : Prop :=
  ∃ g inode, call.slot = some g ∧ s.inodes ptr = some inode ∧
    (Admitted inode (s.fileTable g) call.call ∨
      ((∃ buf, call.call = .write 1 buf) ∧ (s.fileTable g).fdPos ≠ inode.iSize))

section Calls

variable {g fd : Nat} {table : Nat → File}

/-- The object has the size, and the positions are inside it. -/
theorem PositionsInside.of_sized {size : Word} (sized : Sized ptr size table s)
    (inside : ∀ g < maxFileOpen, (table g).fdInode = some ptr →
      (table g).fdPos.toNat ≤ size.toNat) :
    PositionsInside ptr s := by
  obtain ⟨inode, live, rfl⟩ := sized.live
  exact ⟨inode, live, sized.table ▸ inside⟩

/-- A slot of the file gets another position. -/
theorem positions_moved {size size' pos : Word}
    (inside : ∀ g < maxFileOpen, (table g).fdInode = some ptr → (table g).fdPos.toNat ≤ size.toNat)
    (grows : size.toNat ≤ size'.toNat) (moved : pos.toNat ≤ size'.toNat) :
    ∀ g' < maxFileOpen, (Function.update table g { table g with fdPos := pos } g').fdInode =
      some ptr →
      (Function.update table g { table g with fdPos := pos } g').fdPos.toNat ≤ size'.toNat := by
  intro g' small refers
  by_cases here : g' = g
  · rw [here, Function.update_self]
    exact moved
  · rw [Function.update_of_ne here] at refers ⊢
    exact Nat.le_trans (inside g' small refers) grows

/-- A position that `sys_lseek` accepts is inside the file. -/
theorem newPos_inside {fileSize pos : Word} (accepted : ¬ (pos.slt 0 ∨ (fileSize - 1).slt pos)) :
    pos.toNat ≤ fileSize.toNat := by
  rw [BitVec.slt, BitVec.slt, decide_eq_true_eq, decide_eq_true_eq, not_or, not_lt, not_lt,
    BitVec.toInt_eq_toNat_cond, BitVec.toInt_eq_toNat_cond, BitVec.toInt_eq_toNat_cond,
    BitVec.toNat_sub] at accepted
  obtain ⟨low, high⟩ := accepted
  simp only [BitVec.ofNat_eq_ofNat, BitVec.toNat_ofNat] at low high
  omega

/-- The position after a write: one less than the size. -/
theorem written_pos (table : Nat → File) (g : Nat) (size : Word) (n : Nat) :
    (advanceFile (rewindFile table g size) g n g).fdPos = size + BitVec.ofNat 32 n - 1 := by
  rw [advanceFile, Function.update_self, rewindFile, Function.update_self]
  exact sub_add_eq_add_sub ..

theorem written_table {size : Word} {n : Nat} : advanceFile (rewindFile table g size) g n =
    Function.update table g { table g with fdPos := size + BitVec.ofNat 32 n - 1 } := by
  rw [← written_pos, advanceFile, Function.update_self, rewindFile, Function.update_self,
    Function.update_idem]

/-- How a call of `sys_write` on a slot of a file ends. -/
theorem sysWrite_ends {fd : Int} {buf : List Byte} {n : Option Nat} (natural : ¬ fd < 0)
    (slot : s.fdTable fd.toNat = some g) (file : (s.fileTable g).fdInode = some ptr)
    (live : s.inodes ptr = some inode) (ran : (sysWrite fd buf).run s = .ok (n, s')) :
    (n = none ∧ s' = s ∧ fd ≠ 1 ∧ ¬ Admitted inode (s.fileTable g) (.write fd buf)) ∨
    (fd = 1 ∧ n = some buf.length ∧ s' = s) ∨
    (Admitted inode (s.fileTable g) (.write fd buf) ∧ n = some buf.length ∧
      inode.iSize.toNat + buf.length < 512 * 140 ∧
      Sized ptr (inode.iSize + BitVec.ofNat 32 buf.length)
        (advanceFile (rewindFile s.fileTable g inode.iSize) g buf.length) s') := by
  rw [sysWrite, if_neg natural] at ran
  obtain ⟨g', _, translates, ran⟩ := call_bind_returns.mp ran
  obtain ⟨-, slot', -, rfl⟩ := fdLocal2global_returns translates
  rw [slot] at slot'
  cases slot'
  split at ran
  case isTrue console =>
      obtain ⟨_, _, lifted, ran⟩ := call_bind_returns.mp ran
      obtain ⟨-, rfl⟩ := call_lift_returns.mp lifted
      obtain ⟨rfl, rfl⟩ := call_pure_returns.mp ran
      exact .inr (.inl ⟨console, rfl, rfl⟩)
  case isFalse other =>
      rw [call_bind_of (call_get_returns.mpr ⟨rfl, rfl⟩)] at ran
      split at ran
      case isTrue may =>
          by_cases admitted : (inode.iSize + BitVec.ofNat 32 buf.length).toNat ≤ 512 * 140
          · rw [fileWrite_admitted file live admitted] at ran
            obtain ⟨rfl, fits, sized⟩ := writeAdmitted_sized (.of_live live) ran
            exact .inr (.inr ⟨⟨fd, buf, rfl, other, may, admitted⟩, rfl, fits, sized⟩)
          · rw [fileWrite_rejects file live (Nat.lt_of_not_le admitted)] at ran
            cases ran
            refine .inl ⟨rfl, rfl, other, ?_⟩
            rintro ⟨_, _, same, -, -, bound⟩
            cases same
            exact admitted bound
      case isFalse mayNot =>
          obtain ⟨rfl, rfl⟩ := call_pure_returns.mp ran
          refine .inl ⟨rfl, rfl, other, ?_⟩
          rintro ⟨_, _, same, -, may, -⟩
          exact mayNot may

/-- How a call of `sys_read` on a slot of a file ends: the position stays inside the file. -/
theorem sysRead_ends {fd : Int} {kbdBuf : Nat → Byte} {count : Word} {read : Option (List Byte)}
    (slot : s.fdTable fd.toNat = some g)
    (file : (s.fileTable g).fdInode = some ptr) (live : s.inodes ptr = some inode)
    (inside : g < maxFileOpen → (s.fileTable g).fdPos.toNat ≤ inode.iSize.toNat)
    (ran : (sysRead kbdBuf fd count).run s = .ok (read, s')) :
    s' = s ∨ ∃ pos : Word, pos.toNat ≤ inode.iSize.toNat ∧ s' = { s with
      fileTable := Function.update s.fileTable g { s.fileTable g with fdPos := pos } } := by
  unfold sysRead at ran
  split at ran
  case isTrue refused =>
      obtain ⟨-, rfl⟩ := call_pure_returns.mp ran
      exact .inl rfl
  case isFalse accepted =>
      obtain ⟨g', _, translates, ran⟩ := call_bind_returns.mp ran
      obtain ⟨-, slot', small, rfl⟩ := fdLocal2global_returns translates
      rw [slot] at slot'
      cases slot'
      have before := inside small
      split at ran
      case isTrue keyboard =>
          obtain ⟨-, rfl⟩ := call_pure_returns.mp ran
          exact .inl rfl
      case isFalse other =>
          rcases fileRead_sized file live ran with ⟨-, rfl⟩ | ⟨bytes, rfl, computes, fits, rfl⟩
          · exact .inl rfl
          · refine .inr ⟨_, ?_, rfl⟩
            rw [BitVec.toNat_add, BitVec.toNat_ofNat]
            rcases sizeToRead_some computes with left | ⟨all, bound⟩
            · rw [BitVec.toNat_sub] at left
              omega
            · rw [BitVec.toNat_add, ← all] at bound
              omega

/-- How a call of `sys_lseek` on a slot of a file ends. -/
theorem sysLseek_ends {fd : Int} {offset : Word} {whence : Byte} {result : Option Word}
    (natural : ¬ fd < 0) (slot : s.fdTable fd.toNat = some g)
    (file : (s.fileTable g).fdInode = some ptr) (live : s.inodes ptr = some inode)
    (ran : (sysLseek fd offset whence).run s = .ok (result, s')) :
    (result = none ∧ s' = s) ∨ ∃ pos : Word, result = some pos ∧ pos.toNat ≤ inode.iSize.toNat ∧
      s' = { s with
        fileTable := Function.update s.fileTable g { s.fileTable g with fdPos := pos } } := by
  rw [sysLseek, if_neg natural] at ran
  obtain ⟨_, _, lifted, ran⟩ := call_bind_returns.mp ran
  obtain ⟨-, rfl⟩ := call_lift_returns.mp lifted
  obtain ⟨g', _, translates, ran⟩ := call_bind_returns.mp ran
  obtain ⟨-, slot', -, rfl⟩ := fdLocal2global_returns translates
  rw [slot] at slot'
  cases slot'
  rw [call_bind_of (fdInodeOf_run file), call_bind_of (deref_returns.mpr ⟨live, rfl⟩),
    call_bind_of (call_get_returns.mpr ⟨rfl, rfl⟩)] at ran
  dsimp only at ran
  split at ran
  case isTrue refused =>
      obtain ⟨rfl, rfl⟩ := call_pure_returns.mp ran
      exact .inl ⟨rfl, rfl⟩
  case isFalse accepted =>
      obtain ⟨_, _, moves, ran⟩ := call_bind_returns.mp ran
      cases call_modify_returns.mp moves
      obtain ⟨rfl, rfl⟩ := call_pure_returns.mp ran
      exact .inr ⟨_, rfl, newPos_inside accepted, rfl⟩

/-- At the end of a file `file_read` says so. -/
theorem atEnd_of_pos (file : (s.fileTable g).fdInode = some ptr) (live : s.inodes ptr = some inode)
    (last : (s.fileTable g).fdPos = inode.iSize) : AtEnd ptr g s := by
  refine ⟨inode, live, last, fun count more noWrap => ?_⟩
  have positive : 0 < count.toNat := by
    rw [Nat.pos_iff_ne_zero]
    exact fun zero => more (BitVec.eq_of_toNat_eq zero)
  have past : inode.iSize < inode.iSize + count := by
    rw [BitVec.lt_def, BitVec.toNat_add]
    omega
  rw [fileRead_run file live, last, sizeToRead, if_pos past,
    if_pos (sub_self inode.iSize)]

end Calls

/-! ## Runs -/

section Steps

variable {g : Nat} {fdTable : Nat → Option Nat} {kbdBuf : Nat → Byte} {fd : Int} {success : Bool}

theorem slot_eq_some {call : DescriptorCall} (slot : call.slot = some g) :
    ¬ call.call.fd < 0 ∧ call.fdTable call.call.fd.toNat = some g := by
  unfold DescriptorCall.slot at slot
  split at slot
  case isTrue negative => cases slot
  case isFalse natural => exact ⟨natural, slot⟩

/-- A call other than a write does not succeed away from the end. -/
theorem not_leavesBehind {call : DescriptorCall} (other : ∀ fd buf, call.call ≠ .write fd buf) :
    ¬ LeavesBehind ptr s call := by
  rintro ⟨_, _, _, _, ⟨fd, buf, is, -⟩ | ⟨⟨buf, is⟩, -⟩⟩
  · exact other fd buf is
  · exact other 1 buf is

/-- An admitted write leaves the position one byte before the end. -/
theorem admitted_step {buf : List Byte}
    (inside : ∀ g < maxFileOpen, (s.fileTable g).fdInode = some ptr →
      (s.fileTable g).fdPos.toNat ≤ inode.iSize.toNat)
    (fits : inode.iSize.toNat + buf.length < 512 * 140)
    (sized : Sized ptr (inode.iSize + BitVec.ofNat 32 buf.length)
      (advanceFile (rewindFile s.fileTable g inode.iSize) g buf.length) s') :
    (¬ (inode.iSize = 0 ∧ buf = []) → PositionsInside ptr s') ∧ ¬ AtEnd ptr g s' := by
  have total : (inode.iSize + BitVec.ofNat 32 buf.length).toNat =
      inode.iSize.toNat + buf.length := by
    rw [BitVec.toNat_add, BitVec.toNat_ofNat]
    omega
  constructor
  · intro nonempty
    have positive : 0 < inode.iSize.toNat + buf.length := by
      by_contra none
      have zero : inode.iSize.toNat = (0 : Word).toNat := by
        show inode.iSize.toNat = 0
        omega
      exact nonempty ⟨BitVec.eq_of_toNat_eq zero, List.length_eq_zero_iff.mp (by omega)⟩
    refine .of_sized sized ?_
    rw [written_table]
    refine positions_moved inside (by omega) ?_
    rw [BitVec.toNat_sub, total]
    simp only [BitVec.ofNat_eq_ofNat, BitVec.toNat_ofNat]
    omega
  · rintro ⟨object, live, last, -⟩
    have pos := written_pos s.fileTable g inode.iSize buf.length
    obtain ⟨object', live', size⟩ := sized.live
    rw [live] at live'
    cases live'
    rw [← sized.table, last, size, eq_comm, sub_eq_self] at pos
    exact absurd pos (by decide)

/-- A step of `sys_write`. -/
theorem write_step {buf : List Byte} (inside : PositionsInside ptr s)
    (slot : (DescriptorCall.mk fdTable kbdBuf (.write fd buf)).slot = some g)
    (file : (s.fileTable g).fdInode = some ptr)
    (ran : (DescriptorCall.mk fdTable kbdBuf (.write fd buf)).run.run s = .ok (success, s')) :
    (¬ LeavesEmpty ptr s ⟨fdTable, kbdBuf, .write fd buf⟩ → PositionsInside ptr s') ∧
      (MovesPosition ptr g (.write fd buf) success s s' ↔
        ¬ LeavesBehind ptr s ⟨fdTable, kbdBuf, .write fd buf⟩) := by
  obtain ⟨inode, live, positions⟩ := inside
  obtain ⟨natural, entry⟩ := slot_eq_some slot
  obtain ⟨_, _, switches, ran⟩ := call_bind_returns.mp ran
  cases call_modify_returns.mp switches
  obtain ⟨n, s₁, writes, ran⟩ := call_bind_returns.mp ran
  obtain ⟨rfl, rfl⟩ := call_pure_returns.mp ran
  have behind : LeavesBehind ptr s ⟨fdTable, kbdBuf, .write fd buf⟩ ↔
      Admitted inode (s.fileTable g) (.write fd buf) ∨
        (fd = 1 ∧ (s.fileTable g).fdPos ≠ inode.iSize) := by
    constructor
    · rintro ⟨g', inode', slot', live', which⟩
      rw [slot] at slot'
      cases slot'
      rw [live] at live'
      cases live'
      refine which.imp id fun both => ⟨?_, both.2⟩
      obtain ⟨_, is⟩ := both.1
      cases is
      rfl
    · rintro (admitted | ⟨rfl, apart⟩)
      · exact ⟨g, inode, slot, live, .inl admitted⟩
      · exact ⟨g, inode, slot, live, .inr ⟨⟨buf, rfl⟩, apart⟩⟩
  have same : PositionsInside ptr { s with fdTable := fdTable } := ⟨inode, live, positions⟩
  rcases sysWrite_ends (s := { s with fdTable := fdTable }) natural entry file live writes with
    ⟨rfl, rfl, other, refused⟩ | ⟨rfl, rfl, rfl⟩ | ⟨admitted, rfl, fits, sized⟩
  · refine ⟨fun _ => same, fun _ => ?_, fun _ => ?_⟩
    · rw [behind]
      rintro (admitted | ⟨console, -⟩)
      · exact refused admitted
      · exact other console
    · exact ⟨same, fun _ _ _ done => (nomatch done), fun _ _ _ is => (nomatch is)⟩
  · refine ⟨fun _ => same, fun moves => ?_, fun apart => ?_⟩
    · rw [behind]
      rintro (⟨_, _, is, other, -⟩ | ⟨-, apart⟩)
      · cases is
        exact other rfl
      · obtain ⟨object, found, last, -⟩ := moves.atEnd 1 buf rfl rfl
        cases live.symm.trans found
        exact apart last
    · rw [behind] at apart
      refine ⟨same, fun _ _ _ _ => atEnd_of_pos file live ?_, fun _ _ _ is => (nomatch is)⟩
      by_contra last
      exact apart (.inr ⟨rfl, last⟩)
  · obtain ⟨kept, notAtEnd⟩ := admitted_step positions fits sized
    constructor
    · intro leaves
      refine kept fun both => leaves ⟨g, inode, slot, live, admitted, both.1, fd, ?_⟩
      rw [both.2]
    · constructor
      · exact fun moves => absurd (moves.atEnd fd buf rfl rfl) notAtEnd
      · exact fun apart => absurd (behind.mpr (.inl admitted)) apart

/-- **One call.** The outcome of a call through a slot of a file whose positions are inside it: they
stay so unless the call is a write that leaves the file empty, and the call does to the positions
what it should unless it is a write that succeeds away from the end. -/
theorem descriptorCall_step {call : DescriptorCall}
    (inside : PositionsInside ptr s) (slot : call.slot = some g)
    (file : (s.fileTable g).fdInode = some ptr) (ran : call.run.run s = .ok (success, s')) :
    (¬ LeavesEmpty ptr s call → PositionsInside ptr s') ∧
      (MovesPosition ptr g call.call success s s' ↔ ¬ LeavesBehind ptr s call) := by
  obtain ⟨fdTable, kbdBuf, call⟩ := call
  cases call with
  | write fd buf => exact write_step inside slot file ran
  | read fd count =>
      obtain ⟨inode, live, positions⟩ := inside
      obtain ⟨natural, entry⟩ := slot_eq_some slot
      obtain ⟨_, _, switches, ran⟩ := call_bind_returns.mp ran
      cases call_modify_returns.mp switches
      obtain ⟨read, s₁, reads, ran⟩ := call_bind_returns.mp ran
      obtain ⟨rfl, rfl⟩ := call_pure_returns.mp ran
      have kept : PositionsInside ptr s₁ := by
        rcases sysRead_ends (s := { s with fdTable := fdTable }) entry file live
          (fun small => positions g small file) reads with rfl | ⟨pos, bound, rfl⟩
        · exact ⟨inode, live, positions⟩
        · exact ⟨inode, live, positions_moved positions (Nat.le_refl _) bound⟩
      exact ⟨fun _ => kept, fun _ => not_leavesBehind fun _ _ is => (nomatch is),
        fun _ => ⟨kept, fun _ _ is => (nomatch is), fun _ _ _ is => (nomatch is)⟩⟩
  | lseek fd offset whence =>
      obtain ⟨inode, live, positions⟩ := inside
      obtain ⟨natural, entry⟩ := slot_eq_some slot
      obtain ⟨_, _, switches, ran⟩ := call_bind_returns.mp ran
      cases call_modify_returns.mp switches
      obtain ⟨result, s₁, seeks, ran⟩ := call_bind_returns.mp ran
      obtain ⟨rfl, rfl⟩ := call_pure_returns.mp ran
      have ends : PositionsInside ptr s₁ ∧
          (result.isSome = false → s₁.fileTable = s.fileTable) := by
        rcases sysLseek_ends (s := { s with fdTable := fdTable }) natural entry file live seeks with
          ⟨rfl, rfl⟩ | ⟨pos, rfl, bound, rfl⟩
        · exact ⟨⟨inode, live, positions⟩, fun _ => rfl⟩
        · exact ⟨⟨inode, live, positions_moved positions (Nat.le_refl _) bound⟩,
            fun is => (nomatch is)⟩
      exact ⟨fun _ => ends.1, fun _ => not_leavesBehind fun _ _ is => (nomatch is),
        fun _ => ⟨ends.1, fun _ _ is => (nomatch is), fun _ _ _ _ => ends.2⟩⟩

end Steps

/-- **Positions.** In every run of calls through the descriptors of a file in which no write leaves
the file empty, the positions of its slots stay inside it. From every state of such a run a call
that returns does to the positions what it should, exactly if it is not a write that succeeds away
from the end of the file: one that is admitted, as it sets the position one byte before the end. -/
theorem descriptor_calls_positions
    (reached : ((descriptorCalls part ptr).under fun s call =>
      ¬ LeavesEmpty ptr s call).Reachable s) :
    PositionsInside ptr s ∧ ∀ call g success s', call.slot = some g →
      (s.fileTable g).fdInode = some ptr → call.run.run s = .ok (success, s') →
        (MovesPosition ptr g call.call success s s' ↔ ¬ LeavesBehind ptr s call) := by
  have inside : PositionsInside ptr s := by
    refine reached.invariant (PositionsInside ptr) (fun _ start => start) ?_
    intro before call after _ inside step
    obtain ⟨nonempty, ⟨g, slot, file⟩, success, ran⟩ := step
    exact (descriptorCall_step inside slot file ran).1 nonempty
  exact ⟨inside, fun call g success s' slot file ran =>
    (descriptorCall_step inside slot file ran).2⟩

/-- A mounted partition with an empty file that is open for writing. -/
def writableFile : FsState somePartition :=
  { twoFiles with
    fileTable := Function.update twoFiles.fileTable 3
      { fdPos := 0, fdFlag := 2, fdInode := some (.kernel 1) } }

/-- A call of a task whose descriptor 3 stands for the file. -/
def onThree (call : FileCall) : DescriptorCall :=
  { fdTable := fun fd => if fd = 3 then some 3 else none, kbdBuf := fun _ => 0, call }

theorem writableFile_inside : PositionsInside (.kernel 1) writableFile := by
  refine ⟨inodeInit 1, rfl, ?_⟩
  decide

/-- Two bytes are written, and the position is set to the first of them. -/
theorem positions_after_write : ∃ s₁ s₂, (onThree (.write 3 [7, 8])).run.run writableFile =
      .ok (true, s₁) ∧ (onThree (.lseek 3 0 seekSet)).run.run s₁ = .ok (true, s₂) ∧
    PositionsInside (.kernel 1) s₂ := by
  have ran : valueOf (do
      let wrote ← (onThree (.write 3 [7, 8])).run
      let s ← get
      let moved ← (onThree (.lseek 3 0 seekSet)).run
      return (wrote, (s.fileTable 3).fdInode, moved)) writableFile =
        some (true, some (.kernel 1), true) := by
    decide +kernel
  obtain ⟨s', ran⟩ := exists_of_valueOf ran
  obtain ⟨wrote, s₁, ran₁, ran⟩ := call_bind_returns.mp ran
  rw [call_bind_of (call_get_returns.mpr ⟨rfl, rfl⟩)] at ran
  obtain ⟨moved, s₂, ran₂, ran⟩ := call_bind_returns.mp ran
  obtain ⟨all, rfl⟩ := call_pure_returns.mp ran
  rw [Prod.mk.injEq, Prod.mk.injEq] at all
  obtain ⟨rfl, file, rfl⟩ := all
  have nonempty : ¬ LeavesEmpty (.kernel 1) writableFile (onThree (.write 3 [7, 8])) := by
    rintro ⟨_, _, _, _, _, _, _, is⟩
    cases is
  have seeks : ¬ LeavesEmpty (.kernel 1) s₁ (onThree (.lseek 3 0 seekSet)) := by
    rintro ⟨_, _, _, _, _, _, _, is⟩
    cases is
  refine ⟨s₁, s₂, ran₁, ran₂, (descriptor_calls_positions ?_).1⟩
  exact .step (onThree (.lseek 3 0 seekSet)) (.step (onThree (.write 3 [7, 8]))
    (.initial writableFile_inside) ⟨nonempty, ⟨3, rfl, rfl⟩, true, ran₁⟩)
    ⟨seeks, ⟨3, rfl, file⟩, true, ran₂⟩

/-- A write of one byte leaves the position before it, and an empty write to an empty file leaves
it far behind the end. -/
theorem position_off_end : (∃ s', (onThree (.write 3 [7])).run.run writableFile = .ok (true, s') ∧
      valueOf (fileRead 3 5) s' = some (some [7])) ∧
    ∃ s', (onThree (.write 3 [])).run.run writableFile = .ok (true, s') ∧
      (s'.fileTable 3).fdPos = 0xffffffff ∧ ¬ PositionsInside (.kernel 1) s' := by
  constructor
  · have ran : valueOf (do
        let wrote ← (onThree (.write 3 [7])).run
        return (wrote, valueOf (fileRead 3 5) (← get))) writableFile =
          some (true, some (some [7])) := by
      decide +kernel
    obtain ⟨_, ran⟩ := exists_of_valueOf ran
    obtain ⟨wrote, s', writes, ran⟩ := call_bind_returns.mp ran
    rw [call_bind_of (call_get_returns.mpr ⟨rfl, rfl⟩)] at ran
    obtain ⟨all, -⟩ := call_pure_returns.mp ran
    rw [Prod.mk.injEq] at all
    obtain ⟨rfl, reads⟩ := all
    exact ⟨s', writes, reads⟩
  · have ran : valueOf (do
        let wrote ← (onThree (.write 3 [])).run
        let s ← get
        return (wrote, (s.fileTable 3).fdPos, (s.fileTable 3).fdInode,
          (s.inodes (.kernel 1)).map Inode.iSize)) writableFile =
          some (true, 0xffffffff, some (.kernel 1), some 0) := by
      decide +kernel
    obtain ⟨_, ran⟩ := exists_of_valueOf ran
    obtain ⟨wrote, s', writes, ran⟩ := call_bind_returns.mp ran
    rw [call_bind_of (call_get_returns.mpr ⟨rfl, rfl⟩)] at ran
    obtain ⟨all, -⟩ := call_pure_returns.mp ran
    simp only [Prod.mk.injEq] at all
    obtain ⟨rfl, pos, file, size⟩ := all
    refine ⟨s', writes, pos, ?_⟩
    rintro ⟨inode, live, inside⟩
    have bound := inside 3 (by decide) file
    rw [live, Option.map_some, Option.some.injEq] at size
    rw [pos, size] at bound
    exact absurd bound (by decide)

end UKernel.Fs
