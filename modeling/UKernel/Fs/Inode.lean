import UKernel.Fs.State

/-! # Inodes

`inode.c`: an inode lives in a slot of 76 bytes of the inode table, and in memory while it is
open. `inode_sync` and `inode_delete` replace the bytes of one slot
(`UKernel.Fs.inodeSync_returns`, `UKernel.Fs.inodeDelete_returns`), and `inode_open` finds an
object of the list of open inodes or loads one from its slot (`UKernel.Fs.inodeOpen_returns`).
-/

namespace UKernel.Fs

open UKernel.Library

variable {part : Partition}

/-! ## Slots of the inode table -/

/-- `struct inode_position`. -/
structure InodePosition where
  twoSec : Bool
  secLba : Nat
  offSize : Nat

/-- `inode_locate`. -/
def inodeLocate (part : Partition) (inodeNo : Nat) : Except Fault InodePosition := do
  require (inodeNo < 4096)
  let offSize := inodeNo * inodeSize
  let offSec := offSize / 512
  let offSizeInSec := offSize % 512
  let leftInSec := 512 - offSizeInSec
  return {
    twoSec := leftInSec < inodeSize
    secLba := part.sb.inodeTableLba + offSec
    offSize := offSizeInSec }

/-- The number of sectors that a slot touches. -/
def InodePosition.secCnt (pos : InodePosition) : Nat :=
  if pos.twoSec then 2 else 1

/-- The address on disk of the slot of an inode. -/
def slotAddr (part : Partition) (inodeNo : Nat) : Nat :=
  512 * part.sb.inodeTableLba + 76 * inodeNo

namespace Inode

/-- The bytes of a `struct inode` with `i_open_cnts`, `write_deny` and `inode_tag` cleared. -/
def image (inode : Inode) : Memory := fun k =>
  if k < 4 then wordByte inode.iNo k
  else if k < 8 then wordByte inode.iSize (k - 4)
  else if 16 ≤ k ∧ k < 68 then wordByte (inode.sector ((k - 16) / 4)) ((k - 16) % 4)
  else 0

/-- The `struct inode` whose bytes are in memory. -/
def load (m : Memory) : Inode where
  iNo := getWord m 0
  iSize := getWord m 4
  iOpenCnts := (getWord m 8).toNat
  writeDeny := m 12 ≠ 0
  iSectors i := getWord m (16 + 4 * i)

theorem load_sector {m : Memory} {i : Nat} (small : i < 13) :
    (load m).sector i = getWord m (16 + 4 * i) := by
  simp [sector, load, small]

/-- Two inodes describe the same file or directory. -/
def SameFile (inode inode' : Inode) : Prop :=
  inode.iNo = inode'.iNo ∧ inode.iSize = inode'.iSize ∧ inode.iSectors = inode'.iSectors

/-- **Round trip.** Loading the image of an inode gives the inode, but for the fields that live
in memory only. -/
theorem load_image {inode : Inode} {m : Memory} (bytes : ∀ k < 76, m k = inode.image k) :
    (load m).SameFile inode := by
  refine ⟨?_, ?_, iSectors_ext fun i small => ?_⟩
  · apply getWord_of_bytes
    intro k small
    rw [Nat.zero_add, bytes k (by omega), image, if_pos small]
  · apply getWord_of_bytes
    intro k small
    rw [bytes (4 + k) (by omega), image, if_neg (by omega), if_pos (by omega),
      Nat.add_sub_cancel_left]
  · rw [load_sector small]
    apply getWord_of_bytes
    intro k less
    rw [bytes (16 + 4 * i + k) (by omega), image, if_neg (by omega), if_neg (by omega),
      if_pos (by omega)]
    congr 2 <;> omega

/-- Loading reads the bytes of the slot only. -/
theorem load_congr {m m' : Memory} (same : ∀ k < 76, m k = m' k) : load m = load m' := by
  have word : ∀ off ≤ 72, getWord m off = getWord m' off :=
    fun off small => getWord_congr fun k less => same (off + k) (by omega)
  unfold load
  congr 1
  · exact word 0 (by omega)
  · exact word 4 (by omega)
  · rw [word 8 (by omega)]
  · rw [same 12 (by omega)]
  · funext i
    exact word (16 + 4 * i) (by omega)

end Inode

/-- The inode in a slot of the inode table. -/
def slot (part : Partition) (disk : Memory) (inodeNo : Nat) : Inode :=
  Inode.load (disk.shift (slotAddr part inodeNo))

/-! ## Writing a slot -/

/-- `inode_sync`; the inode number goes through a `uint8_t`. -/
def inodeSync (inode : Inode) : FsCall part Unit := do
  let inodeNo := inode.iNo.toNat % 2 ^ 8
  let pos ← inodeLocate part inodeNo
  require (pos.secLba ≤ part.startLba + part.secCnt)
  modify fun s =>
    let inodeBuf := ideRead s.disk pos.secLba
    { s with
      disk := ideWrite s.disk pos.secLba (inodeBuf.splice pos.offSize inode.image inodeSize)
        pos.secCnt }

/-- `inode_delete`. -/
def inodeDelete (inodeNo : Word) : FsCall part Unit := do
  require (inodeNo.toNat < 4096)
  let pos ← inodeLocate part inodeNo.toNat
  require (pos.secLba ≤ part.startLba + part.secCnt)
  modify fun s =>
    let inodeBuf := ideRead s.disk pos.secLba
    { s with
      disk := ideWrite s.disk pos.secLba (inodeBuf.splice pos.offSize Memory.zeros inodeSize)
        pos.secCnt }

/-! ## Opening and closing -/

/-- The loop of `inode_open` over the open inodes. -/
def findOpen (inodeNo : Word) : List Ptr → FsCall part (Option Ptr)
  | [] => return none
  | elem :: elems => do
      let inodeFound ← deref elem
      if inodeFound.iNo = inodeNo then
        return some elem
      findOpen inodeNo elems

/-- `inode_open`. The new object is allocated while the page directory of the task is null. -/
def inodeOpen (inodeNo : Word) : FsCall part Ptr := do
  let s ← get
  if let some elem ← findOpen inodeNo s.openInodes then
    let inodeFound ← deref elem
    store elem { inodeFound with iOpenCnts := inodeFound.iOpenCnts + 1 }
    return elem
  let pos ← inodeLocate part inodeNo.toNat
  let ptr ← mallocInode true
  let inodeBuf := ideRead s.disk pos.secLba
  store ptr { Inode.load (inodeBuf.shift pos.offSize) with iOpenCnts := 1 }
  modify fun s => { s with openInodes := ptr :: s.openInodes }
  return ptr

/-- `ASSERT((uint32_t)ptr >= K_HEAP_START)` in `sys_free`. -/
def assertKernelHeap (ptr : Ptr) : Except Fault Unit :=
  if ptr.inKernel then .ok () else .error .heapAssertion

/-- `inode_close`. An object whose count drops to zero is freed while the page directory of the
task is null, so that `sys_free` asserts that it is in the kernel's heap. -/
def inodeClose (ptr : Ptr) : FsCall part Unit := do
  let inode ← deref ptr
  let cnts := if inode.iOpenCnts = 0 then 2 ^ 32 - 1 else inode.iOpenCnts - 1
  if cnts = 0 then
    modify fun s => { s with openInodes := s.openInodes.erase ptr }
    assertKernelHeap ptr
    modify fun s => { s with inodes := Function.update s.inodes ptr none }
  else
    store ptr { inode with iOpenCnts := cnts }

/-- `inode_init`. -/
def inodeInit (inodeNo : Word) : Inode where
  iNo := inodeNo
  iSize := 0
  iOpenCnts := 0
  writeDeny := false
  iSectors _ := 0

/-! ## Blocks of an inode -/

/-- The array `all_blocks`: the twelve direct blocks and, if there is a table of indirect
blocks, its 128 entries. -/
def allBlocks (disk : Memory) (inode : Inode) (blockIdx : Nat) : Word :=
  if blockIdx < 12 then inode.sector blockIdx
  else if inode.sector 12 ≠ 0 then
    getWord (ideRead disk (inode.sector 12).toNat) (4 * (blockIdx - 12))
  else 0

/-- Return a block to the block bitmap. -/
def freeBlock (block : Word) : FsCall part Unit := do
  let blockBitmapIdx := (block - BitVec.ofNat 32 part.sb.dataStartLba).toNat
  require (blockBitmapIdx > 0)
  setBlockBit blockBitmapIdx false
  bitmapSync blockBitmapIdx .blockBitmap

/-- The loop of `inode_release` over the blocks. -/
def freeBlocks : List Word → FsCall part Unit
  | [] => return ()
  | block :: blocks => do
      if block ≠ 0 then
        freeBlock block
      freeBlocks blocks

/-- `inode_release`. -/
def inodeRelease (inodeNo : Word) : FsCall part Unit := do
  let ptr ← inodeOpen inodeNo
  let inodeToDel ← deref ptr
  require (inodeToDel.iNo = inodeNo)
  let s ← get
  let blocks := allBlocks s.disk inodeToDel
  if inodeToDel.sector 12 ≠ 0 then
    freeBlock (inodeToDel.sector 12)
  let blockCnt := if inodeToDel.sector 12 ≠ 0 then 140 else 12
  freeBlocks ((List.range blockCnt).map blocks)
  setInodeBit inodeNo.toNat false
  bitmapSync inodeNo.toNat .inodeBitmap
  inodeDelete inodeNo
  inodeClose ptr

/-! ## What the calls do -/

section Calls

variable {s s' : FsState part} {ptr : Ptr} {inode : Inode} {inodeNo : Word} {n : Nat}

/-- The position of an inode is its slot, and lies in the partition. -/
theorem inodeLocate_of (part : Partition) (small : n < 4096) :
    ∃ pos, inodeLocate part n = .ok pos ∧ 512 * pos.secLba + pos.offSize = slotAddr part n ∧
      pos.offSize + 76 ≤ 512 * pos.secCnt ∧ pos.secLba ≤ part.startLba + part.secCnt := by
  have inside := part.dataStart_le
  obtain ⟨-, -, -, table⟩ := part.layout
  have sector := Nat.div_add_mod (n * 76) 512
  refine ⟨_, by rw [inodeLocate, require_of small, except_ok_bind, except_pure_eq], ?_, ?_, ?_⟩
  · simp only [inodeSize, slotAddr]
    omega
  · simp only [InodePosition.secCnt, inodeSize, decide_eq_true_eq]
    split
    · omega
    · omega
  · simp only [inodeSize]
    omega

theorem inodeLocate_returns {pos : InodePosition} (ran : inodeLocate part n = .ok pos) :
    n < 4096 ∧ 512 * pos.secLba + pos.offSize = slotAddr part n := by
  have small : n < 4096 := by
    obtain ⟨done, holds, -⟩ := except_bind_eq_ok.mp ran
    exact require_eq_ok.mp holds
  obtain ⟨pos', found, addr, -⟩ := inodeLocate_of part small
  rw [found] at ran
  cases ran
  exact ⟨small, addr⟩

/-- **Writing a slot.** `inode_sync` returns, and changes the slot of the inode number modulo
256 to the image of the inode. -/
theorem inodeSync_run :
    (inodeSync inode).run s = .ok ((), { s with
      disk := s.disk.splice (slotAddr part (inode.iNo.toNat % 256)) inode.image 76 }) := by
  obtain ⟨pos, found, addr, inside, lies⟩ :=
    inodeLocate_of part (show inode.iNo.toNat % 2 ^ 8 < 4096 by omega)
  rw [inodeSync, call_bind_of (call_lift_returns.mpr ⟨found, rfl⟩),
    call_bind_of (call_lift_returns.mpr ⟨require_of lies, rfl⟩), call_modify_returns]
  simp only [inodeSize, ideWrite_splice inside, addr]
  rfl

/-- `inode_delete` clears the slot. -/
theorem inodeDelete_returns :
    (inodeDelete inodeNo).run s = .ok ((), s') ↔ inodeNo.toNat < 4096 ∧
      { s with disk := s.disk.splice (slotAddr part inodeNo.toNat) Memory.zeros 76 } = s' := by
  by_cases small : inodeNo.toNat < 4096
  · obtain ⟨pos, found, addr, inside, lies⟩ := inodeLocate_of part small
    rw [inodeDelete, call_bind_of (call_lift_returns.mpr ⟨require_of small, rfl⟩),
      call_bind_of (call_lift_returns.mpr ⟨found, rfl⟩),
      call_bind_of (call_lift_returns.mpr ⟨require_of lies, rfl⟩), call_modify_returns]
    simp only [inodeSize, ideWrite_splice inside, addr]
    exact (and_iff_right small).symm
  · constructor
    · intro ran
      obtain ⟨_, _, lifted, -⟩ := call_bind_returns.mp ran
      exact absurd (require_eq_ok.mp (call_lift_returns.mp lifted).1) small
    · intro both
      exact absurd both.1 small

theorem findOpen_none {elems : List Ptr} :
    (findOpen inodeNo elems).run s = .ok (none, s') ↔
      s = s' ∧ ∀ p ∈ elems, ∃ obj, s.inodes p = some obj ∧ obj.iNo ≠ inodeNo := by
  induction elems with
  | nil => simp [findOpen]
  | cons elem elems ih =>
      rw [findOpen, call_bind_returns]
      constructor
      · intro ran
        obtain ⟨obj, middle, found, ran⟩ := ran
        obtain ⟨live, rfl⟩ := deref_returns.mp found
        by_cases same : obj.iNo = inodeNo
        · rw [if_pos same, call_pure_returns] at ran
          cases ran.1
        · rw [if_neg same, ih] at ran
          exact ⟨ran.1, List.forall_mem_cons.mpr ⟨⟨obj, live, same⟩, ran.2⟩⟩
      · intro both
        obtain ⟨rfl, all⟩ := both
        obtain ⟨⟨obj, live, other⟩, rest⟩ := List.forall_mem_cons.mp all
        refine ⟨obj, s, deref_returns.mpr ⟨live, rfl⟩, ?_⟩
        rw [if_neg other]
        exact ih.mpr ⟨rfl, rest⟩

theorem findOpen_some {elems : List Ptr}
    (ran : (findOpen inodeNo elems).run s = .ok (some ptr, s')) :
    s = s' ∧ ptr ∈ elems ∧ ∃ obj, s.inodes ptr = some obj ∧ obj.iNo = inodeNo := by
  induction elems with
  | nil => simp [findOpen] at ran
  | cons elem elems ih =>
      obtain ⟨obj, middle, found, ran⟩ := call_bind_returns.mp ran
      obtain ⟨live, rfl⟩ := deref_returns.mp found
      by_cases same : obj.iNo = inodeNo
      · rw [if_pos same, call_pure_returns] at ran
        obtain ⟨is, rfl⟩ := ran
        cases is
        exact ⟨rfl, List.mem_cons_self, obj, live, same⟩
      · rw [if_neg same] at ran
        obtain ⟨rfl, listed, rest⟩ := ih ran
        exact ⟨rfl, List.mem_cons_of_mem _ listed, rest⟩

/-- If every open inode is an object, the search for one returns. -/
theorem findOpen_total (inodeNo : Word) {elems : List Ptr}
    (live : ∀ p ∈ elems, ∃ obj, s.inodes p = some obj) :
    ∃ found, (findOpen inodeNo elems).run s = .ok (found, s) := by
  induction elems with
  | nil => exact ⟨none, rfl⟩
  | cons elem elems ih =>
      obtain ⟨⟨obj, here⟩, rest⟩ := List.forall_mem_cons.mp live
      rw [findOpen, call_bind_of (deref_returns.mpr ⟨here, rfl⟩)]
      by_cases same : obj.iNo = inodeNo
      · exact ⟨some elem, by rw [if_pos same]; rfl⟩
      · rw [if_neg same]
        exact ih rest

/-- No open inode has the number. -/
def NotOpen (s : FsState part) (inodeNo : Word) : Prop :=
  ∀ p ∈ s.openInodes, ∃ obj, s.inodes p = some obj ∧ obj.iNo ≠ inodeNo

/-- The state after one more opening of an open inode. -/
def FsState.reopen (s : FsState part) (ptr : Ptr) (obj : Inode) : FsState part :=
  { s with
    inodes := Function.update s.inodes ptr (some { obj with iOpenCnts := obj.iOpenCnts + 1 }) }

/-- The state after an inode was loaded from its slot. -/
def FsState.loadSlot (s : FsState part) (inodeNo : Nat) : FsState part :=
  { s with
    nextAddr := s.nextAddr + 1
    inodes := Function.update s.inodes (.kernel s.nextAddr)
      (some { slot part s.disk inodeNo with iOpenCnts := 1 })
    openInodes := .kernel s.nextAddr :: s.openInodes }

/-- An inode that is not open is loaded from its slot. -/
theorem inodeOpen_of_notOpen (small : inodeNo.toNat < 4096) (closed : NotOpen s inodeNo) :
    (inodeOpen inodeNo).run s = .ok (.kernel s.nextAddr, s.loadSlot inodeNo.toNat) := by
  obtain ⟨pos, found, addr, -⟩ := inodeLocate_of part small
  have slotted : (ideRead s.disk pos.secLba).shift pos.offSize =
      s.disk.shift (slotAddr part inodeNo.toNat) := by
    funext k
    simp only [Memory.shift, ideRead]
    congr 1
    omega
  rw [inodeOpen, call_bind_of (call_get_returns.mpr ⟨rfl, rfl⟩),
    call_bind_of (findOpen_none.mpr ⟨rfl, closed⟩)]
  simp only [call_bind_of (call_lift_returns.mpr ⟨found, rfl⟩), slotted]
  rfl

/-- `inode_open` returned: the inode was open, or it was loaded. -/
theorem inodeOpen_returns (ran : (inodeOpen inodeNo).run s = .ok (ptr, s')) :
    (ptr ∈ s.openInodes ∧ ∃ obj, s.inodes ptr = some obj ∧ obj.iNo = inodeNo ∧
      s' = s.reopen ptr obj) ∨
    (NotOpen s inodeNo ∧ inodeNo.toNat < 4096 ∧ ptr = .kernel s.nextAddr ∧
      s' = s.loadSlot inodeNo.toNat) := by
  have whole := ran
  rw [inodeOpen, call_bind_of (call_get_returns.mpr ⟨rfl, rfl⟩)] at ran
  obtain ⟨found, middle, searched, ran⟩ := call_bind_returns.mp ran
  cases found with
  | some elem =>
      obtain ⟨rfl, listed, obj, live, same⟩ := findOpen_some searched
      obtain ⟨obj', middle, found, ran⟩ := call_bind_returns.mp ran
      obtain ⟨live', rfl⟩ := deref_returns.mp found
      rw [live] at live'
      cases live'
      obtain ⟨done, after, stored, ran⟩ := call_bind_returns.mp ran
      obtain ⟨rfl, rfl⟩ := call_pure_returns.mp ran
      exact .inl ⟨listed, obj, live, same, (store_returns.mp stored).symm⟩
  | none =>
      obtain ⟨rfl, closed⟩ := findOpen_none.mp searched
      obtain ⟨pos, after, lifted, -⟩ := call_bind_returns.mp ran
      obtain ⟨small, -⟩ := inodeLocate_returns (call_lift_returns.mp lifted).1
      rw [inodeOpen_of_notOpen small closed] at whole
      cases whole
      exact .inr ⟨closed, small, rfl, rfl⟩

end Calls

end UKernel.Fs
