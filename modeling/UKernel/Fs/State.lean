import UKernel.Library.Call
import UKernel.Fs.Bitmap
import UKernel.Fs.Partition

/-! # The state of the file system

`UKernel.Fs.FsState` is the mounted partition, its two bitmaps and list of open inodes, the
inode objects in memory, the file table, and the descriptors of the running task. The calls of
`inode.c`, `dir.c`, `file.c` and `fs.c` are computations on it (`UKernel.Fs.FsCall`).
-/

namespace UKernel.Fs

open UKernel.Library

/-- A pointer to an inode object, in the kernel's heap or in the heap of the running task. -/
inductive Ptr where
  | kernel (addr : Nat)
  | user (addr : Nat)
  deriving DecidableEq, Repr

/-- The address is in the kernel's heap. -/
def Ptr.inKernel : Ptr → Bool
  | kernel _ => true
  | user _ => false

/-- `struct inode`; the list element is its place in `open_inodes`. -/
structure Inode where
  iNo : Word
  iSize : Word
  iOpenCnts : Nat
  writeDeny : Bool
  iSectors : Fin 13 → Word

namespace Inode

/-- `i_sectors[i]`. -/
def sector (inode : Inode) (i : Nat) : Word :=
  if small : i < 13 then inode.iSectors ⟨i, small⟩ else 0

/-- An assignment to `i_sectors[i]`. -/
def setSector (inode : Inode) (i : Nat) (lba : Word) : Inode :=
  { inode with iSectors := fun j => if j.val = i then lba else inode.iSectors j }

section

variable {inode : Inode} {i j : Nat} {lba : Word}

theorem sector_setSector (small : i < 13) :
    (inode.setSector i lba).sector j = if j = i then lba else inode.sector j := by
  unfold sector setSector
  by_cases same : j = i
  · simp [same, small]
  · simp [same]

@[simp] theorem setSector_iNo : (inode.setSector i lba).iNo = inode.iNo := rfl

@[simp] theorem setSector_iSize : (inode.setSector i lba).iSize = inode.iSize := rfl

@[simp] theorem setSector_iOpenCnts :
    (inode.setSector i lba).iOpenCnts = inode.iOpenCnts := rfl

end

/-- Inodes with the same sectors. -/
theorem iSectors_ext {inode inode' : Inode} (same : ∀ i < 13, inode.sector i = inode'.sector i) :
    inode.iSectors = inode'.iSectors := by
  funext i
  have at_i := same i i.isLt
  simpa [sector] using at_i

end Inode

/-- `struct file`. -/
structure File where
  fdPos : Word
  fdFlag : Word
  fdInode : Option Ptr

/-- The second argument of `bitmap_sync`. -/
inductive BitmapType where
  | inodeBitmap
  | blockBitmap
  deriving DecidableEq, Repr

/-- `MAX_FILE_OPEN`. -/
abbrev maxFileOpen : Nat := 32

/-- `MAX_FILES_OPEN_PER_PROC`. -/
abbrev maxFilesOpenPerProc : Nat := 8

/-- The state that the calls on a mounted partition read and change. `inodes` are the inode
objects as the running task sees them; an entry `none` of `fdTable` is the value `-1`. -/
structure FsState (part : Partition) where
  disk : Memory
  blockBitmap : Bitmap part.blockBitmapBytes
  inodeBitmap : Bitmap part.inodeBitmapBytes
  inodes : Ptr → Option Inode
  nextAddr : Nat
  openInodes : List Ptr
  rootDir : Ptr
  fileTable : Nat → File
  fdTable : Nat → Option Nat
  userProcess : Bool

/-- A call on a mounted partition. -/
abbrev FsCall (part : Partition) (α : Type) := Call (FsState part) α

variable {part : Partition}

/-! ## Inode objects -/

/-- Read the inode object at an address. -/
def deref (ptr : Ptr) : FsCall part Inode := do
  let s ← get
  if let some inode := s.inodes ptr then
    return inode
  else
    throw .badPointer

/-- Write the inode object at an address. -/
def store (ptr : Ptr) (inode : Inode) : FsCall part Unit :=
  modify fun s => { s with inodes := Function.update s.inodes ptr (some inode) }

/-- `sys_malloc(sizeof(struct inode))`: an address that no object has, in the kernel's heap
when the page directory of the task is (temporarily) null, and in its own heap otherwise. -/
def mallocInode (inKernel : Bool) : FsCall part Ptr := do
  let s ← get
  modify fun s => { s with nextAddr := s.nextAddr + 1 }
  return if inKernel then .kernel s.nextAddr else .user s.nextAddr

/-! ## Bitmaps on disk -/

/-- `bitmap_sync`. -/
def bitmapSync (bitIdx : Nat) : BitmapType → FsCall part Unit
  | .inodeBitmap => modify fun s =>
      let offSec := bitIdx / 4096
      { s with
        disk := ideWrite s.disk (part.sb.inodeBitmapLba + offSec)
          (s.inodeBitmap.bits.shift (offSec * sectorSize)) 1 }
  | .blockBitmap => modify fun s =>
      let offSec := bitIdx / 4096
      { s with
        disk := ideWrite s.disk (part.sb.blockBitmapLba + offSec)
          (s.blockBitmap.bits.shift (offSec * sectorSize)) 1 }

/-- `bitmap_set` on the block bitmap. -/
def setBlockBit (bitIdx : Nat) (value : Bool) : FsCall part Unit :=
  if bitIdx < 8 * part.blockBitmapBytes then
    modify fun s => { s with blockBitmap := s.blockBitmap.set bitIdx value }
  else
    throw .outOfBounds

/-- `bitmap_set` on the inode bitmap. -/
def setInodeBit (bitIdx : Nat) (value : Bool) : FsCall part Unit :=
  if bitIdx < 8 * part.inodeBitmapBytes then
    modify fun s => { s with inodeBitmap := s.inodeBitmap.set bitIdx value }
  else
    throw .outOfBounds

/-- `inode_bitmap_alloc`; `none` is the result `-1`. -/
def inodeBitmapAlloc : FsCall part (Option Nat) := do
  let s ← get
  match ← s.inodeBitmap.scan 1 with
  | none => return none
  | some bitIdx =>
      setInodeBit bitIdx true
      return some bitIdx

/-- The address of the block that a bit of the block bitmap stands for. -/
def blockOfBit (part : Partition) (bitIdx : Nat) : Word :=
  BitVec.ofNat 32 (part.sb.dataStartLba + bitIdx)

/-- `block_bitmap_alloc`; `none` is the result `-1`. -/
def blockBitmapAlloc : FsCall part (Option Word) := do
  let s ← get
  match ← s.blockBitmap.scan 1 with
  | none => return none
  | some bitIdx =>
      setBlockBit bitIdx true
      return some (blockOfBit part bitIdx)

/-! ## What the primitives do -/

section Primitives

variable {s s' : FsState part} {ptr : Ptr} {inode : Inode}

@[simp] theorem deref_returns :
    (deref ptr).run s = .ok (inode, s') ↔ s.inodes ptr = some inode ∧ s = s' := by
  rw [deref, call_bind_of (call_get_returns.mpr ⟨rfl, rfl⟩)]
  cases found : s.inodes ptr with
  | none => simp
  | some object => simp

@[simp] theorem store_returns :
    (store ptr inode).run s = .ok ((), s') ↔
      { s with inodes := Function.update s.inodes ptr (some inode) } = s' :=
  call_modify_returns

theorem blockOfBit_toNat {bitIdx : Nat} (small : bitIdx < 4096 * part.sb.blockBitmapSects) :
    (blockOfBit part bitIdx).toNat = part.sb.dataStartLba + bitIdx := by
  have bound := part.blocks_small
  rw [blockOfBit, BitVec.toNat_ofNat, Nat.mod_eq_of_lt (by omega)]

@[simp] theorem setBlockBit_returns {bitIdx : Nat} {value : Bool} :
    (setBlockBit bitIdx value).run s = .ok ((), s') ↔
      bitIdx < 4096 * part.sb.blockBitmapSects ∧
        { s with blockBitmap := s.blockBitmap.set bitIdx value } = s' := by
  have bytes := part.blockBitmapBytes_eq
  unfold setBlockBit
  by_cases small : bitIdx < 8 * part.blockBitmapBytes
  · rw [if_pos small, call_modify_returns]
    exact (and_iff_right (by omega)).symm
  · rw [if_neg small]
    simp only [call_throw_returns, false_iff, not_and]
    intro less
    omega

@[simp] theorem setInodeBit_returns {bitIdx : Nat} {value : Bool} :
    (setInodeBit bitIdx value).run s = .ok ((), s') ↔
      bitIdx < 4096 ∧ { s with inodeBitmap := s.inodeBitmap.set bitIdx value } = s' := by
  have bytes := part.inodeBitmapBytes_eq
  unfold setInodeBit
  by_cases small : bitIdx < 8 * part.inodeBitmapBytes
  · rw [if_pos small, call_modify_returns]
    exact (and_iff_right (by omega)).symm
  · rw [if_neg small]
    simp only [call_throw_returns, false_iff, not_and]
    intro less
    omega

/-- An allocated block was free, is marked, and lies in the data area. -/
theorem blockBitmapAlloc_returns {block : Option Word}
    (ran : (blockBitmapAlloc : FsCall part _).run s = .ok (block, s')) :
    ∃ bitIdx, block = some (blockOfBit part bitIdx) ∧
      bitIdx < 4096 * part.sb.blockBitmapSects ∧ s.blockBitmap.test bitIdx = false ∧
      s' = { s with blockBitmap := s.blockBitmap.set bitIdx true } := by
  rw [blockBitmapAlloc, call_bind_of (call_get_returns.mpr ⟨rfl, rfl⟩),
    call_bind_returns] at ran
  obtain ⟨found, middle, lifted, ran⟩ := ran
  obtain ⟨scanned, rfl⟩ := call_lift_returns.mp lifted
  obtain ⟨bitIdx, rfl, small, free, -⟩ := Bitmap.scan_returns scanned
  obtain ⟨done, after, marked, ran⟩ := call_bind_returns.mp ran
  obtain ⟨rfl, rfl⟩ := call_pure_returns.mp ran
  obtain ⟨inside, rfl⟩ := setBlockBit_returns.mp marked
  exact ⟨bitIdx, rfl, inside, free, rfl⟩

/-- An allocated inode number is the least free one, and is marked. -/
theorem inodeBitmapAlloc_returns {inodeNo : Option Nat}
    (ran : (inodeBitmapAlloc : FsCall part _).run s = .ok (inodeNo, s')) :
    ∃ bitIdx, inodeNo = some bitIdx ∧ bitIdx < 4096 ∧ s.inodeBitmap.test bitIdx = false ∧
      (∀ l < bitIdx, s.inodeBitmap.test l = true) ∧
      s' = { s with inodeBitmap := s.inodeBitmap.set bitIdx true } := by
  rw [inodeBitmapAlloc, call_bind_of (call_get_returns.mpr ⟨rfl, rfl⟩),
    call_bind_returns] at ran
  obtain ⟨found, middle, lifted, ran⟩ := ran
  obtain ⟨scanned, rfl⟩ := call_lift_returns.mp lifted
  obtain ⟨bitIdx, rfl, small, free, least⟩ := Bitmap.scan_returns scanned
  obtain ⟨done, after, marked, ran⟩ := call_bind_returns.mp ran
  obtain ⟨rfl, rfl⟩ := call_pure_returns.mp ran
  obtain ⟨inside, rfl⟩ := setInodeBit_returns.mp marked
  exact ⟨bitIdx, rfl, inside, free, least, rfl⟩

end Primitives

end UKernel.Fs
