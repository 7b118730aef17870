import UKernel.Fs.Calls
import UKernel.Fs.FileSizes

/-! # The buffers of `inode_sync` and `inode_delete`

The slot of an inode lies in one sector or in two, and `inode_sync` and `inode_delete` move these
sectors through a buffer that their callers allocated. The functions of this module are those of
the source with the size of the buffer; a transfer that the buffer has no room for is out of
bounds. All callers but `file_write` allocate two sectors, and `file_write` leaves its buffer for
the inodes whose slot, at the number that `inode_sync` computes, lies in two sectors
(`UKernel.Fs.io_buf_holds_iff`).
-/

namespace UKernel.Fs

open UKernel.Library

variable {part : Partition}

/-! ## Buffers -/

/-- `io_buf`: a block of the heap that a caller allocated. -/
structure IoBuf where
  size : Nat

/-- `ide_read` or `ide_write` of sectors through a buffer. -/
def IoBuf.transfer (ioBuf : IoBuf) (secCnt : Nat) : Except Fault Unit :=
  if sectorSize * secCnt ≤ ioBuf.size then .ok () else .error .outOfBounds

/-- `inode_sync` with its buffer. -/
def inodeSyncIn (inode : Inode) (ioBuf : IoBuf) : FsCall part Unit := do
  let inodeNo := inode.iNo.toNat % 2 ^ 8
  let pos ← inodeLocate part inodeNo
  require (pos.secLba ≤ part.startLba + part.secCnt)
  ioBuf.transfer pos.secCnt
  modify fun s =>
    let inodeBuf := ideRead s.disk pos.secLba
    { s with
      disk := ideWrite s.disk pos.secLba (inodeBuf.splice pos.offSize inode.image inodeSize)
        pos.secCnt }

/-- `inode_delete` with its buffer. -/
def inodeDeleteIn (inodeNo : Word) (ioBuf : IoBuf) : FsCall part Unit := do
  require (inodeNo.toNat < 4096)
  let pos ← inodeLocate part inodeNo.toNat
  require (pos.secLba ≤ part.startLba + part.secCnt)
  ioBuf.transfer pos.secCnt
  modify fun s =>
    let inodeBuf := ideRead s.disk pos.secLba
    { s with
      disk := ideWrite s.disk pos.secLba (inodeBuf.splice pos.offSize Memory.zeros inodeSize)
        pos.secCnt }

/-! ## The callers -/

/-- `file_write` with its buffer; the blocks of the file go through it one by one. -/
def fileWriteIn (globalFd : Nat) (buf : List Byte) : FsCall part (Option Nat) := do
  let ptr ← fdInodeOf globalFd
  let inode ← deref ptr
  let count := BitVec.ofNat 32 buf.length
  if 512 * 140 < (inode.iSize + count).toNat then
    return none
  else
    let ioBuf : IoBuf := ⟨sectorSize⟩
    if ← firstBlock ptr then
      let hasUsed := inode.iSize.toNat / 512 + 1
      let willUse := (inode.iSize + count).toNat / 512 + 1
      require (willUse ≤ 140)
      match ← blocksToWrite ptr hasUsed willUse with
      | none => return none
      | some blocks =>
          modify fun s => { s with
            fileTable := Function.update s.fileTable globalFd
              { s.fileTable globalFd with fdPos := inode.iSize - 1 } }
          writeRounds globalFd ptr blocks buf.length true buf
          inodeSyncIn (← deref ptr) ioBuf
          return some buf.length
    else
      return none

/-- The part of `file_create` after the entry is in the parent directory, with its buffer. -/
def publishFileIn (parentDir ptr : Ptr) (inodeNo fdIdx : Nat) (ioBuf : IoBuf) :
    FsCall part (Option Nat) := do
  inodeSyncIn (← deref parentDir) ioBuf
  inodeSyncIn (← deref ptr) ioBuf
  bitmapSync inodeNo .inodeBitmap
  listPush ptr
  let inode ← deref ptr
  store ptr { inode with iOpenCnts := 1 }
  installFd fdIdx

/-- `file_create` with its buffer. -/
def fileCreateIn (parentDir : Ptr) (filename : List Byte) (flag : Byte) :
    FsCall part (Option Nat) := do
  let ioBuf : IoBuf := ⟨1024⟩
  let some inodeNo ← inodeBitmapAlloc | return none
  let s ← get
  let ptr ← mallocInode (!s.userProcess)
  store ptr (inodeInit (BitVec.ofNat 32 inodeNo))
  match s.freeSlot with
  | none =>
      freeInode ptr
      setInodeBit inodeNo false
      return none
  | some fdIdx =>
      setFile fdIdx { fdPos := 0, fdFlag := flag.setWidth 32, fdInode := some ptr }
      let newDirEntry ← createDirEntry filename (BitVec.ofNat 32 inodeNo) ftRegular .blank
      if ← syncDirEntry parentDir newDirEntry then
        publishFileIn parentDir ptr inodeNo fdIdx ioBuf
      else
        setFile fdIdx { fdPos := 0, fdFlag := 0, fdInode := none }
        freeInode ptr
        setInodeBit inodeNo false
        return none

/-- The part of `sys_mkdir` after an inode was allocated, with its buffer. -/
def makeDirIn (parentDir : Ptr) (dirname : List Byte) (inodeNo : Nat) (ioBuf : IoBuf) :
    FsCall part Bool := do
  let some blockLba ← blockBitmapAlloc | return false
  require (blockLba - BitVec.ofNat 32 part.sb.dataStartLba ≠ 0)
  syncBlock blockLba
  let parentInode ← deref parentDir
  writeBlock blockLba (dirBlock (BitVec.ofNat 32 inodeNo) parentInode.iNo)
  let newDirInode := { (inodeInit (BitVec.ofNat 32 inodeNo)).setSector 0 blockLba with
    iSize := 48 }
  let newDirEntry ← createDirEntry dirname (BitVec.ofNat 32 inodeNo) ftDirectory .blank
  if ← syncDirEntry parentDir newDirEntry then
    inodeSyncIn (← deref parentDir) ioBuf
    inodeSyncIn newDirInode ioBuf
    bitmapSync inodeNo .inodeBitmap
    return true
  else
    return false

/-- The part of `sys_mkdir` after the search found nothing in the last directory of the path, with
its buffer. -/
def makeFoundIn (record : PathSearchRecord) (ioBuf : IoBuf) : FsCall part Bool := do
  let dirname ← afterLastSlash record.searchedPath
  match ← inodeBitmapAlloc with
  | none =>
      dirClose record.parentDir
      return false
  | some inodeNo => do
      let s ← get
      if ← makeDirIn (s.dirInode record.parentDir) dirname inodeNo ioBuf then
        dirClose record.parentDir
        return true
      else
        setInodeBit inodeNo false
        dirClose record.parentDir
        return false

/-- `sys_mkdir` with its buffer. -/
def sysMkdirIn (junk : Word) (pathname : List Byte) : FsCall part Bool := do
  let ioBuf : IoBuf := ⟨sectorSize * 2⟩
  let (inodeNo, record) ← searchFile junk pathname
  if inodeNo ≠ notFound then
    dirClose record.parentDir
    return false
  else
    let pathnameDepth ← pathDepthCnt pathname
    let pathSearchedDepth ← pathDepthCnt record.searchedPath
    if pathnameDepth ≠ pathSearchedDepth then
      dirClose record.parentDir
      return false
    else
      makeFoundIn record ioBuf

/-- The end of `delete_dir_entry`, with its buffer. -/
def shrinkDirIn (dir : Ptr) (dirInode : Inode) (ioBuf : IoBuf) : FsCall part Unit := do
  require (24 ≤ dirInode.iSize.toNat)
  let dirInode := { dirInode with iSize := dirInode.iSize - 24 }
  store dir dirInode
  inodeSyncIn dirInode ioBuf

/-- The loop of `delete_dir_entry` over the blocks, with its buffer. -/
def deleteBlocksIn (dir : Ptr) (dirInode : Inode) (inodeNo : Word) (allBlocks : Nat → Word)
    (ioBuf : IoBuf) : List Nat → FsCall part Bool
  | [] => return false
  | blockIdx :: blockIdxs =>
      if allBlocks blockIdx = 0 then
        deleteBlocksIn dir dirInode inodeNo allBlocks ioBuf blockIdxs
      else do
        let s ← get
        let scan ← scanSector (ideRead s.disk (allBlocks blockIdx).toNat) inodeNo
        match scan.dirEntryFound with
        | none => deleteBlocksIn dir dirInode inodeNo allBlocks ioBuf blockIdxs
        | some dirEntryIdx =>
            require (1 ≤ scan.dirEntryCnt)
            if scan.dirEntryCnt = 1 ∧ scan.isDirFirstBlock = false then
              let dirInode ← recycleBlock dir dirInode blockIdx (allBlocks blockIdx)
              shrinkDirIn dir dirInode ioBuf
              return true
            else
              clearEntry (allBlocks blockIdx) dirEntryIdx
              shrinkDirIn dir dirInode ioBuf
              return true

/-- `delete_dir_entry` with the buffer of its caller. -/
def deleteDirEntryIn (dir : Ptr) (inodeNo : Word) (ioBuf : IoBuf) : FsCall part Bool := do
  let dirInode ← deref dir
  let s ← get
  deleteBlocksIn dir dirInode inodeNo (allBlocks s.disk dirInode) ioBuf (List.range 140)

/-- `inode_release` with its buffer. -/
def inodeReleaseIn (inodeNo : Word) : FsCall part Unit := do
  let ptr ← inodeOpen inodeNo
  let inodeToDel ← deref ptr
  require (inodeToDel.iNo = inodeNo)
  let s ← get
  let blocks := allBlocks s.disk inodeToDel
  if inodeToDel.sector 12 ≠ 0 then
    freeBlock (inodeToDel.sector 12)
  let blockCnt := if inodeToDel.sector 12 ≠ 0 then 140 else 12
  freeBlocks ((List.range blockCnt).map blocks)
  setInodeBit inodeNo.toNat false
  bitmapSync inodeNo.toNat .inodeBitmap
  let ioBuf : IoBuf := ⟨1024⟩
  inodeDeleteIn inodeNo ioBuf
  inodeClose ptr

/-- `sys_unlink` with the buffer for `delete_dir_entry`. -/
def sysUnlinkIn (junk : Word) (pathname : List Byte) : FsCall part Bool := do
  require (pathname.length < maxPathLen)
  let (inodeNo, record) ← searchFile junk pathname
  require (inodeNo ≠ 0)
  if inodeNo = notFound ∨ record.fileType = ftDirectory then
    dirClose record.parentDir
    return false
  else if ← inUse inodeNo (List.range maxFileOpen) then
    dirClose record.parentDir
    return false
  else
    let ioBuf : IoBuf := ⟨sectorSize + sectorSize⟩
    let s ← get
    let _ ← deleteDirEntryIn (s.dirInode record.parentDir) inodeNo ioBuf
    inodeReleaseIn inodeNo
    dirClose record.parentDir
    return true

/-- `dir_remove` with the buffer for `delete_dir_entry`. -/
def dirRemoveIn (parentDir childDir : Ptr) : FsCall part Unit := do
  let childDirInode ← deref childDir
  require childDirInode.OneBlock
  let ioBuf : IoBuf := ⟨sectorSize * 2⟩
  let _ ← deleteDirEntryIn parentDir childDirInode.iNo ioBuf
  inodeReleaseIn childDirInode.iNo

/-! ## Buffers of two sectors -/

section Wide

variable {ioBuf : IoBuf}

/-- A slot lies in two sectors at most. -/
theorem secCnt_le (pos : InodePosition) : pos.secCnt ≤ 2 := by
  unfold InodePosition.secCnt
  split
  · exact Nat.le_refl 2
  · exact Nat.le_succ 1

theorem transfer_wide (wide : 1024 ≤ ioBuf.size) (pos : InodePosition) :
    ioBuf.transfer pos.secCnt = .ok () := by
  have two := secCnt_le pos
  apply if_pos
  change 512 * pos.secCnt ≤ ioBuf.size
  omega

theorem inodeSyncIn_wide (inode : Inode) (wide : 1024 ≤ ioBuf.size) :
    (inodeSyncIn inode ioBuf : FsCall part Unit) = inodeSync inode := by
  unfold inodeSyncIn
  simp only [transfer_wide wide]
  rfl

theorem inodeDeleteIn_wide (inodeNo : Word) (wide : 1024 ≤ ioBuf.size) :
    (inodeDeleteIn inodeNo ioBuf : FsCall part Unit) = inodeDelete inodeNo := by
  unfold inodeDeleteIn
  simp only [transfer_wide wide]
  rfl

theorem fileCreateIn_eq (parentDir : Ptr) (filename : List Byte) (flag : Byte) :
    (fileCreateIn parentDir filename flag : FsCall part (Option Nat)) =
      fileCreate parentDir filename flag := by
  have wide : 1024 ≤ IoBuf.size ⟨1024⟩ := Nat.le_refl _
  unfold fileCreateIn publishFileIn
  simp only [inodeSyncIn_wide _ wide]
  rfl

theorem makeFoundIn_wide (record : PathSearchRecord) (wide : 1024 ≤ ioBuf.size) :
    (makeFoundIn record ioBuf : FsCall part Bool) = makeFound record := by
  unfold makeFoundIn makeDirIn
  simp only [inodeSyncIn_wide _ wide]
  rfl

theorem sysMkdirIn_eq (junk : Word) (pathname : List Byte) :
    (sysMkdirIn junk pathname : FsCall part Bool) = sysMkdir junk pathname := by
  have wide : 1024 ≤ IoBuf.size ⟨sectorSize * 2⟩ := Nat.le_refl _
  unfold sysMkdirIn sysMkdir
  simp only [makeFoundIn_wide _ wide]

theorem deleteBlocksIn_wide (dir : Ptr) (dirInode : Inode) (inodeNo : Word)
    (allBlocks : Nat → Word) (wide : 1024 ≤ ioBuf.size) (blockIdxs : List Nat) :
    (deleteBlocksIn dir dirInode inodeNo allBlocks ioBuf blockIdxs : FsCall part Bool) =
      deleteBlocks dir dirInode inodeNo allBlocks blockIdxs := by
  induction blockIdxs with
  | nil => rfl
  | cons blockIdx blockIdxs ih =>
      unfold deleteBlocksIn shrinkDirIn
      simp only [ih, inodeSyncIn_wide _ wide]
      rfl

/-- `delete_dir_entry` in a buffer of two sectors. -/
theorem deleteDirEntryIn_wide (dir : Ptr) (inodeNo : Word) (wide : 1024 ≤ ioBuf.size) :
    (deleteDirEntryIn dir inodeNo ioBuf : FsCall part Bool) = deleteDirEntry dir inodeNo := by
  unfold deleteDirEntryIn deleteDirEntry
  simp only [deleteBlocksIn_wide _ _ _ _ wide]

theorem inodeReleaseIn_eq (inodeNo : Word) :
    (inodeReleaseIn inodeNo : FsCall part Unit) = inodeRelease inodeNo := by
  have wide : 1024 ≤ IoBuf.size ⟨1024⟩ := Nat.le_refl _
  unfold inodeReleaseIn inodeRelease
  simp only [inodeDeleteIn_wide _ wide]

theorem sysUnlinkIn_eq (junk : Word) (pathname : List Byte) :
    (sysUnlinkIn junk pathname : FsCall part Bool) = sysUnlink junk pathname := by
  have wide : 1024 ≤ IoBuf.size ⟨sectorSize + sectorSize⟩ := Nat.le_refl _
  unfold sysUnlinkIn sysUnlink
  simp only [deleteDirEntryIn_wide _ _ wide, inodeReleaseIn_eq]

theorem dirRemoveIn_eq (parentDir childDir : Ptr) :
    (dirRemoveIn parentDir childDir : FsCall part Unit) = dirRemove parentDir childDir := by
  have wide : 1024 ≤ IoBuf.size ⟨sectorSize * 2⟩ := Nat.le_refl _
  unfold dirRemoveIn dirRemove
  simp only [deleteDirEntryIn_wide _ _ wide, inodeReleaseIn_eq]

end Wide

/-! ## The buffer of `file_write` -/

section Write

variable {s s' : FsState part} {ptr : Ptr} {inode : Inode} {globalFd : Nat} {buf : List Byte}
  {n : Nat}

/-- The slot of an inode lies in two sectors. -/
def Straddles (inodeNo : Nat) : Prop :=
  512 - inodeNo * inodeSize % 512 < inodeSize

instance (inodeNo : Nat) : Decidable (Straddles inodeNo) :=
  inferInstanceAs (Decidable (_ < _))

theorem inodeLocate_twoSec {pos : InodePosition} (found : inodeLocate part n = .ok pos) :
    pos.twoSec = true ↔ Straddles n := by
  obtain ⟨_, -, found⟩ := except_bind_eq_ok.mp found
  rw [except_pure_eq] at found
  cases found
  exact decide_eq_true_iff

/-- A buffer of one sector has room for a slot that lies in one sector only. -/
theorem transfer_one {pos : InodePosition} (found : inodeLocate part n = .ok pos) :
    IoBuf.transfer ⟨sectorSize⟩ pos.secCnt =
      if Straddles n then .error .outOfBounds else .ok () := by
  unfold IoBuf.transfer InodePosition.secCnt
  by_cases two : Straddles n
  · rw [if_pos two, if_pos ((inodeLocate_twoSec found).mpr two)]
    rfl
  · rw [if_neg two, if_neg fun is => two ((inodeLocate_twoSec found).mp is)]
    rfl

/-- `inode_sync` in a buffer of one sector. -/
theorem inodeSyncIn_one : (inodeSyncIn inode ⟨sectorSize⟩).run s =
    if Straddles (inode.iNo.toNat % 2 ^ 8) then .error .outOfBounds
    else (inodeSync inode).run s := by
  obtain ⟨pos, found, -, -, lies⟩ :=
    inodeLocate_of part (show inode.iNo.toNat % 2 ^ 8 < 4096 by omega)
  rw [inodeSyncIn, inodeSync, call_bind_of (call_lift_returns.mpr ⟨found, rfl⟩),
    call_bind_of (call_lift_returns.mpr ⟨require_of lies, rfl⟩),
    call_bind_of (call_lift_returns.mpr ⟨found, rfl⟩),
    call_bind_of (call_lift_returns.mpr ⟨require_of lies, rfl⟩), transfer_one found]
  by_cases two : Straddles (inode.iNo.toNat % 2 ^ 8)
  · rw [if_pos two, if_pos two]
    rfl
  · rw [if_neg two, if_neg two]
    rfl

/-- An inode in memory has a number. -/
def Numbered (ptr : Ptr) (number : Word) (s : FsState part) : Prop :=
  (s.inodes ptr).map Inode.iNo = some number

variable {number : Word} {α β : Type} {Q : α → Prop} {R : β → Prop}

/-- A call that leaves the number of an inode alone; the values that it returns satisfy `Q`. -/
abbrev KeepsNumber (ptr : Ptr) (number : Word) (call : FsCall part α) (Q : α → Prop) : Prop :=
  Triple (Numbered ptr number) call fun a s => Numbered ptr number s ∧ Q a

theorem KeepsNumber.bind {first : FsCall part β} {second : β → FsCall part α}
    (one : KeepsNumber ptr number first R)
    (two : ∀ b, R b → KeepsNumber ptr number (second b) Q) :
    KeepsNumber ptr number (first >>= second) Q :=
  Triple.bind one fun b s a s' both ran => two b both.2 s a s' both.1 ran

theorem KeepsNumber.pure {a : α} (holds : Q a) :
    KeepsNumber ptr number (Pure.pure a : FsCall part α) Q :=
  Triple.pure fun _ numbered => ⟨numbered, holds⟩

/-- A call on the disk and the bitmaps. -/
theorem KeepsNumber.of_onDisk {call : FsCall part α} (onDisk : OnDisk call) :
    KeepsNumber ptr number call fun _ => True := by
  intro s a s' numbered ran
  refine ⟨?_, trivial⟩
  rw [Numbered, (onDisk s a s' ran).inodes]
  exact numbered

theorem KeepsNumber.deref : KeepsNumber ptr number (UKernel.Fs.deref ptr : FsCall part Inode)
    fun inode => inode.iNo = number := by
  intro s inode s' numbered ran
  obtain ⟨live, rfl⟩ := deref_returns.mp ran
  refine ⟨numbered, ?_⟩
  rw [Numbered, live] at numbered
  exact Option.some.inj numbered

/-- An object of the same number is stored. -/
theorem KeepsNumber.store (same : inode.iNo = number) :
    KeepsNumber ptr number (UKernel.Fs.store ptr inode : FsCall part Unit) fun _ => True := by
  intro s done s' numbered ran
  cases store_returns.mp ran
  refine ⟨?_, trivial⟩
  rw [Numbered]
  dsimp only
  rw [Function.update_self, Option.map_some, same]

/-! ### The steps of `file_write` keep the number -/

theorem KeepsNumber.require {condition : Prop} [Decidable condition] :
    KeepsNumber ptr number (liftM (UKernel.Library.require condition) : FsCall part Unit)
      fun _ => True := by
  intro s done s' numbered ran
  obtain ⟨-, rfl⟩ := call_lift_returns.mp ran
  exact ⟨numbered, trivial⟩

theorem KeepsNumber.get :
    KeepsNumber ptr number (MonadState.get : FsCall part (FsState part)) fun _ => True := by
  intro s s₀ s' numbered ran
  exact ⟨Triple.get_keeps s s₀ s' numbered ran, trivial⟩

theorem firstBlock_numbered :
    KeepsNumber ptr number (firstBlock ptr : FsCall part Bool) fun _ => True := by
  refine .bind .deref fun inode same => ?_
  split
  · refine .bind (.of_onDisk blockBitmapAlloc_onDisk) fun block _ => ?_
    split
    · exact .pure trivial
    · exact .bind (.store same) fun _ _ => .bind .require fun _ _ =>
        .bind (.of_onDisk (syncBlock_onDisk _)) fun _ _ => .pure trivial
  · exact .pure trivial

theorem enterDirect_numbered (blockIdx : Nat) (blockLba : Word) :
    KeepsNumber ptr number (enterDirect ptr blockIdx blockLba : FsCall part Unit) fun _ =>
      True := by
  unfold enterDirect
  split
  · exact .bind .deref fun inode same => .bind .require fun _ _ => .store same
  · exact .pure trivial

theorem growBlocks_numbered (left first : Nat) (blocks : Nat → Word) :
    KeepsNumber ptr number (growBlocks ptr left first blocks : FsCall part _) fun _ => True := by
  induction left generalizing first blocks with
  | zero => exact .pure trivial
  | succ left ih =>
      rw [growBlocks]
      refine .bind (.of_onDisk blockBitmapAlloc_onDisk) fun block _ => ?_
      split
      · exact .pure trivial
      · exact .bind (enterDirect_numbered _ _) fun _ _ =>
          .bind (.of_onDisk (syncBlock_onDisk _)) fun _ _ => ih _ _

theorem blocksToWrite_numbered (hasUsed willUse : Nat) :
    KeepsNumber ptr number (blocksToWrite ptr hasUsed willUse : FsCall part _) fun _ => True := by
  refine .bind .deref fun inode same => .bind .get fun s _ => ?_
  split
  · split
    · exact .pure trivial
    · exact .bind .require fun _ _ => .pure trivial
  · split
    · exact .bind .require fun _ _ => growBlocks_numbered _ _ _
    · split
      · refine .bind (.of_onDisk blockBitmapAlloc_onDisk) fun block _ => ?_
        split
        · exact .pure trivial
        · refine .bind .require fun _ _ => .bind (.store same) fun _ _ =>
            .bind (growBlocks_numbered _ _ _) fun found _ => ?_
          split
          · exact .pure trivial
          · exact .bind (.of_onDisk (writeBlock_onDisk _ _)) fun _ _ => .pure trivial
      · refine .bind .require fun _ _ => .bind (growBlocks_numbered _ _ _) fun found _ => ?_
        split
        · exact .pure trivial
        · exact .bind (.of_onDisk (writeBlock_onDisk _ _)) fun _ _ => .pure trivial

/-- A change of the file table. -/
theorem Numbered.files {f : FsState part → FsState part} {done : Unit}
    (ran : (modify f : FsCall part Unit).run s = .ok (done, s')) (numbered : Numbered ptr number s)
    (same : ∀ s, (f s).inodes = s.inodes) : Numbered ptr number s' := by
  cases call_modify_returns.mp ran
  rw [Numbered, same]
  exact numbered

theorem writeRounds_numbered (globalFd left : Nat) (blocks : Nat → Word) (first : Bool)
    (src : List Byte) :
    KeepsNumber ptr number (writeRounds globalFd ptr blocks left first src : FsCall part Unit)
      fun _ => True := by
  induction left generalizing first src with
  | zero => exact .pure trivial
  | succ left ih =>
      rw [writeRounds]
      split
      · exact .pure trivial
      · refine .bind .deref fun inode same => .bind .get fun s _ => ?_
        have lift : ∀ result : Except Fault Word,
            KeepsNumber ptr number (liftM result : FsCall part Word) fun _ => True := by
          intro result s block s' numbered ran
          obtain ⟨-, rfl⟩ := call_lift_returns.mp ran
          exact ⟨numbered, trivial⟩
        have moves : ∀ bytes, KeepsNumber ptr number (advance globalFd bytes : FsCall part Unit)
            fun _ => True :=
          fun bytes s done s' numbered ran => ⟨numbered.files ran fun _ => rfl, trivial⟩
        exact .bind (lift _) fun _ _ => .bind (.of_onDisk (writeBlock_onDisk _ _)) fun _ _ =>
          .bind (.store same) fun _ _ => .bind (moves _) fun _ _ => ih _ _

/-- The end of `file_write`, from where it comes to `inode_sync` with an inode. -/
def finishWrite (sync : Inode → FsCall part Unit) (obj : Inode) (bytes : Nat) :
    FsCall part (Option Nat) := do
  sync obj
  return some bytes

/-- Two runs of `file_write`, in its buffer and in one that is large enough: both stop before they
come to `inode_sync`, in the same way, or both come to it with an inode of the number. -/
def WriteEnds (number : Word) (bytes : Nat) (run run' : Except Fault (Option Nat × FsState part)) :
    Prop :=
  (run = run' ∧ ∀ k s', run ≠ .ok (some k, s')) ∨ ∃ obj s', obj.iNo = number ∧
    run = (finishWrite (inodeSyncIn · ⟨sectorSize⟩) obj bytes).run s' ∧
    run' = (finishWrite inodeSync obj bytes).run s'

theorem WriteEnds.bind {bytes : Nat} {first : FsCall part α}
    {second second' : α → FsCall part (Option Nat)}
    (rest : ∀ a s', first.run s = .ok (a, s') →
      WriteEnds number bytes ((second a).run s') ((second' a).run s')) :
    WriteEnds number bytes ((first >>= second).run s) ((first >>= second').run s) := by
  rw [StateT.run_bind, StateT.run_bind]
  cases ran : first.run s with
  | error fault => exact .inl ⟨rfl, fun k s' is => nomatch is⟩
  | ok result => exact rest result.1 result.2 ran

/-- A call of `file_write` that returns -1. -/
theorem WriteEnds.fails {bytes : Nat} : WriteEnds number bytes
    ((pure none : FsCall part (Option Nat)).run s) ((pure none : FsCall part (Option Nat)).run s) :=
  .inl ⟨rfl, fun _ _ is => nomatch (call_pure_returns.mp is).1⟩

theorem fileWriteIn_ends (buf : List Byte) (file : (s.fileTable globalFd).fdInode = some ptr)
    (live : s.inodes ptr = some inode) :
    WriteEnds inode.iNo buf.length ((fileWriteIn globalFd buf).run s)
      ((fileWrite globalFd buf).run s) := by
  have numbered : Numbered ptr inode.iNo s := by
    rw [Numbered, live]
    rfl
  rw [fileWriteIn, fileWrite, call_bind_of (fdInodeOf_run file), call_bind_of (fdInodeOf_run file),
    call_bind_of (deref_returns.mpr ⟨live, rfl⟩), call_bind_of (deref_returns.mpr ⟨live, rfl⟩)]
  dsimp only
  split
  · exact .fails
  · refine .bind fun done s₁ firsts => ?_
    obtain ⟨numbered₁, -⟩ := firstBlock_numbered s done s₁ numbered firsts
    split
    · refine .bind fun _ s₂ lifted => ?_
      obtain ⟨-, rfl⟩ := call_lift_returns.mp lifted
      refine .bind fun found s₃ collects => ?_
      obtain ⟨numbered₃, -⟩ := blocksToWrite_numbered _ _ s₁ found s₃ numbered₁ collects
      cases found with
      | none => exact .fails
      | some blocks =>
          refine .bind fun _ s₄ moves => .bind fun _ s₅ writes => .bind fun obj s₆ loads => ?_
          obtain ⟨numbered₅, -⟩ := writeRounds_numbered _ _ _ _ _ _ _ s₅
            (numbered₃.files moves fun _ => rfl) writes
          obtain ⟨-, same⟩ := KeepsNumber.deref s₅ obj s₆ numbered₅ loads
          exact .inr ⟨obj, s₆, same, rfl, rfl⟩
    · exact .fails

/-- `file_write` returns a count exactly if it does so in a buffer that is large enough, and the
slot that `inode_sync` computes lies in one sector. -/
theorem fileWriteIn_returns_iff (file : (s.fileTable globalFd).fdInode = some ptr)
    (live : s.inodes ptr = some inode) {k : Nat} :
    (fileWriteIn globalFd buf).run s = .ok (some k, s') ↔
      ¬ Straddles (inode.iNo.toNat % 2 ^ 8) ∧
        (fileWrite globalFd buf).run s = .ok (some k, s') := by
  rcases fileWriteIn_ends buf file live with ⟨same, fails⟩ | ⟨obj, s'', number, ran, ran'⟩
  · rw [← same]
    exact iff_of_false (fails k s') fun both => fails k s' both.2
  · rw [ran, ran', ← number, finishWrite, finishWrite, StateT.run_bind, StateT.run_bind,
      inodeSyncIn_one]
    by_cases two : Straddles (obj.iNo.toNat % 2 ^ 8)
    · rw [if_pos two]
      exact iff_of_false (fun is => nomatch is) fun both => both.1 two
    · rw [if_neg two]
      exact (and_iff_right two).symm

/-- `file_write` in its buffer does what it does in one that is large enough, if and only if the
slot that `inode_sync` computes lies in one sector, or the call does not return a count. -/
theorem fileWriteIn_eq_iff (file : (s.fileTable globalFd).fdInode = some ptr)
    (live : s.inodes ptr = some inode) :
    (fileWriteIn globalFd buf).run s = (fileWrite globalFd buf).run s ↔
      ¬ Straddles (inode.iNo.toNat % 2 ^ 8) ∨
        ∀ k s', (fileWrite globalFd buf).run s ≠ .ok (some k, s') := by
  rcases fileWriteIn_ends buf file live with ⟨same, fails⟩ | ⟨obj, s', number, ran, ran'⟩
  · exact iff_of_true same (.inr (same ▸ fails))
  · have synced : ∃ s'', (finishWrite inodeSync obj buf.length).run s' =
        .ok (some buf.length, s'') := by
      rw [finishWrite, call_bind_of inodeSync_run]
      exact ⟨_, rfl⟩
    obtain ⟨s'', synced⟩ := synced
    rw [ran, ran', ← number]
    by_cases two : Straddles (obj.iNo.toNat % 2 ^ 8)
    · have leaves : (finishWrite (inodeSyncIn · ⟨sectorSize⟩) obj buf.length).run s' =
          .error .outOfBounds := by
        rw [finishWrite, call_bind_error]
        apply Or.inl
        rw [inodeSyncIn_one, if_pos two]
      rw [leaves, synced]
      refine iff_of_false (fun is => nomatch is) fun either => ?_
      rcases either with one | never
      · exact one two
      · exact never _ _ rfl
    · refine iff_of_true ?_ (.inl two)
      rw [finishWrite, finishWrite, StateT.run_bind, StateT.run_bind, inodeSyncIn_one, if_neg two]

end Write

/-! ## Whether the buffers hold the slots -/

/-- The buffers of all callers hold the sectors of an inode: each call does what it does in a buffer
that is large enough. The calls that `inode_sync` is reached from for other inodes too are compared
as a whole. -/
structure BuffersHold (part : Partition) (n : Nat) : Prop where
  fileWrite : ∀ (s : FsState part) globalFd buf ptr inode,
    (s.fileTable globalFd).fdInode = some ptr → s.inodes ptr = some inode → inode.iNo.toNat = n →
      (fileWriteIn globalFd buf).run s = (fileWrite globalFd buf).run s
  fileCreate : ∀ parentDir filename flag,
    (fileCreateIn parentDir filename flag : FsCall part _) = fileCreate parentDir filename flag
  sysMkdir : ∀ junk pathname, (sysMkdirIn junk pathname : FsCall part _) = sysMkdir junk pathname
  sysUnlink : ∀ junk pathname,
    (sysUnlinkIn junk pathname : FsCall part _) = sysUnlink junk pathname
  dirRemove : ∀ parentDir childDir,
    (dirRemoveIn parentDir childDir : FsCall part _) = dirRemove parentDir childDir
  inodeRelease : ∀ inodeNo, (inodeReleaseIn inodeNo : FsCall part _) = inodeRelease inodeNo

/-- The inode of a file with one block. -/
def fileInode (part : Partition) (n : Nat) : Inode :=
  (inodeInit (BitVec.ofNat 32 n)).setSector 0 (blockOfBit part 0)

/-- A state in which this file is open. -/
def openFileState (part : Partition) (n : Nat) : FsState part where
  disk := Memory.zeros
  blockBitmap := ⟨Memory.zeros⟩
  inodeBitmap := ⟨Memory.zeros⟩
  inodes := Function.update (fun _ => none) (.kernel 0) (some (fileInode part n))
  nextAddr := 1
  openInodes := [.kernel 0]
  rootDir := .kernel 0
  fileTable := Function.update (fun _ => ⟨0, 0, none⟩) 0 ⟨0, 2, some (.kernel 0)⟩
  fdTable _ := none
  userProcess := false

theorem openFile_live (part : Partition) (n : Nat) :
    (openFileState part n).inodes (.kernel 0) = some (fileInode part n) := by
  simp only [openFileState]
  exact Function.update_self ..

theorem fileInode_block (part : Partition) (n : Nat) : (fileInode part n).sector 0 ≠ 0 := by
  obtain ⟨-, -, -, table⟩ := part.layout
  have few := part.blocks_small
  rw [fileInode, Inode.sector_setSector (by decide), if_pos rfl]
  intro zero
  have number := congrArg BitVec.toNat zero
  change (part.sb.dataStartLba + 0) % 2 ^ 32 = 0 at number
  omega

theorem lastSync_returns {s : FsState part} {ptr : Ptr} {inode : Inode} {k : Nat}
    (live : s.inodes ptr = some inode) : ∃ s', (do
      inodeSync (← deref ptr)
      return some k : FsCall part (Option Nat)).run s = .ok (some k, s') := by
  rw [call_bind_of (deref_returns.mpr ⟨live, rfl⟩), call_bind_of inodeSync_run]
  exact ⟨_, rfl⟩

/-- `file_write` comes to `inode_sync` for every number: writing no byte returns. -/
theorem openFile_writes (part : Partition) (n : Nat) :
    ∃ s', (fileWrite 0 []).run (openFileState part n) = .ok (some 0, s') := by
  have live := openFile_live part n
  have file : ((openFileState part n).fileTable 0).fdInode = some (.kernel 0) := rfl
  have first : (firstBlock (.kernel 0)).run (openFileState part n) =
      .ok (true, openFileState part n) := by
    rw [firstBlock, call_bind_of (deref_returns.mpr ⟨live, rfl⟩), if_neg (fileInode_block part n)]
    rfl
  have collects : ∃ blocks, (blocksToWrite (.kernel 0) ((0 : Word).toNat / 512 + 1)
      ((0 : Word).toNat / 512 + 1)).run (openFileState part n) =
        .ok (some blocks, openFileState part n) := by
    rw [blocksToWrite, call_bind_of (deref_returns.mpr ⟨live, rfl⟩),
      call_bind_of (call_get_returns.mpr ⟨rfl, rfl⟩)]
    exact ⟨_, rfl⟩
  obtain ⟨blocks, collected⟩ := collects
  have empty : (fileInode part n).iSize = 0 := rfl
  rw [fileWrite, call_bind_of (fdInodeOf_run file), call_bind_of (deref_returns.mpr ⟨live, rfl⟩)]
  dsimp only [List.length_nil]
  rw [empty, if_neg (by decide), call_bind_of first, if_pos rfl,
    call_bind_of (call_lift_returns.mpr ⟨require_of (by decide), rfl⟩)]
  change ∃ s', (blocksToWrite (.kernel 0) ((0 : Word).toNat / 512 + 1)
    ((0 : Word).toNat / 512 + 1) >>= _).run (openFileState part n) = _
  rw [call_bind_of collected]
  dsimp only
  rw [call_bind_of (call_modify_returns.mpr rfl), writeRounds,
    call_bind_of (call_pure_returns.mpr ⟨rfl, rfl⟩)]
  exact lastSync_returns live

/-- **Buffers.** For every inode number the buffers of all callers of `inode_sync` and
`inode_delete` hold its sectors, if and only if the slot of the number modulo 256 lies in one
sector. -/
theorem io_buf_holds_iff {n : Nat} (small : n < 4096) :
    BuffersHold part n ↔ ¬ Straddles (n % 2 ^ 8) := by
  constructor
  · intro holds two
    have number : (fileInode part n).iNo.toNat = n := by
      change (BitVec.ofNat 32 n).toNat = n
      rw [BitVec.toNat_ofNat]
      omega
    have same := holds.fileWrite (openFileState part n) 0 [] (.kernel 0) (fileInode part n) rfl
      (openFile_live part n) number
    rw [fileWriteIn_eq_iff rfl (openFile_live part n), number] at same
    obtain ⟨s', wrote⟩ := openFile_writes part n
    rcases same with one | never
    · exact one two
    · exact never 0 s' wrote
  · intro one
    refine ⟨fun s globalFd buf ptr inode file live number => ?_, fileCreateIn_eq, sysMkdirIn_eq,
      sysUnlinkIn_eq, dirRemoveIn_eq, inodeReleaseIn_eq⟩
    rw [fileWriteIn_eq_iff file live, number]
    exact .inl one

/-- The slot of inode 7 lies in one sector. -/
theorem io_buf_holds_seven : BuffersHold somePartition 7 :=
  (io_buf_holds_iff (by decide)).mpr (by decide)

/-- A byte is written to a file with the number 6: its slot lies in two sectors, and `inode_sync`
moves 1024 bytes through the 512 bytes that `file_write` allocated. -/
theorem io_buf_six_overflows : ¬ BuffersHold somePartition 6 := by
  intro holds
  have same := holds.fileWrite (openFileState somePartition 6) 0 [97] (.kernel 0)
    (fileInode somePartition 6) rfl (openFile_live somePartition 6) (by decide)
  have leaves : faultOf (fileWriteIn 0 [97]) (openFileState somePartition 6) =
      some .outOfBounds := by decide +kernel
  have returns : valueOf (fileWrite 0 [97]) (openFileState somePartition 6) = some (some 1) := by
    decide +kernel
  obtain ⟨s', ran⟩ := exists_of_valueOf returns
  rw [faultOf_eq_some.mp leaves, ran] at same
  cases same

end UKernel.Fs
