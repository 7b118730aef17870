import UKernel.Fs.Tasks

/-! # What calls leave alone

Two frames, the second wider than the first: calls that change the disk and the bitmaps at most
(`UKernel.Fs.SameMemory`), and calls that change inode objects but none of their open counts
(`UKernel.Fs.SameCounts`).
-/

namespace UKernel.Fs

open UKernel.Library

variable {part : Partition} {α β : Type}

/-! ## The disk -/

/-- A call changed the disk and the bitmaps at most. -/
structure SameMemory (s s' : FsState part) : Prop where
  inodes : s'.inodes = s.inodes
  nextAddr : s'.nextAddr = s.nextAddr
  openInodes : s'.openInodes = s.openInodes
  rootDir : s'.rootDir = s.rootDir
  fileTable : s'.fileTable = s.fileTable
  fdTable : s'.fdTable = s.fdTable
  userProcess : s'.userProcess = s.userProcess

/-- A call that changes nothing keeps what is in memory. -/
theorem SameMemory.refl (s : FsState part) : SameMemory s s :=
  ⟨rfl, rfl, rfl, rfl, rfl, rfl, rfl⟩

instance : Std.Refl (@SameMemory part) := ⟨SameMemory.refl⟩

instance : IsTrans (FsState part) SameMemory := ⟨fun _ _ _ first second =>
  ⟨second.inodes.trans first.inodes, second.nextAddr.trans first.nextAddr,
    second.openInodes.trans first.openInodes, second.rootDir.trans first.rootDir,
    second.fileTable.trans first.fileTable, second.fdTable.trans first.fdTable,
    second.userProcess.trans first.userProcess⟩⟩

/-- A call that changes the disk and the bitmaps at most. -/
abbrev OnDisk (call : FsCall part α) : Prop := Keeps SameMemory call

/-- Two calls, one after the other, that change the disk and the bitmaps only. -/
theorem OnDisk.bind {first : FsCall part α} {second : α → FsCall part β}
    (one : OnDisk first) (two : ∀ a, OnDisk (second a)) : OnDisk (first >>= second) :=
  Keeps.bind one two

/-- Returning changes nothing. -/
theorem OnDisk.pure (a : α) : OnDisk (Pure.pure a : FsCall part α) := Keeps.pure a

/-- Reading the state changes nothing. -/
theorem OnDisk.get : OnDisk (get : FsCall part (FsState part)) := Keeps.get

/-- A check changes nothing. -/
theorem OnDisk.lift (result : Except Fault α) : OnDisk (liftM result : FsCall part α) :=
  Keeps.lift result

/-- A call that stops the machine leaves nothing behind. -/
theorem OnDisk.throw (fault : Fault) : OnDisk (throw fault : FsCall part α) := Keeps.throw fault

attribute [grind ←] OnDisk.bind OnDisk.pure OnDisk.get OnDisk.lift OnDisk.throw

section

variable (bitIdx blockIdx k : Nat) (value : Bool) (block inodeNo : Word) (buf : Memory)
  (inode : Inode)

/-- An inode is read through its pointer. -/
theorem deref_onDisk (ptr : Ptr) : OnDisk (deref ptr : FsCall part Inode) := by
  intro s a s' ran
  obtain ⟨-, rfl⟩ := deref_returns.mp ran
  exact SameMemory.refl s

/-- `bitmap_sync` writes a sector of the disk. -/
theorem bitmapSync_onDisk (type : BitmapType) :
    OnDisk (bitmapSync bitIdx type : FsCall part Unit) := by
  cases type with
  | inodeBitmap => exact Keeps.modify fun _ => ⟨rfl, rfl, rfl, rfl, rfl, rfl, rfl⟩
  | blockBitmap => exact Keeps.modify fun _ => ⟨rfl, rfl, rfl, rfl, rfl, rfl, rfl⟩

/-- A bit of the block bitmap is set in memory, where no inode is. -/
theorem setBlockBit_onDisk : OnDisk (setBlockBit bitIdx value : FsCall part Unit) := by
  unfold setBlockBit
  split
  · exact Keeps.modify fun _ => ⟨rfl, rfl, rfl, rfl, rfl, rfl, rfl⟩
  · exact .throw _

/-- A bit of the inode bitmap is set in memory, where no inode is. -/
theorem setInodeBit_onDisk : OnDisk (setInodeBit bitIdx value : FsCall part Unit) := by
  unfold setInodeBit
  split
  · exact Keeps.modify fun _ => ⟨rfl, rfl, rfl, rfl, rfl, rfl, rfl⟩
  · exact .throw _

/-- A block is written to the disk. -/
theorem writeBlock_onDisk : OnDisk (writeBlock block buf : FsCall part Unit) :=
  Keeps.modify fun _ => ⟨rfl, rfl, rfl, rfl, rfl, rfl, rfl⟩

/-- `inode_sync` writes the slot of the inode, and not the inode. -/
theorem inodeSync_onDisk : OnDisk (inodeSync inode : FsCall part Unit) := by
  intro s a s' ran
  rw [inodeSync_run] at ran
  cases ran
  exact ⟨rfl, rfl, rfl, rfl, rfl, rfl, rfl⟩

/-- `inode_delete` clears a slot. -/
theorem inodeDelete_onDisk : OnDisk (inodeDelete inodeNo : FsCall part Unit) := by
  intro s a s' ran
  obtain ⟨-, rfl⟩ := inodeDelete_returns.mp ran
  exact ⟨rfl, rfl, rfl, rfl, rfl, rfl, rfl⟩

attribute [grind ←] deref_onDisk bitmapSync_onDisk setBlockBit_onDisk setInodeBit_onDisk
  writeBlock_onDisk
  inodeSync_onDisk inodeDelete_onDisk

/-- A slot is taken in the bitmap. -/
theorem inodeBitmapAlloc_onDisk : OnDisk (inodeBitmapAlloc : FsCall part (Option Nat)) := by
  grind [inodeBitmapAlloc]

/-- A block is taken in the bitmap. -/
theorem blockBitmapAlloc_onDisk : OnDisk (blockBitmapAlloc : FsCall part (Option Word)) := by
  grind [blockBitmapAlloc]

attribute [grind ←] inodeBitmapAlloc_onDisk blockBitmapAlloc_onDisk

/-- A block is given back in the bitmap. -/
theorem freeBlock_onDisk : OnDisk (freeBlock block : FsCall part Unit) := by
  grind [freeBlock]

/-- The sector of the bitmap with the bit of a block is written. -/
theorem syncBlock_onDisk : OnDisk (syncBlock block : FsCall part Unit) := by
  grind [syncBlock]

attribute [grind ←] freeBlock_onDisk syncBlock_onDisk

/-- A block for a directory is taken, and its sector of the bitmap written. -/
theorem newDirBlock_onDisk : OnDisk (newDirBlock : FsCall part (Option Word)) := by
  grind [newDirBlock]

/-- Blocks are given back one by one. -/
theorem freeBlocks_onDisk (blocks : List Word) : OnDisk (freeBlocks blocks : FsCall part Unit) := by
  induction blocks with
  | nil => exact .pure ()
  | cons block blocks ih => grind [freeBlocks]

/-- An entry is cleared in its block. -/
theorem clearEntry_onDisk : OnDisk (clearEntry block k : FsCall part Unit) := by
  grind [clearEntry]

/-- Whether an inode is in use is read from the table of open files. -/
theorem inUse_onDisk (fileIdxs : List Nat) :
    OnDisk (inUse inodeNo fileIdxs : FsCall part Bool) := by
  induction fileIdxs with
  | nil => exact .pure false
  | cons fileIdx fileIdxs ih => grind [inUse]

end

/-! ## Open counts -/

/-- A call changed no open count, and what `SameMemory` allows. -/
structure SameCounts (s s' : FsState part) : Prop where
  counts : ∀ ptr, (s'.inodes ptr).map Inode.iOpenCnts = (s.inodes ptr).map Inode.iOpenCnts
  nextAddr : s'.nextAddr = s.nextAddr
  openInodes : s'.openInodes = s.openInodes
  rootDir : s'.rootDir = s.rootDir
  fileTable : s'.fileTable = s.fileTable
  fdTable : s'.fdTable = s.fdTable
  userProcess : s'.userProcess = s.userProcess

/-- A call that changes nothing keeps the counts. -/
theorem SameCounts.refl (s : FsState part) : SameCounts s s :=
  ⟨fun _ => rfl, rfl, rfl, rfl, rfl, rfl, rfl⟩

/-- Two calls that keep the counts, one after the other. -/
theorem SameCounts.trans {s s' s'' : FsState part} (first : SameCounts s s')
    (second : SameCounts s' s'') : SameCounts s s'' :=
  ⟨fun ptr => (second.counts ptr).trans (first.counts ptr),
    second.nextAddr.trans first.nextAddr, second.openInodes.trans first.openInodes,
    second.rootDir.trans first.rootDir, second.fileTable.trans first.fileTable,
    second.fdTable.trans first.fdTable, second.userProcess.trans first.userProcess⟩

instance : Std.Refl (@SameCounts part) := ⟨SameCounts.refl⟩

instance : IsTrans (FsState part) SameCounts := ⟨fun _ _ _ => SameCounts.trans⟩

/-- The counts are in memory. -/
theorem SameMemory.sameCounts {s s' : FsState part} (same : SameMemory s s') : SameCounts s s' :=
  ⟨fun ptr => by rw [same.inodes], same.nextAddr, same.openInodes, same.rootDir, same.fileTable,
    same.fdTable, same.userProcess⟩

/-- A call that changes no open count, if the inode at an address has the given one. -/
def Counting (ptr : Ptr) (cnts : Nat) (call : FsCall part α) : Prop :=
  Keeps (fun s s' => (s.inodes ptr).map Inode.iOpenCnts = some cnts → SameCounts s s') call

/-- A call that changes no open count. -/
abbrev Quiet (call : FsCall part α) : Prop := Keeps SameCounts call

section

variable {ptr : Ptr} {cnts : Nat}

/-- The rule for a sequence whose first call returns a value of a known kind. -/
theorem Counting.bind_of {first : FsCall part α} {second : α → FsCall part β} {V : α → Prop}
    (one : Counting ptr cnts first) (returns : ∀ s a s', first.run s = .ok (a, s') → V a)
    (two : ∀ a, V a → Counting ptr cnts (second a)) :
    Counting ptr cnts (first >>= second) := by
  intro s b s'' ran count
  obtain ⟨a, s', ranFirst, ranSecond⟩ := call_bind_returns.mp ran
  have same := one s a s' ranFirst count
  exact same.trans
    (two a (returns s a s' ranFirst) s' b s'' ranSecond ((same.counts ptr).trans count))

/-- Two calls, one after the other, that store an inode with the count that it had. -/
theorem Counting.bind {first : FsCall part α} {second : α → FsCall part β}
    (one : Counting ptr cnts first) (two : ∀ a, Counting ptr cnts (second a)) :
    Counting ptr cnts (first >>= second) :=
  one.bind_of (V := fun _ => True) (fun _ _ _ _ => trivial) fun a _ => two a

/-- A call on the disk stores no inode. -/
theorem Counting.of_onDisk {call : FsCall part α} (onDisk : OnDisk call) :
    Counting ptr cnts call :=
  fun s a s' ran _ => (onDisk s a s' ran).sameCounts

/-- An inode is stored with the count that it had. -/
theorem Counting.store {inode : Inode} (count : inode.iOpenCnts = cnts) :
    Counting ptr cnts (store ptr inode : FsCall part Unit) := by
  intro s a s' ran before
  cases store_returns.mp ran
  refine ⟨fun other => ?_, rfl, rfl, rfl, rfl, rfl, rfl⟩
  dsimp only
  by_cases same : other = ptr
  · rw [same, before, Function.update_self, Option.map_some, count]
  · rw [Function.update_of_ne same]

/-- A call that reads the inode at an address first. -/
theorem Counting.quiet {body : Inode → FsCall part α}
    (counting : ∀ inode, Counting ptr inode.iOpenCnts (body inode)) :
    Quiet (deref ptr >>= body) := by
  intro s a s' ran
  obtain ⟨inode, middle, found, ran⟩ := call_bind_returns.mp ran
  obtain ⟨live, rfl⟩ := deref_returns.mp found
  exact counting inode s a s' ran (by rw [live, Option.map_some])

/-- Two calls, one after the other, that keep the counts. -/
theorem Quiet.bind {first : FsCall part α} {second : α → FsCall part β}
    (one : Quiet first) (two : ∀ a, Quiet (second a)) : Quiet (first >>= second) :=
  Keeps.bind one two

/-- A call on the disk keeps the counts. -/
theorem OnDisk.quiet {call : FsCall part α} (onDisk : OnDisk call) : Quiet call :=
  onDisk.mono fun _ _ => SameMemory.sameCounts

attribute [grind ←] Counting.bind Counting.of_onDisk Counting.store Quiet.bind OnDisk.quiet

end

section

variable {dir : Ptr} {dirInode : Inode} {cnts : Nat} (pDe : DirEntry) (block inodeNo : Word)

/-- The first entry of a block that a directory gets. -/
theorem startBlock_counting (count : dirInode.iOpenCnts = cnts) :
    Counting dir cnts (startBlock dir dirInode block pDe : FsCall part Bool) := by
  grind [startBlock]

attribute [grind ←] newDirBlock_onDisk clearEntry_onDisk startBlock_counting

/-- A directory gets a block, and keeps its count. -/
theorem addBlock_counting (count : dirInode.iOpenCnts = cnts) (blockIdx : Nat) :
    Counting dir cnts (addBlock dir dirInode pDe blockIdx : FsCall part Bool) := by
  have sector : ∀ i lba, (dirInode.setSector i lba).iOpenCnts = cnts := fun _ _ => count
  unfold addBlock
  refine .bind (.of_onDisk newDirBlock_onDisk) fun blockLba => ?_
  grind

/-- The loop of `sync_dir_entry` over the blocks stores the directory with its own count. -/
theorem syncBlocks_counting (count : dirInode.iOpenCnts = cnts) (left blockIdx : Nat) :
    Counting dir cnts (syncBlocks dir dirInode pDe left blockIdx : FsCall part Bool) := by
  induction left generalizing blockIdx with
  | zero => grind [syncBlocks]
  | succ left ih => grind [syncBlocks, addBlock_counting]

/-- `sync_dir_entry` keeps the counts. -/
theorem syncDirEntry_quiet (dir : Ptr) : Quiet (syncDirEntry dir pDe : FsCall part Bool) := by
  apply Counting.quiet
  intro dirInode
  exact .bind (.of_onDisk (.lift _)) fun _ => syncBlocks_counting pDe rfl 140 0

/-- A directory gives a block back, and keeps its count. -/
theorem recycleBlock_counting (count : dirInode.iOpenCnts = cnts) (blockIdx : Nat) :
    Counting dir cnts (recycleBlock dir dirInode blockIdx block : FsCall part Inode) := by
  have sector : ∀ i lba, (dirInode.setSector i lba).iOpenCnts = cnts := fun _ _ => count
  grind [recycleBlock]

/-- A directory gets smaller, and keeps its count. -/
theorem shrinkDir_counting (count : dirInode.iOpenCnts = cnts) :
    Counting dir cnts (shrinkDir dir dirInode : FsCall part Unit) := by
  grind [shrinkDir]

/-- The inode that `recycleBlock` returns. -/
theorem recycleBlock_inode {s s' : FsState part} {inode : Inode} {blockIdx : Nat}
    (ran : (recycleBlock dir dirInode blockIdx block).run s = .ok (inode, s')) :
    inode = dirInode.setSector blockIdx 0 := by
  obtain ⟨_, _, _, ran⟩ := call_bind_returns.mp ran
  obtain ⟨_, _, _, ran⟩ := call_bind_returns.mp ran
  split at ran
  · obtain ⟨_, _, _, ran⟩ := call_bind_returns.mp ran
    exact (call_pure_returns.mp ran).1.symm
  · exact (call_throw_returns ran).elim

/-- The loop of `delete_dir_entry` over the blocks stores the directory with its own count. -/
theorem deleteBlocks_counting (count : dirInode.iOpenCnts = cnts) (allBlocks : Nat → Word)
    (blockIdxs : List Nat) :
    Counting dir cnts
      (deleteBlocks dir dirInode inodeNo allBlocks blockIdxs : FsCall part Bool) := by
  induction blockIdxs with
  | nil => grind [deleteBlocks]
  | cons blockIdx blockIdxs ih =>
      have recycles : Counting dir cnts (do
          let dirInode ← recycleBlock dir dirInode blockIdx (allBlocks blockIdx)
          shrinkDir dir dirInode
          return true : FsCall part Bool) := by
        apply (recycleBlock_counting (allBlocks blockIdx) count blockIdx).bind_of
          (fun _ _ _ => recycleBlock_inode _)
        intro inode same
        exact .bind (shrinkDir_counting (same ▸ count)) fun _ => .of_onDisk (.pure _)
      have clears : ∀ dirEntryIdx, Counting dir cnts (do
          clearEntry (allBlocks blockIdx) dirEntryIdx
          shrinkDir dir dirInode
          return true : FsCall part Bool) := fun dirEntryIdx =>
        .bind (.of_onDisk (clearEntry_onDisk _ _)) fun _ =>
          .bind (shrinkDir_counting count) fun _ => .of_onDisk (.pure _)
      unfold deleteBlocks
      grind

/-- `delete_dir_entry` keeps the counts. -/
theorem deleteDirEntry_quiet (dir : Ptr) :
    Quiet (deleteDirEntry dir inodeNo : FsCall part Bool) := by
  apply Counting.quiet
  intro dirInode
  exact .bind (.of_onDisk .get) fun _ => deleteBlocks_counting inodeNo rfl _ _

end

end UKernel.Fs
