import UKernel.Fs.Format

/-! # Removing an entry from a directory

`delete_dir_entry` looks for an entry by its inode number, and passes over the entries `.` and
`..`. The last entry of a block other than the first goes together with the block; for an
indirect block that loop does not advance. `dir_remove` takes a directory out of its parent and
releases its inode.
-/

namespace UKernel.Fs

open UKernel.Library

variable {part : Partition}

/-- What `delete_dir_entry` learns from the entries of a sector: whether one of them is `.`, how
many are neither `.` nor `..`, and which of these has the inode number. -/
structure SectorScan where
  isDirFirstBlock : Bool
  dirEntryCnt : Nat
  dirEntryFound : Option Nat

/-- The round of the loop of `delete_dir_entry` for one entry of a sector. -/
def scanEntry (buf : Memory) (inodeNo : Word) (scan : SectorScan) (dirEntryIdx : Nat) :
    Except Fault SectorScan := do
  let dirE := buf.shift (24 * dirEntryIdx)
  if (DirEntry.load dirE).fType = ftUnknown then
    return scan
  else if strEq dirE dot then
    return { scan with isDirFirstBlock := true }
  else if strEq dirE dotdot then
    return scan
  else if (DirEntry.load dirE).iNo = inodeNo then do
    require (scan.dirEntryFound = none)
    return { scan with
      dirEntryCnt := scan.dirEntryCnt + 1
      dirEntryFound := some dirEntryIdx }
  else
    return { scan with dirEntryCnt := scan.dirEntryCnt + 1 }

/-- The loop of `delete_dir_entry` over the entries of a sector. -/
def scanSector (buf : Memory) (inodeNo : Word) : Except Fault SectorScan :=
  (List.range 21).foldlM (scanEntry buf inodeNo) ⟨false, 0, none⟩

/-- The branch of `delete_dir_entry` for a block that holds no other entry. The loop that counts
the indirect blocks never advances its index. -/
def recycleBlock (dir : Ptr) (dirInode : Inode) (blockIdx : Nat) (block : Word) :
    FsCall part Inode := do
  let blockBitmapIdx := (block - BitVec.ofNat 32 part.sb.dataStartLba).toNat
  setBlockBit blockBitmapIdx false
  bitmapSync blockBitmapIdx .blockBitmap
  if blockIdx < 12 then
    store dir (dirInode.setSector blockIdx 0)
    return dirInode.setSector blockIdx 0
  else
    throw .diverges

/-- The branch of `delete_dir_entry` for a block that keeps other entries. -/
def clearEntry (block : Word) (dirEntryIdx : Nat) : FsCall part Unit := do
  let s ← get
  writeBlock block
    ((ideRead s.disk block.toNat).splice (24 * dirEntryIdx) Memory.zeros 24)

/-- The end of `delete_dir_entry`: the directory is one entry smaller. -/
def shrinkDir (dir : Ptr) (dirInode : Inode) : FsCall part Unit := do
  require (24 ≤ dirInode.iSize.toNat)
  let dirInode := { dirInode with iSize := dirInode.iSize - 24 }
  store dir dirInode
  inodeSync dirInode

/-- The loop of `delete_dir_entry` over the blocks. -/
def deleteBlocks (dir : Ptr) (dirInode : Inode) (inodeNo : Word) (allBlocks : Nat → Word) :
    List Nat → FsCall part Bool
  | [] => return false
  | blockIdx :: blockIdxs =>
      if allBlocks blockIdx = 0 then
        deleteBlocks dir dirInode inodeNo allBlocks blockIdxs
      else do
        let s ← get
        let scan ← scanSector (ideRead s.disk (allBlocks blockIdx).toNat) inodeNo
        match scan.dirEntryFound with
        | none => deleteBlocks dir dirInode inodeNo allBlocks blockIdxs
        | some dirEntryIdx =>
            require (1 ≤ scan.dirEntryCnt)
            if scan.dirEntryCnt = 1 ∧ scan.isDirFirstBlock = false then
              let dirInode ← recycleBlock dir dirInode blockIdx (allBlocks blockIdx)
              shrinkDir dir dirInode
              return true
            else
              clearEntry (allBlocks blockIdx) dirEntryIdx
              shrinkDir dir dirInode
              return true

/-- `delete_dir_entry`. -/
def deleteDirEntry (dir : Ptr) (inodeNo : Word) : FsCall part Bool := do
  let dirInode ← deref dir
  let s ← get
  deleteBlocks dir dirInode inodeNo (allBlocks s.disk dirInode) (List.range 140)

/-- `dir_is_empty`. -/
def dirIsEmpty (dir : Ptr) : FsCall part Bool := do
  let dirInode ← deref dir
  return dirInode.iSize = 24 * 2

/-- The inode has no sector but the first. -/
def Inode.OneBlock (inode : Inode) : Prop :=
  ∀ blockIdx < 12, inode.sector (blockIdx + 1) = 0

instance (inode : Inode) : Decidable inode.OneBlock :=
  inferInstanceAs (Decidable (∀ blockIdx < 12, inode.sector (blockIdx + 1) = 0))

/-- `dir_remove`, whose result is always zero. -/
def dirRemove (parentDir childDir : Ptr) : FsCall part Unit := do
  let childDirInode ← deref childDir
  require childDirInode.OneBlock
  let _ ← deleteDirEntry parentDir childDirInode.iNo
  inodeRelease childDirInode.iNo

end UKernel.Fs
