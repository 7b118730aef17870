import UKernel.Fs.DirectoryRemove
import UKernel.Fs.File
import UKernel.Fs.Path

/-! # File-system calls

The calls of `fs.c` that open, make and remove files and directories. Each searches for its path
first, and closes the directory that the search left open; `sys_open` does not close it when it
opens a file that exists. The argument `junk` is what `search_file` finds in its uninitialised
`dir_e`. Where a call returns only `0` or `-1`, the value `true` stands for `0`.
-/

namespace UKernel.Fs

open UKernel.Library

variable {part : Partition}

/-! ## Files -/

/-- The part of `sys_open` after the search. -/
def openFound (pathname : List Byte) (flags : Byte) (pathnameDepth : Nat) (inodeNo : Word)
    (record : PathSearchRecord) : FsCall part (Option Nat) :=
  if record.fileType = ftDirectory then do
    dirClose record.parentDir
    return none
  else do
    let pathSearchedDepth ← pathDepthCnt record.searchedPath
    if pathnameDepth ≠ pathSearchedDepth then
      dirClose record.parentDir
      return none
    else if inodeNo = notFound ∧ flags &&& oCreat = 0 then
      dirClose record.parentDir
      return none
    else if inodeNo ≠ notFound ∧ flags &&& oCreat ≠ 0 then
      dirClose record.parentDir
      return none
    else if flags &&& oCreat = 0 then
      fileOpen inodeNo flags
    else
      let filename ← afterLastSlash pathname
      let s ← get
      let fd ← fileCreate (s.dirInode record.parentDir) filename flags
      dirClose record.parentDir
      return fd

/-- `sys_open`; `none` is the result `-1`. -/
def sysOpen (junk : Word) (pathname : List Byte) (flags : Byte) : FsCall part (Option Nat) :=
  match pathname.getLast? with
  | none => throw .outOfBounds
  | some last =>
      if last = slash then return none
      else do
        require (flags.toNat ≤ 7)
        let pathnameDepth ← pathDepthCnt pathname
        let (inodeNo, record) ← searchFile junk pathname
        openFound pathname flags pathnameDepth inodeNo record

/-- `fd_local2global`. -/
def fdLocal2global (localFd : Nat) : FsCall part Nat := do
  if localFd < maxFilesOpenPerProc then
    let s ← get
    match s.fdTable localFd with
    | none => throw .assertion
    | some globalFd =>
        require (globalFd < maxFileOpen)
        return globalFd
  else
    throw .outOfBounds

/-- `sys_close`, of a descriptor that is not one of a pipe. -/
def sysClose (fd : Int) : FsCall part Bool :=
  if 2 < fd then do
    let globalFd ← fdLocal2global fd.toNat
    fileClose globalFd
    modify fun s => { s with fdTable := Function.update s.fdTable fd.toNat none }
    return true
  else return false

/-- The loop of `sys_unlink` over the file table: whether a slot refers to the inode. -/
def inUse (inodeNo : Word) : List Nat → FsCall part Bool
  | [] => return false
  | fileIdx :: fileIdxs => do
      let s ← get
      match (s.fileTable fileIdx).fdInode with
      | none => inUse inodeNo fileIdxs
      | some ptr => do
          let inode ← deref ptr
          if inode.iNo = inodeNo then
            return true
          else
            inUse inodeNo fileIdxs

/-- `sys_unlink`. -/
def sysUnlink (junk : Word) (pathname : List Byte) : FsCall part Bool := do
  require (pathname.length < maxPathLen)
  let (inodeNo, record) ← searchFile junk pathname
  require (inodeNo ≠ 0)
  if inodeNo = notFound ∨ record.fileType = ftDirectory then
    dirClose record.parentDir
    return false
  else if ← inUse inodeNo (List.range maxFileOpen) then
    dirClose record.parentDir
    return false
  else
    let s ← get
    let _ ← deleteDirEntry (s.dirInode record.parentDir) inodeNo
    inodeRelease inodeNo
    dirClose record.parentDir
    return true

/-! ## Directories -/

/-- The first block of a directory. -/
def dirBlock (inodeNo parentNo : Word) : Memory :=
  (Memory.zeros.splice 0 (directoryEntry dot inodeNo).image 24).splice 24
    (directoryEntry dotdot parentNo).image 24

/-- The part of `sys_mkdir` after an inode was allocated; `false` makes it return the inode. -/
def makeDir (parentDir : Ptr) (dirname : List Byte) (inodeNo : Nat) : FsCall part Bool := do
  let some blockLba ← blockBitmapAlloc | return false
  require (blockLba - BitVec.ofNat 32 part.sb.dataStartLba ≠ 0)
  syncBlock blockLba
  let parentInode ← deref parentDir
  writeBlock blockLba (dirBlock (BitVec.ofNat 32 inodeNo) parentInode.iNo)
  let newDirInode := { (inodeInit (BitVec.ofNat 32 inodeNo)).setSector 0 blockLba with
    iSize := 48 }
  let newDirEntry ← createDirEntry dirname (BitVec.ofNat 32 inodeNo) ftDirectory .blank
  if ← syncDirEntry parentDir newDirEntry then
    inodeSync (← deref parentDir)
    inodeSync newDirInode
    bitmapSync inodeNo .inodeBitmap
    return true
  else
    return false

/-- The part of `sys_mkdir` after the search found nothing in the last directory of the path. -/
def makeFound (record : PathSearchRecord) : FsCall part Bool := do
  let dirname ← afterLastSlash record.searchedPath
  match ← inodeBitmapAlloc with
  | none =>
      dirClose record.parentDir
      return false
  | some inodeNo => do
      let s ← get
      if ← makeDir (s.dirInode record.parentDir) dirname inodeNo then
        dirClose record.parentDir
        return true
      else
        setInodeBit inodeNo false
        dirClose record.parentDir
        return false

/-- `sys_mkdir`. -/
def sysMkdir (junk : Word) (pathname : List Byte) : FsCall part Bool := do
  let (inodeNo, record) ← searchFile junk pathname
  if inodeNo ≠ notFound then
    dirClose record.parentDir
    return false
  else
    let pathnameDepth ← pathDepthCnt pathname
    let pathSearchedDepth ← pathDepthCnt record.searchedPath
    if pathnameDepth ≠ pathSearchedDepth then
      dirClose record.parentDir
      return false
    else
      makeFound record

/-- The part of `sys_rmdir` for a path that names a directory. -/
def removeFound (inodeNo : Word) (parentDir : Dir) : FsCall part Bool := do
  let dir ← dirOpen inodeNo
  let s ← get
  if ← dirIsEmpty (s.dirInode dir) then
    dirRemove (s.dirInode parentDir) (s.dirInode dir)
    dirClose dir
    return true
  else
    dirClose dir
    return false

/-- `sys_rmdir`. -/
def sysRmdir (junk : Word) (pathname : List Byte) : FsCall part Bool := do
  let (inodeNo, record) ← searchFile junk pathname
  require (inodeNo ≠ 0)
  if inodeNo = notFound ∨ record.fileType = ftRegular then
    dirClose record.parentDir
    return false
  else
    let removed ← removeFound inodeNo record.parentDir
    dirClose record.parentDir
    return removed

/-- `sys_opendir`; `none` is the result `NULL`. Its test for the path `/.` compares the first
character again, so only the path `/` is treated apart. -/
def sysOpendir (junk : Word) (name : List Byte) : FsCall part (Option Dir) := do
  require (name.length < maxPathLen)
  if name = [slash] then
    return some .root
  else
    let (inodeNo, record) ← searchFile junk name
    if inodeNo ≠ notFound ∧ record.fileType = ftDirectory then
      let dir ← dirOpen inodeNo
      dirClose record.parentDir
      return some dir
    else
      dirClose record.parentDir
      return none

/-- `sys_closedir`, of a directory that is open. -/
def sysClosedir (dir : Dir) : FsCall part Unit :=
  dirClose dir

/-- `sys_chdir`: the inode number that becomes the working directory of the task; `none` is the
result `-1`. -/
def sysChdir (junk : Word) (path : List Byte) : FsCall part (Option Word) := do
  let (inodeNo, record) ← searchFile junk path
  dirClose record.parentDir
  return if inodeNo ≠ notFound ∧ record.fileType = ftDirectory then some inodeNo else none

/-- `struct stat`. -/
structure Stat where
  stIno : Word
  stSize : Word
  stFiletype : Word
  deriving DecidableEq, Repr

/-- `sys_stat`; `none` is the result `-1`. -/
def sysStat (junk : Word) (path : List Byte) : FsCall part (Option Stat) := do
  if path ∈ rootPaths then
    let s ← get
    let inode ← deref s.rootDir
    return some { stIno := 0, stSize := inode.iSize, stFiletype := ftDirectory }
  else
    let (inodeNo, record) ← searchFile junk path
    if inodeNo = notFound then
      dirClose record.parentDir
      return none
    else
      let ptr ← inodeOpen inodeNo
      let objInode ← deref ptr
      inodeClose ptr
      dirClose record.parentDir
      return some { stIno := inodeNo, stSize := objInode.iSize, stFiletype := record.fileType }

end UKernel.Fs
