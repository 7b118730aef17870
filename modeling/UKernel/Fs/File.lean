import UKernel.Fs.DirectoryInsert
import UKernel.Fs.Format
import UKernel.Fs.FileTable

/-! # Files

`file_create` makes a file and opens it, `file_open` opens a file that exists, and `file_close`
drops the slot of the file table. A slot is filled before the checks that may refuse the
descriptor, and stays filled when they do.
-/

namespace UKernel.Fs

open UKernel.Library

variable {part : Partition}

/-! ## The file table -/

/-- `O_WRONLY`. -/
def oWronly : Byte := 1

/-- `O_RDWR`. -/
def oRdwr : Byte := 2

/-- `O_CREAT`. -/
def oCreat : Byte := 4

/-- The first free slot of the file table; `none` is the result `-1`. -/
def FsState.freeSlot (s : FsState part) : Option Nat :=
  getFreeSlotInGlobal fun fdIdx => (s.fileTable fdIdx).fdInode.isNone

/-- Rewrite a slot of the file table. -/
def setFile (fdIdx : Nat) (file : File) : FsCall part Unit :=
  modify fun s => { s with fileTable := Function.update s.fileTable fdIdx file }

/-- `pcb_fd_install`, on the descriptors of the running task. -/
def installFd (globalFd : Nat) : FsCall part (Option Nat) := do
  let s ← get
  let (localFd, fdTable) := pcbFdInstall s.fdTable globalFd
  set { s with fdTable := fdTable }
  return localFd

/-! ## Creating -/

/-- `sys_free` of an inode object. -/
def freeInode (ptr : Ptr) : FsCall part Unit :=
  modify fun s => { s with inodes := Function.update s.inodes ptr none }

/-- `list_push` on `open_inodes`, which links the first element back to the new one. -/
def listPush (ptr : Ptr) : FsCall part Unit := do
  let s ← get
  match s.openInodes with
  | [] => modify fun s => { s with openInodes := [ptr] }
  | first :: rest => do
      let _ ← deref first
      modify fun s => { s with openInodes := ptr :: first :: rest }

/-- The part of `file_create` after the entry is in the parent directory. -/
def publishFile (parentDir ptr : Ptr) (inodeNo fdIdx : Nat) : FsCall part (Option Nat) := do
  inodeSync (← deref parentDir)
  inodeSync (← deref ptr)
  bitmapSync inodeNo .inodeBitmap
  listPush ptr
  let inode ← deref ptr
  store ptr { inode with iOpenCnts := 1 }
  installFd fdIdx

/-- `file_create`; `none` is the result `-1`. The object of the inode is allocated in the heap of
the running task. -/
def fileCreate (parentDir : Ptr) (filename : List Byte) (flag : Byte) :
    FsCall part (Option Nat) := do
  let some inodeNo ← inodeBitmapAlloc | return none
  let s ← get
  let ptr ← mallocInode (!s.userProcess)
  store ptr (inodeInit (BitVec.ofNat 32 inodeNo))
  match s.freeSlot with
  | none =>
      freeInode ptr
      setInodeBit inodeNo false
      return none
  | some fdIdx =>
      setFile fdIdx { fdPos := 0, fdFlag := flag.setWidth 32, fdInode := some ptr }
      let newDirEntry ← createDirEntry filename (BitVec.ofNat 32 inodeNo) ftRegular .blank
      if ← syncDirEntry parentDir newDirEntry then
        publishFile parentDir ptr inodeNo fdIdx
      else
        setFile fdIdx { fdPos := 0, fdFlag := 0, fdInode := none }
        freeInode ptr
        setInodeBit inodeNo false
        return none

/-! ## Opening and closing -/

/-- The check of `write_deny` in `file_open`: set it, unless it is set. -/
def denyWrite (ptr : Ptr) : FsCall part Bool := do
  let inode ← deref ptr
  if inode.writeDeny then
    return false
  else
    store ptr { inode with writeDeny := true }
    return true

/-- `file_open`; `none` is the result `-1`. -/
def fileOpen (inodeNo : Word) (flag : Byte) : FsCall part (Option Nat) := do
  let s ← get
  match s.freeSlot with
  | none => return none
  | some fdIdx => do
      let ptr ← inodeOpen inodeNo
      setFile fdIdx { fdPos := 0, fdFlag := flag.setWidth 32, fdInode := some ptr }
      if flag = oWronly ∨ flag = oRdwr then
        if ← denyWrite ptr then
          installFd fdIdx
        else
          return none
      else
        installFd fdIdx

/-- `file_close`, of a slot of the file table. -/
def fileClose (globalFd : Nat) : FsCall part Unit := do
  let s ← get
  match (s.fileTable globalFd).fdInode with
  | none => throw .badPointer
  | some ptr => do
      let inode ← deref ptr
      store ptr { inode with writeDeny := false }
      inodeClose ptr
      setFile globalFd { s.fileTable globalFd with fdInode := none }

end UKernel.Fs
