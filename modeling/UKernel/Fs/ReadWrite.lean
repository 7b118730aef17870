import UKernel.Fs.Calls

/-! # Reading and writing files

`file_write` appends to a file: it allocates the blocks that the new size needs, and one more
when the new size is a multiple of the block size, and collects their addresses in the array
`all_blocks`, as `file_read` does for the blocks it reads. A position outside that array stops
the machine.
-/

namespace UKernel.Fs

open UKernel.Library

variable {part : Partition}

/-! ## The array `all_blocks` -/

/-- The number of elements of `all_blocks`. -/
abbrev allBlocksLen : Nat := 140

/-- A loop that copies direct blocks into `all_blocks`, from one index to another. -/
def collectDirect (inode : Inode) (startIdx endIdx : Nat) (blocks : Nat → Word) : Nat → Word :=
  fun blockIdx =>
    if startIdx ≤ blockIdx ∧ blockIdx ≤ endIdx then inode.sector blockIdx else blocks blockIdx

/-- `ide_read` of the table of indirect blocks into `all_blocks + 12`. -/
def collectTable (disk : Memory) (inode : Inode) (blocks : Nat → Word) : Nat → Word :=
  fun blockIdx =>
    if 12 ≤ blockIdx ∧ blockIdx < allBlocksLen then
      getWord (ideRead disk (inode.sector 12).toNat) (4 * (blockIdx - 12))
    else blocks blockIdx

/-- The bytes of `all_blocks + 12`. -/
def tableImage (blocks : Nat → Word) : Memory :=
  fun i => wordByte (blocks (12 + i / 4)) (i % 4)

/-! ## Reading -/

/-- The part of `file_read` that collects the blocks. -/
def blocksToRead (disk : Memory) (inode : Inode) (startIdx endIdx : Nat) :
    Except Fault (Nat → Word) :=
  if startIdx = endIdx then
    if endIdx < 12 then
      return collectDirect inode endIdx endIdx fun _ => 0
    else
      return collectTable disk inode fun _ => 0
  else if endIdx < 12 then
    return collectDirect inode startIdx endIdx fun _ => 0
  else if startIdx < 12 then do
    require (inode.sector 12 ≠ 0)
    return collectTable disk inode (collectDirect inode startIdx 11 fun _ => 0)
  else do
    require (inode.sector 12 ≠ 0)
    return collectTable disk inode fun _ => 0

/-- `size` of `file_read`; `none` is the end of the file. -/
def sizeToRead (iSize fdPos count : Word) : Option Nat :=
  if iSize < fdPos + count then
    if iSize - fdPos = 0 then none else some (iSize - fdPos).toNat
  else some count.toNat

/-- The element of `all_blocks` that a position is in. -/
def blockAt (blocks : Nat → Word) (secIdx : Nat) : Except Fault Word :=
  if secIdx < allBlocksLen then .ok (blocks secIdx) else .error .outOfBounds

/-- The loop of `file_read`: the bytes that its rounds copy, or the fault that ends it; at most
`left` rounds are left. -/
def readChunks (disk : Memory) (block : Nat → Except Fault Word) :
    Nat → Nat → Nat → List (Except Fault (List Byte))
  | 0, _, _ => []
  | left + 1, fdPos, sizeLeft =>
      if sizeLeft = 0 then [] else
      match block (fdPos / 512) with
      | .error fault => [.error fault]
      | .ok secLba =>
          let secOffBytes := fdPos % 512
          let chunkSize := min sizeLeft (512 - secOffBytes)
          .ok ((List.range chunkSize).map fun i => ideRead disk secLba.toNat (secOffBytes + i)) ::
            readChunks disk block left ((fdPos + chunkSize) % 2 ^ 32) (sizeLeft - chunkSize)

/-- Advance the position of an open file. -/
def advance (globalFd : Nat) (bytes : Nat) : FsCall part Unit :=
  modify fun s => { s with
    fileTable := Function.update s.fileTable globalFd
      { s.fileTable globalFd with fdPos := (s.fileTable globalFd).fdPos + BitVec.ofNat 32 bytes } }

/-- The rounds of the loop of `file_read`. -/
def readRounds (globalFd : Nat) : List (Except Fault (List Byte)) → FsCall part (List Byte)
  | [] => return []
  | chunk :: chunks => do
      let bytes ← chunk
      advance globalFd bytes.length
      return bytes ++ (← readRounds globalFd chunks)

/-- The object of the inode of an open file. -/
def fdInodeOf (globalFd : Nat) : FsCall part Ptr := do
  let s ← get
  match (s.fileTable globalFd).fdInode with
  | none => throw .badPointer
  | some ptr => return ptr

/-- `file_read`: the bytes that are copied to the buffer; `none` is the result `-1`. -/
def fileRead (globalFd : Nat) (count : Word) : FsCall part (Option (List Byte)) := do
  let inode ← deref (← fdInodeOf globalFd)
  let s ← get
  let fdPos := (s.fileTable globalFd).fdPos
  match sizeToRead inode.iSize fdPos count with
  | none => return none
  | some size =>
      let startIdx := fdPos.toNat / 512
      let endIdx := (fdPos + BitVec.ofNat 32 size).toNat / 512
      require (startIdx < 139 ∧ endIdx < 139)
      let blocks ← blocksToRead s.disk inode startIdx endIdx
      return some (← readRounds globalFd
        (readChunks s.disk (blockAt blocks) size fdPos.toNat size))

/-! ## Writing -/

/-- The first step of `file_write`: a file without a first block gets one. `false` is the result
`-1`. -/
def firstBlock (ptr : Ptr) : FsCall part Bool := do
  let inode ← deref ptr
  if inode.sector 0 = 0 then
    match ← blockBitmapAlloc with
    | none => return false
    | some blockLba =>
        store ptr (inode.setSector 0 blockLba)
        require (blockLba - BitVec.ofNat 32 part.sb.dataStartLba ≠ 0)
        syncBlock blockLba
        return true
  else return true

/-- A new block is entered into the inode, if it is a direct one. -/
def enterDirect (ptr : Ptr) (blockIdx : Nat) (blockLba : Word) : FsCall part Unit := do
  if blockIdx < 12 then
    let inode ← deref ptr
    require (inode.sector blockIdx = 0)
    store ptr (inode.setSector blockIdx blockLba)
  else
    return ()

/-- The loops of `file_write` that allocate blocks, from the first index that is not used to the
last; `left` blocks are left. `none` is the result `-1`. -/
def growBlocks (ptr : Ptr) : Nat → Nat → (Nat → Word) → FsCall part (Option (Nat → Word))
  | 0, _, blocks => return some blocks
  | left + 1, blockIdx, blocks => do
      match ← blockBitmapAlloc with
      | none => return none
      | some blockLba =>
          enterDirect ptr blockIdx blockLba
          syncBlock blockLba
          growBlocks ptr left (blockIdx + 1) (Function.update blocks blockIdx blockLba)

/-- The part of `file_write` that collects the blocks; `none` is the result `-1`. -/
def blocksToWrite (ptr : Ptr) (hasUsed willUse : Nat) : FsCall part (Option (Nat → Word)) := do
  let inode ← deref ptr
  let s ← get
  if willUse = hasUsed then
    if hasUsed ≤ 12 then
      return some (collectDirect inode (hasUsed - 1) (hasUsed - 1) fun _ => 0)
    else
      require (inode.sector 12 ≠ 0)
      return some (collectTable s.disk inode fun _ => 0)
  else if willUse ≤ 12 then
    require (inode.sector (hasUsed - 1) ≠ 0)
    growBlocks ptr (willUse - hasUsed) hasUsed
      (collectDirect inode (hasUsed - 1) (hasUsed - 1) fun _ => 0)
  else if hasUsed ≤ 12 then
    match ← blockBitmapAlloc with
    | none => return none
    | some tableLba =>
        require (inode.sector 12 = 0)
        store ptr (inode.setSector 12 tableLba)
        match ← growBlocks ptr (willUse - hasUsed) hasUsed
            (collectDirect inode (hasUsed - 1) (hasUsed - 1) fun _ => 0) with
        | none => return none
        | some blocks =>
            writeBlock tableLba (tableImage blocks)
            return some blocks
  else
    require (inode.sector 12 ≠ 0)
    match ← growBlocks ptr (willUse - hasUsed) hasUsed (collectTable s.disk inode fun _ => 0) with
    | none => return none
    | some blocks =>
        writeBlock (inode.sector 12) (tableImage blocks)
        return some blocks

/-- The loop of `file_write`; at most `left` rounds are left. The first round keeps what the block
holds, the others clear it. -/
def writeRounds (globalFd : Nat) (ptr : Ptr) (blocks : Nat → Word) :
    Nat → Bool → List Byte → FsCall part Unit
  | 0, _, _ => return ()
  | left + 1, firstWriteBlock, src =>
      if src = [] then return () else do
        let inode ← deref ptr
        let s ← get
        let secLba ← blockAt blocks (inode.iSize.toNat / 512)
        let secOffBytes := inode.iSize.toNat % 512
        let chunkSize := min src.length (512 - secOffBytes)
        let ioBuf := if firstWriteBlock then ideRead s.disk secLba.toNat else Memory.zeros
        writeBlock secLba (ioBuf.splice secOffBytes (fun i => src.getD i 0) chunkSize)
        store ptr { inode with iSize := inode.iSize + BitVec.ofNat 32 chunkSize }
        advance globalFd chunkSize
        writeRounds globalFd ptr blocks left false (src.drop chunkSize)

/-- `file_write`; the result is the number of bytes that were written, `none` is `-1`. Its buffers
are not part of the state: of an inode whose slot lies in two sectors `inode_sync` moves more than
`io_buf` holds, which `UKernel.Fs.fileWriteIn` follows. -/
def fileWrite (globalFd : Nat) (buf : List Byte) : FsCall part (Option Nat) := do
  let ptr ← fdInodeOf globalFd
  let inode ← deref ptr
  let count := BitVec.ofNat 32 buf.length
  if 512 * 140 < (inode.iSize + count).toNat then
    return none
  else if ← firstBlock ptr then
    let hasUsed := inode.iSize.toNat / 512 + 1
    let willUse := (inode.iSize + count).toNat / 512 + 1
    require (willUse ≤ 140)
    match ← blocksToWrite ptr hasUsed willUse with
    | none => return none
    | some blocks =>
        modify fun s => { s with
          fileTable := Function.update s.fileTable globalFd
            { s.fileTable globalFd with fdPos := inode.iSize - 1 } }
        writeRounds globalFd ptr blocks buf.length true buf
        inodeSync (← deref ptr)
        return some buf.length
  else
    return none

end UKernel.Fs
