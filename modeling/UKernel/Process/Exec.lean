import UKernel.Fs.ReadWrite
import UKernel.Library.Traced
import UKernel.Memory.Pages

/-! # Loading a program

`exec.c`: `load` reads the program headers of an ELF file, and `segment_load` maps the pages of
a loadable segment and reads the segment into them. Of the address space of the process, the
model has which page tables and pages are present, which pages hold blocks of its heap, and what
`load` does to it: the bits of the bitmap of virtual pages that it sets, the pages that it maps and
the bytes of segments that it writes.

The buffers of `file_read` come from the heap of the process and go back to it before the call
returns; they are not part of the model. What they need is said where it matters: the frames of two
pages and their page tables, the free blocks of the heap, and arenas that no segment overwrites. A
byte of a segment on a page of the heap therefore ends the run.
-/

namespace UKernel.Exec

open UKernel.Library UKernel.Fs UKernel.Memory UKernel.Paging

/-! ## Files -/

/-- The sixteen-bit number stored at an address. -/
def getHalf (m : Memory) (off : Nat) : BitVec 16 :=
  BitVec.ofNat 16 ((m off).toNat + 256 * (m (off + 1)).toNat)

/-- `struct Elf32_Ehdr`, with the fields that `load` reads. -/
structure Elf32Ehdr where
  eIdent : List Byte
  eType : BitVec 16
  eMachine : BitVec 16
  eVersion : Word
  eEntry : Word
  ePhoff : Word
  ePhentsize : BitVec 16
  ePhnum : BitVec 16

/-- `sizeof(struct Elf32_Ehdr)`. -/
abbrev ehdrSize : Nat := 52

/-- The header whose bytes are in memory; of `e_ident`, its first seven bytes. -/
def Elf32Ehdr.load (m : Memory) : Elf32Ehdr where
  eIdent := (List.range 7).map m
  eType := getHalf m 16
  eMachine := getHalf m 18
  eVersion := getWord m 20
  eEntry := getWord m 24
  ePhoff := getWord m 28
  ePhentsize := getHalf m 42
  ePhnum := getHalf m 44

/-- `struct Elf32_Phdr`, with the fields that `load` reads. -/
structure Elf32Phdr where
  pType : Word
  pOffset : Word
  pVaddr : Word
  pFilesz : Word

/-- `sizeof(struct Elf32_Phdr)`. -/
abbrev phdrSize : Nat := 32

/-- The program header whose bytes are in memory. -/
def Elf32Phdr.load (m : Memory) : Elf32Phdr where
  pType := getWord m 0
  pOffset := getWord m 4
  pVaddr := getWord m 8
  pFilesz := getWord m 16

/-- `PT_LOAD`. -/
def ptLoad : Word := 1

/-- The checks of `load`. -/
def Elf32Ehdr.Valid (ehdr : Elf32Ehdr) : Prop :=
  ehdr.eIdent = [0x7f, 0x45, 0x4c, 0x46, 1, 1, 1] ∧ ehdr.eType = 2 ∧ ehdr.eMachine = 3 ∧
    ehdr.eVersion = 1 ∧ ehdr.ePhnum.toNat ≤ 1024 ∧ ehdr.ePhentsize.toNat = phdrSize

instance (ehdr : Elf32Ehdr) : Decidable ehdr.Valid :=
  inferInstanceAs (Decidable (_ ∧ _ ∧ _ ∧ _ ∧ _ ∧ _))

/-- The open file: its inode, the disk, and what memory holds after the array `all_blocks`. -/
structure ElfFile where
  inode : Inode
  disk : Memory
  beyond : Nat → Word

/-! ## The address space -/

/-- What `load` does to the address space of the process. -/
inductive Effect where
  /-- A bit of the bitmap of virtual pages is set. -/
  | setBit (bitIdx : Nat)
  /-- A page is mapped to a frame of the user pool. -/
  | mapPage (vaddr : Word)
  /-- A byte of a segment is written. -/
  | write (vaddr : Word) (byte : Byte)
  deriving DecidableEq, Repr

/-- The frames, the page tables and pages that are present, the pages with blocks of the heap of the
process, the position in the file, and what was done. Pages are numbered by the upper twenty bits of
their addresses; the last page table is the page directory. -/
structure Machine (pools : Pools) where
  poolBitmap : (pf : PoolFlags) → Bitmap (pools.btmpBytesLen pf)
  pde : Nat → Bool
  pte : Nat → Bool
  heapPage : Nat → Bool
  fdPos : Word
  effects : List Effect

variable {pools : Pools}

/-- A call on the machine. -/
abbrev ExecCall (pools : Pools) (α : Type) := Traced (Machine pools) α

namespace Machine

/-- `*pte_ptr(vaddr) & 0x00000001`. -/
def ptePresent (m : Machine pools) (vaddr : Word) : Bool :=
  if vaddr.toNat / 0x400000 = 1023 then m.pde (vaddr.toNat / pgSize % 1024)
  else m.pte (vaddr.toNat / pgSize)

/-- The page of an address is present. -/
def present (m : Machine pools) (vaddr : Word) : Bool :=
  m.pde (vaddr.toNat / 0x400000) && m.ptePresent vaddr

/-- A byte of a segment can be written: the page of the address is present, and has no blocks of the
heap. -/
def writable (m : Machine pools) (vaddr : Word) : Bool :=
  m.present vaddr && !m.heapPage (vaddr.toNat / pgSize)

/-- Make the entry `*pte_ptr(vaddr)` present. -/
def setPte (m : Machine pools) (vaddr : Word) : Machine pools :=
  if vaddr.toNat / 0x400000 = 1023 then
    { m with pde := Function.update m.pde (vaddr.toNat / pgSize % 1024) true }
  else { m with pte := Function.update m.pte (vaddr.toNat / pgSize) true }

/-- A new page table, all of whose entries are zero. -/
def addTable (m : Machine pools) (pdeIdx : Nat) : Machine pools :=
  { m with
    pde := Function.update m.pde pdeIdx true
    pte := fun page => if page / 1024 = pdeIdx then false else m.pte page }

/-- Record an effect. -/
def did (m : Machine pools) (effect : Effect) : Machine pools :=
  { m with effects := effect :: m.effects }

end Machine

/-! ## Pages -/

/-- `palloc`, without the address of the frame. -/
def palloc (pf : PoolFlags) : ExecCall pools Bool := do
  match ← ((← get).poolBitmap pf).scan 1 with
  | none => return false
  | some bitIdx =>
      modify fun m => { m with
        poolBitmap := Function.update m.poolBitmap pf ((m.poolBitmap pf).set bitIdx true) }
      return true

/-- The part of `page_table_add` that makes sure that there is a page table. -/
def addTable (vaddr : Word) : ExecCall pools Unit := do
  if (← get).pde (vaddr.toNat / 0x400000) then
    return ()
  else
    let _ ← palloc .kernel
    modify fun m => m.addTable (vaddr.toNat / 0x400000)

/-- `page_table_add`, for a frame of the user pool. -/
def pageTableAdd (vaddr : Word) : ExecCall pools Unit := do
  addTable vaddr
  require ((← get).ptePresent vaddr = false)
  modify fun m => (m.setPte vaddr).did (.mapPage vaddr)

/-- The part of `get_a_page` after the bit is set. -/
def takePage (vaddr : Word) : ExecCall pools Bool := do
  if ← palloc .user then
    pageTableAdd vaddr
    return true
  else
    return false

/-- `get_a_page(PF_USER, vaddr)`, called by a process; `false` is the result `NULL`. -/
def getAPage (vaddr : Word) : ExecCall pools Bool := do
  let bitIdx := (vaddr - BitVec.ofNat 32 userVaddrStart).toNat / pgSize
  require (0 < bitIdx)
  modify fun m => m.did (.setBit bitIdx)
  takePage vaddr

/-- A round of the loop of `segment_load`. -/
def mapPage (vaddrPage : Word) : ExecCall pools Bool := do
  if (← get).present vaddrPage then
    return true
  else
    getAPage vaddrPage

/-- The loop of `segment_load`; `left` pages are left. -/
def mapPages : Nat → Word → ExecCall pools Bool
  | 0, _ => return true
  | left + 1, vaddrPage => do
      if ← mapPage vaddrPage then
        mapPages left (vaddrPage + BitVec.ofNat 32 pgSize)
      else
        return false

/-! ## Reading the file -/

/-- The position after `sys_lseek(fd, offset, SEEK_SET)`, which stays if the call fails. -/
def ElfFile.lseek (file : ElfFile) (fdPos offset : Word) : Word :=
  if offset.toInt < 0 ∨ file.inode.iSize.toInt - 1 < offset.toInt then fdPos else offset

/-- `sys_lseek(fd, offset, SEEK_SET)`, whose result is not used. -/
def sysLseek (file : ElfFile) (offset : Word) : ExecCall pools Unit :=
  modify fun m => { m with fdPos := file.lseek m.fdPos offset }

/-- The element of `all_blocks` that a position is in. -/
def ElfFile.blockAt (file : ElfFile) (blocks : Nat → Word) (secIdx : Nat) : Except Fault Word :=
  .ok (if secIdx < allBlocksLen then blocks secIdx else file.beyond secIdx)

/-- The rounds of `file_read` from a position; `none` is the result `-1`. -/
def ElfFile.rounds (file : ElfFile) (fdPos count : Word) :
    Except Fault (Option (List (Except Fault (List Byte)))) := do
  match sizeToRead file.inode.iSize fdPos count with
  | none => return none
  | some size =>
      let startIdx := fdPos.toNat / 512
      let endIdx := (fdPos + BitVec.ofNat 32 size).toNat / 512
      require (startIdx < 139 ∧ endIdx < 139)
      let blocks ← blocksToRead file.disk file.inode startIdx endIdx
      return some (readChunks file.disk (file.blockAt blocks) size fdPos.toNat size)

/-- Advance the position in the file. -/
def advance (bytes : Nat) : ExecCall pools Unit :=
  modify fun m => { m with fdPos := m.fdPos + BitVec.ofNat 32 bytes }

/-- Copy to a variable of `load`. -/
def copyRounds : List (Except Fault (List Byte)) → ExecCall pools (List Byte)
  | [] => return []
  | chunk :: chunks => do
      let bytes ← chunk
      advance bytes.length
      return bytes ++ (← copyRounds chunks)

/-- `sys_read` into a variable of `load`: the bytes read, none of them for the result `-1`. The
buffers `io_buf` and `all_blocks` of `file_read` are taken and given back meanwhile. -/
def sysRead (file : ElfFile) (count : Nat) : ExecCall pools (List Byte) := do
  match ← file.rounds (← get).fdPos (BitVec.ofNat 32 count) with
  | none => return []
  | some chunks => copyRounds chunks

/-- `memcpy` to the address space of the process. A byte of a page that is not present faults. A
byte on a page of the heap may be one of an arena or of a free block, which `sys_free` follows when
the buffers are given back: the model does not, and ends the run. -/
def storeBytes : Word → List Byte → ExecCall pools Unit
  | _, [] => return ()
  | vaddr, byte :: bytes => do
      if (← get).writable vaddr then
        modify fun m => m.did (.write vaddr byte)
        storeBytes (vaddr + 1) bytes
      else
        throw .badPointer

/-- Copy to the address space of the process. -/
def storeRounds : Word → List (Except Fault (List Byte)) → ExecCall pools Unit
  | _, [] => return ()
  | bufDst, chunk :: chunks => do
      let bytes ← chunk
      storeBytes bufDst bytes
      advance bytes.length
      storeRounds (bufDst + BitVec.ofNat 32 bytes.length) chunks

/-- `sys_read` into the address space of the process, whose result is not used. -/
def sysReadTo (file : ElfFile) (buf count : Word) : ExecCall pools Unit := do
  require (buf ≠ 0)
  match ← file.rounds (← get).fdPos count with
  | none => return ()
  | some chunks => storeRounds buf chunks

/-! ## `exec.c` -/

/-- `vaddr_first_page`. -/
def firstPage (vaddr : Word) : Word :=
  vaddr &&& 0xfffff000

/-- `size_in_first_page`. -/
def sizeInFirstPage (vaddr : Word) : Word :=
  BitVec.ofNat 32 pgSize - (vaddr &&& 0x00000fff)

/-- `occupy_pages`. The rounding may overflow. -/
def occupyPages (filesz vaddr : Word) : Nat :=
  if sizeInFirstPage vaddr < filesz then
    (filesz - sizeInFirstPage vaddr + BitVec.ofNat 32 pgSize - 1).toNat / pgSize + 1
  else 1

/-- `segment_load`. -/
def segmentLoad (file : ElfFile) (offset filesz vaddr : Word) : ExecCall pools Bool := do
  if ← mapPages (occupyPages filesz vaddr) (firstPage vaddr) then
    sysLseek file offset
    sysReadTo file vaddr filesz
    return true
  else
    return false

/-- The part of a round of the loop of `load` that reads a program header; `none` makes `load`
fail. -/
def readPhdr (file : ElfFile) (ehdr : Elf32Ehdr) (offset : Word) :
    ExecCall pools (Option Elf32Phdr) := do
  sysLseek file offset
  let bytes ← sysRead file ehdr.ePhentsize.toNat
  if bytes.length = ehdr.ePhentsize.toNat then
    return some (.load fun i => bytes.getD i 0)
  else
    return none

/-- The rest of the round, for the program header that was read. -/
def loadFound (file : ElfFile) : Option Elf32Phdr → ExecCall pools Bool
  | none => return false
  | some phdr =>
      if phdr.pType = ptLoad then
        segmentLoad file phdr.pOffset phdr.pFilesz phdr.pVaddr
      else
        return true

/-- A round of the loop of `load`. -/
def loadPhdr (file : ElfFile) (ehdr : Elf32Ehdr) (offset : Word) : ExecCall pools Bool := do
  loadFound file (← readPhdr file ehdr offset)

/-- The loop of `load`; `left` program headers are left. -/
def loadPhdrs (file : ElfFile) (ehdr : Elf32Ehdr) : Nat → Word → ExecCall pools Bool
  | 0, _ => return true
  | left + 1, offset => do
      if ← loadPhdr file ehdr offset then
        loadPhdrs file ehdr left (offset + ehdr.ePhentsize.setWidth 32)
      else
        return false

/-- The part of `load` that reads the header of the file; `none` makes it fail. -/
def readEhdr (file : ElfFile) : ExecCall pools (Option Elf32Ehdr) := do
  let bytes ← sysRead file ehdrSize
  if bytes.length = ehdrSize then
    let ehdr := Elf32Ehdr.load fun i => bytes.getD i 0
    return if ehdr.Valid then some ehdr else none
  else
    return none

/-- The part of `load` after the header of the file was read. -/
def loadProgram (file : ElfFile) : Option Elf32Ehdr → ExecCall pools (Option Word)
  | none => return none
  | some ehdr => do
      if ← loadPhdrs file ehdr ehdr.ePhnum.toNat ehdr.ePhoff then
        return some ehdr.eEntry
      else
        return none

/-- `load`, of what `sys_open` returned; `none` is the result `-1`. -/
def load : Option ElfFile → ExecCall pools (Option Word)
  | none => return none
  | some file => do
      modify fun m => { m with fdPos := 0 }
      loadProgram file (← readEhdr file)

end UKernel.Exec
