import UKernel.Fs.State
import UKernel.Memory.PageLeak

/-! # Copying a process

`copy_process` of `fork.c`, with the contents of the frames. Each page of the parent goes through
a page of the kernel, under the page directory of the parent, and from there to a new frame, under
the page directory of the child. The open count of an inode lies in the heap in which its object
was allocated, and the object may be one of the parent's own memory.
-/

namespace UKernel.Fork

open UKernel.Library UKernel.Fs UKernel.Memory UKernel.Paging

/-! ## The machine -/

/-- The address of an inode object, which lies in one page. -/
structure InodeAddr where
  addr : Nat
  inPage : addr % pgSize + 76 ≤ pgSize

/-- The address of `i_open_cnts`. -/
def InodeAddr.openCnts (inode : InodeAddr) : Nat := inode.addr + 8

/-- A slot of the file table: one of a pipe, or one of a file. -/
structure Slot where
  isPipe : Bool
  fdPos : Word
  fdInode : InodeAddr

/-- The pages, the contents of frames by their addresses, the process whose page directory is
active, the entries of the kernel's half in the page directory of each process, the descriptors,
and the open counts of inodes in the heap of the kernel. -/
structure Machine (pools : Pools) where
  pages : Pages pools
  frame : Nat → Memory
  active : Nat
  kernelPde : Nat → Nat → Pte
  fdTable : Nat → Nat → Option Nat
  fileTable : Nat → Slot
  openCnts : Nat → Word

variable {pools : Pools}

/-- A call on the machine. -/
abbrev MachineCall (pools : Pools) (α : Type) := Call (Machine pools) α

/-- A call on the pages. -/
def onPages {α : Type} (call : PageCall pools α) : MachineCall pools α := do
  let m ← get
  let (a, pages) ← call.run m.pages
  set { m with pages := pages }
  return a

/-! ## Memory -/

/-- The frame that a page is mapped to. An absent page faults. -/
def frameOf (vaddr : Nat) : MachineCall pools Nat := do
  let m ← get
  let pte ← onPages (readPte m.active vaddr)
  if pte.present then
    return pte.addr
  else
    throw .badPointer

/-- `memcpy` of a page. -/
def copyPage (dst src : Nat) : MachineCall pools Unit := do
  let srcFrame ← frameOf src
  let dstFrame ← frameOf dst
  modify fun m => { m with frame := Function.update m.frame dstFrame (m.frame srcFrame) }

/-- `memset` of pages to zero. -/
def clearPages (vaddr : Nat) : Nat → MachineCall pools Unit
  | 0 => return ()
  | cnt + 1 => do
      let dstFrame ← frameOf vaddr
      modify fun m => { m with frame := Function.update m.frame dstFrame Memory.zeros }
      clearPages (vaddr + pgSize) cnt

/-- `get_kernel_pages`. -/
def getKernelPages (pgCnt : Nat) : MachineCall pools (Option Nat) := do
  let m ← get
  match ← onPages (Paging.getKernelPages m.active pgCnt) with
  | none => return none
  | some vaddr =>
      clearPages vaddr pgCnt
      return some vaddr

/-- `page_dir_activate`. -/
def pageDirActivate (pid : Nat) : MachineCall pools Unit :=
  modify fun m => { m with active := pid }

/-- `i_open_cnts++`, of a word in memory. -/
def bumpWord (m : Memory) (off : Nat) : Memory :=
  m.splice off (fun k => wordByte (getWord m off + 1) k) 4

/-- `fd_inode->i_open_cnts++`. -/
def bumpOpenCnts (inode : InodeAddr) : MachineCall pools Unit := do
  if inode.openCnts < kernelBase then
    let frame ← frameOf inode.openCnts
    modify fun m => { m with
      frame := Function.update m.frame frame
        (bumpWord (m.frame frame) (inode.openCnts % pgSize)) }
  else
    modify fun m => { m with
      openCnts := Function.update m.openCnts inode.addr (m.openCnts inode.addr + 1) }

/-! ## `fork.c` -/

/-- The kernel's half of a new page directory: that of the active one, but for the entry of the page
directory itself. -/
def newKernelPde (m : Machine pools) (pgdir : Nat) : Nat → Pte :=
  Function.update (m.kernelPde m.active) 1023 ⟨(m.pages.kernelPte (pgdir / pgSize)).addr, true⟩

/-- `create_page_dir`, for the child. -/
def createPageDir (child : Nat) : MachineCall pools (Option Nat) := do
  match ← getKernelPages 1 with
  | none => return none
  | some pgdir =>
      modify fun m => { m with
        kernelPde := Function.update m.kernelPde child (newKernelPde m pgdir) }
      return some pgdir

/-- The copy of one page in `copy_body_stack3`. -/
def copyUserPage (parent child bufPage progVaddr : Nat) : MachineCall pools Unit := do
  copyPage bufPage progVaddr
  pageDirActivate child
  onPages (getAPageWithoutOpvaddrbitmap child progVaddr)
  copyPage progVaddr bufPage
  pageDirActivate parent

/-- The loop over the bits of a byte in `copy_body_stack3`; `left` bits are left. -/
def copyByte (parent child bufPage idxByte : Nat) (byte : Byte) : Nat → MachineCall pools Unit
  | 0 => return ()
  | left + 1 => do
      let idxBit := 8 - (left + 1)
      if byte.getLsbD idxBit then
        copyUserPage parent child bufPage ((idxByte * 8 + idxBit) * pgSize + userVaddrStart)
        copyByte parent child bufPage idxByte byte left
      else
        copyByte parent child bufPage idxByte byte left

/-- The loop over the bytes of the parent's bitmap in `copy_body_stack3`. -/
def copyBytes (parent child bufPage : Nat) (parentBits : Memory) : List Nat → MachineCall pools Unit
  | [] => return ()
  | idxByte :: rest => do
      if parentBits idxByte ≠ 0 then
        copyByte parent child bufPage idxByte (parentBits idxByte) 8
        copyBytes parent child bufPage parentBits rest
      else
        copyBytes parent child bufPage parentBits rest

/-- `copy_body_stack3`. -/
def copyBodyStack3 (parent child bufPage : Nat) (parentSpace : Space) : MachineCall pools Unit :=
  copyBytes parent child bufPage parentSpace.vaddrBitmap.bits (List.range userBtmpBytesLen)

/-- The round of the loop of `update_inode_open_cnts` for a descriptor. `is_pipe` looks it up in
the table of the running process. -/
def updateOpenCnt (parent child localFd : Nat) : MachineCall pools Unit := do
  let m ← get
  match m.fdTable child localFd, m.fdTable parent localFd with
  | none, _ => return ()
  | some _, none => throw .assertion
  | some globalFd, some ownFd => do
      require (globalFd < maxFileOpen)
      let slot := m.fileTable globalFd
      if (m.fileTable ownFd).isPipe then
        modify fun m => { m with
          fileTable := Function.update m.fileTable globalFd { slot with fdPos := slot.fdPos + 1 } }
      else
        bumpOpenCnts slot.fdInode

/-- The loop of `update_inode_open_cnts`. -/
def updateInodeOpenCnts (parent child : Nat) : List Nat → MachineCall pools Unit
  | [] => return ()
  | localFd :: rest => do
      updateOpenCnt parent child localFd
      updateInodeOpenCnts parent child rest

/-- The part of `copy_process` after the page directory was created. -/
def copyInto (parent child pcb bufPage bits pgdir : Nat) (parentSpace : Space) :
    MachineCall pools Unit := do
  modify fun m => { m with
    pages := m.pages.setSpace child
      { pcb, pgdir, bits, vaddrBitmap := parentSpace.vaddrBitmap
        pde := fun _ => Pte.zero, pte := fun _ => Pte.zero
        parentPid := some parent, hanging := false }
    fdTable := Function.update m.fdTable child (m.fdTable parent) }
  copyBodyStack3 parent child bufPage parentSpace
  updateInodeOpenCnts parent child (List.range' 3 (maxFilesOpenPerProc - 3))
  onPages (mfreePage parent .kernel bufPage 1)

/-- `copy_process`, of the running process. The result tells whether it succeeded. -/
def copyProcess (parent child pcb : Nat) : MachineCall pools Bool := do
  let parentSpace ← onPages (spaceOf parent)
  match ← getKernelPages 1 with
  | none => return false
  | some bufPage =>
      match ← getKernelPages bitmapPgCnt with
      | none => return false
      | some bits =>
          match ← createPageDir child with
          | none => return false
          | some pgdir =>
              copyInto parent child pcb bufPage bits pgdir parentSpace
              return true

end UKernel.Fork
