import UKernel.Fs.Bitmap
import UKernel.Library.Call
import UKernel.Library.Transition
import UKernel.Memory.Arena

/-! # Pages

The page frames, the kernel's virtual pages and the page tables: the page functions of
`memory.c`, with what `process.c`, `fork.c`, `wait_exit.c` and `thread.c` allocate and free
through them for a process. The page tables of the kernel's half of memory exist from the start
and are shared by all processes; a page table of the other half takes a frame of the kernel's
pool when its first page is mapped. Contents of pages are not part of the state.
-/

namespace UKernel.Paging

open UKernel.Library UKernel.Fs UKernel.Memory

/-! ## The state -/

/-- `enum pool_flags`. -/
inductive PoolFlags where
  | kernel
  | user
  deriving DecidableEq, Repr

/-- `used_mem` of `mem_pool_init`: the low megabyte and the page tables. -/
def usedMem : Nat := 0x100000 + pgSize * 256

/-- `all_free_pages`, which is stored in sixteen bits. -/
def allFreePages (allMem : Nat) : Nat := (allMem - usedMem) / pgSize % 2 ^ 16

/-- `kernel_free_pages`. -/
def kernelFreePages (allMem : Nat) : Nat := allFreePages allMem / 4

/-- `user_free_pages`. -/
def userFreePages (allMem : Nat) : Nat := allFreePages allMem - kernelFreePages allMem

/-- The two pools: the bytes of their bitmaps, and the addresses of their first frames. -/
structure Pools where
  btmpBytesLen : PoolFlags → Nat
  phyAddrStart : PoolFlags → Nat
  kernel_below_user :
    phyAddrStart .kernel + 8 * btmpBytesLen .kernel * pgSize ≤ phyAddrStart .user

/-- The pools that `mem_pool_init` sets up. -/
def memPoolSizes (allMem : Nat) : Pools where
  btmpBytesLen
    | .kernel => kernelFreePages allMem / 8
    | .user => userFreePages allMem / 8
  phyAddrStart
    | .kernel => usedMem
    | .user => usedMem + kernelFreePages allMem * pgSize
  kernel_below_user := by
    have whole : 8 * (kernelFreePages allMem / 8) ≤ kernelFreePages allMem := Nat.mul_div_le _ 8
    exact Nat.add_le_add_left (Nat.mul_le_mul_right pgSize whole) _

/-- `USER_VADDR_START`. -/
def userVaddrStart : Nat := 0x8048000

/-- `USER_STACK3_VADDR`. -/
def userStack3Vaddr : Nat := 0xc0000000 - 0x1000

/-- The address at which the kernel's half of memory starts. -/
def kernelBase : Nat := 0xc0000000

/-- `btmp_bytes_len` of the bitmap of a process. -/
def userBtmpBytesLen : Nat := (kernelBase - userVaddrStart) / pgSize / 8

/-- An entry of a page table or page directory: an address, and whether it is present. -/
structure Pte where
  addr : Nat
  present : Bool
  deriving DecidableEq, Repr

/-- An entry of a page that was set to zero. -/
def Pte.zero : Pte := ⟨0, false⟩

/-- The pages of a process: its control block, its page directory and the bitmap of its
virtual pages, which lie in kernel pages, and the user half of its page tables. The entries of
a page table are numbered by the page they map. -/
structure Space where
  pcb : Nat
  pgdir : Nat
  bits : Nat
  vaddrBitmap : Bitmap userBtmpBytesLen
  pde : Nat → Pte
  pte : Nat → Pte
  parentPid : Option Nat
  hanging : Bool

/-- The bitmaps of the frames and of the kernel's virtual pages, the kernel's page tables from
`K_HEAP_START` on, and the processes. -/
structure Pages (pools : Pools) where
  poolBitmap : (pf : PoolFlags) → Bitmap (pools.btmpBytesLen pf)
  kernelVaddr : Bitmap (pools.btmpBytesLen .kernel)
  kernelPte : Nat → Pte
  space : Nat → Option Space

variable {pools : Pools}

/-- A call on the pages. -/
abbrev PageCall (pools : Pools) (α : Type) := Call (Pages pools) α

namespace Pages

/-- Set a bit of a pool's bitmap. -/
def setFrame (s : Pages pools) (pf : PoolFlags) (bitIdx : Nat) (value : Bool) : Pages pools :=
  { s with poolBitmap := Function.update s.poolBitmap pf ((s.poolBitmap pf).set bitIdx value) }

/-- Change the record of a process. -/
def setSpace (s : Pages pools) (pid : Nat) (space : Space) : Pages pools :=
  { s with space := Function.update s.space pid (some space) }

end Pages

/-- The record of a process. -/
def spaceOf (pid : Nat) : PageCall pools Space := do
  match (← get).space pid with
  | none => throw .badPointer
  | some space => return space

/-! ## Page tables -/

/-- The entry `*pte_ptr(vaddr)`, through the page directory of a process. The low megabyte is
mapped at the start of the kernel's half. -/
def readPte (active vaddr : Nat) : PageCall pools Pte := do
  if kHeapStart ≤ vaddr then
    return (← get).kernelPte (vaddr / pgSize)
  else if kernelBase ≤ vaddr then
    return ⟨(vaddr - kernelBase) / pgSize * pgSize, true⟩
  else
    let space ← spaceOf active
    if (space.pde (vaddr / 0x400000)).present then
      return space.pte (vaddr / pgSize)
    else
      throw .badPointer

/-- Store an entry at `pte_ptr(vaddr)`. -/
def writePte (active vaddr : Nat) (pte : Pte) : PageCall pools Unit := do
  if kHeapStart ≤ vaddr then
    modify fun s => { s with kernelPte := Function.update s.kernelPte (vaddr / pgSize) pte }
  else if kernelBase ≤ vaddr then
    throw .badPointer
  else
    let space ← spaceOf active
    modify fun s => s.setSpace active
      { space with pte := Function.update space.pte (vaddr / pgSize) pte }

/-- `palloc`. -/
def palloc (pf : PoolFlags) : PageCall pools (Option Nat) := do
  match ← ((← get).poolBitmap pf).scan 1 with
  | none => return none
  | some bitIdx =>
      modify fun s => s.setFrame pf bitIdx true
      return some (bitIdx * pgSize + pools.phyAddrStart pf)

/-- A new page table: its frame is entered into the page directory, and its entries are set to
zero. -/
def Space.addTable (space : Space) (pdeIdx phyaddr : Nat) : Space :=
  { space with
    pde := Function.update space.pde pdeIdx ⟨phyaddr, true⟩
    pte := fun page => if page / 1024 = pdeIdx then Pte.zero else space.pte page }

/-- The branch of `page_table_add` in which the page directory entry is not present. -/
def addTable (active vaddr : Nat) : PageCall pools Unit := do
  let phyaddr := (← palloc .kernel).getD 0
  let space ← spaceOf active
  modify fun s => s.setSpace active (space.addTable (vaddr / 0x400000) phyaddr)

/-- `page_table_add`. -/
def pageTableAdd (active vaddr pagePhyaddr : Nat) : PageCall pools Unit := do
  if vaddr < kernelBase then
    if ¬ ((← spaceOf active).pde (vaddr / 0x400000)).present then
      addTable active vaddr
  require ((← readPte active vaddr).present = false)
  writePte active vaddr ⟨pagePhyaddr, true⟩

/-- `addr_v2p`. -/
def addrV2p (active vaddr : Nat) : PageCall pools Nat := do
  return (← readPte active vaddr).addr + vaddr % pgSize

/-- `page_table_pte_remove`. -/
def pageTablePteRemove (active vaddr : Nat) : PageCall pools Unit := do
  let pte ← readPte active vaddr
  writePte active vaddr { pte with present := false }

/-! ## Virtual pages -/

/-- Set consecutive bits, beginning at `start`. -/
def setBits {len : Nat} (btmp : Bitmap len) (start : Nat) (value : Bool) : Nat → Bitmap len
  | 0 => btmp
  | cnt + 1 => (setBits btmp start value cnt).set (start + cnt) value

/-- `vaddr_get`, for the running process. -/
def vaddrGet (cur : Nat) (pf : PoolFlags) (pgCnt : Nat) : PageCall pools (Option Nat) := do
  match pf with
  | .kernel =>
      match ← (← get).kernelVaddr.scan pgCnt with
      | none => return none
      | some start =>
          modify fun s => { s with kernelVaddr := setBits s.kernelVaddr start true pgCnt }
          return some (kHeapStart + start * pgSize)
  | .user =>
      let space ← spaceOf cur
      match ← space.vaddrBitmap.scan pgCnt with
      | none => return none
      | some start =>
          modify fun s => s.setSpace cur
            { space with vaddrBitmap := setBits space.vaddrBitmap start true pgCnt }
          require (userVaddrStart + start * pgSize < kernelBase - pgSize)
          return some (userVaddrStart + start * pgSize)

/-- `vaddr_remove`, for the running process. -/
def vaddrRemove (cur : Nat) (pf : PoolFlags) (vaddr pgCnt : Nat) : PageCall pools Unit := do
  match pf with
  | .kernel =>
      modify fun s => { s with
        kernelVaddr := setBits s.kernelVaddr ((vaddr - kHeapStart) / pgSize) false pgCnt }
  | .user =>
      let space ← spaceOf cur
      modify fun s => s.setSpace cur { space with
        vaddrBitmap := setBits space.vaddrBitmap ((vaddr - userVaddrStart) / pgSize) false pgCnt }

/-! ## Allocating and freeing pages -/

/-- The loop of `malloc_page`. The result tells whether all frames were allocated. -/
def mapPages (cur : Nat) (pf : PoolFlags) (vaddr : Nat) : Nat → PageCall pools Bool
  | 0 => return true
  | cnt + 1 => do
      match ← palloc pf with
      | none => return false
      | some pagePhyaddr =>
          pageTableAdd cur vaddr pagePhyaddr
          mapPages cur pf (vaddr + pgSize) cnt

/-- `malloc_page`. -/
def mallocPage (cur : Nat) (pf : PoolFlags) (pgCnt : Nat) : PageCall pools (Option Nat) := do
  require (0 < pgCnt ∧ pgCnt < 3840)
  match ← vaddrGet cur pf pgCnt with
  | none => return none
  | some vaddrStart =>
      if ← mapPages cur pf vaddrStart pgCnt then
        return some vaddrStart
      else
        return none

/-- `get_kernel_pages`. -/
def getKernelPages (cur pgCnt : Nat) : PageCall pools (Option Nat) :=
  mallocPage cur .kernel pgCnt

/-- `free_a_phy_page`: the pool is found by the address. -/
def freeAPhyPage (pgPhyAddr : Nat) : PageCall pools Unit :=
  modify fun s =>
    if pools.phyAddrStart .user ≤ pgPhyAddr then
      s.setFrame .user ((pgPhyAddr - pools.phyAddrStart .user) / pgSize) false
    else
      s.setFrame .kernel ((pgPhyAddr - pools.phyAddrStart .kernel) / pgSize) false

/-- `pfree`, which has the same body. -/
def pfree (pgPhyAddr : Nat) : PageCall pools Unit := freeAPhyPage pgPhyAddr

/-- What the loop of `mfree_page` asserts of each address, in the branch that the address of
the first page selects. -/
def InBranch (pools : Pools) (userBranch : Prop) (pgPhyAddr : Nat) : Prop :=
  pgPhyAddr % pgSize = 0 ∧
    (userBranch → pools.phyAddrStart .user ≤ pgPhyAddr) ∧
    (¬ userBranch → pools.phyAddrStart .kernel ≤ pgPhyAddr ∧
      pgPhyAddr < pools.phyAddrStart .user)

instance (userBranch : Prop) [Decidable userBranch] (pgPhyAddr : Nat) :
    Decidable (InBranch pools userBranch pgPhyAddr) :=
  inferInstanceAs (Decidable (_ ∧ (_ → _) ∧ (_ → _)))

/-- The loop of `mfree_page`. -/
def unmapPages (cur : Nat) (userBranch : Bool) (vaddr : Nat) : Nat → PageCall pools Unit
  | 0 => pure ()
  | cnt + 1 => do
      let pgPhyAddr ← addrV2p cur vaddr
      require (InBranch pools userBranch pgPhyAddr)
      pfree pgPhyAddr
      pageTablePteRemove cur vaddr
      unmapPages cur userBranch (vaddr + pgSize) cnt

/-- `mfree_page`. -/
def mfreePage (cur : Nat) (pf : PoolFlags) (vaddr pgCnt : Nat) : PageCall pools Unit := do
  require (1 ≤ pgCnt ∧ vaddr % pgSize = 0)
  let pgPhyAddr ← addrV2p cur vaddr
  require (pgPhyAddr % pgSize = 0 ∧ 0x102000 ≤ pgPhyAddr)
  unmapPages cur (pools.phyAddrStart .user ≤ pgPhyAddr) vaddr pgCnt
  vaddrRemove cur pf vaddr pgCnt

/-- `get_a_page`, for a user page of a process. -/
def getAPage (cur vaddr : Nat) : PageCall pools (Option Nat) := do
  let space ← spaceOf cur
  let bitIdx := (vaddr - userVaddrStart) / pgSize
  require (0 < bitIdx)
  modify fun s => s.setSpace cur { space with vaddrBitmap := space.vaddrBitmap.set bitIdx true }
  match ← palloc .user with
  | none => return none
  | some pagePhyaddr =>
      pageTableAdd cur vaddr pagePhyaddr
      return some vaddr

/-- `get_a_page_without_opvaddrbitmap`, for a user page. -/
def getAPageWithoutOpvaddrbitmap (active vaddr : Nat) : PageCall pools Unit := do
  if let some pagePhyaddr := (← palloc .user) then
    pageTableAdd active vaddr pagePhyaddr

/-! ## Processes -/

/-- `DIV_ROUND_UP`. -/
def divRoundUp (x step : Nat) : Nat := (x + step - 1) / step

/-- `bitmap_pg_cnt` where the bitmap of a process is allocated. -/
def bitmapPgCnt : Nat := divRoundUp userBtmpBytesLen pgSize

/-- `bitmap_pg_cnt` where the bitmap of a process is freed. -/
def freedBitmapPgCnt : Nat := userBtmpBytesLen / pgSize

/-- `create_page_dir`. The entries of the user half are zero, those of the kernel's half are the
shared ones. -/
def createPageDir (cur : Nat) : PageCall pools (Option Nat) := getKernelPages cur 1

/-- `process_execute`, called by a thread of the kernel, and the user stack that `start_process`
allocates. -/
def processExecute (pid : Nat) : PageCall pools Unit := do
  match ← getKernelPages pid 1, ← getKernelPages pid bitmapPgCnt, ← createPageDir pid with
  | some pcb, some bits, some pgdir =>
      modify fun s => s.setSpace pid
        { pcb, pgdir, bits, vaddrBitmap := ⟨Memory.zeros⟩, pde := fun _ => Pte.zero
          pte := fun _ => Pte.zero, parentPid := none, hanging := false }
      let _ ← getAPage pid userStack3Vaddr
  | _, _, _ => throw .badPointer

/-- The loop over the bits of a byte in `copy_body_stack3`; `left` bits are left. -/
def copyByte (child idxByte : Nat) (byte : Byte) : Nat → PageCall pools Unit
  | 0 => pure ()
  | left + 1 => do
      let idxBit := 8 - (left + 1)
      if byte.getLsbD idxBit then
        getAPageWithoutOpvaddrbitmap child
          ((idxByte * 8 + idxBit) * pgSize + userVaddrStart)
      copyByte child idxByte byte left

/-- The loop over bytes of the parent's bitmap in `copy_body_stack3`. -/
def copyBytes (child : Nat) (parentBits : Memory) : List Nat → PageCall pools Unit
  | [] => pure ()
  | idxByte :: rest => do
      if parentBits idxByte ≠ 0 then
        copyByte child idxByte (parentBits idxByte) 8
      copyBytes child parentBits rest

/-- `copy_body_stack3`. -/
def copyBodyStack3 (child : Nat) (parentSpace : Space) : PageCall pools Unit :=
  copyBytes child parentSpace.vaddrBitmap.bits (List.range userBtmpBytesLen)

/-- `copy_process`, for a control block and a process number. The result tells whether it
succeeded. -/
def copyProcess (parent child pcb : Nat) : PageCall pools Bool := do
  let parentSpace ← spaceOf parent
  match ← getKernelPages parent 1 with
  | none => return false
  | some bufPage =>
      match ← getKernelPages parent bitmapPgCnt with
      | none => return false
      | some bits =>
          match ← createPageDir parent with
          | none => return false
          | some pgdir =>
              modify fun s => s.setSpace child
                { pcb, pgdir, bits, vaddrBitmap := parentSpace.vaddrBitmap
                  pde := fun _ => Pte.zero, pte := fun _ => Pte.zero
                  parentPid := some parent, hanging := false }
              copyBodyStack3 child parentSpace
              mfreePage parent .kernel bufPage 1
              return true

/-- `sys_fork`. The result tells whether it succeeded. -/
def sysFork (parent child : Nat) : PageCall pools Bool := do
  match ← getKernelPages parent 1 with
  | none => return false
  | some pcb => copyProcess parent child pcb

/-- The loop over the entries of a page table in `release_prog_resource`. -/
def freePages (space : Space) : List Nat → PageCall pools Unit
  | [] => pure ()
  | page :: rest => do
      if (space.pte page).present then
        freeAPhyPage (space.pte page).addr
      freePages space rest

/-- The loop over the page directory in `release_prog_resource`. -/
def freeTables (space : Space) : List Nat → PageCall pools Unit
  | [] => pure ()
  | pdeIdx :: rest => do
      if (space.pde pdeIdx).present then
        freePages space (List.range' (pdeIdx * 1024) 1024)
        freeAPhyPage (space.pde pdeIdx).addr
      freeTables space rest

/-- `release_prog_resource`, for a process without open files. -/
def releaseProgResource (cur : Nat) : PageCall pools Unit := do
  let space ← spaceOf cur
  freeTables space (List.range 768)
  mfreePage cur .kernel space.bits freedBitmapPgCnt

/-- `init_adopt_a_child`, for a process that exits. -/
def Space.adopted (space : Space) (cur : Nat) : Space :=
  if space.parentPid = some cur then { space with parentPid := some 1 } else space

/-- `sys_exit`. -/
def sysExit (cur : Nat) : PageCall pools Unit := do
  modify fun s => { s with space := fun pid => (s.space pid).map fun space => space.adopted cur }
  releaseProgResource cur
  let space ← spaceOf cur
  modify fun s => s.setSpace cur { space with hanging := true }

/-- `thread_exit`, for a process that is not running. -/
def threadExit (cur threadOver : Nat) : PageCall pools Unit := do
  let space ← spaceOf threadOver
  mfreePage cur .kernel space.pgdir 1
  mfreePage cur .kernel space.pcb 1
  modify fun s => { s with space := Function.update s.space threadOver none }

/-! ## The system -/

/-- A call of a process. -/
inductive PageOp where
  /-- `sys_fork`. -/
  | fork (parent child : Nat)
  /-- `malloc_page(PF_USER, ..)`, called by `sys_malloc`. -/
  | malloc (cur pgCnt : Nat)
  /-- `mfree_page(PF_USER, ..)`, called by `sys_free`. -/
  | mfree (cur vaddr pgCnt : Nat)
  /-- `sys_exit`. -/
  | exit (cur : Nat)
  /-- `sys_wait`, which reaps a child. -/
  | wait (parent child : Nat)
  deriving DecidableEq, Repr

/-- A process that can make calls. -/
def Pages.Lives (s : Pages pools) (pid : Nat) : Prop :=
  ∃ space, s.space pid = some space ∧ space.hanging = false

/-- A page that a process has mapped. -/
def Space.Maps (space : Space) (page : Nat) : Prop :=
  page < 768 * 1024 ∧ (space.pde (page / 1024)).present = true ∧ (space.pte page).present = true

/-- When a call can be made: a new process has a new number, a process frees pages that it has
mapped, and only a child that has exited is reaped. A call that does not keep to this is no step. -/
def PageEnabled (s : Pages pools) : PageOp → Prop
  | .fork parent child => s.Lives parent ∧ s.space child = none
  | .malloc cur _ => s.Lives cur
  | .mfree cur vaddr pgCnt => s.Lives cur ∧ ∃ space, s.space cur = some space ∧
      ∀ k < pgCnt, space.Maps (vaddr / pgSize + k)
  | .exit cur => s.Lives cur
  | .wait parent child => s.Lives parent ∧ ∃ space, s.space child = some space ∧
      space.hanging = true ∧ space.parentPid = some parent

/-- Make a call. -/
def pageExec : PageOp → PageCall pools Unit
  | .fork parent child => do let _ ← sysFork parent child
  | .malloc cur pgCnt => do let _ ← mallocPage cur .user pgCnt
  | .mfree cur vaddr pgCnt => mfreePage cur .user vaddr pgCnt
  | .exit cur => sysExit cur
  | .wait parent child => threadExit parent child

/-- The pages after `mem_pool_init`: nothing is allocated. -/
def memPoolInit : Pages pools where
  poolBitmap _ := ⟨Memory.zeros⟩
  kernelVaddr := ⟨Memory.zeros⟩
  kernelPte _ := Pte.zero
  space _ := none

/-- The processes of a machine with the given pools, from the first process on. -/
def pages (pools : Pools) : TransitionSystem (Pages pools) PageOp where
  initial s := (processExecute 1).run memPoolInit = .ok ((), s)
  step s op next := PageEnabled s op ∧ (pageExec op).run s = .ok ((), next)

end UKernel.Paging
