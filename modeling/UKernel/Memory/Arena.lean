import UKernel.Library.Fault
import UKernel.Library.Transition

/-! # The heap

`sys_malloc` and `sys_free` of `memory.c`, for any number of tasks. Each task has seven
block descriptors, whose free lists are the block addresses in list order, and an address
space in which a heap page starts with its `struct arena`. The `desc` pointer of an arena
header names the task and the class of the descriptor it points to, so a header that was
copied to another address space still points to the descriptor of the task it was made for.
The links of a free list are in the blocks, that is, in the address space in which a block was
put on the list; a list whose links are in two address spaces is torn.

A virtual address is a number. `malloc_page` hands out pages of the task's address space;
what it answers is an argument of the model. The calls of one pool exclude each other through its
lock, so a call is one step.
-/

namespace UKernel.Memory

open UKernel.Library

/-- `PG_SIZE`. -/
abbrev pgSize : Nat := 4096

/-- `sizeof(struct arena)`. -/
abbrev arenaSize : Nat := 12

/-- `K_HEAP_START`. -/
abbrev kHeapStart : Nat := 0xc0100000

/-- The index of a block descriptor, below `DESC_CNT`. -/
abbrev DescIdx := Fin 7

/-- The block sizes `block_desc_init` computes: 16 doubled `desc_idx` times. -/
def blockSize (descIdx : DescIdx) : Nat :=
  16 * 2 ^ descIdx.val

/-- `blocks_per_arena`, as `block_desc_init` computes it. -/
def blocksPerArena (descIdx : DescIdx) : Nat :=
  (pgSize - arenaSize) / blockSize descIdx

/-- `arena2block`. -/
def arena2block (a : Nat) (descIdx : DescIdx) (idx : Nat) : Nat :=
  a + arenaSize + idx * blockSize descIdx

/-- `block2arena`: the address with its low twelve bits cleared. -/
def block2arena (b : Nat) : Nat :=
  b - b % pgSize

/-- The blocks of an arena, in the order in which a fresh arena is split. -/
def arenaBlocks (a : Nat) (descIdx : DescIdx) : List Nat :=
  (List.range (blocksPerArena descIdx)).map (arena2block a descIdx)

/-- `struct arena`. -/
structure Arena (Task : Type) where
  desc : Option (Task × DescIdx)
  cnt : Nat
  large : Bool
  deriving DecidableEq, Repr

/-- The number of pages an arena occupies. -/
def Arena.pages {Task : Type} (a : Arena Task) : Nat :=
  if a.large then a.cnt else 1

/-- What distinguishes the heap of a user process from the kernel heap. `pool_size` is a
number of pages, counted in sixteen bits, times the page size. -/
structure Pool where
  kernel : Bool
  poolSize : Nat
  poolSize_le : poolSize ≤ (2 ^ 16 - 1) * pgSize

/-- The lowest address that `malloc_page` returns: `K_HEAP_START` or `USER_VADDR_START`. -/
def Pool.vaddrStart (pool : Pool) : Nat :=
  if pool.kernel then kHeapStart else 0x8048000

/-- The free lists of every task's descriptors, whether a block was put on them from another
address space than their task's, and the arena headers in every task's address space. -/
structure Heap (Task : Type) where
  freeList : Task → DescIdx → List Nat
  torn : Task → DescIdx → Bool
  arena : Task → Nat → Option (Arena Task)

variable {Task : Type} [DecidableEq Task]

namespace Heap

/-- Write an arena header, or unmap its page. -/
def setArena (h : Heap Task) (t : Task) (a : Nat) (header : Option (Arena Task)) : Heap Task :=
  { h with arena := Function.update h.arena t (Function.update (h.arena t) a header) }

/-- Replace a free list. -/
def setFreeList (h : Heap Task) (desc : Task × DescIdx) (list : List Nat) : Heap Task :=
  let lists := Function.update (h.freeList desc.1) desc.2 list
  { h with freeList := Function.update h.freeList desc.1 lists }

/-- A block is put on a free list from the address space of a task. -/
def link (h : Heap Task) (t : Task) (desc : Task × DescIdx) (b : Nat) : Heap Task :=
  let h := h.setFreeList desc (h.freeList desc.1 desc.2 ++ [b])
  if desc.1 = t then h
  else
    { h with
      torn := Function.update h.torn desc.1 (Function.update (h.torn desc.1) desc.2 true) }

/-- Read the arena header at an address. -/
def header (h : Heap Task) (t : Task) (a : Nat) : Except Fault (Arena Task) :=
  match h.arena t a with
  | some header => .ok header
  | none => .error .badPointer

variable {h : Heap Task} {t u : Task} {a : Nat} {desc : Task × DescIdx}

@[simp] theorem setArena_arena (header : Option (Arena Task)) :
    (h.setArena t a header).arena t = Function.update (h.arena t) a header := by
  simp [setArena]

@[simp] theorem setArena_other (header : Option (Arena Task)) (other : u ≠ t) :
    (h.setArena t a header).arena u = h.arena u := by
  simp [setArena, other]

@[simp] theorem setArena_freeList (header : Option (Arena Task)) :
    (h.setArena t a header).freeList = h.freeList := rfl

@[simp] theorem setFreeList_freeList (descIdx : DescIdx) (list : List Nat) :
    (h.setFreeList (t, descIdx) list).freeList t =
      Function.update (h.freeList t) descIdx list := by
  simp [setFreeList]

@[simp] theorem setFreeList_other (list : List Nat) (other : u ≠ desc.1) :
    (h.setFreeList desc list).freeList u = h.freeList u := by
  simp [setFreeList, other]

@[simp] theorem setFreeList_arena (list : List Nat) :
    (h.setFreeList desc list).arena = h.arena := rfl

@[simp] theorem setFreeList_torn (list : List Nat) : (h.setFreeList desc list).torn = h.torn := rfl

@[simp] theorem setArena_torn (header : Option (Arena Task)) :
    (h.setArena t a header).torn = h.torn := rfl

/-- A task puts a block on a list of its own. -/
theorem link_own {c : DescIdx} {b : Nat} :
    h.link t (t, c) b = h.setFreeList (t, c) (h.freeList t c ++ [b]) :=
  if_pos rfl

omit [DecidableEq Task] in
theorem header_of {header : Arena Task} (present : h.arena t a = some header) :
    h.header t a = .ok header := by
  simp [Heap.header, present]

end Heap

/-- The descriptor that `sys_malloc` selects for a small request. -/
def descFor (size : Nat) : Option DescIdx :=
  (List.finRange 7).find? fun descIdx => size ≤ blockSize descIdx

/-- The number of pages `sys_malloc` requests for a large block. -/
def pageCnt (size : Nat) : Nat :=
  (size + arenaSize + pgSize - 1) / pgSize

/-- What `malloc_page` comes to: the address of the first page; `NULL`, if there are free addresses
but no run of as many as asked for; or an assertion of `bitmap_scan`, of `vaddr_get` or of
`page_table_add`, if there is no free address or no free frame at all. -/
inductive PageAnswer where
  | pages (a : Nat)
  | null
  | stops
  deriving DecidableEq, Repr

/-- `malloc_page`; what it comes to behind its assertion is given. -/
def mallocPage (pgCnt : Nat) (answer : PageAnswer) : Except Fault (Option Nat) := do
  require (0 < pgCnt ∧ pgCnt < 3840)
  match answer with
  | .pages a => pure (some a)
  | .null => pure none
  | .stops => throw .assertion

/-- `mfree_page`: unmap the pages of an arena. -/
def mfreePage (h : Heap Task) (t : Task) (vaddr : Nat) (pgCnt : Nat) :
    Except Fault (Heap Task) := do
  require (pgCnt ≥ 1 ∧ vaddr % pgSize = 0)
  pure (h.setArena t vaddr none)

/-- The loop of `sys_malloc` that appends the blocks of a fresh arena to a free list. -/
def appendBlocks (list : List Nat) : List Nat → Except Fault (List Nat)
  | [] => .ok list
  | b :: blocks => do
      require (b ∉ list)
      appendBlocks (list ++ [b]) blocks

/-- The loop of `sys_free` that takes the blocks of an unused arena off a free list. -/
def removeBlocks (list : List Nat) : List Nat → Except Fault (List Nat)
  | [] => .ok list
  | b :: blocks => do
      require (b ∈ list)
      removeBlocks (list.erase b) blocks

/-- The branch of `sys_malloc` for more than 1024 bytes. -/
def mallocLarge (h : Heap Task) (t : Task) (size : Nat) (answer : PageAnswer) :
    Except Fault (Option Nat × Heap Task) := do
  let a ← mallocPage (pageCnt size) answer
  match a with
  | none => pure (none, h)
  | some a => pure (some (a + arenaSize), h.setArena t a (some ⟨none, pageCnt size, true⟩))

/-- Split a fresh page into blocks when the free list is empty. -/
def refill (h : Heap Task) (t : Task) (descIdx : DescIdx) (answer : PageAnswer) :
    Except Fault (Option (Heap Task)) :=
  if h.freeList t descIdx = [] then do
    let a ← mallocPage 1 answer
    match a with
    | none => pure none
    | some a =>
        let list ← appendBlocks (h.freeList t descIdx) (arenaBlocks a descIdx)
        let header := ⟨some (t, descIdx), blocksPerArena descIdx, false⟩
        pure (some ((h.setArena t a (some header)).setFreeList (t, descIdx) list))
  else
    pure (some h)

/-- Take the first block of a free list, which is not torn. -/
def popBlock (h : Heap Task) (t : Task) (descIdx : DescIdx) :
    Except Fault (Option Nat × Heap Task) :=
  match h.freeList t descIdx with
  | [] => .error .badPointer
  | b :: rest => do
      let a ← h.header t (block2arena b)
      let header := { a with cnt := (a.cnt + 2 ^ 32 - 1) % 2 ^ 32 }
      pure (some b,
        (h.setFreeList (t, descIdx) rest).setArena t (block2arena b) (some header))

/-- The branch of `sys_malloc` for at most 1024 bytes. In a torn list `list_pop` follows what is in
the task's own memory at a block instead of links, and the run ends. -/
def mallocSmall (h : Heap Task) (t : Task) (size : Nat) (answer : PageAnswer) :
    Except Fault (Option Nat × Heap Task) :=
  match descFor size with
  | none => .error .outOfBounds
  | some descIdx =>
      if h.torn t descIdx then .error .badPointer
      else do
        let refilled ← refill h t descIdx answer
        match refilled with
        | none => pure (none, h)
        | some h => popBlock h t descIdx

/-- `sys_malloc`, where `malloc_page`, if it is called, answers as given. -/
def sysMalloc (pool : Pool) (h : Heap Task) (t : Task) (size : Nat) (answer : PageAnswer) :
    Except Fault (Option Nat × Heap Task) :=
  if ¬ (0 < size ∧ size < pool.poolSize) then
    .ok (none, h)
  else if size > 1024 then
    mallocLarge h t size answer
  else
    mallocSmall h t size answer

/-- Append a block to the free list its arena's descriptor points to, and give the page
back when all of its blocks are free. With a list that is torn already the run ends. -/
def freeSmall (h : Heap Task) (t : Task) (b : Nat) (a : Arena Task) (desc : Task × DescIdx) :
    Except Fault (Heap Task) :=
  if h.torn desc.1 desc.2 then .error .badPointer
  else do
    let h := h.link t desc b
    let a := { a with cnt := (a.cnt + 1) % 2 ^ 32 }
    let h := h.setArena t (block2arena b) (some a)
    if a.cnt = blocksPerArena desc.2 then do
      let list ← removeBlocks (h.freeList desc.1 desc.2) (arenaBlocks (block2arena b) desc.2)
      mfreePage (h.setFreeList desc list) t (block2arena b) 1
    else
      pure h

/-- `sys_free` once it has found the header: a large block goes with its pages. -/
def freeBlock (h : Heap Task) (t : Task) (ptr : Nat) (a : Arena Task) : Except Fault (Heap Task) :=
  match a.desc with
  | none => if a.large then mfreePage h t (block2arena ptr) a.cnt else .error .badPointer
  | some desc => freeSmall h t ptr a desc

/-- `sys_free`. -/
def sysFree (pool : Pool) (h : Heap Task) (t : Task) (ptr : Nat) : Except Fault (Heap Task) := do
  require (ptr ≠ 0)
  require (pool.kernel → kHeapStart ≤ ptr)
  let a ← h.header t (block2arena ptr)
  freeBlock h t ptr a

/-- A heap together with the blocks each task has obtained and not yet freed, each with the
size it was requested with. -/
structure HeapState (Task : Type) extends Heap Task where
  live : Task → Nat → Option Nat

/-- The calls of a task. -/
inductive HeapOp (Task : Type) where
  | malloc (t : Task) (size : Nat) (answer : PageAnswer)
  | free (t : Task) (ptr : Nat)
  deriving DecidableEq, Repr

/-- The task that makes a call. -/
def HeapOp.task : HeapOp Task → Task
  | .malloc t _ _ => t
  | .free t _ => t

/-- Run one call. -/
def heapExec (pool : Pool) (s : HeapState Task) : HeapOp Task → Except Fault (HeapState Task)
  | .malloc t size answer => do
      let (block, h) ← sysMalloc pool s.toHeap t size answer
      match block with
      | none => pure { s with toHeap := h }
      | some b => pure ⟨h, Function.update s.live t (Function.update (s.live t) b (some size))⟩
  | .free t ptr => do
      let h ← sysFree pool s.toHeap t ptr
      pure ⟨h, Function.update s.live t (Function.update (s.live t) ptr none)⟩

/-- The number of pages that a request asks `malloc_page` for. -/
def pagesFor (size : Nat) : Nat :=
  if size > 1024 then pageCnt size else 1

/-- The pages `malloc_page` may return in an address space: whole pages of its range, none of
them part of an arena. -/
def Unheld (pool : Pool) (arena : Nat → Option (Arena Task)) (page pgCnt : Nat) : Prop :=
  page % pgSize = 0 ∧ pool.vaddrStart ≤ page ∧ page + pgCnt * pgSize ≤ 2 ^ 32 ∧
    ∀ q a, arena q = some a → page + pgCnt * pgSize ≤ q ∨ q + a.pages * pgSize ≤ page

/-- A request comes to `malloc_page`: it is served, and it is large or finds its free list empty. -/
def NeedsPages (pool : Pool) (h : Heap Task) (t : Task) (size : Nat) : Prop :=
  (0 < size ∧ size < pool.poolSize) ∧
    (1024 < size ∨ ∃ c, descFor size = some c ∧ h.freeList t c = [])

/-- When a call is made: `malloc_page` returns pages not currently held, or `NULL` if it was asked
for more than one, and a task frees a live block of its own. -/
def HeapEnabled (pool : Pool) (s : HeapState Task) : HeapOp Task → Prop
  | .malloc t size answer => (∀ a, answer = .pages a → Unheld pool (s.arena t) a (pagesFor size)) ∧
      (answer = .null → NeedsPages pool s.toHeap t size → 1 < pagesFor size)
  | .free t ptr => ∃ size, s.live t ptr = some size

/-- `block_desc_init`: empty free lists, no heap page, nothing live. -/
def blockDescInit : HeapState Task where
  freeList := fun _ _ => []
  torn := fun _ _ => false
  arena := fun _ _ => none
  live := fun _ _ => none

/-- The heap of one task as a transition system. -/
def heap (pool : Pool) (t : Task) : TransitionSystem (HeapState Task) (HeapOp Task) where
  initial s := s = blockDescInit
  step s op next := op.task = t ∧ HeapEnabled pool s op ∧ heapExec pool s op = .ok next

end UKernel.Memory
