import UKernel.Memory.HeapCalls
import UKernel.Memory.PageRequest

/-! # Requests for memory

`sys_malloc` on the pools, the page tables and the free lists at once: the free lists and arena
headers are those of `UKernel.Memory`, and the pages come from `malloc_page`. A request returns or
stops the kernel, and `UKernel.Paging.sysMalloc_answers_iff` says which.
-/

namespace UKernel.Paging

open UKernel.Library UKernel.Fs UKernel.Memory

/-- The pages, and the free lists and arena headers of the kernel (`none`) and of the processes. -/
structure Store (pools : Pools) where
  pages : Pages pools
  heap : Heap (Option Nat)

variable {allMem : Nat} {pools : Pools}

/-- A call on the pages. -/
def callPages {α : Type} (call : PageCall pools α) : Call (Store pools) α :=
  onPart Store.pages (fun s pages => { s with pages := pages }) call

theorem kernelPoolSize_le (allMem : Nat) :
    kernelFreePages allMem * pgSize ≤ (2 ^ 16 - 1) * pgSize := by
  apply Nat.mul_le_mul_right
  unfold kernelFreePages allFreePages
  omega

theorem userPoolSize_le (allMem : Nat) :
    userFreePages allMem * pgSize ≤ (2 ^ 16 - 1) * pgSize := by
  apply Nat.mul_le_mul_right
  unfold userFreePages allFreePages
  omega

/-- `mem_pool` and `pool_size` of `sys_malloc`. -/
def memPool (allMem : Nat) : PoolFlags → Pool
  | .kernel => ⟨true, kernelFreePages allMem * pgSize, kernelPoolSize_le allMem⟩
  | .user => ⟨false, userFreePages allMem * pgSize, userPoolSize_le allMem⟩

namespace Store

/-- `PF` of `sys_malloc`: a task with a page directory is a process. -/
def poolFlags (s : Store pools) (cur : Nat) : PoolFlags :=
  if (s.pages.space cur).isSome then .user else .kernel

/-- The owner of `descs` of `sys_malloc`. -/
def descs (s : Store pools) (cur : Nat) : Option Nat :=
  if (s.pages.space cur).isSome then some cur else none

end Store

/-- The call of `malloc_page` in `sys_malloc`: a large request has its own pages, and a small one
has a page split if the free list is empty. -/
def requestPages (cur : Nat) (pf : PoolFlags) (descs : Option Nat) (size : Nat) :
    Call (Store pools) (Option Nat) := do
  if size > 1024 then
    callPages (mallocPage cur pf (pageCnt size))
  else
    match descFor size with
    | none => return none
    | some descIdx =>
        if (← get).heap.freeList descs descIdx = [] then
          callPages (mallocPage cur pf 1)
        else
          return none

/-- The answer of `malloc_page` to the heap, where it returned. -/
def answerOf : Option Nat → PageAnswer
  | some a => .pages a
  | none => .null

/-- `sys_malloc`. -/
def sysMalloc (cur size : Nat) : Call (Store (memPoolSizes allMem)) (Option Nat) := do
  let s ← get
  let pf := s.poolFlags cur
  if ¬ (0 < size ∧ size < (memPool allMem pf).poolSize) then
    return none
  let page ← requestPages cur pf (s.descs cur) size
  let (block, heap) ← UKernel.Memory.sysMalloc (memPool allMem pf) s.heap (s.descs cur) size
    (answerOf page)
  modify fun s => { s with heap := heap }
  return block

/-- A request returns a block, or returns NULL and changes nothing. -/
def Answers (s : Store (memPoolSizes allMem)) (cur size : Nat) : Prop :=
  ∃ block s', (sysMalloc cur size).run s = .ok (block, s') ∧ (block = none → s' = s)

/-- A small request is answered: the free list is not torn, and its first block lies in an arena, or
it is empty and a page can be had. -/
def SmallAnswered (s : Store pools) (cur : Nat) (descIdx : DescIdx) : Prop :=
  s.heap.torn (s.descs cur) descIdx = false ∧ match s.heap.freeList (s.descs cur) descIdx with
  | [] => PagesAnswered s.pages cur (s.poolFlags cur) 1
  | b :: _ => (s.heap.arena (s.descs cur) (block2arena b)).isSome

/-- When a request returns: the size is refused, or the pages that it needs can be had. -/
def Answered (s : Store (memPoolSizes allMem)) (cur size : Nat) : Prop :=
  size = 0 ∨ (memPool allMem (s.poolFlags cur)).poolSize ≤ size ∨
    if size > 1024 then PagesAnswered s.pages cur (s.poolFlags cur) (pageCnt size)
    else ∃ descIdx, descFor size = some descIdx ∧ SmallAnswered s cur descIdx

variable {s s' : Store pools} {cur size : Nat} {pf : PoolFlags} {page : Option Nat}

/-! ## What the heap does with the pages -/

section

variable {h : Heap (Option Nat)} {t : Option Nat} {pool : Pool} {c : DescIdx}

/-- A large request with its pages. -/
theorem large_answers (accepted : 0 < size ∧ size < pool.poolSize) (large : size > 1024)
    (few : pageCnt size < 3840) :
    ∃ block heap, UKernel.Memory.sysMalloc pool h t size (answerOf page) = .ok (block, heap) ∧
      (block = none → page = none ∧ heap = h) := by
  obtain ⟨positive, -⟩ := pageCnt_ok size
  have asserted : UKernel.Memory.mallocPage (pageCnt size) (answerOf page) = .ok page := by
    cases page <;> simp [UKernel.Memory.mallocPage, answerOf, require_of, positive, few]
  rw [UKernel.Memory.sysMalloc, if_neg (not_not.mpr accepted), if_pos large, mallocLarge, asserted,
    except_ok_bind]
  cases page with
  | none => exact ⟨none, h, rfl, fun _ => ⟨rfl, rfl⟩⟩
  | some a => exact ⟨_, _, rfl, fun wrong => by cases wrong⟩

/-- A small request with a torn list. -/
theorem small_torn (torn : h.torn t c = true) (accepted : 0 < size ∧ size < pool.poolSize)
    (small : ¬ size > 1024) (desc : descFor size = some c) :
    UKernel.Memory.sysMalloc pool h t size (answerOf page) = .error .badPointer := by
  rw [UKernel.Memory.sysMalloc, if_neg (not_not.mpr accepted), if_neg small, mallocSmall, desc]
  exact if_pos torn

/-- A small request that finds a free block. -/
theorem small_listed {first : Nat} {rest : List Nat} (whole : h.torn t c = false)
    (accepted : 0 < size ∧ size < pool.poolSize) (small : ¬ size > 1024)
    (desc : descFor size = some c) (list : h.freeList t c = first :: rest) :
    (∃ block heap, UKernel.Memory.sysMalloc pool h t size (answerOf page) = .ok (block, heap) ∧
      (block = none → heap = h)) ↔ (h.arena t (block2arena first)).isSome := by
  have filled : h.freeList t c ≠ [] := by simp [list]
  rw [UKernel.Memory.sysMalloc, if_neg (not_not.mpr accepted), if_neg small,
    mallocSmall_whole desc whole]
  rw [refill, if_neg filled]
  rw [except_pure_eq, except_ok_bind]
  dsimp only
  cases found : h.arena t (block2arena first) with
  | none =>
      refine iff_of_false ?_ (by simp)
      rintro ⟨block, heap, ran, -⟩
      unfold popBlock at ran
      rw [list] at ran
      obtain ⟨a, wrong, -⟩ := except_bind_eq_ok.mp ran
      rw [Heap.header, found] at wrong
      cases wrong
  | some a =>
      refine iff_of_true ⟨_, _, popBlock_cons list found, fun wrong => by cases wrong⟩ rfl

/-- A small request that splits a page. -/
theorem small_split (whole : h.torn t c = false) (accepted : 0 < size ∧ size < pool.poolSize)
    (small : ¬ size > 1024) (desc : descFor size = some c) (empty : h.freeList t c = [])
    (onPage : ∀ a, page = some a → a % pgSize = 0) :
    ∃ block heap, UKernel.Memory.sysMalloc pool h t size (answerOf page) = .ok (block, heap) ∧
      (block = none → page = none ∧ heap = h) := by
  rw [UKernel.Memory.sysMalloc, if_neg (not_not.mpr accepted), if_neg small,
    mallocSmall_whole desc whole]
  rw [refill, if_pos empty]
  have asserted : UKernel.Memory.mallocPage 1 (answerOf page) = .ok page := by
    cases page <;> simp [UKernel.Memory.mallocPage, answerOf, require_of]
  dsimp only
  rw [asserted, except_ok_bind]
  cases page with
  | none => exact ⟨none, h, rfl, fun _ => ⟨rfl, rfl⟩⟩
  | some a =>
      have appended : appendBlocks (h.freeList t c) (arenaBlocks a c) = .ok (arenaBlocks a c) := by
        rw [empty]
        exact appendBlocks_ok arenaBlocks_nodup
      obtain ⟨first, rest, blocks⟩ : ∃ first rest, arenaBlocks a c = first :: rest := by
        refine List.exists_cons_of_ne_nil (List.ne_nil_of_length_pos ?_)
        rw [arenaBlocks_length]
        exact (blocksPerArena_le c).1
      have inside : block2arena first = a := by
        have member : first ∈ arenaBlocks a c := by
          rw [blocks]
          exact List.mem_cons_self ..
        exact (mem_arenaBlocks.mp member).page (onPage a rfl)
      dsimp only
      rw [appended, except_ok_bind, except_pure_eq, except_ok_bind]
      dsimp only
      have listed : ((h.setArena t a (some ⟨some (t, c), blocksPerArena c, false⟩)).setFreeList
          (t, c) (arenaBlocks a c)).freeList t c = first :: rest := by
        rw [Heap.setFreeList_freeList, Function.update_self, blocks]
      have present : ((h.setArena t a (some ⟨some (t, c), blocksPerArena c, false⟩)).setFreeList
          (t, c) (arenaBlocks a c)).arena t (block2arena first) =
            some ⟨some (t, c), blocksPerArena c, false⟩ := by
        rw [Heap.setFreeList_arena, Heap.setArena_arena, inside, Function.update_self]
      rw [popBlock_cons listed present]
      exact ⟨_, _, rfl, fun wrong => by cases wrong⟩

end

/-! ## The main result -/

variable {s s' : Store (memPoolSizes allMem)}

/-- A request that returns is a call of the heap, with what `malloc_page` came to. -/
theorem sysMalloc_heap {block : Option Nat} (ran : (sysMalloc cur size).run s = .ok (block, s')) :
    ∃ answer, UKernel.Memory.sysMalloc (memPool allMem (s.poolFlags cur)) s.heap (s.descs cur) size
      answer = .ok (block, s'.heap) := by
  obtain ⟨_, _, read, ran⟩ := call_bind_returns.mp ran
  obtain ⟨rfl, rfl⟩ := call_get_returns.mp read
  by_cases accepted : 0 < size ∧ size < (memPool allMem (s.poolFlags cur)).poolSize
  · dsimp only at ran
    rw [if_neg (not_not.mpr accepted)] at ran
    obtain ⟨page, mid, -, ran⟩ := call_bind_returns.mp ran
    obtain ⟨⟨block', heap⟩, _, lifted, ran⟩ := call_bind_returns.mp ran
    obtain ⟨taken, rfl⟩ := call_lift_returns.mp lifted
    obtain ⟨_, _, stored, ran⟩ := call_bind_returns.mp ran
    cases call_modify_returns.mp stored
    obtain ⟨rfl, rfl⟩ := call_pure_returns.mp ran
    exact ⟨answerOf page, taken⟩
  · dsimp only at ran
    rw [if_pos accepted] at ran
    obtain ⟨rfl, rfl⟩ := call_pure_returns.mp ran
    exact ⟨.null, by rw [UKernel.Memory.sysMalloc, if_pos accepted]⟩

/-- Where `malloc_page` stops the kernel, the heap is left by its assertion as well. -/
theorem requestPages_stops {fault : Fault}
    (accepted : 0 < size ∧ size < (memPool allMem (s.poolFlags cur)).poolSize)
    (whole : ∀ c, descFor size = some c → s.heap.torn (s.descs cur) c = false)
    (stops : (requestPages cur (s.poolFlags cur) (s.descs cur) size).run s = .error fault) :
    UKernel.Memory.sysMalloc (memPool allMem (s.poolFlags cur)) s.heap (s.descs cur) size .stops =
      .error .assertion := by
  have asserts : ∀ cnt, UKernel.Memory.mallocPage cnt .stops = .error .assertion := by
    intro cnt
    rw [UKernel.Memory.mallocPage, require]
    split <;> rfl
  rw [UKernel.Memory.sysMalloc, if_neg (not_not.mpr accepted)]
  by_cases large : size > 1024
  · rw [if_pos large, mallocLarge, asserts]
    rfl
  · rw [requestPages, if_neg large] at stops
    obtain ⟨c, desc, -⟩ := descFor_ok (Nat.not_lt.mp large)
    rw [desc] at stops
    dsimp only at stops
    rw [call_bind_of (call_get_returns.mpr ⟨rfl, rfl⟩)] at stops
    by_cases empty : s.heap.freeList (s.descs cur) c = []
    · rw [if_neg large, mallocSmall_whole desc (whole c desc), refill, if_pos empty, asserts]
      rfl
    · rw [if_neg empty] at stops
      cases stops

/-- A request that is not refused asks for its pages, and then takes the block. -/
theorem answers_accepted
    (accepted : 0 < size ∧ size < (memPool allMem (s.poolFlags cur)).poolSize) :
    Answers s cur size ↔ ∃ page mid block heap,
      (requestPages cur (s.poolFlags cur) (s.descs cur) size).run s = .ok (page, mid) ∧
      UKernel.Memory.sysMalloc (memPool allMem (s.poolFlags cur)) s.heap (s.descs cur) size
        (answerOf page) =
        .ok (block, heap) ∧ (block = none → { mid with heap := heap } = s) := by
  unfold Answers
  rw [sysMalloc, call_bind_of (call_get_returns.mpr ⟨rfl, rfl⟩)]
  dsimp only
  rw [if_neg (not_not.mpr accepted)]
  constructor
  · rintro ⟨block, s', ran, same⟩
    obtain ⟨page, mid, requested, ran⟩ := call_bind_returns.mp ran
    obtain ⟨⟨block', heap⟩, _, lifted, ran⟩ := call_bind_returns.mp ran
    obtain ⟨taken, rfl⟩ := call_lift_returns.mp lifted
    obtain ⟨_, _, stored, ran⟩ := call_bind_returns.mp ran
    cases call_modify_returns.mp stored
    obtain ⟨rfl, rfl⟩ := call_pure_returns.mp ran
    exact ⟨page, mid, block', heap, requested, taken, same⟩
  · rintro ⟨page, mid, block, heap, requested, taken, same⟩
    refine ⟨block, { mid with heap := heap }, ?_, same⟩
    rw [call_bind_of requested, call_bind_of (call_lift_returns.mpr ⟨taken, rfl⟩)]
    rfl

/-- A request that gets its pages from `malloc_page`. -/
theorem answers_paged {cnt : Nat}
    (accepted : 0 < size ∧ size < (memPool allMem (s.poolFlags cur)).poolSize)
    (paged : (requestPages cur (s.poolFlags cur) (s.descs cur) size).run s =
      (callPages (mallocPage cur (s.poolFlags cur) cnt)).run s)
    (answers : cnt < 3840 → ∀ page : Option Nat, (∀ a, page = some a → a % pgSize = 0) →
      ∃ block heap, UKernel.Memory.sysMalloc (memPool allMem (s.poolFlags cur)) s.heap
        (s.descs cur) size (answerOf page) = .ok (block, heap) ∧
          (block = none → page = none ∧ heap = s.heap)) :
    Answers s cur size ↔ PagesAnswered s.pages cur (s.poolFlags cur) cnt := by
  rw [answers_accepted accepted, paged]
  constructor
  · rintro ⟨page, mid, block, heap, requested, -⟩
    obtain ⟨pages, ran, -⟩ := onPart_returns.mp requested
    exact pagesAnswered_of_returns ran
  · intro answered
    obtain ⟨page, pages, ran, same, onPage⟩ := mallocPage_returns_iff.mpr answered
    obtain ⟨block, heap, taken, kept⟩ := answers answered.few.2 page onPage
    refine ⟨page, _, block, heap, onPart_returns.mpr ⟨pages, ran, rfl⟩, taken, fun isNone => ?_⟩
    obtain ⟨noPage, rfl⟩ := kept isNone
    rw [same noPage]

/-- **Requests for memory.** A request returns a block, or NULL with everything as it was, exactly
if its size is refused, or a block is free, or the pages it needs can be had. -/
theorem sysMalloc_answers_iff : Answers s cur size ↔ Answered s cur size := by
  by_cases accepted : 0 < size ∧ size < (memPool allMem (s.poolFlags cur)).poolSize
  case neg =>
    refine iff_of_true ⟨none, s, ?_, fun _ => rfl⟩ ?_
    · rw [sysMalloc, call_bind_of (call_get_returns.mpr ⟨rfl, rfl⟩)]
      dsimp only
      rw [if_pos accepted]
      rfl
    · rcases Nat.eq_zero_or_pos size with zero | positive
      · exact .inl zero
      · exact .inr (.inl (by omega))
  case pos =>
    have only : Answered s cur size ↔
        if size > 1024 then PagesAnswered s.pages cur (s.poolFlags cur) (pageCnt size)
        else ∃ descIdx, descFor size = some descIdx ∧ SmallAnswered s cur descIdx := by
      unfold Answered
      rw [or_iff_right (by omega), or_iff_right (by omega)]
    rw [only]
    by_cases large : size > 1024
    · rw [if_pos large]
      refine answers_paged accepted ?_ fun few page _ => large_answers accepted large few
      rw [requestPages, if_pos large]
    · rw [if_neg large]
      obtain ⟨c, desc, -⟩ := descFor_ok (Nat.not_lt.mp large)
      have selected : (∃ descIdx, descFor size = some descIdx ∧ SmallAnswered s cur descIdx) ↔
          SmallAnswered s cur c := by
        rw [desc]
        simp
      rw [selected, SmallAnswered]
      cases whole : s.heap.torn (s.descs cur) c with
      | true =>
          refine iff_of_false (fun answers => ?_) (by simp)
          obtain ⟨page, mid, block, heap, -, taken, -⟩ := (answers_accepted accepted).mp answers
          rw [small_torn whole accepted large desc] at taken
          cases taken
      | false =>
      rw [and_iff_right rfl]
      cases list : s.heap.freeList (s.descs cur) c with
      | nil =>
          refine answers_paged accepted ?_ fun _ page onPage =>
            small_split whole accepted large desc list onPage
          rw [requestPages, if_neg large, desc]
          dsimp only
          rw [call_bind_of (call_get_returns.mpr ⟨rfl, rfl⟩), if_pos list]
      | cons first rest =>
          have requested : (requestPages cur (s.poolFlags cur) (s.descs cur) size).run s =
              .ok (none, s) := by
            rw [requestPages, if_neg large, desc]
            dsimp only
            rw [call_bind_of (call_get_returns.mpr ⟨rfl, rfl⟩), if_neg (by simp [list])]
            rfl
          have listed : (∃ block heap, UKernel.Memory.sysMalloc (memPool allMem (s.poolFlags cur))
              s.heap (s.descs cur) size (answerOf none) = .ok (block, heap) ∧
                (block = none → heap = s.heap)) ↔
                (s.heap.arena (s.descs cur) (block2arena first)).isSome :=
            small_listed whole accepted large desc list
          rw [answers_accepted accepted, requested]
          dsimp only
          rw [← listed]
          constructor
          · rintro ⟨page, mid, block, heap, same, taken, kept⟩
            cases same
            exact ⟨block, heap, taken, fun isNone => congrArg Store.heap (kept isNone)⟩
          · rintro ⟨block, heap, taken, kept⟩
            exact ⟨none, s, block, heap, rfl, taken, fun isNone => by rw [kept isNone]⟩

/-- No page is allocated. -/
def emptyStore : Store pools where
  pages := memPoolInit
  heap := blockDescInit.toHeap

/-- With eight pages for the kernel, a request that takes them all leaves none for the next one. -/
theorem full_pool_stops : ∃ s : Store (memPoolSizes 0x220000),
    (sysMalloc 1 32756).run emptyStore = .ok (some (kHeapStart + arenaSize), s) ∧
      ¬ Answers s 1 1 := by
  have ran : valueOf (sysMalloc 1 32756) (emptyStore : Store (memPoolSizes 0x220000)) =
      some (some (kHeapStart + arenaSize)) := by
    decide +kernel
  have stops : valueOf (do let _ ← sysMalloc 1 32756; sysMalloc 1 1)
      (emptyStore : Store (memPoolSizes 0x220000)) = none := by
    decide +kernel
  obtain ⟨s, ran⟩ := exists_of_valueOf ran
  refine ⟨s, ran, ?_⟩
  rintro ⟨block, s', returned, -⟩
  unfold valueOf at stops
  rw [call_bind_of ran, returned] at stops
  cases stops

end UKernel.Paging
