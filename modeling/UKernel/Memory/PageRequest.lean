import UKernel.Memory.MallocPage

/-! # Requests for pages

When `malloc_page` returns. It takes frames one by one, also for the page tables that are missing,
and `bitmap_scan` stops the kernel where a bitmap is full, because its assertion comes before its
return of -1; so `palloc` never returns NULL, and `malloc_page` returns NULL only before it has
taken anything. `UKernel.Paging.mallocPage_returns_iff` says of each state and number of pages
whether the call returns.
-/

namespace UKernel.Paging

open UKernel.Library UKernel.Fs UKernel.Memory

variable {pools : Pools} {s s' : Pages pools} {pf : PoolFlags} {b cur vaddr cnt page : Nat}

/-! ## Taking a frame -/

theorem taken_iff_of_free (small : b < pools.frames pf) (free : s.taken pf b = false) :
    (s.setFrame pf b true).freeFrames pf + 1 = s.freeFrames pf := by
  have member : b ∈ (Finset.range (pools.frames pf)).filter fun bitIdx =>
      s.taken pf bitIdx = false := by
    simp [small, free]
  have rest : (Finset.range (pools.frames pf)).filter
      (fun bitIdx => (s.setFrame pf b true).taken pf bitIdx = false) =
        ((Finset.range (pools.frames pf)).filter fun bitIdx =>
          s.taken pf bitIdx = false).erase b := by
    ext c
    rw [Finset.mem_erase, Finset.mem_filter, Finset.mem_filter, Pages.taken_setFrame]
    by_cases same : c = b
    · simp [same]
    · simp [same]
  unfold Pages.freeFrames
  rw [rest, Finset.card_erase_add_one member]

/-- Frames of the other pool are not counted. -/
theorem freeFrames_other {pf' : PoolFlags} {value : Bool} (other : pf' ≠ pf) :
    (s.setFrame pf b value).freeFrames pf' = s.freeFrames pf' := by
  unfold Pages.freeFrames
  congr 1
  refine Finset.filter_congr fun c _ => ?_
  rw [Pages.taken_setFrame, if_neg fun both => other both.1]

/-- `palloc` returns if there is a free frame. -/
theorem palloc_runs (some_ : 0 < s.freeFrames pf) :
    ∃ b, b < pools.frames pf ∧ s.taken pf b = false ∧
      (palloc pf).run s = .ok (some (frameAddr pools pf b), s.setFrame pf b true) := by
  obtain ⟨c, member⟩ := Finset.card_pos.mp some_
  rw [Finset.mem_filter, Finset.mem_range] at member
  obtain ⟨b, scanned, small, free, -⟩ := Bitmap.scan_free ⟨c, member⟩
  refine ⟨b, small, free, ?_⟩
  have lifted : (liftM ((s.poolBitmap pf).scan 1) : PageCall pools (Option Nat)).run s =
      .ok (some b, s) := call_lift_returns.mpr ⟨scanned, rfl⟩
  rw [palloc, call_bind_of (call_get_returns.mpr ⟨rfl, rfl⟩), call_bind_of lifted]
  rfl

/-- `palloc` takes one frame. -/
theorem palloc_takes {found : Option Nat} (ran : (palloc pf).run s = .ok (found, s')) :
    ∃ b, b < pools.frames pf ∧ s.taken pf b = false ∧ found = some (frameAddr pools pf b) ∧
      s' = s.setFrame pf b true ∧ s'.freeFrames pf + 1 = s.freeFrames pf ∧
      ∀ pf', pf' ≠ pf → s'.freeFrames pf' = s.freeFrames pf' := by
  obtain ⟨b, rfl, small, free, rfl⟩ := palloc_returns ran
  exact ⟨b, small, free, rfl, rfl, taken_iff_of_free small free, fun _ => freeFrames_other⟩

/-! ## Page tables that are missing -/

/-- The page directory of a process has a page table at an index. -/
def Pages.hasTable (s : Pages pools) (cur pdeIdx : Nat) : Bool :=
  (s.space cur).any fun space => (space.pde pdeIdx).present

/-- The indices of the page tables that a run of pages needs and that are not there. -/
def missingTables (hasTable : Nat → Bool) (page cnt : Nat) : Finset Nat :=
  ((Finset.range cnt).image fun k => (page + k) / 1024).filter fun pdeIdx => hasTable pdeIdx = false

theorem mem_missingTables {hasTable : Nat → Bool} {pdeIdx : Nat} :
    pdeIdx ∈ missingTables hasTable page cnt ↔
      (∃ k < cnt, (page + k) / 1024 = pdeIdx) ∧ hasTable pdeIdx = false := by
  simp [missingTables]

/-- The first page of a run needs its table, and the others those that are missing then. -/
theorem card_missingTables {hasTable hasTable' : Nat → Bool}
    (added : ∀ pdeIdx, hasTable' pdeIdx = (hasTable pdeIdx || decide (pdeIdx = page / 1024))) :
    (missingTables hasTable page (cnt + 1)).card =
      (missingTables hasTable' (page + 1) cnt).card +
        if hasTable (page / 1024) then 0 else 1 := by
  have split : ∀ pdeIdx, pdeIdx ∈ missingTables hasTable page (cnt + 1) ↔
      pdeIdx = page / 1024 ∧ hasTable (page / 1024) = false ∨
        pdeIdx ∈ missingTables hasTable' (page + 1) cnt := by
    intro pdeIdx
    rw [mem_missingTables, mem_missingTables, added]
    by_cases same : pdeIdx = page / 1024
    · rw [same]
      simp only [true_and, decide_true, Bool.or_true, Bool.true_eq_false, and_false, or_false]
      refine and_iff_right_of_imp fun _ => ⟨0, Nat.succ_pos _, by rw [Nat.add_zero]⟩
    · simp only [same, decide_false, Bool.or_false, false_and, false_or]
      refine and_congr_left fun _ => ⟨?_, ?_⟩
      · rintro ⟨k, small, here⟩
        cases k with
        | zero => exact absurd here.symm same
        | succ k => exact ⟨k, by omega, by rw [← here]; congr 1; omega⟩
      · rintro ⟨k, small, here⟩
        exact ⟨k + 1, by omega, by rw [← here]; congr 1; omega⟩
  cases present : hasTable (page / 1024) with
  | true =>
      have same :
          missingTables hasTable page (cnt + 1) = missingTables hasTable' (page + 1) cnt := by
        ext pdeIdx
        rw [split]
        simp [present]
      rw [same]
      rfl
  | false =>
      have same : missingTables hasTable page (cnt + 1) =
          insert (page / 1024) (missingTables hasTable' (page + 1) cnt) := by
        ext pdeIdx
        rw [split, Finset.mem_insert]
        simp [present]
      rw [same, Finset.card_insert_of_notMem]
      · rfl
      · rw [mem_missingTables, added]
        simp

/-! ## Mapping a page -/

section

variable {addr : Nat} {space : Space}

theorem spaceOf_runs (known : s.space cur = some space) : (spaceOf cur).run s = .ok (space, s) := by
  rw [spaceOf, call_bind_of (call_get_returns.mpr ⟨rfl, rfl⟩), known]
  rfl

/-- `page_table_add` of a page of the kernel returns if the page is not mapped. -/
theorem pageTableAdd_kernel (high : kHeapStart ≤ vaddr)
    (unmapped : s.frameAt cur (vaddr / pgSize) = none) :
    ∃ s', (pageTableAdd cur vaddr addr).run s = .ok ((), s') := by
  have notUser : ¬ vaddr < kernelBase := fun low => not_high low high
  have absent : (s.kernelPte (vaddr / pgSize)).present = false := by
    rw [frameAt_kernel (page_high high), Pte.frame] at unmapped
    by_contra present
    rw [Bool.not_eq_false] at present
    rw [if_pos present] at unmapped
    cases unmapped
  have read : (readPte cur vaddr).run s = .ok (s.kernelPte (vaddr / pgSize), s) := by
    rw [readPte, if_pos high, call_bind_of (call_get_returns.mpr ⟨rfl, rfl⟩)]
    rfl
  have asserted : (liftM (require ((s.kernelPte (vaddr / pgSize)).present = false)) :
      PageCall pools Unit).run s = .ok ((), s) :=
    call_lift_returns.mpr ⟨require_of absent, rfl⟩
  rw [pageTableAdd, if_neg notUser, call_bind_of read, call_bind_of asserted, writePte, if_pos high]
  exact ⟨_, call_modify_returns.mpr rfl⟩

/-- The end of `page_table_add` in the user half returns if the entry is not present. -/
theorem writeEntry_runs (low : vaddr < kernelBase) (known : s.space cur = some space)
    (present : (space.pde (vaddr / 0x400000)).present = true)
    (absent : (space.pte (vaddr / pgSize)).present = false) : (do
      require ((← readPte cur vaddr).present = false)
      writePte cur vaddr ⟨addr, true⟩ : PageCall pools Unit).run s = .ok ((), s.setSpace cur
        { space with pte := Function.update space.pte (vaddr / pgSize) ⟨addr, true⟩ }) := by
  have read : (readPte cur vaddr).run s = .ok (space.pte (vaddr / pgSize), s) := by
    rw [readPte, if_neg (not_high low), if_neg (Nat.not_le.mpr low),
      call_bind_of (spaceOf_runs known), if_pos present]
    rfl
  have asserted : (liftM (require ((space.pte (vaddr / pgSize)).present = false)) :
      PageCall pools Unit).run s = .ok ((), s) :=
    call_lift_returns.mpr ⟨require_of absent, rfl⟩
  rw [call_bind_of read, call_bind_of asserted, writePte, if_neg (not_high low),
    if_neg (Nat.not_le.mpr low), call_bind_of (spaceOf_runs known)]
  exact call_modify_returns.mpr rfl

/-- A process has a page table more, or the same ones. -/
theorem hasTable_setSpace {space' : Space} {i : Nat} :
    (s.setSpace cur space').hasTable cur i = (space'.pde i).present := by
  rw [Pages.hasTable, setSpace_space, Option.any_some]

/-- `page_table_add` of a user page returns if the page is not mapped and its page table is there
or there is a frame for it; a table that was missing takes a frame. -/
theorem pageTableAdd_user (low : vaddr < kernelBase) (known : s.space cur = some space)
    (unmapped : s.frameAt cur (vaddr / pgSize) = none)
    (room : s.hasTable cur (vaddr / pgSize / 1024) = true ∨ 0 < s.freeFrames .kernel) :
    ∃ s', (pageTableAdd cur vaddr addr).run s = .ok ((), s') := by
  have hasTable : s.hasTable cur (vaddr / pgSize / 1024) =
      (space.pde (vaddr / 0x400000)).present := by
    rw [Pages.hasTable, known, Option.any_some, page_of_vaddr]
  rw [frameAt_user (page_low low) known, Space.frameAt, page_of_vaddr] at unmapped
  rw [pageTableAdd, if_pos low, call_bind_of (spaceOf_runs known)]
  by_cases present : (space.pde (vaddr / 0x400000)).present = true
  · rw [if_neg (not_not.mpr present)]
    have absent : (space.pte (vaddr / pgSize)).present = false := by
      rw [if_pos present, Pte.frame] at unmapped
      by_contra mapped
      rw [Bool.not_eq_false] at mapped
      rw [if_pos mapped] at unmapped
      cases unmapped
    exact ⟨_, writeEntry_runs low known present absent⟩
  · rw [if_pos present]
    rw [hasTable] at room
    obtain ⟨c, -, -, ran⟩ := palloc_runs (room.resolve_left present)
    have added : (addTable cur vaddr).run s = .ok ((), (s.setFrame .kernel c true).setSpace cur
        (space.addTable (vaddr / 0x400000) (frameAddr pools .kernel c))) := by
      have known' : (s.setFrame .kernel c true).space cur = some space := known
      rw [addTable, call_bind_of ran, call_bind_of (spaceOf_runs known')]
      exact call_modify_returns.mpr rfl
    rw [call_bind_of added]
    refine ⟨_, writeEntry_runs low setSpace_space ?_ ?_⟩
    · simp [Space.addTable]
    · simp [Space.addTable, page_of_vaddr, Pte.zero]

/-- What `page_table_add` of a user page takes. -/
theorem pageTableAdd_user_takes (low : vaddr < kernelBase)
    (ran : (pageTableAdd cur vaddr addr).run s = .ok ((), s')) :
    s'.freeFrames .user = s.freeFrames .user ∧
      s'.freeFrames .kernel + (if s.hasTable cur (vaddr / pgSize / 1024) then 0 else 1) =
        s.freeFrames .kernel ∧
      (∃ space, s'.space cur = some space) ∧ ∀ i, s'.hasTable cur i =
        (s.hasTable cur i || decide (i = vaddr / pgSize / 1024)) := by
  rw [pageTableAdd, if_pos low] at ran
  obtain ⟨space, _, read, ran⟩ := call_bind_returns.mp ran
  obtain ⟨known, rfl⟩ := spaceOf_returns read
  have tables : ∀ i, s.hasTable cur i = (space.pde i).present := by
    intro i
    rw [Pages.hasTable, known, Option.any_some]
  rw [page_of_vaddr, tables]
  by_cases present : (space.pde (vaddr / 0x400000)).present = true
  · rw [if_neg (not_not.mpr present)] at ran
    obtain ⟨entry, _, read, ran⟩ := call_bind_returns.mp ran
    obtain ⟨-, rfl, rfl⟩ := readPte_user low known read
    obtain ⟨_, _, required, ran⟩ := call_bind_returns.mp ran
    obtain ⟨-, rfl⟩ := call_lift_returns.mp required
    rw [writePte, if_neg (not_high low), if_neg (Nat.not_le.mpr low),
      call_bind_of (spaceOf_runs known)] at ran
    cases call_modify_returns.mp ran
    refine ⟨rfl, by rw [if_pos present]; rfl, ⟨_, setSpace_space⟩, fun i => ?_⟩
    rw [hasTable_setSpace, tables]
    by_cases same : i = vaddr / 0x400000
    · simp [same, present]
    · simp [same]
  · rw [if_pos present] at ran
    obtain ⟨_, middle, added, ran⟩ := call_bind_returns.mp ran
    obtain ⟨table, _, allocated, added⟩ := call_bind_returns.mp added
    obtain ⟨c, -, -, rfl, rfl, fewer, others⟩ := palloc_takes allocated
    obtain ⟨space', _, read, added⟩ := call_bind_returns.mp added
    obtain ⟨found, rfl⟩ := spaceOf_returns read
    cases known.symm.trans found
    cases call_modify_returns.mp added
    obtain ⟨entry, _, read, ran⟩ := call_bind_returns.mp ran
    obtain ⟨-, rfl, rfl⟩ := readPte_user low setSpace_space read
    obtain ⟨_, _, required, ran⟩ := call_bind_returns.mp ran
    obtain ⟨-, rfl⟩ := call_lift_returns.mp required
    rw [writePte, if_neg (not_high low), if_neg (Nat.not_le.mpr low),
      call_bind_of (spaceOf_runs setSpace_space)] at ran
    cases call_modify_returns.mp ran
    refine ⟨others .user (by simp), by rw [if_neg present]; exact fewer, ⟨_, setSpace_space⟩,
      fun i => ?_⟩
    rw [hasTable_setSpace, tables]
    change (Function.update space.pde (vaddr / 0x400000) _ i).present = _
    by_cases same : i = vaddr / 0x400000
    · simp [same]
    · simp [same]

end

/-! ## Mapping a run of pages -/

/-- The addresses that the loop of `malloc_page` comes to. -/
def Reaches (s : Pages pools) (cur : Nat) (pf : PoolFlags) (vaddr : Nat) : Prop :=
  match pf with
  | .kernel => kHeapStart ≤ vaddr
  | .user => vaddr < kHeapStart ∧ ∃ space, s.space cur = some space

/-- There is a page table for a page, or a frame for one. -/
def TableRoom (s : Pages pools) (cur : Nat) (pf : PoolFlags) (page : Nat) : Prop :=
  pf = .user → s.hasTable cur (page / 1024) = true ∨ 0 < s.freeFrames .kernel

/-- A run of pages can be mapped: there are frames for the pages and for the page tables that are
missing, and none of the pages is mapped. -/
def Served (s : Pages pools) (cur : Nat) (pf : PoolFlags) (page cnt : Nat) : Prop :=
  cnt ≤ s.freeFrames pf ∧
    (pf = .user → (missingTables (s.hasTable cur) page cnt).card ≤ s.freeFrames .kernel) ∧
    ∀ k < cnt, s.frameAt cur (page + k) = none

/-- The low megabyte is mapped. -/
theorem low_of_unmapped (below : vaddr < kHeapStart)
    (unmapped : s.frameAt cur (vaddr / pgSize) = none) : vaddr < kernelBase := by
  by_contra high
  unfold Pages.frameAt at unmapped
  rw [kHeapStart_page, kernelBase_page] at unmapped
  unfold kHeapStart at below
  unfold kernelBase at high
  unfold pgSize at unmapped
  rw [if_neg (by omega), if_pos (by omega)] at unmapped
  cases unmapped

theorem pageTableAdd_runs (addr : Nat) (reaches : Reaches s cur pf vaddr)
    (unmapped : s.frameAt cur (vaddr / pgSize) = none)
    (room : TableRoom s cur pf (vaddr / pgSize)) :
    ∃ s', (pageTableAdd cur vaddr addr).run s = .ok ((), s') := by
  cases pf with
  | kernel => exact pageTableAdd_kernel reaches unmapped
  | user =>
      obtain ⟨below, space, known⟩ := reaches
      exact pageTableAdd_user (low_of_unmapped below unmapped) known unmapped (room rfl)

/-- What `page_table_add` takes of the frames. -/
theorem pageTableAdd_takes {addr : Nat} (reaches : Reaches s cur pf vaddr)
    (ran : (pageTableAdd cur vaddr addr).run s = .ok ((), s')) :
    s.frameAt cur (vaddr / pgSize) = none ∧ Rewrites s s' cur (vaddr / pgSize) (some addr) ∧
      s'.freeFrames pf = s.freeFrames pf ∧ Reaches s' cur pf (vaddr + pgSize) ∧
      (pf = .user → s'.freeFrames .kernel + (if s.hasTable cur (vaddr / pgSize / 1024) then 0
        else 1) =
        s.freeFrames .kernel ∧ ∀ i, s'.hasTable cur i =
          (s.hasTable cur i || decide (i = vaddr / pgSize / 1024))) := by
  cases pf with
  | kernel =>
      have half : InHalf .kernel vaddr := reaches
      obtain ⟨unmapped, rewrites, same⟩ := pageTableAdd_maps half ran
      refine ⟨unmapped, rewrites, ?_, Nat.le_add_right_of_le reaches, fun wrong => by cases wrong⟩
      unfold Pages.freeFrames
      simp only [same]
  | user =>
      obtain ⟨below, space, known⟩ := reaches
      have low := pageTableAdd_low below ran
      obtain ⟨unmapped, rewrites, -⟩ := pageTableAdd_maps (show InHalf .user vaddr from low) ran
      obtain ⟨user, kernel, known', tables⟩ := pageTableAdd_user_takes low ran
      refine ⟨unmapped, rewrites, user, ⟨?_, known'⟩, fun _ => ⟨kernel, tables⟩⟩
      unfold kernelBase at low
      unfold kHeapStart pgSize
      omega

/-- The loop of `malloc_page` maps all pages if it returns: `palloc` does not return NULL. -/
theorem mapPages_true {done : Bool} (ran : (mapPages cur pf vaddr cnt).run s = .ok (done, s')) :
    done = true := by
  induction cnt generalizing s vaddr with
  | zero => exact (call_pure_returns.mp ran).1.symm
  | succ cnt ih =>
      obtain ⟨found, _, allocated, ran⟩ := call_bind_returns.mp ran
      obtain ⟨b, -, -, rfl, -⟩ := palloc_takes allocated
      obtain ⟨_, _, -, ran⟩ := call_bind_returns.mp ran
      exact ih ran

/-- What one round of the loop takes, whether or not the later ones return: `mid` is the state after
`palloc`. -/
theorem served_round {mid after : Pages pools} {addr : Nat} (cnt : Nat)
    (reaches : Reaches s cur pf vaddr)
    (fewer : s.freeFrames pf = mid.freeFrames pf + 1)
    (others : ∀ pf', pf' ≠ pf → mid.freeFrames pf' = s.freeFrames pf')
    (space : mid.space = s.space) (frameAt : mid.frameAt = s.frameAt)
    (ran : (pageTableAdd cur vaddr addr).run mid = .ok ((), after)) :
    Reaches after cur pf (vaddr + pgSize) ∧ (Served s cur pf (vaddr / pgSize) (cnt + 1) ↔
      Served after cur pf ((vaddr + pgSize) / pgSize) cnt) := by
  have reachesMid : Reaches mid cur pf vaddr := by
    cases pf with
    | kernel => exact reaches
    | user => exact ⟨reaches.1, space ▸ reaches.2⟩
  obtain ⟨unmapped, rewrites, same, further, user⟩ := pageTableAdd_takes reachesMid ran
  have hasTable : mid.hasTable = s.hasTable := by
    unfold Pages.hasTable
    rw [space]
  refine ⟨further, ?_⟩
  rw [next_page]
  refine and_congr (by omega) (and_congr (forall_congr' fun isUser => ?_) ?_)
  · obtain ⟨kernel, tables⟩ := user isUser
    rw [hasTable] at kernel tables
    rw [others .kernel (by simp [isUser])] at kernel
    rw [card_missingTables tables]
    omega
  · constructor
    · intro all k small
      rw [rewrites.others _ _ (not_sameEntry (by omega)), frameAt,
        show vaddr / pgSize + 1 + k = vaddr / pgSize + (k + 1) by omega]
      exact all (k + 1) (by omega)
    · intro rest k small
      cases k with
      | zero =>
          rw [← frameAt]
          exact unmapped
      | succ k =>
          have later := rest k (by omega)
          rw [rewrites.others _ _ (not_sameEntry (by omega)), frameAt] at later
          rw [show vaddr / pgSize + (k + 1) = vaddr / pgSize + 1 + k by omega]
          exact later

/-- The loop of `malloc_page` returns exactly when the run can be mapped. -/
theorem mapPages_runs_iff (reaches : Reaches s cur pf vaddr) :
    (∃ s', (mapPages cur pf vaddr cnt).run s = .ok (true, s')) ↔
      Served s cur pf (vaddr / pgSize) cnt := by
  induction cnt generalizing s vaddr with
  | zero =>
      refine iff_of_true ⟨s, rfl⟩ ⟨Nat.zero_le _, fun _ => ?_, fun k small =>
        absurd small (Nat.not_lt_zero k)⟩
      simp [missingTables]
  | succ cnt ih =>
      constructor
      · rintro ⟨s', ran⟩
        obtain ⟨found, mid, allocated, ran⟩ := call_bind_returns.mp ran
        obtain ⟨b, -, -, rfl, rfl, fewer, others⟩ := palloc_takes allocated
        obtain ⟨_, after, added, ran⟩ := call_bind_returns.mp ran
        obtain ⟨further, served⟩ := served_round cnt reaches fewer.symm others rfl rfl added
        exact served.mpr ((ih further).mp ⟨s', ran⟩)
      · intro served
        have ⟨enough, tables, unmapped⟩ := served
        have some_ : 0 < s.freeFrames pf := by omega
        obtain ⟨b, small, free, allocated⟩ := palloc_runs some_
        obtain ⟨c, -, -, -, -, fewer, others⟩ := palloc_takes allocated
        have first := unmapped 0 (Nat.succ_pos _)
        have reachesMid : Reaches (s.setFrame pf b true) cur pf vaddr := by
          cases pf <;> exact reaches
        have room : TableRoom (s.setFrame pf b true) cur pf (vaddr / pgSize) := by
          intro isUser
          rw [others .kernel (by simp [isUser])]
          by_contra neither
          push Not at neither
          have missing : vaddr / pgSize / 1024 ∈
              missingTables (s.hasTable cur) (vaddr / pgSize) (cnt + 1) := by
            rw [mem_missingTables]
            have absent : ¬ s.hasTable cur (vaddr / pgSize / 1024) = true := neither.1
            exact ⟨⟨0, Nat.succ_pos _, by rw [Nat.add_zero]⟩, by simpa using absent⟩
          have positive := Finset.card_pos.mpr ⟨_, missing⟩
          have bound := tables isUser
          omega
        obtain ⟨after, added⟩ := pageTableAdd_runs (frameAddr pools pf b) reachesMid first room
        obtain ⟨further, same⟩ := served_round cnt reaches fewer.symm others rfl rfl added
        obtain ⟨s', rest⟩ := (ih further).mpr (same.mp served)
        refine ⟨s', ?_⟩
        rw [mapPages, call_bind_of allocated, call_bind_of added]
        exact rest

/-! ## Reserving virtual pages -/

/-- The run of virtual pages that `vaddr_get` finds. -/
def FindsRun (s : Pages pools) (cur : Nat) (pf : PoolFlags) (cnt start : Nat) : Prop :=
  match pf with
  | .kernel => s.kernelVaddr.FirstFree cnt start ∧
      start + cnt ≤ Bitmap.scanned (pools.btmpBytesLen .kernel) cnt
  | .user => ∃ space, s.space cur = some space ∧ space.vaddrBitmap.FirstFree cnt start ∧
      start + cnt ≤ Bitmap.scanned userBtmpBytesLen cnt

/-- There is a free virtual page. -/
def HasFreePage (s : Pages pools) (cur : Nat) (pf : PoolFlags) : Prop :=
  ∃ i < pools.vaddrPages pf, s.vaddrBit cur pf i = some false

/-- The limit that `vaddr_get` asserts for the pages of a process. -/
def BelowLimit (pf : PoolFlags) (start : Nat) : Prop :=
  pf = .user → userVaddrStart + start * pgSize < kernelBase - pgSize

/-- Reserving virtual pages leaves everything else that `malloc_page` looks at as it is. -/
structure Reserved (s s' : Pages pools) (cur : Nat) : Prop where
  frameAt : s'.frameAt = s.frameAt
  taken : s'.taken = s.taken
  tables : s'.hasTable cur = s.hasTable cur
  known : (s'.space cur).isSome = (s.space cur).isSome

theorem Reserved.served (reserved : Reserved s s' cur) :
    Served s' cur pf page cnt ↔ Served s cur pf page cnt := by
  unfold Served Pages.freeFrames
  rw [reserved.frameAt, reserved.taken, reserved.tables]

theorem reserved_kernel {btmp : Bitmap (pools.btmpBytesLen .kernel)} :
    Reserved s { s with kernelVaddr := btmp } cur :=
  ⟨rfl, rfl, rfl, rfl⟩

theorem reserved_user {space : Space} {btmp : Bitmap userBtmpBytesLen}
    (known : s.space cur = some space) :
    Reserved s (s.setSpace cur { space with vaddrBitmap := btmp }) cur where
  frameAt := by
    funext pid page
    rw [frameAt_setSpace]
    split
    case isTrue both =>
        obtain ⟨rfl, low⟩ := both
        rw [frameAt_user low known]
        rfl
    case isFalse => rfl
  taken := rfl
  tables := by
    funext i
    rw [hasTable_setSpace, Pages.hasTable, known]
    rfl
  known := by rw [setSpace_space, known]; rfl

/-- What `vaddr_get` does if there is a free virtual page. -/
theorem vaddrGet_runs (positive : 0 < cnt) (free : HasFreePage s cur pf) :
    (vaddrGet cur pf cnt).run s = .ok (none, s) ∧ (∀ start, ¬ FindsRun s cur pf cnt start) ∨
      ∃ start mid, (∀ start', FindsRun s cur pf cnt start' ↔ start' = start) ∧
        Reserved s mid cur ∧ ∀ result, (vaddrGet cur pf cnt).run s = .ok result ↔
          BelowLimit pf start ∧ result = (some (vaddrStart pf + start * pgSize), mid) := by
  obtain ⟨i, small, clear⟩ := free
  cases pf with
  | kernel =>
      obtain ⟨found, ran, first⟩ :=
        Bitmap.scan_first positive ⟨i, small, Option.some_inj.mp clear⟩
      have lifted : (liftM (s.kernelVaddr.scan cnt) : PageCall pools (Option Nat)).run s =
          .ok (found, s) := call_lift_returns.mpr ⟨ran, rfl⟩
      rw [vaddrGet, call_bind_of (call_get_returns.mpr ⟨rfl, rfl⟩), call_bind_of lifted]
      cases found with
      | none => exact .inl ⟨rfl, fun start finds => by simpa using (first start).mpr finds⟩
      | some start =>
          refine .inr ⟨start, { s with kernelVaddr := setBits s.kernelVaddr start true cnt },
            fun start' => ?_, reserved_kernel, fun result => ?_⟩
          · exact (first start').symm.trans (by rw [Option.some_inj]; exact eq_comm)
          · constructor
            · intro same
              refine ⟨fun wrong => ?_, (Except.ok.inj same).symm⟩
              cases wrong
            · intro both
              exact congrArg Except.ok both.2.symm
  | user =>
      cases known : s.space cur with
      | none =>
          change (s.space cur).map _ = _ at clear
          rw [known] at clear
          cases clear
      | some space =>
          change (s.space cur).map _ = _ at clear
          rw [known, Option.map_some] at clear
          obtain ⟨found, ran, first⟩ :=
            Bitmap.scan_first positive ⟨i, small, Option.some_inj.mp clear⟩
          have finds_iff : ∀ start, FindsRun s cur .user cnt start ↔ found = some start := by
            intro start
            rw [first]
            constructor
            · rintro ⟨space', known', finds⟩
              cases known.symm.trans known'
              exact finds
            · intro finds
              exact ⟨space, known, finds⟩
          have lifted : (liftM (space.vaddrBitmap.scan cnt) : PageCall pools (Option Nat)).run s =
              .ok (found, s) := call_lift_returns.mpr ⟨ran, rfl⟩
          rw [vaddrGet, call_bind_of (spaceOf_runs known), call_bind_of lifted]
          cases found with
          | none => exact .inl ⟨rfl, fun start finds => by simpa using (finds_iff start).mp finds⟩
          | some start =>
              refine .inr ⟨start, s.setSpace cur { space with
                vaddrBitmap := setBits space.vaddrBitmap start true cnt },
                fun start' => ?_, reserved_user known, fun result => ?_⟩
              · rw [finds_iff, Option.some_inj, eq_comm]
              · rw [call_bind_of (call_modify_returns.mpr rfl)]
                constructor
                · intro ran
                  obtain ⟨value, s'⟩ := result
                  obtain ⟨_, _, required, ran⟩ := call_bind_returns.mp ran
                  obtain ⟨below, rfl⟩ := call_lift_returns.mp required
                  obtain ⟨rfl, rfl⟩ := call_pure_returns.mp ran
                  exact ⟨fun _ => require_eq_ok.mp below, rfl⟩
                · rintro ⟨below, rfl⟩
                  exact call_bind_returns.mpr ⟨_, _, call_lift_returns.mpr
                    ⟨require_of (below rfl), rfl⟩, call_pure_returns.mpr ⟨rfl, rfl⟩⟩

/-- `vaddr_get` returns only if there is a free virtual page. -/
theorem hasFreePage_of_vaddrGet {found : Option Nat}
    (ran : (vaddrGet cur pf cnt).run s = .ok (found, s')) : HasFreePage s cur pf := by
  cases pf with
  | kernel =>
      obtain ⟨_, _, read, ran⟩ := call_bind_returns.mp ran
      obtain ⟨rfl, rfl⟩ := call_get_returns.mp read
      obtain ⟨_, _, lifted, -⟩ := call_bind_returns.mp ran
      obtain ⟨i, small, clear⟩ := Bitmap.exists_free_of_scan (call_lift_returns.mp lifted).1
      exact ⟨i, small, congrArg some clear⟩
  | user =>
      obtain ⟨space, _, read, ran⟩ := call_bind_returns.mp ran
      obtain ⟨known, rfl⟩ := spaceOf_returns read
      obtain ⟨_, _, lifted, -⟩ := call_bind_returns.mp ran
      obtain ⟨i, small, clear⟩ := Bitmap.exists_free_of_scan (call_lift_returns.mp lifted).1
      refine ⟨i, small, ?_⟩
      change (s.space cur).map _ = _
      rw [known, Option.map_some, clear]

/-! ## `malloc_page` -/

/-- `malloc_page` answers: it is asked for few pages, there is a free virtual page, and the run of
virtual pages that is found, if any, lies below the limit and can be mapped. -/
structure PagesAnswered (s : Pages pools) (cur : Nat) (pf : PoolFlags) (cnt : Nat) : Prop where
  few : 0 < cnt ∧ cnt < 3840
  free : HasFreePage s cur pf
  room : ∀ start, FindsRun s cur pf cnt start →
    BelowLimit pf start ∧ Served s cur pf (vaddrStart pf / pgSize + start) cnt

/-- The loop begins at an address of its half. -/
theorem Reserved.reaches {start : Nat} (reserved : Reserved s s' cur) (below : BelowLimit pf start)
    (finds : FindsRun s cur pf cnt start) :
    Reaches s' cur pf (vaddrStart pf + start * pgSize) := by
  cases pf with
  | kernel => exact Nat.le_add_right _ _
  | user =>
      obtain ⟨space, known, -⟩ := finds
      refine ⟨?_, Option.isSome_iff_exists.mp (reserved.known.trans (by rw [known]; rfl))⟩
      have limit := below rfl
      change userVaddrStart + start * pgSize < kHeapStart
      unfold kernelBase at limit
      unfold kHeapStart
      unfold pgSize at *
      omega

/-- `malloc_page` returns only if it answers. -/
theorem pagesAnswered_of_returns {found : Option Nat}
    (ran : (mallocPage cur pf cnt).run s = .ok (found, s')) : PagesAnswered s cur pf cnt := by
  obtain ⟨_, _, required, ran⟩ := call_bind_returns.mp ran
  obtain ⟨few, rfl⟩ := call_lift_returns.mp required
  rw [require_eq_ok] at few
  obtain ⟨vaddr, mid, got, ran⟩ := call_bind_returns.mp ran
  have free := hasFreePage_of_vaddrGet got
  refine ⟨few, free, fun start finds => ?_⟩
  rcases vaddrGet_runs few.1 free with ⟨-, none_⟩ | ⟨start', mid', only, reserved, returns⟩
  · exact absurd finds (none_ start)
  · obtain rfl := (only start).mp finds
    obtain ⟨below, same⟩ := (returns _).mp got
    cases same
    obtain ⟨done, s'', mapped, -⟩ := call_bind_returns.mp ran
    obtain rfl := mapPages_true mapped
    have served := (mapPages_runs_iff (reserved.reaches below finds)).mp ⟨s'', mapped⟩
    rw [reserved.served, show (vaddrStart pf + start * pgSize) / pgSize =
      vaddrStart pf / pgSize + start from Nat.add_mul_div_right _ _ (by decide)] at served
    exact ⟨below, served⟩

/-- **Requests for pages.** `malloc_page` returns exactly when it answers; if it returns NULL then
it has changed nothing. -/
theorem mallocPage_returns_iff :
    (∃ found s', (mallocPage cur pf cnt).run s = .ok (found, s') ∧ (found = none → s' = s) ∧
      ∀ vaddr, found = some vaddr → vaddr % pgSize = 0) ↔ PagesAnswered s cur pf cnt := by
  constructor
  · rintro ⟨found, s', ran, -⟩
    exact pagesAnswered_of_returns ran
  · intro answered
    have required : (liftM (require (0 < cnt ∧ cnt < 3840)) : PageCall pools Unit).run s =
        .ok ((), s) := call_lift_returns.mpr ⟨require_of answered.few, rfl⟩
    rw [mallocPage, call_bind_of required]
    rcases vaddrGet_runs answered.few.1 answered.free with
      ⟨ran, -⟩ | ⟨start, mid, only, reserved, returns⟩
    · rw [call_bind_of ran]
      exact ⟨none, s, rfl, fun _ => rfl, fun _ wrong => by cases wrong⟩
    · have finds := (only start).mpr rfl
      obtain ⟨below, served⟩ := answered.room start finds
      rw [call_bind_of ((returns _).mpr ⟨below, rfl⟩)]
      rw [← reserved.served, ← show (vaddrStart pf + start * pgSize) / pgSize =
        vaddrStart pf / pgSize + start from Nat.add_mul_div_right _ _ (by decide)] at served
      obtain ⟨s', mapped⟩ := (mapPages_runs_iff (reserved.reaches below finds)).mpr served
      refine ⟨some (vaddrStart pf + start * pgSize), s', ?_, by simp, ?_⟩
      · change (mapPages _ _ _ _ >>= _).run mid = _
        rw [call_bind_of mapped]
        rfl
      · rintro _ ⟨⟩
        exact vaddrStart_onPage start

/-- The loop of `malloc_page` removes no mapping. -/
theorem mapPages_keeps {done : Bool} {frame : Nat} (reaches : Reaches s cur pf vaddr)
    (ran : (mapPages cur pf vaddr cnt).run s = .ok (done, s'))
    (mapped : s.frameAt cur page = some frame) : s'.frameAt cur page = some frame := by
  induction cnt generalizing s vaddr with
  | zero =>
      obtain ⟨-, rfl⟩ := call_pure_returns.mp ran
      exact mapped
  | succ cnt ih =>
      obtain ⟨found, _, allocated, ran⟩ := call_bind_returns.mp ran
      obtain ⟨b, -, -, rfl, rfl, -⟩ := palloc_takes allocated
      obtain ⟨_, after, added, ran⟩ := call_bind_returns.mp ran
      have reachesMid : Reaches (s.setFrame pf b true) cur pf vaddr := by
        cases pf <;> exact reaches
      obtain ⟨unmapped, rewrites, -, further, -⟩ := pageTableAdd_takes reachesMid added
      refine ih further ran ?_
      rw [rewrites.others _ _ (not_sameEntry ?_)]
      · exact mapped
      · rintro rfl
        exact absurd (mapped.symm.trans unmapped) (by simp)

/-- `malloc_page` removes no mapping. -/
theorem mallocPage_keeps {found : Option Nat} {frame : Nat}
    (ran : (mallocPage cur pf cnt).run s = .ok (found, s'))
    (mapped : s.frameAt cur page = some frame) : s'.frameAt cur page = some frame := by
  obtain ⟨few, free, -⟩ := pagesAnswered_of_returns ran
  obtain ⟨_, _, required, ran⟩ := call_bind_returns.mp ran
  obtain ⟨-, rfl⟩ := call_lift_returns.mp required
  obtain ⟨vaddr, mid, got, ran⟩ := call_bind_returns.mp ran
  rcases vaddrGet_runs few.1 free with ⟨none_, -⟩ | ⟨start, mid', only, reserved, returns⟩
  · rw [none_] at got
    cases got
    obtain ⟨-, rfl⟩ := call_pure_returns.mp ran
    exact mapped
  · obtain ⟨below, same⟩ := (returns _).mp got
    cases same
    obtain ⟨done, s'', loop, ran⟩ := call_bind_returns.mp ran
    obtain rfl := mapPages_true loop
    obtain ⟨-, rfl⟩ := call_pure_returns.mp ran
    refine mapPages_keeps (reserved.reaches below ((only start).mpr rfl)) loop ?_
    rw [reserved.frameAt]
    exact mapped

end UKernel.Paging
