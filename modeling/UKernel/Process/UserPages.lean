import UKernel.Library.Count
import UKernel.Process.ExecFailure

/-! # Mapping user pages

What the loop of `segment_load` does with the user part of memory. It needs a frame for each page
that is not there, and one for each page table (`UKernel.Exec.mapPages_runs`); the pages that are
present afterwards are those that were and those that it came to
(`UKernel.Exec.mapPages_hasPage`). A byte is where it was: `UKernel.Exec.Machine.shown` is what a
process finds at an address once its page is mapped, and only a write changes it
(`UKernel.Exec.LoadsAll.shown`).
-/

namespace UKernel.Exec

open UKernel.Library UKernel.Fs UKernel.Memory UKernel.Paging

variable {pools : Pools}

/-- The number of pages below the kernel's half of memory. -/
abbrev userPages : Nat := 0xc0000

namespace Machine

/-- A page below the kernel's half is present. -/
def hasPage (m : Machine pools) (page : Nat) : Bool :=
  m.pde (page / 1024) && m.pte page

/-- The free frames of a pool. -/
def freeFrames (m : Machine pools) (pf : PoolFlags) : Nat :=
  countOf (Finset.range (8 * pools.btmpBytesLen pf)) (m.poolBitmap pf).test false

/-- There are frames for the page tables that are missing. -/
def HasTables (m : Machine pools) (pages : Finset Nat) : Prop :=
  countOf (pages.image (· / 1024)) m.pde false ≤ m.freeFrames .kernel

/-- There are frames for the pages that are missing, and for their page tables. -/
structure HasFrames (m : Machine pools) (pages : Finset Nat) : Prop where
  user : countOf pages m.hasPage false ≤ m.freeFrames .user
  kernel : m.HasTables pages

/-- There are frames for the pages that are missing and for two pages of buffers, and for their page
tables. The buffers of a read are on the first two pages that are free. The missing pages get mapped
meanwhile, so that in the whole run these are as many pages as are missing and two, each with a page
table of its own at worst. -/
structure HasRoom (m : Machine pools) (pages : Finset Nat) : Prop where
  user : countOf pages m.hasPage false + 2 ≤ m.freeFrames .user
  kernel : countOf (pages.image (· / 1024)) m.pde false + (countOf pages m.hasPage false + 2) ≤
    m.freeFrames .kernel

/-- What the process finds at an address, if its page is mapped or gets mapped. -/
def shown (stale memory : Word → Byte) (m : Machine pools) : Word → Byte := fun a =>
  if m.present a then replay stale memory m.effects a else stale a

end Machine

/-- The bit of a page in the bitmap of virtual pages; that of the first page is not used. -/
def pageBit (vaddr : Word) : Nat := (vaddr - BitVec.ofNat 32 userVaddrStart).toNat / pgSize

variable {m m' : Machine pools} {vaddr a : Word} {pages : Finset Nat} {bytes : List Byte}
  {segments : List Segment} {stale memory : Word → Byte}

/-! ## Presence -/

/-- The page table of a page. -/
theorem table_page (n : Nat) : n / 0x400000 = n / pgSize / 1024 :=
  (Nat.div_div_eq_div_mul n pgSize 1024).symm

/-- A page below the last four megabytes. -/
theorem present_low (low : a.toNat / 0x400000 ≠ 1023) :
    m.present a = m.hasPage (a.toNat / pgSize) := by
  rw [Machine.present, Machine.ptePresent, if_neg low, table_page, Machine.hasPage]

theorem present_user (user : a.toNat < kernelBase) :
    m.present a = m.hasPage (a.toNat / pgSize) := by
  unfold kernelBase at user
  exact present_low (by omega)

theorem SamePages.hasPage (same : SamePages m m') : m'.hasPage = m.hasPage := by
  unfold Machine.hasPage
  rw [same.1, same.2.1]

/-- A new page table has no page. -/
theorem addTable_hasPage {pdeIdx : Nat} (absent : m.pde pdeIdx = false) (page : Nat) :
    (m.addTable pdeIdx).hasPage page = m.hasPage page := by
  unfold Machine.hasPage Machine.addTable
  dsimp only
  by_cases here : page / 1024 = pdeIdx
  · rw [here, absent, if_pos rfl, Bool.and_false, Bool.false_and]
  · rw [if_neg here, Function.update_of_ne here]

/-- The page of the entry that was made present is. -/
theorem setPte_hasPage (user : vaddr.toNat < kernelBase)
    (table : m.pde (vaddr.toNat / pgSize / 1024) = true) :
    (m.setPte vaddr).hasPage = Function.update m.hasPage (vaddr.toNat / pgSize) true := by
  unfold kernelBase at user
  have last : vaddr.toNat / 0x400000 ≠ 1023 := by omega
  funext page
  rw [Machine.setPte, if_neg last, Machine.hasPage]
  dsimp only
  by_cases here : page = vaddr.toNat / pgSize
  · rw [here, Function.update_self, Function.update_self, table, Bool.and_self]
  · rw [Function.update_of_ne here, Function.update_of_ne here, Machine.hasPage]

/-! ## Taking frames -/

/-- The frames that are free are the same. -/
def SameFrames (m m' : Machine pools) : Prop :=
  m'.poolBitmap = m.poolBitmap

theorem SameFrames.free (same : SameFrames m m') (pf : PoolFlags) :
    m'.freeFrames pf = m.freeFrames pf := by
  unfold Machine.freeFrames
  rw [same]

/-- `palloc` takes a free frame, if there is one. -/
theorem palloc_runs (pf : PoolFlags) (free : 0 < m.freeFrames pf) :
    ∃ m', Returned (palloc pf) m true m' ∧ SamePages m m' ∧
      m'.freeFrames pf + 1 = m.freeFrames pf ∧ ∀ other ≠ pf,
        m'.freeFrames other = m.freeFrames other := by
  have clear : ∃ k < 8 * pools.btmpBytesLen pf, (m.poolBitmap pf).test k = false := by
    by_contra none
    push Not at none
    refine absurd (countOf_eq_zero.mpr fun k inside => ?_) (Nat.ne_of_gt free)
    exact none k (Finset.mem_range.mp inside)
  obtain ⟨bitIdx, scan, inside, isFree, -⟩ := Bitmap.scan_free clear
  obtain ⟨taken, is⟩ : ∃ taken, taken = { m with
      poolBitmap := Function.update m.poolBitmap pf ((m.poolBitmap pf).set bitIdx true) } :=
        ⟨_, rfl⟩
  refine ⟨taken, ?_, ?_, ?_, fun other apart => ?_⟩
  · refine returned_bind.mpr ⟨m, m, returned_get.mpr ⟨rfl, rfl⟩, returned_bind.mpr
      ⟨some bitIdx, m, returned_lift.mpr ⟨scan, rfl⟩, returned_bind.mpr
        ⟨(), taken, returned_modify.mpr is.symm, returned_pure.mpr ⟨rfl, rfl⟩⟩⟩⟩
  · rw [is]
    exact ⟨rfl, rfl, rfl⟩
  · have bits : ((m.poolBitmap pf).set bitIdx true).test =
        Function.update (m.poolBitmap pf).test bitIdx true := by
      funext j
      rw [Bitmap.test_set, Function.update_apply]
    have count :=
      count_update (f := (m.poolBitmap pf).test) (Finset.mem_range.mpr inside) true false
    rw [if_pos isFree, if_neg (by decide)] at count
    rw [is, Machine.freeFrames, Machine.freeFrames]
    dsimp only
    rw [Function.update_self, bits]
    exact count
  · rw [is, Machine.freeFrames, Machine.freeFrames]
    dsimp only
    rw [Function.update_of_ne apart]

/-- The part of `page_table_add` that makes sure that there is a page table. -/
theorem addTable_runs (absent : m.hasPage (vaddr.toNat / pgSize) = false)
    (member : vaddr.toNat / pgSize ∈ pages) (tables : m.HasTables pages) :
    ∃ m', Returned (addTable vaddr) m () m' ∧ m'.HasTables pages ∧
      m'.freeFrames .user = m.freeFrames .user ∧ m'.hasPage = m.hasPage ∧
      m'.pde (vaddr.toNat / pgSize / 1024) = true ∧ m'.pte (vaddr.toNat / pgSize) = false := by
  by_cases present : m.pde (vaddr.toNat / pgSize / 1024) = true
  · refine ⟨m, ?_, tables, rfl, rfl, present, ?_⟩
    · refine returned_bind.mpr ⟨m, m, returned_get.mpr ⟨rfl, rfl⟩, ?_⟩
      rw [table_page, if_pos present]
      exact returned_pure.mpr ⟨rfl, rfl⟩
    · rwa [Machine.hasPage, present, Bool.true_and] at absent
  · have none_ : m.pde (vaddr.toNat / pgSize / 1024) = false := Bool.eq_false_iff.mpr present
    have inside : vaddr.toNat / pgSize / 1024 ∈ pages.image (· / 1024) :=
      Finset.mem_image_of_mem _ member
    have count := count_update (f := m.pde) inside true false
    rw [if_pos none_, if_neg (by decide)] at count
    unfold Machine.HasTables at tables
    obtain ⟨middle, allocated, same, taken, others⟩ :=
      palloc_runs (m := m) .kernel (by omega)
    have missing : middle.pde (vaddr.toNat / pgSize / 1024) = false := by
      rw [← same.1]
      exact none_
    refine ⟨middle.addTable (vaddr.toNat / pgSize / 1024), ?_, ?_, others .user (by decide), ?_,
      Function.update_self .., if_pos rfl⟩
    · refine returned_bind.mpr ⟨m, m, returned_get.mpr ⟨rfl, rfl⟩, ?_⟩
      rw [table_page, if_neg present]
      exact returned_bind.mpr ⟨true, middle, allocated, returned_modify.mpr rfl⟩
    · have bits : (middle.addTable (vaddr.toNat / pgSize / 1024)).pde =
          Function.update m.pde (vaddr.toNat / pgSize / 1024) true := by
        rw [same.1]
        rfl
      have free : (middle.addTable (vaddr.toNat / pgSize / 1024)).freeFrames .kernel =
          middle.freeFrames .kernel := rfl
      rw [Machine.HasTables, bits, free]
      omega
    · funext page
      rw [addTable_hasPage missing, same.hasPage]

/-- `page_table_add` of a page that is missing. -/
theorem pageTableAdd_runs (user : vaddr.toNat < kernelBase)
    (absent : m.hasPage (vaddr.toNat / pgSize) = false)
    (member : vaddr.toNat / pgSize ∈ pages) (tables : m.HasTables pages) :
    ∃ m', Returned (pageTableAdd vaddr) m () m' ∧ m'.HasTables pages ∧
      m'.freeFrames .user = m.freeFrames .user ∧
      m'.hasPage = Function.update m.hasPage (vaddr.toNat / pgSize) true := by
  obtain ⟨middle, added, tables', free, same, table, clear⟩ := addTable_runs absent member tables
  unfold kernelBase at user
  have last : vaddr.toNat / 0x400000 ≠ 1023 := by omega
  have entry : middle.ptePresent vaddr = false := by
    rwa [Machine.ptePresent, if_neg last]
  have setPde : (middle.setPte vaddr).pde = middle.pde := by
    rw [Machine.setPte, if_neg last]
  have setFree : ∀ pf, (middle.setPte vaddr).freeFrames pf = middle.freeFrames pf := fun pf => by
    rw [Machine.setPte, if_neg last]
    rfl
  refine ⟨(middle.setPte vaddr).did (.mapPage vaddr), ?_, ?_, (setFree .user).trans free, ?_⟩
  · exact returned_bind.mpr ⟨(), middle, added, returned_bind.mpr ⟨middle, middle,
      returned_get.mpr ⟨rfl, rfl⟩, returned_bind.mpr
        ⟨(), middle, returned_lift.mpr ⟨require_of entry, rfl⟩, returned_modify.mpr rfl⟩⟩⟩
  · change countOf _ (middle.setPte vaddr).pde false ≤ (middle.setPte vaddr).freeFrames .kernel
    rw [setPde, setFree]
    exact tables'
  · rw [← same]
    exact setPte_hasPage user table

/-- `get_a_page` maps a page that is missing, with the frames that are left. -/
theorem getAPage_runs (user : vaddr.toNat < kernelBase)
    (absent : m.hasPage (vaddr.toNat / pgSize) = false) (managed : 0 < pageBit vaddr)
    (member : vaddr.toNat / pgSize ∈ pages) (frames : m.HasFrames pages) :
    ∃ m', Returned (getAPage vaddr) m true m' ∧ m'.HasFrames pages := by
  have count := count_update (f := m.hasPage) member true false
  rw [if_pos absent, if_neg (by decide)] at count
  have enough := frames.user
  obtain ⟨taken, allocated, same, left, others⟩ :=
    palloc_runs (m := m.did (.setBit (pageBit vaddr))) .user
      (show 0 < m.freeFrames .user by omega)
  have tables : taken.HasTables pages := by
    rw [Machine.HasTables, others .kernel (by decide), ← same.1]
    exact frames.kernel
  have before : taken.hasPage = m.hasPage := same.hasPage
  rw [← before] at absent
  obtain ⟨mapped, added, tables', free, pages'⟩ := pageTableAdd_runs user absent member tables
  refine ⟨mapped, ?_, ⟨?_, tables'⟩⟩
  · refine returned_bind.mpr ⟨(), m, returned_lift.mpr ⟨require_of managed, rfl⟩,
      returned_bind.mpr ⟨(), m.did (.setBit (pageBit vaddr)), returned_modify.mpr rfl, ?_⟩⟩
    exact returned_bind.mpr ⟨true, taken, allocated,
      returned_bind.mpr ⟨(), mapped, added, returned_pure.mpr ⟨rfl, rfl⟩⟩⟩
  · rw [pages', before, free]
    change taken.freeFrames .user + 1 = m.freeFrames .user at left
    omega

/-- A round of the loop of `segment_load`. -/
theorem mapPage_runs (user : vaddr.toNat < kernelBase)
    (managed : m.hasPage (vaddr.toNat / pgSize) = true ∨ 0 < pageBit vaddr)
    (member : vaddr.toNat / pgSize ∈ pages) (frames : m.HasFrames pages) :
    ∃ m', Returned (mapPage vaddr) m true m' ∧ m'.HasFrames pages := by
  by_cases present : m.hasPage (vaddr.toNat / pgSize) = true
  · refine ⟨m, returned_bind.mpr ⟨m, m, returned_get.mpr ⟨rfl, rfl⟩, ?_⟩, frames⟩
    rw [present_user user, if_pos present]
    exact returned_pure.mpr ⟨rfl, rfl⟩
  · obtain ⟨m', got, frames'⟩ := getAPage_runs user (Bool.eq_false_iff.mpr present)
      (managed.resolve_left present) member frames
    refine ⟨m', returned_bind.mpr ⟨m, m, returned_get.mpr ⟨rfl, rfl⟩, ?_⟩, frames'⟩
    rwa [present_user user, if_neg present]

/-- The address of the page that the loop comes to after some others. -/
def pageFrom (vaddr : Word) (k : Nat) : Word := vaddr + BitVec.ofNat 32 (k * pgSize)

/-- A page that the loop of `segment_load` maps, if it is missing. -/
structure Mappable (m : Machine pools) (pages : Finset Nat) (vaddr : Word) : Prop where
  user : vaddr.toNat < kernelBase
  member : vaddr.toNat / pgSize ∈ pages
  managed : m.hasPage (vaddr.toNat / pgSize) = true ∨ 0 < pageBit vaddr

theorem KeepsPages.hasPage (keeps : KeepsPages m m') (user : vaddr.toNat < kernelBase)
    (has : m.hasPage (vaddr.toNat / pgSize) = true) : m'.hasPage (vaddr.toNat / pgSize) = true := by
  rw [← present_user user] at has ⊢
  exact keeps vaddr has

theorem Mappable.keeps (keeps : KeepsPages m m') (mappable : Mappable m pages vaddr) :
    Mappable m' pages vaddr where
  user := mappable.user
  member := mappable.member
  managed := mappable.managed.imp_left (keeps.hasPage mappable.user)

/-- **Enough frames.** The loop of `segment_load` returns, and leaves the frames that the other
pages need. -/
theorem mapPages_runs {left : Nat} (mappable : ∀ k < left, Mappable m pages (pageFrom vaddr k))
    (frames : m.HasFrames pages) :
    ∃ m', Returned (mapPages left vaddr) m true m' ∧ m'.HasFrames pages := by
  induction left generalizing m vaddr with
  | zero => exact ⟨m, returned_pure.mpr ⟨rfl, rfl⟩, frames⟩
  | succ left ih =>
      have first := mappable 0 (Nat.succ_pos left)
      rw [pageFrom, Nat.zero_mul, BitVec.add_zero] at first
      obtain ⟨middle, one, frames'⟩ := mapPage_runs first.user first.managed first.member frames
      have others : ∀ k < left,
          Mappable middle pages (pageFrom (vaddr + BitVec.ofNat 32 pgSize) k) := by
        intro k less
        have next := mappable (k + 1) (Nat.succ_lt_succ less)
        rw [pageFrom, page_succ] at next
        exact next.keeps (mapPage_returns one).1
      obtain ⟨m', rest, frames''⟩ := ih others frames'
      exact ⟨m', returned_mapPages_succ.mpr ⟨middle, one, rest⟩, frames''⟩

/-! ## What the loop did -/

theorem addTable_cases {done : Unit} (returned : Returned (addTable vaddr) m done m') :
    m'.hasPage = m.hasPage ∧ m'.pde (vaddr.toNat / pgSize / 1024) = true := by
  have table := (addTable_returns returned).2
  rw [table_page] at table
  refine ⟨?_, table⟩
  obtain ⟨_, _, read, ran⟩ := returned_bind.mp returned
  obtain ⟨rfl, rfl⟩ := returned_get.mp read
  split at ran
  · rw [(returned_pure.mp ran).2]
  · next none_ =>
      obtain ⟨_, middle, allocated, ran⟩ := returned_bind.mp ran
      obtain rfl := returned_modify.mp ran
      have same : SamePages m middle := by
        rw [← allocated.after_eq]
        exact palloc_samePages .kernel m
      have absent : middle.pde (vaddr.toNat / 0x400000) = false := by
        rw [← same.1]
        exact Bool.eq_false_iff.mpr none_
      funext page
      rw [addTable_hasPage absent, same.hasPage]

/-- The loop of `segment_load` comes to a page: it is there, or it gets mapped. -/
theorem mapPage_cases {mapped : Bool} (user : vaddr.toNat < kernelBase)
    (returned : Returned (mapPage vaddr) m mapped m') :
    (m.hasPage (vaddr.toNat / pgSize) = true ∧ m' = m) ∨
      (m.hasPage (vaddr.toNat / pgSize) = false ∧ 0 < pageBit vaddr ∧
        m'.hasPage = Function.update m.hasPage (vaddr.toNat / pgSize) true ∧
        m'.effects = .mapPage vaddr :: .setBit (pageBit vaddr) :: m.effects) := by
  obtain ⟨_, _, read, ran⟩ := returned_bind.mp returned
  obtain ⟨rfl, rfl⟩ := returned_get.mp read
  rw [present_user user] at ran
  split at ran
  · next present => exact .inl ⟨present, (returned_pure.mp ran).2.symm⟩
  · next absent =>
      obtain ⟨_, _, required, ran⟩ := returned_bind.mp ran
      obtain ⟨managed, rfl⟩ := returned_lift.mp required
      obtain ⟨_, _, set, ran⟩ := returned_bind.mp ran
      obtain rfl := returned_modify.mp set
      obtain ⟨got, taken, allocated, ran⟩ := returned_bind.mp ran
      obtain rfl := returned_palloc allocated
      obtain ⟨_, _, added, ran⟩ := returned_bind.mp ran
      obtain ⟨-, rfl⟩ := returned_pure.mp ran
      obtain ⟨_, middle, tables, ran⟩ := returned_bind.mp added
      obtain ⟨_, _, read, ran⟩ := returned_bind.mp ran
      obtain ⟨rfl, rfl⟩ := returned_get.mp read
      obtain ⟨_, _, required, ran⟩ := returned_bind.mp ran
      obtain ⟨-, rfl⟩ := returned_lift.mp required
      obtain rfl := returned_modify.mp ran
      obtain ⟨same, table⟩ := addTable_cases tables
      have idle : Idle taken middle := by
        rw [← tables.after_eq]
        exact addTable_idle taken
      have idle' : Idle (m.did (.setBit (pageBit vaddr))) taken := by
        rw [← allocated.after_eq]
        exact palloc_idle .user _
      have before : SamePages (m.did (.setBit (pageBit vaddr))) taken := by
        rw [← allocated.after_eq]
        exact palloc_samePages .user _
      refine .inr ⟨Bool.eq_false_iff.mpr absent, require_eq_ok.mp managed, ?_, ?_⟩
      · have hasPage : middle.hasPage = m.hasPage := same.trans before.hasPage
        rw [← hasPage]
        exact setPte_hasPage user table
      · change .mapPage vaddr :: (middle.setPte vaddr).effects = _
        rw [setPte_effects, ← idle, ← idle']
        rfl

theorem mapPage_hasPage {mapped : Bool} (user : vaddr.toNat < kernelBase)
    (returned : Returned (mapPage vaddr) m mapped m') (page : Nat) :
    m'.hasPage page = true ↔ m.hasPage page = true ∨ page = vaddr.toNat / pgSize := by
  rcases mapPage_cases user returned with ⟨present, rfl⟩ | ⟨-, -, pages, -⟩
  · refine (or_iff_left_of_imp ?_).symm
    rintro rfl
    exact present
  · rw [pages]
    by_cases here : page = vaddr.toNat / pgSize
    · rw [here, Function.update_self]
      exact iff_of_true rfl (.inr rfl)
    · rw [Function.update_of_ne here]
      exact (or_iff_left here).symm

/-- The first page is not mapped. -/
theorem mapPage_first {mapped : Bool} (user : vaddr.toNat < kernelBase)
    (returned : Returned (mapPage vaddr) m mapped m')
    (present : m'.hasPage (userVaddrStart / pgSize) = true) :
    m.hasPage (userVaddrStart / pgSize) = true := by
  rcases mapPage_cases user returned with ⟨-, rfl⟩ | ⟨-, managed, pages, -⟩
  · exact present
  · have apart : userVaddrStart / pgSize ≠ vaddr.toNat / pgSize := by
      intro same
      unfold pageBit at managed
      unfold userVaddrStart pgSize at *
      bv_omega
    rwa [pages, Function.update_of_ne apart] at present

/-- A page that is mapped shows its frame. -/
theorem mapPage_shown {mapped : Bool} (user : vaddr.toNat < kernelBase)
    (returned : Returned (mapPage vaddr) m mapped m') (inside : a.toNat < kernelBase) :
    m'.shown stale memory a = m.shown stale memory a := by
  rcases mapPage_cases user returned with ⟨-, rfl⟩ | ⟨absent, -, pages, effects⟩
  · rfl
  · rw [Machine.shown, Machine.shown, present_user inside, present_user inside, pages, effects]
    change (if _ then (if a.toNat / pgSize = vaddr.toNat / pgSize then stale a else
      replay stale memory m.effects a) else stale a) = _
    by_cases here : a.toNat / pgSize = vaddr.toNat / pgSize
    · rw [here, Function.update_self, if_pos rfl, if_pos rfl, absent, if_neg (by decide)]
    · rw [Function.update_of_ne here, if_neg here]

/-- What mapping user pages leaves as it is: the first page, and what the process finds. -/
structure MapsUser (m m' : Machine pools) : Prop where
  first : m'.hasPage (userVaddrStart / pgSize) = true → m.hasPage (userVaddrStart / pgSize) = true
  shown : ∀ stale memory a, a.toNat < kernelBase →
    m'.shown stale memory a = m.shown stale memory a

instance : Std.Refl (MapsUser : Machine pools → Machine pools → Prop) :=
  ⟨fun _ => ⟨id, fun _ _ _ _ => rfl⟩⟩

instance : IsTrans (Machine pools) MapsUser :=
  ⟨fun _ _ _ one two => ⟨one.first ∘ two.first, fun stale memory a inside =>
    (two.shown stale memory a inside).trans (one.shown stale memory a inside)⟩⟩

/-- The loop of `segment_load` over user pages. -/
theorem mapPages_mapsUser {left : Nat} (user : ∀ k < left, (pageFrom vaddr k).toNat < kernelBase)
    (returned : Returned (mapPages left vaddr) m true m') : MapsUser m m' := by
  induction left generalizing m vaddr with
  | zero =>
      obtain ⟨-, rfl⟩ := returned_pure.mp returned
      exact Std.Refl.refl _
  | succ left ih =>
      obtain ⟨middle, one, rest⟩ := returned_mapPages_succ.mp returned
      have here := user 0 (Nat.succ_pos left)
      rw [pageFrom, Nat.zero_mul, BitVec.add_zero] at here
      have first : MapsUser m middle :=
        ⟨mapPage_first here one, fun _ _ _ inside => mapPage_shown here one inside⟩
      refine IsTrans.trans _ _ _ first (ih (fun k less => ?_) rest)
      have next := user (k + 1) (Nat.succ_lt_succ less)
      rwa [pageFrom, page_succ] at next

/-- The pages that are present after the loop of `segment_load`. -/
theorem mapPages_hasPage {left : Nat} (user : ∀ k < left, (pageFrom vaddr k).toNat < kernelBase)
    (returned : Returned (mapPages left vaddr) m true m') (page : Nat) :
    m'.hasPage page = true ↔
      m.hasPage page = true ∨ ∃ k < left, page = (pageFrom vaddr k).toNat / pgSize := by
  induction left generalizing m vaddr with
  | zero =>
      obtain ⟨-, rfl⟩ := returned_pure.mp returned
      exact (or_iff_left fun ⟨k, less, _⟩ => Nat.not_lt_zero k less).symm
  | succ left ih =>
      obtain ⟨middle, one, rest⟩ := returned_mapPages_succ.mp returned
      have here := user 0 (Nat.succ_pos left)
      have zero : pageFrom vaddr 0 = vaddr := by
        rw [pageFrom, Nat.zero_mul, BitVec.add_zero]
      have succ : ∀ k, pageFrom vaddr (k + 1) = pageFrom (vaddr + BitVec.ofNat 32 pgSize) k :=
        fun k => page_succ k
      rw [ih (fun k less => by rw [← succ]; exact user (k + 1) (Nat.succ_lt_succ less)) rest,
        mapPage_hasPage (zero ▸ here) one, or_assoc]
      refine or_congr_right ⟨?_, ?_⟩
      · rintro (rfl | ⟨k, less, rfl⟩)
        · exact ⟨0, Nat.succ_pos left, by rw [zero]⟩
        · exact ⟨k + 1, Nat.succ_lt_succ less, by rw [succ]⟩
      · rintro ⟨k, less, rfl⟩
        cases k with
        | zero => exact .inl (by rw [zero])
        | succ k => exact .inr ⟨k, Nat.lt_of_succ_lt_succ less, by rw [succ]⟩

/-! ## Segments -/

/-- The pages of a segment are user pages. -/
def Segment.User (segment : Segment) : Prop :=
  ∀ k < segment.pages, (pageAt segment.vaddr k).toNat < kernelBase

/-- What segments leave at an address depends on what was there. -/
theorem putAll_congr {memory memory' : Word → Byte} (same : memory a = memory' a) :
    putAll segments memory a = putAll segments memory' a := by
  induction segments generalizing memory memory' with
  | nil => exact same
  | cons segment segments ih =>
      refine ih ?_
      change segment.put memory a = segment.put memory' a
      rw [Segment.put, Segment.put, same]

theorem wrote_shown (small : bytes.length < 2 ^ 32) (holds : m.Holds vaddr bytes.length) :
    (m.wrote vaddr bytes).shown stale memory a =
      bytes.getD (a - vaddr).toNat (m.shown stale memory a) := by
  have same : SamePages m (m.wrote vaddr bytes) := wrote_samePages
  rw [Machine.shown, ← same.present, replay_wrote small, Machine.shown]
  by_cases present : m.present a = true
  · rw [if_pos present, if_pos present]
  · rw [if_neg present, if_neg present, List.getD_eq_default]
    by_contra inside
    refine present ?_
    have here := (writable_iff.mp (holds (a - vaddr).toNat (Nat.not_le.mp inside))).1
    rwa [BitVec.ofNat_toNat, BitVec.setWidth_eq, add_sub_cancel] at here

/-- Writing takes no frame. -/
theorem wrote_hasFrames : (m.wrote vaddr bytes).HasFrames pages ↔ m.HasFrames pages := by
  have same : SamePages m (m.wrote vaddr bytes) := wrote_samePages
  have free : SameFrames m (m.wrote vaddr bytes) := by
    induction bytes generalizing m vaddr with
    | nil => rfl
    | cons byte bytes ih =>
        exact (ih wrote_samePages : SameFrames (m.did (.write vaddr byte)) _)
  constructor
  · rintro ⟨user, kernel⟩
    rw [Machine.HasTables, ← same.1, free.free] at kernel
    rw [same.hasPage, free.free] at user
    exact ⟨user, kernel⟩
  · rintro ⟨user, kernel⟩
    refine ⟨?_, ?_⟩
    · rwa [same.hasPage, free.free]
    · rwa [Machine.HasTables, ← same.1, free.free]

/-- A process finds at an address what the segments put there, or what was there before. -/
theorem LoadsAll.shown (loads : LoadsAll segments m m') (user : ∀ segment ∈ segments, segment.User)
    (small : ∀ segment ∈ segments, segment.bytes.length < 2 ^ 32) (inside : a.toNat < kernelBase) :
    m'.shown stale memory a = putAll segments (m.shown stale memory) a := by
  induction loads with
  | nil => rfl
  | @cons segment segments m middle m' fdPos _ maps holds _ ih =>
      rw [ih (List.forall_mem_of_forall_mem_cons user) (List.forall_mem_of_forall_mem_cons small)]
      refine putAll_congr ?_
      change _ = segment.put (m.shown stale memory) a
      rw [wrote_shown (small segment List.mem_cons_self) holds, Segment.put,
        (mapPages_mapsUser (user segment List.mem_cons_self) maps).shown stale memory a inside]
      rfl

/-- The pages that are present after the segments were loaded. -/
theorem LoadsAll.hasPage (loads : LoadsAll segments m m')
    (user : ∀ segment ∈ segments, segment.User) (page : Nat) :
    m'.hasPage page = true ↔ m.hasPage page = true ∨
      ∃ segment ∈ segments, ∃ k < segment.pages,
        page = (pageAt segment.vaddr k).toNat / pgSize := by
  induction loads with
  | nil => exact (or_iff_left fun ⟨_, member, _⟩ => nomatch member).symm
  | @cons segment segments m middle m' fdPos _ maps _ _ ih =>
      have wrote : ((middle.wrote segment.vaddr segment.bytes).hasPage page = true) ↔
          middle.hasPage page = true := by
        rw [wrote_samePages.hasPage]
      rw [ih (List.forall_mem_of_forall_mem_cons user), wrote,
        mapPages_hasPage (user segment List.mem_cons_self) maps, or_assoc, List.exists_mem_cons_iff]
      rfl

/-- The first page is not mapped by loading segments. -/
theorem LoadsAll.first (loads : LoadsAll segments m m') (user : ∀ segment ∈ segments, segment.User)
    (present : m'.hasPage (userVaddrStart / pgSize) = true) :
    m.hasPage (userVaddrStart / pgSize) = true := by
  induction loads with
  | nil => exact present
  | @cons segment segments m middle m' fdPos _ maps _ _ ih =>
      have before := ih (List.forall_mem_of_forall_mem_cons user) present
      rw [wrote_samePages.hasPage] at before
      exact (mapPages_mapsUser (user segment List.mem_cons_self) maps).first before

end UKernel.Exec
