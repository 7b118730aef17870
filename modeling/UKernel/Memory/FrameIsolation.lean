import UKernel.Library.Ledger
import UKernel.Memory.PageRequest

/-! # Frames of different processes

No two pages share a frame. The frames in use are, each once, those of the pages that the kernel
has mapped, of the page tables of the processes, and of the pages that the processes have mapped
(`UKernel.Paging.Holds`); and no two processes share a page of the kernel for their control
blocks, page directories and bitmaps. `UKernel.Paging.Isolated` says so between any two steps of a
call: of the frame that was just allocated, and of the pages of the kernel that the call holds for
a process it is about to make or to free.
-/

namespace UKernel.Paging

open UKernel.Library UKernel.Fs UKernel.Memory

variable {pools : Pools} {s s' : Pages pools} {spaces : Nat → Option Space} {mine : Finset Nat}
  {pending : Option (PoolFlags × Nat)} {frame : PoolFlags × Nat} {space space' : Space}
  {pf : PoolFlags} {b cur child vaddr addr cnt : Nat}

/-! ## Frames in use -/

/-- A frame of a pool, given by its address, is in use. -/
def Pages.Used (s : Pages pools) (frame : PoolFlags × Nat) : Prop :=
  ∃ b < pools.frames frame.1, s.taken frame.1 b = true ∧ frame.2 = frameAddr pools frame.1 b

theorem used_frameAddr (small : b < pools.frames pf) :
    s.Used (pf, frameAddr pools pf b) ↔ s.taken pf b = true := by
  constructor
  · rintro ⟨b', small', taken, same⟩
    obtain ⟨-, rfl⟩ := frameAddr_inj small small' same
    exact taken
  · intro taken
    exact ⟨b, small, taken, rfl⟩

/-- The frames in use after one bit of a pool was set. -/
theorem used_setFrame {value : Bool} (small : b < pools.frames pf) :
    (s.setFrame pf b value).Used frame ↔
      if frame = (pf, frameAddr pools pf b) then value = true else s.Used frame := by
  by_cases same : frame = (pf, frameAddr pools pf b)
  · cases same
    rw [used_frameAddr small, Pages.taken_setFrame, if_pos ⟨rfl, rfl⟩, if_pos rfl]
  · rw [if_neg same]
    refine exists_congr fun b' => and_congr_right fun _ => and_congr_left fun here => ?_
    rw [Pages.taken_setFrame, if_neg]
    rintro ⟨rfl, rfl⟩
    exact same (Prod.ext rfl here)

/-- The walk through the page tables gives back the frames that it frees. -/
theorem used_of_frees {freed : Nat → Prop} (frees : Frees s s' freed) :
    s'.Used frame ↔ s.Used frame ∧ ¬ freed frame.2 := by
  constructor
  · rintro ⟨b, small, taken, same⟩
    obtain ⟨before, kept⟩ := (frees.taken _ b small).mp taken
    exact ⟨⟨b, small, before, same⟩, same ▸ kept⟩
  · rintro ⟨⟨b, small, taken, same⟩, kept⟩
    exact ⟨b, small, (frees.taken _ b small).mpr ⟨taken, same ▸ kept⟩, same⟩

/-- An address is that of a frame of one pool. -/
theorem used_pool {frame' : PoolFlags × Nat} (used : s.Used frame) (used' : s.Used frame')
    (same : frame.2 = frame'.2) : frame = frame' := by
  obtain ⟨b, small, -, here⟩ := used
  obtain ⟨b', small', -, here'⟩ := used'
  exact Prod.ext (frameAddr_inj small small' (here.symm.trans (same.trans here'))).1 same

/-! ## Who holds them -/

/-- What holds a frame. -/
inductive Holder where
  /-- A page of the kernel. -/
  | kernelPage (page : Nat)
  /-- A page table of a process. -/
  | pageTable (pid pdeIdx : Nat)
  /-- A page of a process. -/
  | userPage (pid page : Nat)
  /-- Nothing yet: the frame was just allocated. -/
  | pending
  deriving DecidableEq, Repr

/-- The frame that a holder has, with the given processes: the address in its entry, in the pool
from which its frames are taken. A process that has exited has none. -/
def Holds (kernelPte : Nat → Pte) (spaces : Nat → Option Space)
    (pending : Option (PoolFlags × Nat)) : Holder → PoolFlags × Nat → Prop
  | .kernelPage page, frame => (kernelPte page).present = true ∧
      frame = (.kernel, (kernelPte page).addr)
  | .pageTable pid pdeIdx, frame => ∃ space, spaces pid = some space ∧ space.hanging = false ∧
      pdeIdx < 768 ∧ (space.pde pdeIdx).present = true ∧
      frame = (.kernel, (space.pde pdeIdx).addr)
  | .userPage pid page, frame => ∃ space, spaces pid = some space ∧ space.hanging = false ∧
      space.Maps page ∧ frame = (.user, (space.pte page).addr)
  | .pending, frame => pending = some frame

/-- The pages of the kernel that are a process's. Of one that has exited, the bitmap is gone. -/
def Space.ownPages (space : Space) : Finset Nat :=
  if space.hanging then {space.pcb / pgSize, space.pgdir / pgSize}
  else kernelPages space.pcb space.pgdir space.bits

theorem ownPages_lives (lives : space.hanging = false) :
    space.ownPages = kernelPages space.pcb space.pgdir space.bits := by
  rw [Space.ownPages, lives]
  rfl

theorem ownPages_hanging (exited : space.hanging = true) :
    space.ownPages = {space.pcb / pgSize, space.pgdir / pgSize} := by
  rw [Space.ownPages, exited]
  rfl

/-- Whose a page of the kernel is: a process's, or, where there is no process yet or none any
more, that of the call. -/
def HasPage (spaces : Nat → Option Space) (mine : Finset Nat) : Option Nat → Nat → Prop
  | none, page => page ∈ mine
  | some pid, page => ∃ space, spaces pid = some space ∧ page ∈ space.ownPages

/-- Every frame in use has one holder, and no two processes have a page of the kernel in
common. -/
structure Isolated (s : Pages pools) (spaces : Nat → Option Space) (mine : Finset Nat)
    (pending : Option (PoolFlags × Nat)) : Prop where
  frames : Ledger s.Used (Holds s.kernelPte spaces pending)
  kernel : Custody (fun page => (s.kernelPte page).present = true) (HasPage spaces mine)
  apart : ∀ pid space, spaces pid = some space → Apart space.pcb space.pgdir space.bits

/-- What a holder has is a frame. -/
theorem Isolated.isFrame (isolated : Isolated s spaces mine pending) (holder : Holder)
    (holds : Holds s.kernelPte spaces pending holder frame) :
    ∃ b < pools.frames frame.1, frame.2 = frameAddr pools frame.1 b := by
  obtain ⟨b, small, -, same⟩ := isolated.frames.inUse holder frame holds
  exact ⟨b, small, same⟩

/-- Only the bitmaps of the pools, the kernel's page tables and the processes matter. -/
theorem Isolated.congr (isolated : Isolated s spaces mine pending)
    (frames : s'.poolBitmap = s.poolBitmap) (entries : s'.kernelPte = s.kernelPte) :
    Isolated s' spaces mine pending := by
  have used : s'.Used = s.Used := by
    unfold Pages.Used Pages.taken
    rw [frames]
  refine ⟨?_, ?_, isolated.apart⟩
  · rw [used, entries]
    exact isolated.frames
  · rw [entries]
    exact isolated.kernel

/-- The pages of the processes stay apart when one process is changed, made or reaped. -/
theorem Isolated.apart_update {new : Option Space} (isolated : Isolated s spaces mine pending)
    (here : ∀ space, new = some space → Apart space.pcb space.pgdir space.bits) (pid : Nat)
    (space : Space) (found : Function.update spaces cur new pid = some space) :
    Apart space.pcb space.pgdir space.bits := by
  rw [Function.update_apply] at found
  split at found
  · exact here space found
  · exact isolated.apart pid space found

/-- A call may forget pages of the kernel that it holds. -/
theorem Isolated.forget {mine' : Finset Nat} (isolated : Isolated s spaces mine pending)
    (less : mine' ⊆ mine) : Isolated s spaces mine' pending := by
  refine ⟨isolated.frames, isolated.kernel.fewer (fun owner page has => ?_) fun _ _ _ here => here,
    isolated.apart⟩
  cases owner with
  | none => exact less has
  | some pid => exact has

/-- `palloc` takes a free frame, which is pending. -/
theorem palloc_isolated (isolated : Isolated s spaces mine none) {found : Option Nat}
    (ran : (palloc pf).run s = .ok (found, s')) :
    ∃ addr, found = some addr ∧ Isolated s' spaces mine (some (pf, addr)) ∧
      s'.space = s.space := by
  obtain ⟨b, rfl, small, free, rfl⟩ := palloc_returns ran
  refine ⟨_, rfl, ⟨?_, isolated.kernel, isolated.apart⟩, rfl⟩
  refine isolated.frames.take .pending (r := (pf, frameAddr pools pf b)) ?_
    (fun holder frame => ?_) fun frame => ?_
  · rw [used_frameAddr small, free]
    exact Bool.false_ne_true
  · cases holder with
    | pending =>
        simp only [Holds, reduceCtorEq, false_or, true_and, Option.some.injEq]
        exact eq_comm
    | kernelPage page => simp [Holds, Pages.setFrame]
    | pageTable pid pdeIdx => simp [Holds]
    | userPage pid page => simp [Holds]
  · rw [used_setFrame small]
    by_cases same : frame = (pf, frameAddr pools pf b) <;> simp [same]

/-! ## Pages of the kernel -/

/-- `page_table_add` of a page of the kernel, which is the call's. -/
theorem addKernelPage_isolated (high : kHeapStart ≤ vaddr)
    (isolated : Isolated s spaces mine (some (.kernel, addr)))
    (ran : (pageTableAdd cur vaddr addr).run s = .ok ((), s')) :
    vaddr / pgSize ∉ mine ∧ Isolated s' spaces (insert (vaddr / pgSize) mine) none ∧
      s'.space = s.space := by
  have above : ¬ vaddr < kernelBase := fun low => not_high low high
  rw [pageTableAdd, if_neg above] at ran
  obtain ⟨entry, _, read, ran⟩ := call_bind_returns.mp ran
  obtain ⟨same, rfl⟩ := readPte_kernel high read
  obtain ⟨_, _, required, ran⟩ := call_bind_returns.mp ran
  obtain ⟨absent, rfl⟩ := call_lift_returns.mp required
  rw [require_eq_ok, ← same] at absent
  rw [writePte, if_pos high] at ran
  cases call_modify_returns.mp ran
  generalize vaddr / pgSize = page at *
  refine ⟨fun member => ?_, ⟨?_, ?_, isolated.apart⟩, rfl⟩
  · have present := isolated.kernel.inUse none page member
    rw [absent] at present
    cases present
  · refine isolated.frames.passAll .pending (.kernelPage page) fun holder frame => ?_
    cases holder with
    | kernelPage page' =>
        by_cases same : page' = page
        · cases same
          simp only [Holds, Function.update_self, absent, Bool.false_eq_true, false_and, and_false,
            true_and, false_or, Option.some.injEq]
          exact eq_comm
        · simp [Holds, same]
    | pageTable pid pdeIdx => simp [Holds]
    | userPage pid page' => simp [Holds]
    | pending => simp [Holds]
  · refine isolated.kernel.take none (r := page) (by simp [absent]) ?_ ?_
    · intro owner page'
      cases owner with
      | none => simp [HasPage, or_comm]
      | some pid => simp [HasPage]
    · intro page'
      by_cases same : page' = page <;> simp [same]

/-- The loop of `malloc_page` for pages of the kernel. -/
theorem mapKernelPages_isolated {done : Bool} (high : kHeapStart ≤ vaddr)
    (isolated : Isolated s spaces mine none)
    (ran : (mapPages cur .kernel vaddr cnt).run s = .ok (done, s')) :
    done = true ∧ Disjoint (pagesFrom vaddr cnt) mine ∧
      Isolated s' spaces (pagesFrom vaddr cnt ∪ mine) none ∧ s'.space = s.space := by
  induction cnt generalizing s vaddr mine with
  | zero =>
      obtain ⟨rfl, rfl⟩ := call_pure_returns.mp ran
      refine ⟨rfl, by simp [pagesFrom], ?_, rfl⟩
      simpa [pagesFrom] using isolated
  | succ cnt ih =>
      obtain ⟨found, middle, allocated, ran⟩ := call_bind_returns.mp ran
      obtain ⟨addr, rfl, taken, same⟩ := palloc_isolated isolated allocated
      obtain ⟨_, middle', added, ran⟩ := call_bind_returns.mp ran
      obtain ⟨new, mapped, same'⟩ := addKernelPage_isolated high taken added
      obtain ⟨done, apart, after, same''⟩ :=
        ih (Nat.le_trans high (Nat.le_add_right _ _)) mapped ran
      rw [Finset.disjoint_insert_right] at apart
      rw [pagesFrom_succ]
      refine ⟨done, ?_, ?_, same''.trans (same'.trans same)⟩
      · rw [Finset.disjoint_insert_left]
        exact ⟨new, apart.2⟩
      · rwa [Finset.insert_union, ← Finset.union_insert]

/-- `get_kernel_pages` gives the call new pages. -/
theorem getKernelPages_isolated {found : Option Nat} (isolated : Isolated s spaces mine none)
    (ran : (getKernelPages cur cnt).run s = .ok (found, s')) :
    s'.space = s.space ∧ (found = none → Isolated s' spaces mine none) ∧
      ∀ start, found = some start → kHeapStart ≤ start ∧ Disjoint (pagesFrom start cnt) mine ∧
        Isolated s' spaces (pagesFrom start cnt ∪ mine) none := by
  obtain ⟨_, _, required, ran⟩ := call_bind_returns.mp ran
  obtain ⟨-, rfl⟩ := call_lift_returns.mp required
  obtain ⟨start, middle, got, ran⟩ := call_bind_returns.mp ran
  obtain ⟨_, _, read, got⟩ := call_bind_returns.mp got
  obtain ⟨rfl, rfl⟩ := call_get_returns.mp read
  obtain ⟨bit, _, scanned, got⟩ := call_bind_returns.mp got
  obtain ⟨-, rfl⟩ := call_lift_returns.mp scanned
  cases bit with
  | none =>
      obtain ⟨rfl, rfl⟩ := call_pure_returns.mp got
      obtain ⟨rfl, rfl⟩ := call_pure_returns.mp ran
      exact ⟨rfl, fun _ => isolated, fun _ none => by cases none⟩
  | some bit =>
      obtain ⟨_, _, set, got⟩ := call_bind_returns.mp got
      cases call_modify_returns.mp set
      obtain ⟨rfl, rfl⟩ := call_pure_returns.mp got
      have marked : Isolated { s with kernelVaddr := setBits s.kernelVaddr bit true cnt }
          spaces mine none := isolated.congr rfl rfl
      obtain ⟨done, middle', mapped, ran⟩ := call_bind_returns.mp ran
      obtain ⟨rfl, apart, after, same⟩ :=
        mapKernelPages_isolated (Nat.le_add_right _ _) marked mapped
      obtain ⟨rfl, rfl⟩ := call_pure_returns.mp ran
      refine ⟨same, (fun none => by cases none), fun start found => ?_⟩
      cases found
      exact ⟨Nat.le_add_right _ _, apart, after⟩

/-- A page of the kernel that the call holds is unmapped. -/
theorem unmapKernelPage_isolated (high : kHeapStart ≤ vaddr) (member : vaddr / pgSize ∈ mine)
    (isolated : Isolated s spaces mine none)
    (entry : (s.kernelPte (vaddr / pgSize)).addr = addr)
    (ran : (do pfree addr; pageTablePteRemove cur vaddr : PageCall pools Unit).run s =
      .ok ((), s')) :
    Isolated s' spaces (mine.erase (vaddr / pgSize)) none ∧ s'.space = s.space := by
  have present := isolated.kernel.inUse none _ member
  obtain ⟨b, small, same⟩ := isolated.isFrame (.kernelPage _) ⟨present, rfl⟩
  dsimp only at small same
  obtain rfl := entry.symm.trans same
  obtain ⟨_, middle, freed, ran⟩ := call_bind_returns.mp ran
  cases freeAPhyPage_returns small freed
  obtain ⟨pte, _, read, ran⟩ := call_bind_returns.mp ran
  obtain ⟨known, rfl⟩ := readPte_kernel high read
  rw [writePte, if_pos high] at ran
  cases call_modify_returns.mp ran
  generalize vaddr / pgSize = page at *
  refine ⟨⟨?_, ?_, isolated.apart⟩, rfl⟩
  · refine isolated.frames.release (.kernelPage page) (r := (.kernel, frameAddr pools .kernel b))
      (fun frame => ?_) (fun holder frame => ?_) fun frame => ?_
    · simp only [Holds, present, entry, true_and]
    · cases holder with
      | kernelPage page' =>
          by_cases same : page' = page
          · simp [Holds, same]
          · simp [Holds, same, Pages.setFrame]
      | pageTable pid pdeIdx => simp [Holds]
      | userPage pid page' => simp [Holds]
      | pending => simp [Holds]
    · refine (used_setFrame small).trans ?_
      by_cases same : frame = (.kernel, frameAddr pools .kernel b) <;> simp [same]
  · refine isolated.kernel.fewer (fun owner page' has => ?_) fun owner page' has present' => ?_
    · cases owner with
      | none => exact Finset.mem_of_mem_erase has
      | some pid => exact has
    · have other : page' ≠ page := by
        rintro rfl
        cases owner with
        | none => exact Finset.notMem_erase _ _ has
        | some pid => cases isolated.kernel.exclusive none (some pid) _ member has
      dsimp only
      rw [Function.update_of_ne other]
      exact present'

/-- The loop of `mfree_page` over pages of the kernel that the call holds. -/
theorem unmapKernelPages_isolated {branch : Bool} (high : kHeapStart ≤ vaddr)
    (aligned : vaddr % pgSize = 0) (members : pagesFrom vaddr cnt ⊆ mine)
    (isolated : Isolated s spaces mine none)
    (ran : (unmapPages cur branch vaddr cnt).run s = .ok ((), s')) :
    Isolated s' spaces (mine \ pagesFrom vaddr cnt) none ∧ s'.space = s.space := by
  induction cnt generalizing s vaddr mine with
  | zero =>
      obtain ⟨-, rfl⟩ := call_pure_returns.mp ran
      exact ⟨by simpa [pagesFrom] using isolated, rfl⟩
  | succ cnt ih =>
      rw [pagesFrom_succ] at members
      obtain ⟨addr, _, translated, ran⟩ := call_bind_returns.mp ran
      obtain ⟨pte, _, read, translated⟩ := call_bind_returns.mp translated
      obtain ⟨entry, rfl⟩ := readPte_kernel high read
      obtain ⟨rfl, rfl⟩ := call_pure_returns.mp translated
      obtain ⟨_, _, required, ran⟩ := call_bind_returns.mp ran
      obtain ⟨-, rfl⟩ := call_lift_returns.mp required
      obtain ⟨_, middle, freed, ran⟩ := call_bind_returns.mp ran
      obtain ⟨_, middle', removed, ran⟩ := call_bind_returns.mp ran
      have body : (do pfree (pte.addr + vaddr % pgSize); pageTablePteRemove cur vaddr :
          PageCall pools Unit).run s = .ok ((), middle') :=
        call_bind_returns.mpr ⟨(), middle, freed, removed⟩
      obtain ⟨unmapped, same⟩ := unmapKernelPage_isolated high
        (members (Finset.mem_insert_self _ _)) isolated (by rw [entry, aligned]; rfl) body
      have members' : pagesFrom (vaddr + pgSize) cnt ⊆ mine.erase (vaddr / pgSize) := by
        intro page member
        refine Finset.mem_erase.mpr ⟨?_, members (Finset.mem_insert_of_mem member)⟩
        obtain ⟨k, -, rfl⟩ := mem_pagesFrom.mp member
        rw [next_page]
        omega
      obtain ⟨after, same'⟩ := ih (Nat.le_trans high (Nat.le_add_right _ _))
        (by rw [Nat.add_mod_right, aligned]) members' unmapped ran
      refine ⟨?_, same'.trans same⟩
      rwa [pagesFrom_succ, Finset.sdiff_insert, ← Finset.erase_sdiff_comm]

/-- `mfree_page` for pages of the kernel that the call holds. -/
theorem mfreeKernelPages_isolated (high : kHeapStart ≤ vaddr) (members : pagesFrom vaddr cnt ⊆ mine)
    (isolated : Isolated s spaces mine none)
    (ran : (mfreePage cur .kernel vaddr cnt).run s = .ok ((), s')) :
    Isolated s' spaces (mine \ pagesFrom vaddr cnt) none ∧ s'.space = s.space := by
  obtain ⟨_, _, required, ran⟩ := call_bind_returns.mp ran
  obtain ⟨sane, rfl⟩ := call_lift_returns.mp required
  rw [require_eq_ok] at sane
  obtain ⟨addr, _, translated, ran⟩ := call_bind_returns.mp ran
  obtain ⟨pte, _, read, translated⟩ := call_bind_returns.mp translated
  obtain ⟨-, rfl⟩ := readPte_kernel high read
  obtain ⟨rfl, rfl⟩ := call_pure_returns.mp translated
  obtain ⟨_, _, required, ran⟩ := call_bind_returns.mp ran
  obtain ⟨-, rfl⟩ := call_lift_returns.mp required
  obtain ⟨_, middle, unmapped, ran⟩ := call_bind_returns.mp ran
  obtain ⟨after, same⟩ := unmapKernelPages_isolated high sane.2 members isolated unmapped
  cases call_modify_returns.mp ran
  exact ⟨after.congr rfl rfl, same⟩

/-! ## Pages of a process -/

theorem setSpace_other {pid : Nat} (other : pid ≠ cur) :
    (s.setSpace cur space).space pid = s.space pid :=
  Function.update_of_ne other ..

theorem ownPages_identity (same : space'.identity = space.identity) :
    space'.ownPages = space.ownPages := by
  simp only [Space.identity, Prod.mk.injEq] at same
  obtain ⟨samePcb, samePgdir, sameBits, -, sameHanging⟩ := same
  rw [Space.ownPages, Space.ownPages, samePcb, samePgdir, sameBits, sameHanging]

/-- The page tables of a process and its bitmap are changed. -/
theorem Isolated.setSpace {after : Pages pools} {pending' : Option (PoolFlags × Nat)}
    (isolated : Isolated s s.space mine pending) (known : s.space cur = some space)
    (same : space'.identity = space.identity) (entries : after.kernelPte = s.kernelPte)
    (others : after.space = s.space)
    (frames : Ledger after.Used
      (Holds s.kernelPte (Function.update s.space cur (some space')) pending')) :
    Isolated (after.setSpace cur space') (after.setSpace cur space').space mine pending' := by
  have spaces : (after.setSpace cur space').space = Function.update s.space cur (some space') := by
    rw [Pages.setSpace, others]
  rw [spaces]
  refine ⟨?_, ?_, isolated.apart_update fun space'' found => ?_⟩
  · change Ledger _ (Holds after.kernelPte _ _)
    rw [entries]
    exact frames
  · change Custody (fun page => (after.kernelPte page).present = true) _
    rw [entries]
    refine isolated.kernel.fewer (fun owner page has => ?_) fun _ _ _ present => present
    cases owner with
    | none => exact has
    | some pid =>
        obtain ⟨space'', found, member⟩ := has
        by_cases here : pid = cur
        · cases here
          rw [Function.update_self] at found
          cases found
          exact ⟨space, known, ownPages_identity same ▸ member⟩
        · rw [Function.update_of_ne here] at found
          exact ⟨space'', found, member⟩
  · cases found
    have apart := isolated.apart cur space known
    simp only [Space.identity, Prod.mk.injEq] at same
    obtain ⟨samePcb, samePgdir, sameBits, -⟩ := same
    rwa [← samePcb, ← samePgdir, ← sameBits] at apart

/-- The bitmap of a process does not matter. -/
theorem Isolated.setBitmap (isolated : Isolated s s.space mine pending)
    (known : s.space cur = some space) (btmp : Bitmap userBtmpBytesLen) :
    Isolated (s.setSpace cur { space with vaddrBitmap := btmp })
      (s.setSpace cur { space with vaddrBitmap := btmp }).space mine pending := by
  refine isolated.setSpace known rfl rfl rfl (isolated.frames.congr (fun holder frame => ?_)
    fun _ => Iff.rfl)
  cases holder with
  | pageTable pid pdeIdx =>
      by_cases here : pid = cur
      · cases here
        simp [Holds, known]
      · simp [Holds, here]
  | userPage pid page =>
      by_cases here : pid = cur
      · cases here
        simp [Holds, known, Space.Maps]
      · simp [Holds, here]
  | kernelPage page => rfl
  | pending => rfl

theorem lives_setBitmap (lives : space.hanging = false) (btmp : Bitmap userBtmpBytesLen) :
    (s.setSpace cur { space with vaddrBitmap := btmp }).Lives cur :=
  ⟨_, setSpace_space, lives⟩

/-- A page table that is added holds one frame, and maps nothing. -/
theorem addTable_isolated (known : s.space cur = some space) (lives : space.hanging = false)
    (isolated : Isolated s s.space mine pending) (low : vaddr < kernelBase)
    (absent : (space.pde (vaddr / 0x400000)).present = false)
    (ran : (addTable cur vaddr).run s = .ok ((), s')) :
    ∃ frame, s'.space cur = some (space.addTable (vaddr / 0x400000) frame) ∧
      Isolated s' s'.space mine pending := by
  have user : vaddr / 0x400000 < 768 := by
    unfold kernelBase at low
    omega
  obtain ⟨found, middle, allocated, ran⟩ := call_bind_returns.mp ran
  obtain ⟨b, rfl, small, free, rfl⟩ := palloc_returns allocated
  obtain ⟨space', _, read, ran⟩ := call_bind_returns.mp ran
  obtain ⟨found, rfl⟩ := spaceOf_returns read
  cases known.symm.trans found
  cases call_modify_returns.mp ran
  generalize vaddr / 0x400000 = pdeIdx at *
  refine ⟨frameAddr pools .kernel b, setSpace_space, ?_⟩
  refine isolated.setSpace known rfl rfl rfl (isolated.frames.take (.pageTable cur pdeIdx)
    (r := (.kernel, frameAddr pools .kernel b)) ?_ (fun holder frame => ?_) fun frame => ?_)
  · rw [used_frameAddr small, free]
    exact Bool.false_ne_true
  · cases holder with
    | pageTable pid pdeIdx' =>
        by_cases here : pid = cur
        · cases here
          by_cases same : pdeIdx' = pdeIdx
          · cases same
            simp only [Holds, Function.update_self, Option.some.injEq, exists_eq_left', known,
              Space.addTable, lives, user, absent, Bool.false_eq_true, true_and, false_and,
              false_or, Option.getD_some]
          · simp [Holds, known, Space.addTable, same]
        · simp [Holds, here]
    | userPage pid page =>
        by_cases here : pid = cur
        · cases here
          by_cases same : page / 1024 = pdeIdx
          · simp [Holds, known, Space.addTable, Space.Maps, same, absent, Pte.zero]
          · simp [Holds, known, Space.addTable, Space.Maps, same]
        · simp [Holds, here]
    | kernelPage page => simp [Holds]
    | pending => simp [Holds]
  · rw [used_setFrame small]
    by_cases same : frame = (.kernel, frameAddr pools .kernel b) <;> simp [same]

/-- A page of a process is mapped to the pending frame. -/
theorem writeUserPte_isolated (known : s.space cur = some space) (lives : space.hanging = false)
    (isolated : Isolated s s.space mine (some (.user, addr))) (low : vaddr < kernelBase)
    (present : (space.pde (vaddr / 0x400000)).present = true)
    (absent : (space.pte (vaddr / pgSize)).present = false)
    (ran : (writePte cur vaddr ⟨addr, true⟩).run s = .ok ((), s')) :
    s'.Lives cur ∧ Isolated s' s'.space mine none := by
  have user := page_low low
  rw [writePte, if_neg (not_high low), if_neg (Nat.not_le.mpr low)] at ran
  obtain ⟨space', _, read, ran⟩ := call_bind_returns.mp ran
  obtain ⟨found, rfl⟩ := spaceOf_returns read
  cases known.symm.trans found
  cases call_modify_returns.mp ran
  rw [← page_of_vaddr] at present
  rw [kernelBase_page] at user
  generalize vaddr / pgSize = page at *
  refine ⟨⟨_, setSpace_space, lives⟩, ?_⟩
  refine isolated.setSpace known rfl rfl rfl
    (isolated.frames.passAll .pending (.userPage cur page) fun holder frame => ?_)
  cases holder with
  | pageTable pid pdeIdx =>
      by_cases here : pid = cur
      · cases here
        simp [Holds, known]
      · simp [Holds, here]
  | userPage pid page' =>
      by_cases here : pid = cur
      · cases here
        by_cases same : page' = page
        · cases same
          simp only [Holds, Function.update_self, Option.some.injEq, exists_eq_left', known,
            Space.Maps, user, present, absent, lives, Bool.false_eq_true, true_and, and_false,
            false_and, false_or]
          exact eq_comm
        · simp [Holds, known, Space.Maps, same]
      · simp [Holds, here]
  | kernelPage page' => simp [Holds]
  | pending => simp [Holds]

/-- `page_table_add` of a page of a process. -/
theorem addUserPage_isolated (below : vaddr < kHeapStart) (lives : s.Lives cur)
    (isolated : Isolated s s.space mine (some (.user, addr)))
    (ran : (pageTableAdd cur vaddr addr).run s = .ok ((), s')) :
    vaddr < kernelBase ∧ s'.Lives cur ∧ Isolated s' s'.space mine none := by
  have low := pageTableAdd_low below ran
  refine ⟨low, ?_⟩
  obtain ⟨space, known, lives⟩ := lives
  rw [pageTableAdd, if_pos low] at ran
  obtain ⟨space', _, read, ran⟩ := call_bind_returns.mp ran
  obtain ⟨found, rfl⟩ := spaceOf_returns read
  cases known.symm.trans found
  have rest : ∀ {space' : Space} {middle : Pages pools}, middle.space cur = some space' →
      space'.hanging = false → Isolated middle middle.space mine (some (.user, addr)) →
      (do require ((← readPte cur vaddr).present = false)
          writePte cur vaddr ⟨addr, true⟩ : PageCall pools Unit).run middle = .ok ((), s') →
      s'.Lives cur ∧ Isolated s' s'.space mine none := by
    intro space' middle known' lives' isolated' ran
    obtain ⟨entry, _, read, ran⟩ := call_bind_returns.mp ran
    obtain ⟨present, rfl, rfl⟩ := readPte_user low known' read
    obtain ⟨_, _, required, ran⟩ := call_bind_returns.mp ran
    obtain ⟨absent, rfl⟩ := call_lift_returns.mp required
    rw [require_eq_ok] at absent
    exact writeUserPte_isolated known' lives' isolated' low present absent ran
  by_cases present : (space.pde (vaddr / 0x400000)).present = true
  · rw [if_neg (not_not.mpr present)] at ran
    exact rest known lives isolated ran
  · rw [if_pos present] at ran
    obtain ⟨_, middle, added, ran⟩ := call_bind_returns.mp ran
    obtain ⟨frame, known', isolated'⟩ := addTable_isolated known lives isolated low
      (Bool.eq_false_iff.mpr present) added
    exact rest known' lives isolated' ran

/-- A frame is allocated for a page of a process, and mapped. -/
theorem newUserPage_isolated {found : Option Nat} {middle : Pages pools}
    (below : vaddr < kHeapStart) (lives : s.Lives cur) (isolated : Isolated s s.space mine none)
    (allocated : (palloc .user).run s = .ok (found, middle))
    (added : (pageTableAdd cur vaddr (found.getD 0)).run middle = .ok ((), s')) :
    vaddr < kernelBase ∧ s'.Lives cur ∧ Isolated s' s'.space mine none := by
  obtain ⟨addr, rfl, taken, same⟩ := palloc_isolated isolated allocated
  rw [← same] at taken
  refine addUserPage_isolated below ?_ taken added
  rwa [Pages.Lives, same]

/-- The loop of `malloc_page` for pages of a process. -/
theorem mapUserPages_isolated {done : Bool} (below : vaddr < kHeapStart) (lives : s.Lives cur)
    (isolated : Isolated s s.space mine none)
    (ran : (mapPages cur .user vaddr cnt).run s = .ok (done, s')) :
    Isolated s' s'.space mine none := by
  induction cnt generalizing s vaddr with
  | zero =>
      obtain ⟨rfl, rfl⟩ := call_pure_returns.mp ran
      exact isolated
  | succ cnt ih =>
      obtain ⟨found, middle, allocated, ran⟩ := call_bind_returns.mp ran
      obtain ⟨_, rfl, -, -⟩ := palloc_isolated isolated allocated
      obtain ⟨_, middle', added, ran⟩ := call_bind_returns.mp ran
      obtain ⟨low, lives', isolated'⟩ := newUserPage_isolated below lives isolated allocated added
      have next : vaddr + pgSize < kHeapStart := by
        unfold kernelBase at low
        unfold kHeapStart pgSize
        omega
      exact ih next lives' isolated' ran

/-- `malloc_page` for pages of a process. -/
theorem mallocUserPages_isolated {found : Option Nat} (lives : s.Lives cur)
    (isolated : Isolated s s.space mine none)
    (ran : (mallocPage cur .user cnt).run s = .ok (found, s')) :
    Isolated s' s'.space mine none := by
  obtain ⟨_, _, required, ran⟩ := call_bind_returns.mp ran
  obtain ⟨-, rfl⟩ := call_lift_returns.mp required
  obtain ⟨start, middle, got, ran⟩ := call_bind_returns.mp ran
  obtain ⟨space, known, lives⟩ := lives
  obtain ⟨space', _, read, got⟩ := call_bind_returns.mp got
  obtain ⟨found, rfl⟩ := spaceOf_returns read
  cases known.symm.trans found
  obtain ⟨bit, _, scanned, got⟩ := call_bind_returns.mp got
  obtain ⟨-, rfl⟩ := call_lift_returns.mp scanned
  cases bit with
  | none =>
      obtain ⟨rfl, rfl⟩ := call_pure_returns.mp got
      obtain ⟨rfl, rfl⟩ := call_pure_returns.mp ran
      exact isolated
  | some bit =>
      obtain ⟨_, _, set, got⟩ := call_bind_returns.mp got
      cases call_modify_returns.mp set
      obtain ⟨_, _, required, got⟩ := call_bind_returns.mp got
      obtain ⟨below, rfl⟩ := call_lift_returns.mp required
      obtain ⟨rfl, rfl⟩ := call_pure_returns.mp got
      obtain ⟨done, middle', mapped, ran⟩ := call_bind_returns.mp ran
      rw [require_eq_ok] at below
      have low : userVaddrStart + bit * pgSize < kHeapStart := by
        unfold kernelBase pgSize at below
        unfold kHeapStart pgSize
        omega
      have after := mapUserPages_isolated low (lives_setBitmap lives _)
        (isolated.setBitmap known (setBits space.vaddrBitmap bit true cnt)) mapped
      cases done with
      | true =>
          obtain ⟨rfl, rfl⟩ := call_pure_returns.mp ran
          exact after
      | false =>
          obtain ⟨rfl, rfl⟩ := call_pure_returns.mp ran
          exact after

/-- `get_a_page` for a page of a process. -/
theorem getAPage_isolated {found : Option Nat} (below : vaddr < kHeapStart) (lives : s.Lives cur)
    (isolated : Isolated s s.space mine none)
    (ran : (getAPage cur vaddr).run s = .ok (found, s')) :
    Isolated s' s'.space mine none := by
  obtain ⟨space, known, lives⟩ := lives
  obtain ⟨space', _, read, ran⟩ := call_bind_returns.mp ran
  obtain ⟨found, rfl⟩ := spaceOf_returns read
  cases known.symm.trans found
  obtain ⟨_, _, required, ran⟩ := call_bind_returns.mp ran
  obtain ⟨-, rfl⟩ := call_lift_returns.mp required
  obtain ⟨_, _, set, ran⟩ := call_bind_returns.mp ran
  cases call_modify_returns.mp set
  have marked := isolated.setBitmap known
    (space.vaddrBitmap.set ((vaddr - userVaddrStart) / pgSize) true)
  obtain ⟨frame, middle, allocated, ran⟩ := call_bind_returns.mp ran
  obtain ⟨_, rfl, -, -⟩ := palloc_isolated marked allocated
  obtain ⟨_, middle', added, ran⟩ := call_bind_returns.mp ran
  obtain ⟨rfl, rfl⟩ := call_pure_returns.mp ran
  exact (newUserPage_isolated below (lives_setBitmap lives _) marked allocated added).2.2

/-- A page that a process has mapped is unmapped. -/
theorem unmapUserPage_isolated (low : vaddr < kernelBase) (known : s.space cur = some space)
    (lives : space.hanging = false) (maps : space.Maps (vaddr / pgSize))
    (isolated : Isolated s s.space mine none) (entry : (space.pte (vaddr / pgSize)).addr = addr)
    (ran : (do pfree addr; pageTablePteRemove cur vaddr : PageCall pools Unit).run s =
      .ok ((), s')) :
    s'.space cur = some (space.unmap (vaddr / pgSize) addr) ∧ Isolated s' s'.space mine none := by
  obtain ⟨b, small, same⟩ :=
    isolated.isFrame (.userPage cur (vaddr / pgSize)) ⟨space, known, lives, maps, rfl⟩
  dsimp only at small same
  obtain rfl := entry.symm.trans same
  obtain ⟨_, middle, freed, ran⟩ := call_bind_returns.mp ran
  cases freeAPhyPage_returns small freed
  have known' : (s.setFrame .user b false).space cur = some space := known
  obtain ⟨pte, _, read, ran⟩ := call_bind_returns.mp ran
  obtain ⟨-, rfl, rfl⟩ := readPte_user low known' read
  rw [writePte, if_neg (not_high low), if_neg (Nat.not_le.mpr low)] at ran
  obtain ⟨space', _, read', ran⟩ := call_bind_returns.mp ran
  obtain ⟨found, rfl⟩ := spaceOf_returns read'
  cases known'.symm.trans found
  cases call_modify_returns.mp ran
  generalize vaddr / pgSize = page at *
  rw [entry]
  refine ⟨setSpace_space, ?_⟩
  refine isolated.setSpace known rfl rfl rfl (isolated.frames.release (.userPage cur page)
    (r := (.user, frameAddr pools .user b)) (fun frame => ?_) (fun holder frame => ?_)
    fun frame => ?_)
  · simp only [Holds, known, Option.some.injEq, exists_eq_left', lives, maps, entry, true_and]
  · cases holder with
    | pageTable pid pdeIdx =>
        by_cases here : pid = cur
        · cases here
          simp [Holds, known]
        · simp [Holds, here]
    | userPage pid page' =>
        by_cases here : pid = cur
        · cases here
          by_cases same : page' = page
          · simp [Holds, Space.Maps, same]
          · simp [Holds, known, Space.Maps, same]
        · simp [Holds, here]
    | kernelPage page' => simp [Holds]
    | pending => simp [Holds]
  · refine (used_setFrame small).trans ?_
    by_cases same : frame = (.user, frameAddr pools .user b) <;> simp [same]

/-- The loop of `mfree_page` over pages that a process has mapped. -/
theorem unmapUserPages_isolated {branch : Bool} (aligned : vaddr % pgSize = 0)
    (known : s.space cur = some space) (lives : space.hanging = false)
    (maps : ∀ k < cnt, space.Maps (vaddr / pgSize + k)) (isolated : Isolated s s.space mine none)
    (ran : (unmapPages cur branch vaddr cnt).run s = .ok ((), s')) :
    Isolated s' s'.space mine none := by
  induction cnt generalizing s vaddr space with
  | zero =>
      obtain ⟨-, rfl⟩ := call_pure_returns.mp ran
      exact isolated
  | succ cnt ih =>
      have first := maps 0 (Nat.succ_pos cnt)
      rw [Nat.add_zero] at first
      have low : vaddr < kernelBase := by
        have small := first.1
        unfold pgSize at small
        unfold kernelBase
        omega
      obtain ⟨addr, _, translated, ran⟩ := call_bind_returns.mp ran
      obtain ⟨pte, _, read, translated⟩ := call_bind_returns.mp translated
      obtain ⟨-, entry, rfl⟩ := readPte_user low known read
      obtain ⟨rfl, rfl⟩ := call_pure_returns.mp translated
      obtain ⟨_, _, required, ran⟩ := call_bind_returns.mp ran
      obtain ⟨-, rfl⟩ := call_lift_returns.mp required
      obtain ⟨_, middle, freed, ran⟩ := call_bind_returns.mp ran
      obtain ⟨_, middle', removed, ran⟩ := call_bind_returns.mp ran
      have body : (do pfree (pte.addr + vaddr % pgSize); pageTablePteRemove cur vaddr :
          PageCall pools Unit).run s = .ok ((), middle') :=
        call_bind_returns.mpr ⟨(), middle, freed, removed⟩
      obtain ⟨known', isolated'⟩ := unmapUserPage_isolated low known lives first isolated
        (by rw [entry, aligned]; rfl) body
      have others : ∀ k < cnt, (space.unmap (vaddr / pgSize) (pte.addr + vaddr % pgSize)).Maps
          ((vaddr + pgSize) / pgSize + k) := by
        intro k small
        obtain ⟨inside, present, mapped⟩ := maps (k + 1) (by omega)
        rw [next_page, show vaddr / pgSize + 1 + k = vaddr / pgSize + (k + 1) by omega]
        refine ⟨inside, present, ?_⟩
        dsimp only [Space.unmap]
        rwa [Function.update_of_ne (by omega)]
      have lives' : (space.unmap (vaddr / pgSize) (pte.addr + vaddr % pgSize)).hanging = false :=
        lives
      exact ih (by rw [Nat.add_mod_right, aligned]) known' lives' others isolated' ran

/-- `mfree_page` for pages that a process has mapped. -/
theorem mfreeUserPages_isolated (known : s.space cur = some space) (lives : space.hanging = false)
    (maps : ∀ k < cnt, space.Maps (vaddr / pgSize + k)) (isolated : Isolated s s.space mine none)
    (ran : (mfreePage cur .user vaddr cnt).run s = .ok ((), s')) :
    Isolated s' s'.space mine none := by
  obtain ⟨_, _, required, ran⟩ := call_bind_returns.mp ran
  obtain ⟨sane, rfl⟩ := call_lift_returns.mp required
  rw [require_eq_ok] at sane
  obtain ⟨addr, _, translated, ran⟩ := call_bind_returns.mp ran
  obtain ⟨pte, _, read, translated⟩ := call_bind_returns.mp translated
  cases readPte_same read
  obtain ⟨rfl, rfl⟩ := call_pure_returns.mp translated
  obtain ⟨_, _, required, ran⟩ := call_bind_returns.mp ran
  obtain ⟨-, rfl⟩ := call_lift_returns.mp required
  obtain ⟨_, middle, unmapped, ran⟩ := call_bind_returns.mp ran
  have isolated' := unmapUserPages_isolated sane.2 known lives maps isolated unmapped
  obtain ⟨space', _, read, ran⟩ := call_bind_returns.mp ran
  obtain ⟨found, rfl⟩ := spaceOf_returns read
  cases call_modify_returns.mp ran
  exact isolated'.setBitmap found _

/-! ## Fork -/

/-- The copy of one page of the parent. -/
theorem copyPage_isolated (below : vaddr < kHeapStart) (lives : s.Lives cur)
    (isolated : Isolated s s.space mine none)
    (ran : (getAPageWithoutOpvaddrbitmap cur vaddr).run s = .ok ((), s')) :
    s'.Lives cur ∧ Isolated s' s'.space mine none := by
  obtain ⟨found, middle, allocated, ran⟩ := call_bind_returns.mp ran
  obtain ⟨_, rfl, -, -⟩ := palloc_isolated isolated allocated
  exact (newUserPage_isolated below lives isolated allocated ran).2

/-- The copies of the pages of one byte of the bitmap. -/
theorem copyByte_isolated {idxByte : Nat} {byte : Byte} {left : Nat}
    (inside : idxByte < userBtmpBytesLen) (lives : s.Lives cur)
    (isolated : Isolated s s.space mine none)
    (ran : (copyByte cur idxByte byte left).run s = .ok ((), s')) :
    s'.Lives cur ∧ Isolated s' s'.space mine none := by
  induction left generalizing s with
  | zero =>
      obtain ⟨-, rfl⟩ := call_pure_returns.mp ran
      exact ⟨lives, isolated⟩
  | succ left ih =>
      have below : (idxByte * 8 + (8 - (left + 1))) * pgSize + userVaddrStart < kHeapStart := by
        unfold userBtmpBytesLen kernelBase userVaddrStart pgSize at inside
        unfold kHeapStart userVaddrStart pgSize
        omega
      dsimp only [copyByte] at ran
      by_cases used : byte.getLsbD (8 - (left + 1)) = true
      · rw [if_pos used] at ran
        obtain ⟨_, middle, copied, ran⟩ := call_bind_returns.mp ran
        obtain ⟨lives', isolated'⟩ := copyPage_isolated below lives isolated copied
        exact ih lives' isolated' ran
      · rw [if_neg used] at ran
        exact ih lives isolated ran

/-- The copies of all pages of the parent. -/
theorem copyBytes_isolated {parentBits : Memory} {bytes : List Nat}
    (inside : ∀ idxByte ∈ bytes, idxByte < userBtmpBytesLen) (lives : s.Lives cur)
    (isolated : Isolated s s.space mine none)
    (ran : (copyBytes cur parentBits bytes).run s = .ok ((), s')) :
    s'.Lives cur ∧ Isolated s' s'.space mine none := by
  induction bytes generalizing s with
  | nil =>
      obtain ⟨-, rfl⟩ := call_pure_returns.mp ran
      exact ⟨lives, isolated⟩
  | cons idxByte rest ih =>
      have first := inside idxByte List.mem_cons_self
      have others : ∀ idxByte ∈ rest, idxByte < userBtmpBytesLen := fun idxByte member =>
        inside idxByte (List.mem_cons_of_mem _ member)
      rw [copyBytes] at ran
      by_cases empty : parentBits idxByte ≠ 0
      · rw [if_pos empty] at ran
        obtain ⟨_, middle, copied, ran⟩ := call_bind_returns.mp ran
        obtain ⟨lives', isolated'⟩ := copyByte_isolated first lives isolated copied
        exact ih others lives' isolated' ran
      · rw [if_neg empty] at ran
        exact ih others lives isolated ran

/-- A new process, without page tables, gets pages of the kernel that the call holds. -/
theorem newProcess_isolated (space : Space) (isolated : Isolated s s.space mine none)
    (fresh : s.space child = none) (apart : Apart space.pcb space.pgdir space.bits)
    (lives : space.hanging = false) (empty : space.tables = ⟨fun _ => Pte.zero, fun _ => Pte.zero⟩)
    (given : kernelPages space.pcb space.pgdir space.bits ⊆ mine) :
    Isolated (s.setSpace child space) (s.setSpace child space).space
      (mine \ kernelPages space.pcb space.pgdir space.bits) none := by
  have own := ownPages_lives lives
  have noTables : space.pde = fun _ => Pte.zero := congrArg Tables.pde empty
  refine ⟨isolated.frames.congr (fun holder frame => ?_) fun _ => Iff.rfl,
    isolated.kernel.pass none (some child) (· ∈ kernelPages space.pcb space.pgdir space.bits)
      (fun page member => given member) fun owner page => ?_,
    isolated.apart_update fun space' found => ?_⟩
  · cases holder with
    | pageTable pid pdeIdx =>
        by_cases here : pid = child
        · cases here
          simp [Holds, Pages.setSpace, fresh, noTables, Pte.zero]
        · simp [Holds, Pages.setSpace, here]
    | userPage pid page =>
        by_cases here : pid = child
        · cases here
          simp [Holds, Pages.setSpace, fresh, Space.Maps, noTables, Pte.zero]
        · simp [Holds, Pages.setSpace, here]
    | kernelPage page => rfl
    | pending => rfl
  · cases owner with
    | none => simp [HasPage]
    | some pid =>
        by_cases here : pid = child
        · cases here
          simp [HasPage, Pages.setSpace, fresh, own]
        · have other : HasPage s.space mine (some pid) page →
              page ∉ kernelPages space.pcb space.pgdir space.bits := by
            intro has member
            cases isolated.kernel.exclusive (some pid) none page has (given member)
          simpa [HasPage, Pages.setSpace, here] using other
  · cases found
    exact apart

/-- `sys_fork`, with pages of the kernel that others hold. -/
theorem sysFork_isolated {parent : Nat} {done : Bool} (isolated : Isolated s s.space mine none)
    (fresh : s.space child = none) (ran : (sysFork parent child).run s = .ok (done, s')) :
    Isolated s' s'.space mine none := by
  obtain ⟨found, s₁, got, ran⟩ := call_bind_returns.mp ran
  obtain ⟨same₁, failed₁, pcbFound⟩ := getKernelPages_isolated isolated got
  cases found with
  | none =>
      obtain ⟨rfl, rfl⟩ := call_pure_returns.mp ran
      rw [same₁]
      exact failed₁ rfl
  | some pcb =>
  obtain ⟨pcbHigh, pcbApart, isolated₁⟩ := pcbFound pcb rfl
  obtain ⟨parentSpace, _, read, ran⟩ := call_bind_returns.mp ran
  obtain ⟨-, rfl⟩ := spaceOf_returns read
  obtain ⟨found, s₂, got, ran⟩ := call_bind_returns.mp ran
  obtain ⟨same₂, failed₂, bufFound⟩ := getKernelPages_isolated isolated₁ got
  cases found with
  | none =>
      obtain ⟨rfl, rfl⟩ := call_pure_returns.mp ran
      rw [same₂, same₁]
      exact (failed₂ rfl).forget Finset.subset_union_right
  | some bufPage =>
  obtain ⟨bufHigh, bufApart, isolated₂⟩ := bufFound bufPage rfl
  obtain ⟨found, s₃, got, ran⟩ := call_bind_returns.mp ran
  obtain ⟨same₃, failed₃, bitsFound⟩ := getKernelPages_isolated isolated₂ got
  cases found with
  | none =>
      obtain ⟨rfl, rfl⟩ := call_pure_returns.mp ran
      rw [same₃, same₂, same₁]
      exact (failed₃ rfl).forget
        (Finset.subset_union_right.trans Finset.subset_union_right)
  | some bits =>
  obtain ⟨bitsHigh, bitsApart, isolated₃⟩ := bitsFound bits rfl
  obtain ⟨found, s₄, got, ran⟩ := call_bind_returns.mp ran
  obtain ⟨same₄, failed₄, pgdirFound⟩ := getKernelPages_isolated isolated₃ got
  cases found with
  | none =>
      obtain ⟨rfl, rfl⟩ := call_pure_returns.mp ran
      rw [same₄, same₃, same₂, same₁]
      exact (failed₄ rfl).forget (Finset.subset_union_right.trans
        (Finset.subset_union_right.trans Finset.subset_union_right))
  | some pgdir =>
  obtain ⟨pgdirHigh, pgdirApart, isolated₄⟩ := pgdirFound pgdir rfl
  have same : s₄.space = s.space := same₄.trans (same₃.trans (same₂.trans same₁))
  obtain ⟨_, s₅, made, ran⟩ := call_bind_returns.mp ran
  cases call_modify_returns.mp made
  obtain ⟨_, s₆, copied, ran⟩ := call_bind_returns.mp ran
  obtain ⟨_, s₇, freed, ran⟩ := call_bind_returns.mp ran
  obtain ⟨rfl, rfl⟩ := call_pure_returns.mp ran
  simp only [pagesFrom_one, Finset.disjoint_union_right, Finset.disjoint_singleton_left,
    Finset.disjoint_singleton_right, Finset.mem_singleton] at pcbApart bufApart bitsApart pgdirApart
  have apart : Apart pcb pgdir bits := ⟨pcbHigh, pgdirHigh, bitsHigh,
    pgdirApart.2.2.1, bitsApart.2.1, pgdirApart.1⟩
  rw [← same] at isolated₄
  rw [← same] at fresh
  have isolated₅ := newProcess_isolated ⟨pcb, pgdir, bits, parentSpace.vaddrBitmap,
    fun _ => Pte.zero, fun _ => Pte.zero, some parent, false⟩ isolated₄ fresh apart rfl rfl
    (by
      intro page
      simp only [kernelPages, pagesFrom_one, Finset.mem_union, Finset.mem_singleton,
        Finset.mem_insert]
      grind)
  unfold copyBodyStack3 at copied
  obtain ⟨-, isolated₆⟩ := copyBytes_isolated (fun _ member => List.mem_range.mp member)
    ⟨_, setSpace_space, rfl⟩ isolated₅ copied
  -- The buffer is given back, and what the call held before is left.
  have bufLeft : pagesFrom bufPage 1 ⊆ (pagesFrom pgdir 1 ∪ (pagesFrom bits bitmapPgCnt ∪
      (pagesFrom bufPage 1 ∪ (pagesFrom pcb 1 ∪ mine)))) \ kernelPages pcb pgdir bits := by
    intro page
    simp only [kernelPages, pagesFrom_one, Finset.mem_sdiff, Finset.mem_union,
      Finset.mem_singleton, Finset.mem_insert]
    grind
  obtain ⟨isolated₇, same₇⟩ := mfreeKernelPages_isolated bufHigh bufLeft isolated₆ freed
  rw [same₇]
  refine isolated₇.forget fun page member => ?_
  have bitsOther := Finset.disjoint_left.mp bitsApart.2.2
  simp only [kernelPages, pagesFrom_one, Finset.mem_sdiff, Finset.mem_union,
    Finset.mem_singleton, Finset.mem_insert]
  grind

/-! ## Exit and wait -/

/-- A process that has exited holds no frames; its bitmap is the call's. -/
def Space.exited (space : Space) : Space := { space with hanging := true }

theorem adopted_same (space : Space) (cur : Nat) : (space.adopted cur).pcb = space.pcb ∧
    (space.adopted cur).pgdir = space.pgdir ∧ (space.adopted cur).bits = space.bits ∧
    (space.adopted cur).hanging = space.hanging ∧ (space.adopted cur).pde = space.pde ∧
    (space.adopted cur).pte = space.pte := by
  unfold Space.adopted
  split <;> exact ⟨rfl, rfl, rfl, rfl, rfl, rfl⟩

/-- The children of a process that exits are adopted. -/
theorem adopt_isolated (cur : Nat) {spaces' : Nat → Option Space}
    (adopted : ∀ pid, spaces' pid = (spaces pid).map fun space => space.adopted cur)
    (isolated : Isolated s spaces mine pending) : Isolated s spaces' mine pending := by
  have same := fun space : Space => adopted_same space cur
  refine ⟨isolated.frames.congr (fun holder frame => ?_) fun _ => Iff.rfl,
    isolated.kernel.fewer (fun owner page has => ?_) fun _ _ _ present => present,
    fun pid space' found => ?_⟩
  · cases holder with
    | pageTable pid pdeIdx => cases found : spaces pid <;> simp [Holds, adopted, found, same]
    | userPage pid page =>
        cases found : spaces pid <;> simp [Holds, adopted, found, same, Space.Maps]
    | kernelPage page => rfl
    | pending => rfl
  · cases owner with
    | none => exact has
    | some pid =>
        obtain ⟨space', found, member⟩ := has
        rw [adopted] at found
        obtain ⟨space, known, rfl⟩ := Option.map_eq_some_iff.mp found
        refine ⟨space, known, ?_⟩
        obtain ⟨samePcb, samePgdir, sameBits, sameHanging, -⟩ := same space
        rwa [Space.ownPages, samePcb, samePgdir, sameBits, sameHanging] at member
  · rw [adopted] at found
    obtain ⟨space, known, rfl⟩ := Option.map_eq_some_iff.mp found
    obtain ⟨samePcb, samePgdir, sameBits, -⟩ := same space
    rw [samePcb, samePgdir, sameBits]
    exact isolated.apart pid space known

/-- A page table or a page of a process. -/
def Holder.OfProcess (cur : Nat) : Holder → Prop
  | .kernelPage _ => False
  | .pageTable pid _ => pid = cur
  | .userPage pid _ => pid = cur
  | .pending => False

/-- The walk through the page tables of a process comes to the frames that it holds. -/
theorem walk_holds (known : s.space cur = some space) (lives : space.hanging = false) :
    space.Holds (List.range 768) addr ↔ ∃ holder : Holder, holder.OfProcess cur ∧
      ∃ pf, Holds s.kernelPte s.space pending holder (pf, addr) := by
  constructor
  · rintro ⟨pdeIdx, member, present, rfl | ⟨page, rfl, mapped, rfl⟩⟩
    · exact ⟨.pageTable cur pdeIdx, rfl, .kernel, space, known, lives, List.mem_range.mp member,
        present, rfl⟩
    · have inside := List.mem_range.mp member
      exact ⟨.userPage cur page, rfl, .user, space, known, lives, ⟨by omega, present, mapped⟩, rfl⟩
  · rintro ⟨holder, ofProcess, pf, holds⟩
    cases holder with
    | kernelPage page => exact ofProcess.elim
    | pageTable pid pdeIdx =>
        cases ofProcess
        obtain ⟨space', found, -, inside, present, same⟩ := holds
        cases known.symm.trans found
        exact ⟨pdeIdx, List.mem_range.mpr inside, present, .inl (congrArg Prod.snd same)⟩
    | userPage pid page =>
        cases ofProcess
        obtain ⟨space', found, -, ⟨inside, present, mapped⟩, same⟩ := holds
        cases known.symm.trans found
        exact ⟨page / 1024, List.mem_range.mpr (by omega), present,
          .inr ⟨page, rfl, mapped, congrArg Prod.snd same⟩⟩
    | pending => exact ofProcess.elim

/-- Exactly the frames that the process holds are freed. -/
theorem walk_frees (known : s.space cur = some space) (lives : space.hanging = false)
    (isolated : Isolated s s.space mine pending)
    (frees : Frees s s' (space.Holds (List.range 768))) :
    s'.Used frame ↔ s.Used frame ∧ ¬ ∃ holder : Holder, holder.OfProcess cur ∧
      Holds s.kernelPte s.space pending holder frame := by
  rw [used_of_frees frees, walk_holds known lives]
  refine and_congr_right fun used => not_congr (exists_congr fun holder =>
    and_congr_right fun _ => ⟨?_, fun holds => ⟨frame.1, holds⟩⟩)
  rintro ⟨pf, holds⟩
  rwa [used_pool used (isolated.frames.inUse holder _ holds) rfl]

/-- The walk through the page tables of a process frees what it holds but its pages of the
kernel. -/
theorem freeTables_isolated (known : s.space cur = some space) (lives : space.hanging = false)
    (isolated : Isolated s s.space mine none)
    (ran : (freeTables space (List.range 768)).run s = .ok ((), s')) :
    Isolated s' (Function.update s.space cur (some space.exited))
      (pagesFrom space.bits bitmapPgCnt ∪ mine) none ∧ s'.space = s.space := by
  have frees := freeTables_frees (fun pdeIdx member present => by
      obtain ⟨b, small, same⟩ := isolated.isFrame (.pageTable cur pdeIdx)
        ⟨space, known, lives, List.mem_range.mp member, present, rfl⟩
      exact ⟨_, b, small, same⟩)
    (fun page member present mapped => by
      have inside := List.mem_range.mp member
      obtain ⟨b, small, same⟩ := isolated.isFrame (.userPage cur page)
        ⟨space, known, lives, ⟨by omega, present, mapped⟩, rfl⟩
      exact ⟨_, b, small, same⟩) ran
  have apart := isolated.apart cur space known
  have own := ownPages_lives lives
  refine ⟨⟨?_, ?_, isolated.apart_update fun space' found => ?_⟩, frees.space⟩
  · rw [frees.kernelPte]
    refine isolated.frames.leave (Holder.OfProcess cur) (fun holder frame => ?_)
      fun frame => walk_frees known lives isolated frees
    · cases holder with
      | pageTable pid pdeIdx =>
          by_cases here : pid = cur
          · simp [Holds, here, Space.exited, Holder.OfProcess]
          · simp [Holds, here, Holder.OfProcess]
      | userPage pid page =>
          by_cases here : pid = cur
          · simp [Holds, here, Space.exited, Holder.OfProcess]
          · simp [Holds, here, Holder.OfProcess]
      | kernelPage page => simp [Holds, Holder.OfProcess]
      | pending => simp [Holds]
  · rw [frees.kernelPte]
    refine isolated.kernel.pass (some cur) none (· ∈ pagesFrom space.bits bitmapPgCnt)
      (fun page member => ⟨space, known, ?_⟩) fun owner page => ?_
    · rw [own]
      exact Finset.mem_insert_of_mem (Finset.mem_insert_of_mem member)
    · cases owner with
      | none =>
          by_cases member : page ∈ pagesFrom space.bits bitmapPgCnt <;> simp [HasPage, member]
      | some pid =>
          by_cases here : pid = cur
          · cases here
            simp only [HasPage, Function.update_self, Option.some.injEq, exists_eq_left', known,
              own, reduceCtorEq, false_and, or_false]
            simp only [Space.ownPages, Space.exited, kernelPages, if_true, Finset.mem_insert,
              Finset.mem_singleton]
            have pcbOther := apart.pcb_bits
            have pgdirOther := apart.pgdir_bits
            grind
          · have other : HasPage s.space mine (some pid) page →
                page ∉ pagesFrom space.bits bitmapPgCnt := by
              intro has member
              have hasCur : HasPage s.space mine (some cur) page := by
                refine ⟨space, known, ?_⟩
                rw [own]
                exact Finset.mem_insert_of_mem (Finset.mem_insert_of_mem member)
              exact here (Option.some.inj (isolated.kernel.exclusive _ _ page has hasCur))
            simpa [HasPage, here] using other
  · cases found
    exact apart

/-- `sys_exit`. -/
theorem sysExit_isolated (lives : s.Lives cur) (isolated : Isolated s s.space mine none)
    (ran : (sysExit cur).run s = .ok ((), s')) : Isolated s' s'.space mine none := by
  obtain ⟨space, known, lives⟩ := lives
  obtain ⟨_, s₁, adopted, ran⟩ := call_bind_returns.mp ran
  cases call_modify_returns.mp adopted
  have isolated₁ : Isolated
      { s with space := fun pid => (s.space pid).map fun space => space.adopted cur }
      (fun pid => (s.space pid).map fun space => space.adopted cur) mine none :=
    (adopt_isolated cur (fun _ => rfl) isolated).congr rfl rfl
  obtain ⟨_, s₂, released, ran⟩ := call_bind_returns.mp ran
  obtain ⟨space', _, read, released⟩ := call_bind_returns.mp released
  obtain ⟨known', rfl⟩ := spaceOf_returns read
  have lives' : space'.hanging = false := by
    dsimp only at known'
    rw [known] at known'
    cases known'
    exact (adopted_same space cur).2.2.2.1.trans lives
  obtain ⟨_, s₃, walked, released⟩ := call_bind_returns.mp released
  obtain ⟨isolated₂, same₂⟩ := freeTables_isolated known' lives' isolated₁ walked
  have high := (isolated₁.apart cur space' known').bits_high
  have inside :
      pagesFrom space'.bits freedBitmapPgCnt ⊆ pagesFrom space'.bits bitmapPgCnt ∪ mine := by
    intro page member
    obtain ⟨k, small, rfl⟩ := mem_pagesFrom.mp member
    exact Finset.mem_union_left _ (mem_pagesFrom.mpr ⟨k, Nat.lt_trans small (by decide), rfl⟩)
  obtain ⟨isolated₃, same₃⟩ := mfreeKernelPages_isolated high inside isolated₂ released
  obtain ⟨space'', _, read, ran⟩ := call_bind_returns.mp ran
  obtain ⟨known'', rfl⟩ := spaceOf_returns read
  cases call_modify_returns.mp ran
  rw [same₃, same₂] at known''
  cases known'.symm.trans known''
  -- The bitmap of the process was no page of the call.
  have kept : mine ⊆ (pagesFrom space'.bits bitmapPgCnt ∪ mine) \
      pagesFrom space'.bits freedBitmapPgCnt := by
    intro page member
    refine Finset.mem_sdiff.mpr ⟨Finset.mem_union_right _ member, fun freed => ?_⟩
    obtain ⟨k, small, rfl⟩ := mem_pagesFrom.mp freed
    have own : space'.bits / pgSize + k ∈ space'.ownPages := by
      rw [ownPages_lives lives']
      exact Finset.mem_insert_of_mem (Finset.mem_insert_of_mem
        (mem_pagesFrom.mpr ⟨k, Nat.lt_trans small (by decide), rfl⟩))
    cases isolated₁.kernel.exclusive none (some cur) _ member ⟨space', known', own⟩
  have spaces : (s₂.setSpace cur space'.exited).space =
      Function.update (fun pid => (s.space pid).map fun space => space.adopted cur) cur
        (some space'.exited) := by
    rw [Pages.setSpace, same₃, same₂]
  change Isolated (s₂.setSpace cur space'.exited) (s₂.setSpace cur space'.exited).space mine none
  rw [spaces]
  exact (isolated₃.forget kept).congr rfl rfl

/-- `thread_exit` of a process that has exited. -/
theorem threadExit_isolated {threadOver : Nat} (known : s.space threadOver = some space)
    (exited : space.hanging = true) (isolated : Isolated s s.space mine none)
    (ran : (threadExit cur threadOver).run s = .ok ((), s')) :
    Isolated s' s'.space mine none := by
  have apart := isolated.apart threadOver space known
  have own := ownPages_hanging exited
  -- The pages of the process are the call's.
  have isolated₀ : Isolated s (Function.update s.space threadOver none)
      ({space.pcb / pgSize, space.pgdir / pgSize} ∪ mine) none := by
    refine ⟨isolated.frames.congr (fun holder frame => ?_) fun _ => Iff.rfl,
      isolated.kernel.pass (some threadOver) none
        (· ∈ ({space.pcb / pgSize, space.pgdir / pgSize} : Finset Nat))
        (fun page member => ⟨space, known, own ▸ member⟩) fun owner page => ?_,
      isolated.apart_update fun space' found => ?_⟩
    · cases holder with
      | pageTable pid pdeIdx =>
          by_cases here : pid = threadOver
          · cases here
            simp [Holds, known, exited]
          · simp [Holds, here]
      | userPage pid page =>
          by_cases here : pid = threadOver
          · cases here
            simp [Holds, known, exited]
          · simp [Holds, here]
      | kernelPage page => rfl
      | pending => rfl
    · cases owner with
      | none =>
          by_cases member : page ∈ ({space.pcb / pgSize, space.pgdir / pgSize} : Finset Nat) <;>
            simp only [HasPage, Finset.mem_union, member, true_or, false_or, not_true_eq_false,
              not_false_eq_true, and_false, and_true, or_false, or_true]
      | some pid =>
          by_cases here : pid = threadOver
          · cases here
            simp only [HasPage, Function.update_self, known, own, Option.some.injEq,
              exists_eq_left',
              reduceCtorEq, false_and, exists_false, or_false, and_not_self]
          · have other : HasPage s.space mine (some pid) page →
                page ∉ ({space.pcb / pgSize, space.pgdir / pgSize} : Finset Nat) := by
              intro has member
              have hasIts : HasPage s.space mine (some threadOver) page :=
                ⟨space, known, own ▸ member⟩
              exact here (Option.some.inj (isolated.kernel.exclusive _ _ page has hasIts))
            simpa [HasPage, here] using other
    · cases found
  obtain ⟨space', _, read, ran⟩ := call_bind_returns.mp ran
  obtain ⟨found, rfl⟩ := spaceOf_returns read
  cases known.symm.trans found
  obtain ⟨_, s₁, freed, ran⟩ := call_bind_returns.mp ran
  obtain ⟨isolated₁, same₁⟩ := mfreeKernelPages_isolated apart.pgdir_high
    (by simp [pagesFrom_one]) isolated₀ freed
  obtain ⟨_, s₂, freed', ran⟩ := call_bind_returns.mp ran
  obtain ⟨isolated₂, same₂⟩ := mfreeKernelPages_isolated apart.pcb_high
    (by simp [pagesFrom_one, apart.pcb_pgdir]) isolated₁ freed'
  cases call_modify_returns.mp ran
  have kept : mine ⊆ (({space.pcb / pgSize, space.pgdir / pgSize} ∪ mine) \
      pagesFrom space.pgdir 1) \ pagesFrom space.pcb 1 := by
    intro page member
    have other : ∀ page' ∈ space.ownPages, page ≠ page' := by
      rintro page' has rfl
      cases isolated.kernel.exclusive none (some threadOver) page member ⟨space, known, has⟩
    rw [own] at other
    simp only [pagesFrom_one, Finset.mem_sdiff, Finset.mem_union, member, or_true, true_and,
      Finset.mem_singleton]
    exact ⟨other _ (by simp), other _ (by simp)⟩
  have spaces :
      Function.update s₂.space threadOver none = Function.update s.space threadOver none := by
    rw [same₂, same₁]
  change Isolated _ (Function.update s₂.space threadOver none) mine none
  rw [spaces]
  exact (isolated₂.forget kept).congr rfl rfl

/-! ## The system -/

/-- The pages before anything is allocated. -/
theorem memPoolInit_isolated :
    Isolated (memPoolInit : Pages pools) (memPoolInit : Pages pools).space ∅ none where
  frames := by
    refine .nothing (fun frame used => ?_) fun holder frame holds => ?_
    · obtain ⟨b, -, taken, -⟩ := used
      simp [Pages.taken, memPoolInit, Bitmap.test, Memory.zeros] at taken
    · cases holder <;> simp [Holds, memPoolInit, Pte.zero] at holds
  kernel := by
    constructor
    · intro owner page has
      cases owner <;> simp [HasPage, memPoolInit] at has
    · intro owner _ page has
      cases owner <;> simp [HasPage, memPoolInit] at has
  apart := by simp [memPoolInit]

/-- `process_execute`, with pages of the kernel that others hold. -/
theorem processExecute_isolated {pid : Nat} (isolated : Isolated s s.space mine none)
    (fresh : s.space pid = none) (ran : (processExecute pid).run s = .ok ((), s')) :
    Isolated s' s'.space mine none := by
  obtain ⟨pcb, s₁, gotPcb, ran⟩ := call_bind_returns.mp ran
  obtain ⟨bits, s₂, gotBits, ran⟩ := call_bind_returns.mp ran
  obtain ⟨pgdir, s₃, gotPgdir, ran⟩ := call_bind_returns.mp ran
  split at ran
  case h_2 => exact (call_throw_returns ran).elim
  case h_1 pcb bits pgdir _ _ =>
    obtain ⟨same₁, -, pcbFound⟩ := getKernelPages_isolated isolated gotPcb
    obtain ⟨pcbHigh, pcbApart, isolated₁⟩ := pcbFound pcb rfl
    obtain ⟨same₂, -, bitsFound⟩ := getKernelPages_isolated isolated₁ gotBits
    obtain ⟨bitsHigh, bitsApart, isolated₂⟩ := bitsFound bits rfl
    obtain ⟨same₃, -, pgdirFound⟩ := getKernelPages_isolated isolated₂ gotPgdir
    obtain ⟨pgdirHigh, pgdirApart, isolated₃⟩ := pgdirFound pgdir rfl
    have same : s₃.space = s.space := same₃.trans (same₂.trans same₁)
    simp only [pagesFrom_one, Finset.disjoint_union_right, Finset.disjoint_singleton_left,
      Finset.disjoint_singleton_right, Finset.mem_singleton] at pcbApart bitsApart pgdirApart
    obtain ⟨_, s₄, made, ran⟩ := call_bind_returns.mp ran
    cases call_modify_returns.mp made
    rw [← same] at isolated₃ fresh
    have isolated₄ := newProcess_isolated ⟨pcb, pgdir, bits, ⟨Memory.zeros⟩,
      fun _ => Pte.zero, fun _ => Pte.zero, none, false⟩ isolated₃ fresh
      ⟨pcbHigh, pgdirHigh, bitsHigh, pgdirApart.2.1, bitsApart.1,
        pgdirApart.1⟩ rfl rfl (by
        intro page
        simp only [kernelPages, pagesFrom_one, Finset.mem_union, Finset.mem_singleton,
          Finset.mem_insert]
        grind)
    obtain ⟨_, s₅, got, ran⟩ := call_bind_returns.mp ran
    obtain ⟨-, rfl⟩ := call_pure_returns.mp ran
    refine (getAPage_isolated (by decide) ⟨_, setSpace_space, rfl⟩ isolated₄ got).forget ?_
    intro page member
    have bitsOther := Finset.disjoint_left.mp bitsApart.2
    simp only [kernelPages, pagesFrom_one, Finset.mem_sdiff, Finset.mem_union,
      Finset.mem_singleton, Finset.mem_insert]
    grind

/-- The pages, and those of the kernel's heap that the kernel itself holds: the control blocks of
its threads, and the buffers of the pipes. -/
structure KernelMemory (pools : Pools) where
  pages : Pages pools
  held : Finset Nat

/-- What changes the pages. -/
inductive MemoryOp where
  /-- A call of a process. -/
  | call (op : PageOp)
  /-- `get_a_page`, called by `segment_load`. -/
  | load (cur vaddr : Nat)
  /-- `get_kernel_pages`, called by `thread_start` and `sys_pipe`. -/
  | getKernelPages (cur pgCnt : Nat)
  /-- `mfree_page(PF_KERNEL, ..)`, of pages that the kernel holds. -/
  | mfreeKernelPages (cur vaddr pgCnt : Nat)
  deriving DecidableEq, Repr

/-- What a step does to the pages, and to those that the kernel holds. -/
def MemoryStep (m : KernelMemory pools) (op : MemoryOp) (next : KernelMemory pools) : Prop :=
  match op with
  | .call op => (Paging.pages pools).step m.pages op next.pages ∧ next.held = m.held
  | .load cur vaddr => m.pages.Lives cur ∧ userVaddrStart ≤ vaddr ∧ vaddr < kernelBase ∧
      (∃ found, (getAPage cur vaddr).run m.pages = .ok (found, next.pages)) ∧ next.held = m.held
  | .getKernelPages cur pgCnt => ∃ found,
      (getKernelPages cur pgCnt).run m.pages = .ok (found, next.pages) ∧
        next.held = (found.elim ∅ fun start => pagesFrom start pgCnt) ∪ m.held
  | .mfreeKernelPages cur vaddr pgCnt => kHeapStart ≤ vaddr ∧ pagesFrom vaddr pgCnt ⊆ m.held ∧
      (mfreePage cur .kernel vaddr pgCnt).run m.pages = .ok ((), next.pages) ∧
        next.held = m.held \ pagesFrom vaddr pgCnt

/-- The memory of a machine with the given pools, from the first process on. -/
def memory (pools : Pools) : TransitionSystem (KernelMemory pools) MemoryOp where
  initial m := (Paging.pages pools).initial m.pages ∧ m.held = ∅
  step := MemoryStep

/-- A call of a process keeps the frames apart. -/
theorem pageExec_isolated {op : PageOp} (isolated : Isolated s s.space mine none)
    (stepped : (Paging.pages pools).step s op s') : Isolated s' s'.space mine none := by
  obtain ⟨enabled, ran⟩ := stepped
  cases op with
  | fork parent child =>
      obtain ⟨_, s₁, forked, ran⟩ := call_bind_returns.mp ran
      obtain ⟨-, rfl⟩ := call_pure_returns.mp ran
      exact sysFork_isolated isolated enabled.2 forked
  | malloc cur pgCnt =>
      obtain ⟨_, s₁, got, ran⟩ := call_bind_returns.mp ran
      obtain ⟨-, rfl⟩ := call_pure_returns.mp ran
      exact mallocUserPages_isolated enabled isolated got
  | mfree cur vaddr pgCnt =>
      obtain ⟨⟨space, known, lives⟩, space', known', maps⟩ := enabled
      cases known.symm.trans known'
      exact mfreeUserPages_isolated known lives maps isolated ran
  | exit cur => exact sysExit_isolated enabled isolated ran
  | wait parent child =>
      obtain ⟨-, space, known, exited, -⟩ := enabled
      exact threadExit_isolated known exited isolated ran

theorem memoryStep_isolated {m next : KernelMemory pools} {op : MemoryOp}
    (isolated : Isolated m.pages m.pages.space m.held none) (stepped : MemoryStep m op next) :
    Isolated next.pages next.pages.space next.held none := by
  cases op with
  | call op =>
      obtain ⟨stepped, same⟩ := stepped
      rw [same]
      exact pageExec_isolated isolated stepped
  | load cur vaddr =>
      obtain ⟨lives, -, low, ⟨found, ran⟩, same⟩ := stepped
      rw [same]
      exact getAPage_isolated (Nat.lt_trans low (by decide)) lives isolated ran
  | getKernelPages cur pgCnt =>
      obtain ⟨found, ran, same⟩ := stepped
      obtain ⟨spaces, failed, got⟩ := getKernelPages_isolated isolated ran
      rw [same, spaces]
      cases found with
      | none => simpa using failed rfl
      | some start => exact (got start rfl).2.2
  | mfreeKernelPages cur vaddr pgCnt =>
      obtain ⟨high, members, ran, same⟩ := stepped
      obtain ⟨isolated', spaces⟩ := mfreeKernelPages_isolated high members isolated ran
      rw [same, spaces]
      exact isolated'

theorem memory_isolated {m : KernelMemory pools} (reachable : (memory pools).Reachable m) :
    Isolated m.pages m.pages.space m.held none := by
  refine reachable.invariant (fun m => Isolated m.pages m.pages.space m.held none) ?_ ?_
  · rintro m ⟨ran, held⟩
    rw [held]
    exact processExecute_isolated memPoolInit_isolated rfl ran
  · intro m op next _ isolated stepped
    exact memoryStep_isolated isolated stepped

/-- **No frame has two holders.** In every state that the machine can reach, whatever its processes
do, a frame is in use exactly when one page of the kernel, one page table of a process or one page
of a process is mapped to it; and no two processes have a page of the kernel in common for their
control blocks, page directories and bitmaps, and none has one in common with the kernel's own. -/
theorem frames_isolated {m : KernelMemory pools} (reachable : (memory pools).Reachable m) :
    (∀ pf b, b < pools.frames pf → (m.pages.taken pf b = true ↔ ∃! holder,
      Holds m.pages.kernelPte m.pages.space none holder (pf, frameAddr pools pf b))) ∧
    (∀ holder pf addr, Holds m.pages.kernelPte m.pages.space none holder (pf, addr) →
      ∃ b < pools.frames pf, addr = frameAddr pools pf b) ∧
    ∀ owner owner' page, HasPage m.pages.space m.held owner page →
      HasPage m.pages.space m.held owner' page → owner = owner' := by
  have isolated := memory_isolated reachable
  refine ⟨fun pf b small => ?_, fun holder pf addr => isolated.isFrame holder,
    isolated.kernel.exclusive⟩
  rw [← used_frameAddr small, isolated.frames.used_iff]

/-- The theorem after a child that allocated pages has exited and was reaped. -/
theorem frames_isolated_reaped : ∃ m : KernelMemory somePools, (memory somePools).Reachable m ∧
    m.pages.freeFrames .kernel = 37 ∧ ∀ pf b, b < somePools.frames pf →
      (m.pages.taken pf b = true ↔ ∃! holder,
        Holds m.pages.kernelPte m.pages.space none holder (pf, frameAddr somePools pf b)) := by
  obtain ⟨s, s₁, m, s₂, s₃, s₄, start, forked, got, freed, exited, reaped, -, after⟩ := someLife
  have first : (memory somePools).Reachable ⟨s, ∅⟩ := .initial ⟨start, rfl⟩
  have second : (memory somePools).Reachable ⟨s₁, ∅⟩ :=
    first.step (.call (.fork 1 2)) ⟨forked, rfl⟩
  have third : (memory somePools).Reachable ⟨m, ∅⟩ :=
    second.step (.call (.malloc 2 3)) ⟨got, rfl⟩
  have fourth : (memory somePools).Reachable ⟨s₂, ∅⟩ :=
    third.step (.call (.mfree 2 0x8049000 2)) ⟨freed, rfl⟩
  have fifth : (memory somePools).Reachable ⟨s₃, ∅⟩ :=
    fourth.step (.call (.exit 2)) ⟨exited, rfl⟩
  have last : (memory somePools).Reachable ⟨s₄, ∅⟩ :=
    fifth.step (.call (.wait 1 2)) ⟨reaped, rfl⟩
  exact ⟨⟨s₄, ∅⟩, last, after, (frames_isolated last).1⟩

end UKernel.Paging
