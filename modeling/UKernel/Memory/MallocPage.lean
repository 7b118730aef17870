import UKernel.Memory.PageLeak

/-! # Pages that are allocated and freed again

`malloc_page` takes virtual pages and frames that were free, and maps the pages, which were not
mapped, to the frames; `mfree_page` of the same pages gives both back and removes these mappings.
The page tables are compared through the mapping they stand for (`UKernel.Paging.Pages.frameAt`):
one page at a time is mapped or unmapped, and every other mapping, of any process, is the same
(`UKernel.Paging.Rewrites`). The main result is `UKernel.Paging.malloc_mfree_page`.
-/

namespace UKernel.Paging

open UKernel.Library UKernel.Fs UKernel.Memory

/-! ## Mappings -/

/-- The frame of an entry that is present. -/
def Pte.frame (pte : Pte) : Option Nat :=
  if pte.present then some pte.addr else none

/-- The frame that the user half of the page tables of a process maps a page to. -/
def Space.frameAt (space : Space) (page : Nat) : Option Nat :=
  if (space.pde (page / 1024)).present then (space.pte page).frame else none

variable {pools : Pools} {s s' s'' : Pages pools} {pf : PoolFlags}
  {b cur pid page page' vaddr cnt : Nat}
  {space : Space}

namespace Pages

/-- The frame that the page tables of a process map a page to. -/
def frameAt (s : Pages pools) (pid page : Nat) : Option Nat :=
  if kHeapStart / pgSize ≤ page then
    (s.kernelPte page).frame
  else if kernelBase / pgSize ≤ page then
    some ((page - kernelBase / pgSize) * pgSize)
  else
    (s.space pid).bind fun space => space.frameAt page

/-- A bit of the bitmap of virtual pages that `vaddr_get` uses for the running process. -/
def vaddrBit (s : Pages pools) (cur : Nat) (pf : PoolFlags) (bitIdx : Nat) : Option Bool :=
  match pf with
  | .kernel => some (s.kernelVaddr.test bitIdx)
  | .user => (s.space cur).map fun space => space.vaddrBitmap.test bitIdx

end Pages

/-- `vaddr_start` of the bitmap of virtual pages. -/
def vaddrStart : PoolFlags → Nat
  | .kernel => kHeapStart
  | .user => userVaddrStart

/-- The number of virtual pages that a bitmap manages. -/
def Pools.vaddrPages (pools : Pools) : PoolFlags → Nat
  | .kernel => 8 * pools.btmpBytesLen .kernel
  | .user => 8 * userBtmpBytesLen

/-- The addresses that a flag allocates. -/
def InHalf (pf : PoolFlags) (vaddr : Nat) : Prop :=
  match pf with
  | .kernel => kHeapStart ≤ vaddr
  | .user => vaddr < kernelBase

/-- Two processes have the same entry for two pages. -/
def SameEntry (pid page pid' page' : Nat) : Prop :=
  page' = page ∧ (page < kernelBase / pgSize → pid' = pid)

theorem kHeapStart_page : kHeapStart / pgSize = 0xc0100 := rfl

theorem kernelBase_page : kernelBase / pgSize = 0xc0000 := rfl

/-- Storing an entry of the kernel's half changes one mapping. -/
theorem frameAt_setKernel {pte : Pte} (high : kHeapStart / pgSize ≤ page) :
    ({ s with kernelPte := Function.update s.kernelPte page pte } : Pages pools).frameAt pid page' =
      if page' = page then pte.frame else s.frameAt pid page' := by
  unfold Pages.frameAt
  by_cases same : page' = page
  · rw [if_pos same, same, if_pos high]
    dsimp only
    rw [Function.update_self]
  · rw [if_neg same]
    dsimp only
    rw [Function.update_of_ne same]

/-- Storing the tables of a process changes its user half. -/
theorem frameAt_setSpace :
    (s.setSpace cur space).frameAt pid page =
      if pid = cur ∧ page < kernelBase / pgSize then space.frameAt page
        else s.frameAt pid page := by
  unfold Pages.frameAt Pages.setSpace
  rw [kHeapStart_page, kernelBase_page]
  by_cases high : 0xc0100 ≤ page
  · rw [if_pos high, if_pos high, if_neg (by omega)]
  · rw [if_neg high, if_neg high]
    by_cases low : page < 0xc0000
    · rw [if_neg (Nat.not_le.mpr low), if_neg (Nat.not_le.mpr low)]
      by_cases same : pid = cur
      · rw [if_pos ⟨same, low⟩, same]
        dsimp only
        rw [Function.update_self, Option.bind_some]
      · rw [if_neg fun both => same both.1]
        dsimp only
        rw [Function.update_of_ne same]
    · rw [if_pos (Nat.not_lt.mp low), if_pos (Nat.not_lt.mp low), if_neg fun both => low both.2]

/-- The bitmaps of the frames map nothing. -/
theorem frameAt_setFrame {value : Bool} :
    (s.setFrame pf b value).frameAt pid page = s.frameAt pid page :=
  rfl

/-- The mapping of a page of the user half. -/
theorem frameAt_user (low : page < kernelBase / pgSize) (known : s.space cur = some space) :
    s.frameAt cur page = space.frameAt page := by
  unfold Pages.frameAt
  rw [kernelBase_page] at *
  rw [kHeapStart_page, if_neg (by omega), if_neg (by omega), known, Option.bind_some]

/-- The mapping of a page of the kernel's half. -/
theorem frameAt_kernel (high : kHeapStart / pgSize ≤ page) :
    s.frameAt cur page = (s.kernelPte page).frame := by
  unfold Pages.frameAt
  rw [if_pos high]

theorem page_high (high : kHeapStart ≤ vaddr) : kHeapStart / pgSize ≤ vaddr / pgSize :=
  Nat.div_le_div_right high

theorem page_low (low : vaddr < kernelBase) : vaddr / pgSize < kernelBase / pgSize := by
  unfold kernelBase pgSize at *
  omega

/-! ## One entry -/

/-- One entry is rewritten: every other mapping, the bitmaps of virtual pages and the processes are
the same. -/
structure Rewrites (s s' : Pages pools) (cur page : Nat) (frame : Option Nat) : Prop where
  entry : s'.frameAt cur page = frame
  others : ∀ pid page', ¬ SameEntry cur page pid page' → s'.frameAt pid page' = s.frameAt pid page'
  vaddr : ∀ pf i, s'.vaddrBit cur pf i = s.vaddrBit cur pf i

/-- Storing an entry of the kernel's half. -/
theorem rewrites_kernel {pte : Pte} (high : kHeapStart / pgSize ≤ page) :
    Rewrites s { s with kernelPte := Function.update s.kernelPte page pte } cur page pte.frame where
  entry := by rw [frameAt_setKernel high, if_pos rfl]
  others pid page' apart := by
    rw [frameAt_setKernel high, if_neg]
    intro same
    refine apart ⟨same, fun low => ?_⟩
    rw [kHeapStart_page] at high
    rw [kernelBase_page] at low
    omega
  vaddr pf i := by cases pf <;> rfl

/-- Storing the tables of a process in which one mapping differs. -/
theorem rewrites_user {space' : Space} {frame : Option Nat} (low : page < kernelBase / pgSize)
    (known : s.space cur = some space) (entry : space'.frameAt page = frame)
    (others : ∀ page', page' ≠ page → space'.frameAt page' = space.frameAt page')
    (bitmap : space'.vaddrBitmap = space.vaddrBitmap) :
    Rewrites s (s.setSpace cur space') cur page frame where
  entry := by rw [frameAt_setSpace, if_pos ⟨rfl, low⟩, entry]
  others pid page' apart := by
    rw [frameAt_setSpace]
    split
    case isTrue both =>
        obtain ⟨rfl, low'⟩ := both
        rw [frameAt_user low' known]
        refine others page' fun same => apart ⟨same, fun _ => rfl⟩
    case isFalse => rfl
  vaddr pf i := by
    cases pf with
    | kernel => rfl
    | user =>
        change ((s.setSpace cur space').space cur).map _ = (s.space cur).map _
        rw [setSpace_space, known, Option.map_some, Option.map_some, bitmap]

/-- `*pte_ptr(vaddr)` of a page that is mapped. -/
theorem readPte_mapped {frame : Nat} (half : InHalf pf vaddr)
    (mapped : s.frameAt cur (vaddr / pgSize) = some frame) :
    (readPte cur vaddr).run s = .ok (⟨frame, true⟩, s) := by
  have entryOf : ∀ pte : Pte, pte.frame = some frame → pte = ⟨frame, true⟩ := by
    intro pte known
    unfold Pte.frame at known
    split at known
    case isTrue present =>
        cases known
        cases pte
        simp_all
    case isFalse => cases known
  cases pf with
  | kernel =>
      change kHeapStart ≤ vaddr at half
      rw [frameAt_kernel (page_high half)] at mapped
      rw [readPte, if_pos half, call_bind_of (call_get_returns.mpr ⟨rfl, rfl⟩), entryOf _ mapped]
      rfl
  | user =>
      change vaddr < kernelBase at half
      cases known : s.space cur with
      | none =>
          have low := page_low half
          unfold Pages.frameAt at mapped
          rw [kernelBase_page] at low mapped
          rw [kHeapStart_page, if_neg (by omega), if_neg (by omega), known] at mapped
          cases mapped
      | some space =>
          rw [frameAt_user (page_low half) known, Space.frameAt] at mapped
          split at mapped
          case isTrue present =>
              rw [page_of_vaddr] at present
              rw [readPte, if_neg (not_high half), if_neg (Nat.not_le.mpr half)]
              have read : (spaceOf cur).run s = .ok (space, s) := by
                rw [spaceOf, call_bind_of (call_get_returns.mpr ⟨rfl, rfl⟩), known]
                rfl
              rw [call_bind_of read, if_pos present, entryOf _ mapped]
              rfl
          case isFalse => cases mapped

/-- The end of `page_table_add` in the user half, with a page table. -/
theorem writeEntry_rewrites {addr : Nat} (half : vaddr < kernelBase)
    (known : s.space cur = some space) (ran : (do
      require ((← readPte cur vaddr).present = false)
      writePte cur vaddr ⟨addr, true⟩ : PageCall pools Unit).run s = .ok ((), s')) :
    s.frameAt cur (vaddr / pgSize) = none ∧ Rewrites s s' cur (vaddr / pgSize) (some addr) ∧
      ∀ pf b, s'.taken pf b = s.taken pf b := by
  obtain ⟨entry, _, read, ran⟩ := call_bind_returns.mp ran
  obtain ⟨present, rfl, rfl⟩ := readPte_user half known read
  obtain ⟨_, _, required, ran⟩ := call_bind_returns.mp ran
  obtain ⟨absent, rfl⟩ := call_lift_returns.mp required
  rw [require_eq_ok] at absent
  rw [writePte, if_neg (not_high half), if_neg (Nat.not_le.mpr half)] at ran
  obtain ⟨space', _, read, ran⟩ := call_bind_returns.mp ran
  obtain ⟨found, rfl⟩ := spaceOf_returns read
  cases known.symm.trans found
  cases call_modify_returns.mp ran
  have low := page_low half
  rw [← page_of_vaddr] at present
  refine ⟨?_, rewrites_user low known ?_ ?_ rfl, fun _ _ => rfl⟩
  · rw [frameAt_user low known, Space.frameAt, if_pos present, Pte.frame, absent]
    rfl
  · rw [Space.frameAt, if_pos present]
    dsimp only
    rw [Function.update_self]
    rfl
  · intro page' apart
    unfold Space.frameAt
    dsimp only
    rw [Function.update_of_ne apart]

/-- A new page table maps nothing, and neither did its place in the page directory. -/
theorem frameAt_addTable {pdeIdx frame : Nat} (absent : ¬ (space.pde pdeIdx).present = true) :
    (space.addTable pdeIdx frame).frameAt page = space.frameAt page := by
  unfold Space.frameAt Space.addTable
  by_cases inside : page / 1024 = pdeIdx
  · simp [inside, absent, Pte.frame, Pte.zero]
  · simp [inside]

/-- `page_table_add` maps a page that was not mapped. -/
theorem pageTableAdd_maps {addr : Nat} (half : InHalf pf vaddr)
    (ran : (pageTableAdd cur vaddr addr).run s = .ok ((), s')) :
    s.frameAt cur (vaddr / pgSize) = none ∧ Rewrites s s' cur (vaddr / pgSize) (some addr) ∧
      ∀ b, s'.taken pf b = s.taken pf b := by
  cases pf with
  | kernel =>
      change kHeapStart ≤ vaddr at half
      have notUser : ¬ vaddr < kernelBase := fun low => not_high low half
      rw [pageTableAdd, if_neg notUser] at ran
      obtain ⟨entry, _, read, ran⟩ := call_bind_returns.mp ran
      obtain ⟨rfl, rfl⟩ := readPte_kernel half read
      obtain ⟨_, _, required, ran⟩ := call_bind_returns.mp ran
      obtain ⟨absent, rfl⟩ := call_lift_returns.mp required
      rw [require_eq_ok] at absent
      rw [writePte, if_pos half] at ran
      cases call_modify_returns.mp ran
      refine ⟨?_, rewrites_kernel (page_high half), fun _ => rfl⟩
      rw [frameAt_kernel (page_high half), Pte.frame, absent]
      rfl
  | user =>
      change vaddr < kernelBase at half
      have low := page_low half
      rw [pageTableAdd, if_pos half] at ran
      obtain ⟨space, _, read, ran⟩ := call_bind_returns.mp ran
      obtain ⟨known, rfl⟩ := spaceOf_returns read
      rw [← page_of_vaddr] at ran
      by_cases present : (space.pde (vaddr / pgSize / 1024)).present = true
      · rw [if_neg (not_not.mpr present)] at ran
        obtain ⟨unmapped, rewrites, same⟩ := writeEntry_rewrites half known ran
        exact ⟨unmapped, rewrites, fun b => same .user b⟩
      · rw [if_pos present] at ran
        obtain ⟨_, middle, added, ran⟩ := call_bind_returns.mp ran
        obtain ⟨table, _, allocated, added⟩ := call_bind_returns.mp added
        obtain ⟨c, rfl, -, -, rfl⟩ := palloc_returns allocated
        obtain ⟨space', _, read, added⟩ := call_bind_returns.mp added
        obtain ⟨found, rfl⟩ := spaceOf_returns read
        cases known.symm.trans found
        cases call_modify_returns.mp added
        obtain ⟨-, rewrites, same⟩ := writeEntry_rewrites half setSpace_space ran
        rw [page_of_vaddr] at present
        have before : ∀ pid page, ((s.setFrame .kernel c true).setSpace cur (space.addTable
            (vaddr / 0x400000) (frameAddr pools .kernel c))).frameAt pid page =
              s.frameAt pid page := by
          intro pid page
          rw [frameAt_setSpace, frameAt_setFrame]
          split
          case isTrue both =>
              obtain ⟨rfl, low⟩ := both
              rw [frameAt_addTable present, frameAt_user low known]
          case isFalse => rfl
        refine ⟨?_, ⟨rewrites.entry, fun pid page apart => ?_, fun pf i => ?_⟩, fun b => ?_⟩
        · rw [frameAt_user low known, Space.frameAt, page_of_vaddr, if_neg present]
        · exact (rewrites.others pid page apart).trans (before pid page)
        · rw [rewrites.vaddr]
          cases pf with
          | kernel => rfl
          | user =>
              change (Pages.space _ cur).map _ = (s.space cur).map _
              rw [setSpace_space, known]
              rfl
        · exact (same .user b).trans (by rw [Pages.taken, Pages.taken]; rfl)

/-- The page of another address of the same half is another entry. -/
theorem not_sameEntry (apart : page' ≠ page) : ¬ SameEntry cur page pid page' :=
  fun same => apart same.1

/-! ## The loops -/

/-- The pages of a run, as places of the page tables of a process. -/
def InRun (cur page cnt pid page' : Nat) : Prop :=
  ∃ k < cnt, SameEntry cur (page + k) pid page'

/-- The entries of a run of pages are rewritten, and no other mapping. -/
structure RewritesRun (s s' : Pages pools) (cur page : Nat) (frames : List (Option Nat)) :
    Prop where
  entries : ∀ k (inside : k < frames.length), s'.frameAt cur (page + k) = frames[k]
  others : ∀ pid page', ¬ InRun cur page frames.length pid page' →
    s'.frameAt pid page' = s.frameAt pid page'
  vaddr : ∀ pf i, s'.vaddrBit cur pf i = s.vaddrBit cur pf i

theorem RewritesRun.nil : RewritesRun s s cur page [] where
  entries k inside := absurd inside (Nat.not_lt_zero k)
  others _ _ _ := rfl
  vaddr _ _ := rfl

/-- One entry, and then the rest of the run. -/
theorem Rewrites.cons {frame : Option Nat} {frames : List (Option Nat)}
    (first : Rewrites s s' cur page frame) (rest : RewritesRun s' s'' cur (page + 1) frames) :
    RewritesRun s s'' cur page (frame :: frames) where
  entries k inside := by
    cases k with
    | zero =>
        rw [Nat.add_zero, List.getElem_cons_zero, rest.others, first.entry]
        rintro ⟨k, -, same, -⟩
        omega
    | succ k =>
        rw [List.getElem_cons_succ, show page + (k + 1) = page + 1 + k by omega]
        exact rest.entries k (Nat.lt_of_succ_lt_succ inside)
  others pid page' apart := by
    rw [rest.others, first.others]
    · exact fun same => apart ⟨0, Nat.succ_pos _, same⟩
    · rintro ⟨k, small, same⟩
      exact apart ⟨k + 1,
        Nat.succ_lt_succ small, by rwa [show page + (k + 1) = page + 1 + k by omega]⟩
  vaddr pf i := (rest.vaddr pf i).trans (first.vaddr pf i)

/-- The addresses of a run of pages lie in the half of a flag. -/
def RunInHalf (pf : PoolFlags) (vaddr cnt : Nat) : Prop :=
  ∀ k < cnt, InHalf pf (vaddr + k * pgSize)

theorem RunInHalf.head (half : RunInHalf pf vaddr (cnt + 1)) : InHalf pf vaddr := by
  have first := half 0 (Nat.succ_pos _)
  rwa [Nat.zero_mul, Nat.add_zero] at first

theorem RunInHalf.tail (half : RunInHalf pf vaddr (cnt + 1)) :
    RunInHalf pf (vaddr + pgSize) cnt := by
  intro k small
  have later := half (k + 1) (Nat.succ_lt_succ small)
  rwa [Nat.succ_mul, Nat.add_comm (k * pgSize), ← Nat.add_assoc] at later

/-- The entries of frames of a pool. -/
def framesOf (pools : Pools) (pf : PoolFlags) (bits : List Nat) : List (Option Nat) :=
  bits.map fun b => some (frameAddr pools pf b)

/-- The loop of `malloc_page` maps pages that were not mapped to frames that were free. -/
theorem mapPages_maps (half : RunInHalf pf vaddr cnt)
    (ran : (mapPages cur pf vaddr cnt).run s = .ok (true, s')) :
    ∃ bits : List Nat, bits.length = cnt ∧ bits.Nodup ∧
      (∀ b ∈ bits, b < pools.frames pf ∧ s.taken pf b = false) ∧
      (∀ b, s'.taken pf b = (s.taken pf b || decide (b ∈ bits))) ∧
      (∀ k < cnt, s.frameAt cur (vaddr / pgSize + k) = none) ∧
      RewritesRun s s' cur (vaddr / pgSize) (framesOf pools pf bits) := by
  induction cnt generalizing s vaddr with
  | zero =>
      obtain ⟨-, rfl⟩ := call_pure_returns.mp ran
      exact ⟨[], rfl, .nil, by simp, by simp, by simp, .nil⟩
  | succ cnt ih =>
      obtain ⟨found, _, allocated, ran⟩ := call_bind_returns.mp ran
      obtain ⟨b, rfl, small, free, rfl⟩ := palloc_returns allocated
      obtain ⟨_, middle, added, ran⟩ := call_bind_returns.mp ran
      obtain ⟨unmapped, rewrites, same⟩ := pageTableAdd_maps half.head added
      obtain ⟨bits, length, nodup, taken, takes, unmapped', rest⟩ := ih half.tail ran
      rw [next_page] at unmapped' rest
      have takenMiddle : ∀ c, middle.taken pf c = if c = b then true else s.taken pf c := by
        intro c
        rw [same, Pages.taken_setFrame]
        simp only [true_and]
      have fresh : b ∉ bits := by
        intro member
        have free' := (taken b member).2
        rw [takenMiddle, if_pos rfl] at free'
        cases free'
      refine ⟨b :: bits, congrArg Nat.succ length, List.nodup_cons.mpr ⟨fresh, nodup⟩, ?_, ?_,
        ?_, ?_⟩
      · intro c member
        rcases List.mem_cons.mp member with rfl | member
        · exact ⟨small, free⟩
        · have apart : c ≠ b := fun equal => fresh (equal ▸ member)
          obtain ⟨small', free'⟩ := taken c member
          rw [takenMiddle, if_neg apart] at free'
          exact ⟨small', free'⟩
      · intro c
        rw [takes, takenMiddle]
        by_cases equal : c = b
        · simp [equal]
        · simp [equal]
      · intro k inside
        cases k with
        | zero => exact unmapped
        | succ k =>
            have before := unmapped' k (Nat.lt_of_succ_lt_succ inside)
            rw [rewrites.others _ _ (not_sameEntry (by omega))] at before
            rw [show vaddr / pgSize + (k + 1) = vaddr / pgSize + 1 + k by omega]
            exact before
      · exact (show Rewrites s middle cur (vaddr / pgSize) _ from
          ⟨rewrites.entry, rewrites.others, rewrites.vaddr⟩).cons rest

/-- The frames of the pools start at page boundaries above the page tables. -/
structure Pools.Aligned (pools : Pools) : Prop where
  start : ∀ pf, pools.phyAddrStart pf % pgSize = 0
  above : 0x102000 ≤ pools.phyAddrStart .kernel

theorem memPoolSizes_aligned (allMem : Nat) : (memPoolSizes allMem).Aligned where
  start pf := by
    cases pf with
    | kernel =>
        change usedMem % pgSize = 0
        decide
    | user =>
        change (usedMem + kernelFreePages allMem * pgSize) % pgSize = 0
        rw [Nat.add_mul_mod_self_right]
        decide
  above := by
    change 0x102000 ≤ usedMem
    decide

/-- What `mfree_page` asserts holds of every frame of a pool. -/
theorem frameAddr_inBranch (aligned : pools.Aligned) (small : b < pools.frames pf) :
    InBranch pools (pf = .user) (frameAddr pools pf b) ∧ frameAddr pools pf b % pgSize = 0 ∧
      0x102000 ≤ frameAddr pools pf b ∧
      (pools.phyAddrStart .user ≤ frameAddr pools pf b ↔ pf = .user) := by
  have apart := pools.kernel_below_user
  have above := aligned.above
  have onPage : frameAddr pools pf b % pgSize = 0 := by
    rw [frameAddr, Nat.mul_add_mod_self_right]
    exact aligned.start pf
  have high : pools.phyAddrStart pf ≤ frameAddr pools pf b := Nat.le_add_left _ _
  unfold Pools.frames at small
  cases pf with
  | user =>
      refine ⟨⟨onPage, fun _ => high, fun wrong => absurd rfl wrong⟩, onPage, ?_, ?_⟩
      · omega
      · simp [high]
  | kernel =>
      have below : frameAddr pools .kernel b < pools.phyAddrStart .user := by
        unfold frameAddr pgSize at *
        omega
      refine ⟨⟨onPage, (fun wrong => by cases wrong), fun _ => ⟨high, below⟩⟩, onPage, ?_, ?_⟩
      · omega
      · simp [below]

/-- What `page_table_pte_remove` changes. -/
theorem pageTablePteRemove_rewrites (ran : (pageTablePteRemove cur vaddr).run s = .ok ((), s')) :
    Rewrites s s' cur (vaddr / pgSize) none := by
  obtain ⟨entry, _, read, ran⟩ := call_bind_returns.mp ran
  obtain rfl := readPte_same read
  by_cases high : kHeapStart ≤ vaddr
  · rw [writePte, if_pos high] at ran
    cases call_modify_returns.mp ran
    exact rewrites_kernel (page_high high)
  · by_cases low : vaddr < kernelBase
    · rw [writePte, if_neg high, if_neg (Nat.not_le.mpr low)] at ran
      obtain ⟨space, _, got, ran⟩ := call_bind_returns.mp ran
      obtain ⟨known, rfl⟩ := spaceOf_returns got
      cases call_modify_returns.mp ran
      refine rewrites_user (page_low low) known ?_ (fun page' apart => ?_) rfl
      · unfold Space.frameAt
        simp [Pte.frame]
      · unfold Space.frameAt
        dsimp only
        rw [Function.update_of_ne apart]
    · rw [writePte, if_neg high, if_pos (Nat.not_lt.mp low)] at ran
      exact (call_throw_returns ran).elim

/-- `page_table_pte_remove` of a page that is mapped. -/
theorem pageTablePteRemove_runs {frame : Nat} (half : InHalf pf vaddr)
    (mapped : s.frameAt cur (vaddr / pgSize) = some frame) :
    ∃ s', (pageTablePteRemove cur vaddr).run s = .ok ((), s') ∧
      Rewrites s s' cur (vaddr / pgSize) none ∧ ∀ pf b, s'.taken pf b = s.taken pf b := by
  have read := readPte_mapped half mapped
  rw [pageTablePteRemove, call_bind_of read]
  cases pf with
  | kernel =>
      change kHeapStart ≤ vaddr at half
      rw [writePte, if_pos half]
      exact ⟨_, call_modify_returns.mpr rfl, rewrites_kernel (page_high half), fun _ _ => rfl⟩
  | user =>
      change vaddr < kernelBase at half
      have low := page_low half
      cases known : s.space cur with
      | none =>
          unfold Pages.frameAt at mapped
          rw [kernelBase_page] at low mapped
          rw [kHeapStart_page, if_neg (by omega), if_neg (by omega), known] at mapped
          cases mapped
      | some space =>
          rw [writePte, if_neg (not_high half), if_neg (Nat.not_le.mpr half)]
          have got : (spaceOf cur).run s = .ok (space, s) := by
            rw [spaceOf, call_bind_of (call_get_returns.mpr ⟨rfl, rfl⟩), known]
            rfl
          rw [call_bind_of got]
          refine ⟨_, call_modify_returns.mpr rfl, rewrites_user low known ?_ ?_ rfl, fun _ _ => rfl⟩
          · unfold Space.frameAt
            simp [Pte.frame]
          · intro page' apart
            unfold Space.frameAt
            dsimp only
            rw [Function.update_of_ne apart]

/-- The loop of `mfree_page` over pages that are mapped to frames of one pool. -/
theorem unmapPages_runs (aligned : pools.Aligned) {bits : List Nat} (onPage : vaddr % pgSize = 0)
    (half : RunInHalf pf vaddr bits.length) (small : ∀ b ∈ bits, b < pools.frames pf)
    (mapped : ∀ k (inside : k < bits.length),
      s.frameAt cur (vaddr / pgSize + k) = some (frameAddr pools pf bits[k])) :
    ∃ s', (unmapPages cur (pf = .user) vaddr bits.length).run s = .ok ((), s') ∧
      RewritesRun s s' cur (vaddr / pgSize) (bits.map fun _ => none) ∧
      ∀ pf' b, s'.taken pf' b = if pf' = pf ∧ b ∈ bits then false else s.taken pf' b := by
  induction bits generalizing s vaddr with
  | nil => exact ⟨s, rfl, .nil, by simp⟩
  | cons b bits ih =>
      have inPool := small b List.mem_cons_self
      have first := mapped 0 (Nat.succ_pos _)
      rw [Nat.add_zero, List.getElem_cons_zero] at first
      have addr : (addrV2p cur vaddr).run s = .ok (frameAddr pools pf b, s) := by
        rw [addrV2p, call_bind_of (readPte_mapped half.head first)]
        exact call_pure_returns.mpr ⟨by rw [onPage, Nat.add_zero], rfl⟩
      have asserted : (liftM (require (InBranch pools (decide (pf = .user) = true)
          (frameAddr pools pf b))) : PageCall pools Unit).run s = .ok ((), s) := by
        refine call_lift_returns.mpr ⟨require_of ?_, rfl⟩
        rw [decide_eq_true_eq]
        exact (frameAddr_inBranch aligned inPool).1
      obtain ⟨freed, ran, is⟩ : ∃ freed, (pfree (frameAddr pools pf b)).run s = .ok ((), freed) ∧
          s.setFrame pf b false = freed := by
        have ran : (pfree (frameAddr pools pf b)).run s = .ok ((), _) :=
          call_modify_returns.mpr rfl
        exact ⟨_, ran, freeAPhyPage_returns inPool ran⟩
      cases is
      obtain ⟨middle, removed, rewrites, same⟩ := pageTablePteRemove_runs
        (s := s.setFrame pf b false) half.head first
      have mappedRest : ∀ k (inside : k < bits.length), middle.frameAt cur
          ((vaddr + pgSize) / pgSize + k) = some (frameAddr pools pf bits[k]) := by
        intro k inside
        have before := mapped (k + 1) (Nat.succ_lt_succ inside)
        rw [List.getElem_cons_succ] at before
        rw [next_page, rewrites.others _ _ (not_sameEntry (by omega)),
          show vaddr / pgSize + 1 + k = vaddr / pgSize + (k + 1) by omega]
        exact before
      obtain ⟨s', rest, rewritesRest, taken⟩ := ih (by rw [Nat.add_mod_right, onPage]) half.tail
        (fun c member => small c (List.mem_cons_of_mem _ member)) mappedRest
      rw [next_page] at rewritesRest
      refine ⟨s', ?_, (show Rewrites s middle cur (vaddr / pgSize) _ from
        ⟨rewrites.entry, rewrites.others, rewrites.vaddr⟩).cons rewritesRest, fun pf' c => ?_⟩
      · rw [List.length_cons, unmapPages, call_bind_of addr, call_bind_of asserted,
          call_bind_of ran, call_bind_of removed]
        exact rest
      · rw [taken, same, Pages.taken_setFrame]
        by_cases samePool : pf' = pf
        · by_cases equal : c = b
          · simp [samePool, equal]
          · simp [samePool, equal]
        · simp [samePool]

/-! ## Virtual pages -/

theorem test_setBits {len start cnt i : Nat} {btmp : Bitmap len} {value : Bool} :
    (setBits btmp start value cnt).test i =
      if start ≤ i ∧ i < start + cnt then value else btmp.test i := by
  induction cnt with
  | zero => rw [setBits, if_neg (by omega)]
  | succ cnt ih =>
      rw [setBits, Bitmap.test_set, ih]
      by_cases last : i = start + cnt
      · rw [if_pos last, if_pos (by omega)]
      · rw [if_neg last]
        by_cases inside : start ≤ i ∧ i < start + cnt
        · rw [if_pos inside, if_pos (by omega)]
        · rw [if_neg inside, if_neg (by omega)]

/-- The bitmaps of virtual pages of two states differ in a run of bits. -/
structure SetsRun (s s' : Pages pools) (cur : Nat) (pf : PoolFlags) (start cnt : Nat)
    (value : Bool) : Prop where
  own : ∀ i, s'.vaddrBit cur pf i =
    if start ≤ i ∧ i < start + cnt then some value else s.vaddrBit cur pf i
  other : ∀ pf', pf' ≠ pf → ∀ i, s'.vaddrBit cur pf' i = s.vaddrBit cur pf' i
  frameAt : ∀ pid page, s'.frameAt pid page = s.frameAt pid page
  taken : ∀ pf b, s'.taken pf b = s.taken pf b

theorem setsRun_kernel {start : Nat} {value : Bool} :
    SetsRun s { s with kernelVaddr := setBits s.kernelVaddr start value cnt } cur .kernel start cnt
      value where
  own i := by
    change some ((setBits s.kernelVaddr start value cnt).test i) = _
    rw [test_setBits]
    split <;> rfl
  other pf' apart i := by
    cases pf' with
    | kernel => exact absurd rfl apart
    | user => rfl
  frameAt _ _ := rfl
  taken _ _ := rfl

theorem setsRun_user {start : Nat} {value : Bool} (known : s.space cur = some space) :
    SetsRun s (s.setSpace cur { space with
      vaddrBitmap := setBits space.vaddrBitmap start value cnt }) cur .user start cnt value where
  own i := by
    change (Pages.space _ cur).map _ = if _ then _ else (s.space cur).map _
    rw [setSpace_space, known, Option.map_some, Option.map_some, test_setBits]
    split <;> rfl
  other pf' apart i := by
    cases pf' with
    | kernel => rfl
    | user => exact absurd rfl apart
  frameAt pid page := by
    rw [frameAt_setSpace]
    split
    case isTrue both =>
        obtain ⟨rfl, low⟩ := both
        rw [frameAt_user low known]
        rfl
    case isFalse => rfl
  taken _ _ := rfl

/-- `vaddr_get` takes a run of free virtual pages. -/
theorem vaddrGet_takes (some_ : 0 < cnt)
    (ran : (vaddrGet cur pf cnt).run s = .ok (some vaddr, s')) :
    ∃ start, vaddr = vaddrStart pf + start * pgSize ∧
      (∀ k < cnt, s.vaddrBit cur pf (start + k) = some false) ∧
        SetsRun s s' cur pf start cnt true := by
  cases pf with
  | kernel =>
      obtain ⟨_, _, read, ran⟩ := call_bind_returns.mp ran
      obtain ⟨rfl, rfl⟩ := call_get_returns.mp read
      obtain ⟨found, _, lifted, ran⟩ := call_bind_returns.mp ran
      obtain ⟨scan, rfl⟩ := call_lift_returns.mp lifted
      cases found with
      | none =>
          obtain ⟨wrong, -⟩ := call_pure_returns.mp ran
          cases wrong
      | some start =>
          obtain ⟨_, _, set, ran⟩ := call_bind_returns.mp ran
          cases call_modify_returns.mp set
          obtain ⟨isStart, rfl⟩ := call_pure_returns.mp ran
          cases isStart
          exact ⟨start, rfl, fun k small => congrArg some (Bitmap.scan_run some_ scan k small),
            setsRun_kernel⟩
  | user =>
      obtain ⟨space, _, read, ran⟩ := call_bind_returns.mp ran
      obtain ⟨known, rfl⟩ := spaceOf_returns read
      obtain ⟨found, _, lifted, ran⟩ := call_bind_returns.mp ran
      obtain ⟨scan, rfl⟩ := call_lift_returns.mp lifted
      cases found with
      | none =>
          obtain ⟨wrong, -⟩ := call_pure_returns.mp ran
          cases wrong
      | some start =>
          obtain ⟨_, _, set, ran⟩ := call_bind_returns.mp ran
          cases call_modify_returns.mp set
          obtain ⟨_, _, required, ran⟩ := call_bind_returns.mp ran
          obtain ⟨-, rfl⟩ := call_lift_returns.mp required
          obtain ⟨isStart, rfl⟩ := call_pure_returns.mp ran
          cases isStart
          refine ⟨start, rfl, fun k small => ?_, setsRun_user known⟩
          change (s.space cur).map _ = _
          rw [known, Option.map_some, Bitmap.scan_run some_ scan k small]

/-- `vaddr_remove` gives a run of virtual pages back. -/
theorem vaddrRemove_gives {start : Nat} (isVaddr : vaddr = vaddrStart pf + start * pgSize)
    (known : s.vaddrBit cur pf start ≠ none) :
    ∃ s', (vaddrRemove cur pf vaddr cnt).run s = .ok ((), s') ∧
      SetsRun s s' cur pf start cnt false := by
  have index : (vaddr - vaddrStart pf) / pgSize = start := by
    rw [isVaddr, Nat.add_sub_cancel_left]
    exact Nat.mul_div_cancel start (show 0 < pgSize by decide)
  cases pf with
  | kernel =>
      refine ⟨_, call_modify_returns.mpr rfl, ?_⟩
      rw [show (vaddr - kHeapStart) / pgSize = start from index]
      exact setsRun_kernel
  | user =>
      cases found : s.space cur with
      | none =>
          refine absurd ?_ known
          change (s.space cur).map _ = none
          rw [found, Option.map_none]
      | some space =>
          have got : (spaceOf cur).run s = .ok (space, s) := by
            rw [spaceOf, call_bind_of (call_get_returns.mpr ⟨rfl, rfl⟩), found]
            rfl
          refine ⟨_, ?_, setsRun_user found⟩
          rw [vaddrRemove, call_bind_of got, show (vaddr - userVaddrStart) / pgSize =
            start from index]
          exact call_modify_returns.mpr rfl

/-! ## Allocating and freeing -/

/-- What `malloc_page` does when it returns an address: the pages were free and not mapped, they
are mapped to different frames that were free, and every other mapping is the same. -/
structure Allocates (s s' : Pages pools) (cur : Nat) (pf : PoolFlags) (vaddr cnt : Nat)
    (bits : List Nat) : Prop where
  count : bits.length = cnt
  distinct : bits.Nodup
  frames : ∀ b ∈ bits, b < pools.frames pf ∧ s.taken pf b = false
  free : ∃ start, vaddr = vaddrStart pf + start * pgSize ∧
    ∀ k < cnt, s.vaddrBit cur pf (start + k) = some false
  unmapped : ∀ k < cnt, s.frameAt cur (vaddr / pgSize + k) = none
  mapped : ∀ k (inside : k < bits.length),
    s'.frameAt cur (vaddr / pgSize + k) = some (frameAddr pools pf bits[k])
  others : ∀ pid page, ¬ InRun cur (vaddr / pgSize) cnt pid page →
    s'.frameAt pid page = s.frameAt pid page

/-- What `mfree_page` does after it: the virtual pages are free as before, and so are the frames;
the pages are not mapped, and every other frame and mapping is the same. -/
structure GivesBack (s s' s'' : Pages pools) (cur : Nat) (pf : PoolFlags) (vaddr cnt : Nat)
    (bits : List Nat) : Prop where
  pages : ∀ pf i, s''.vaddrBit cur pf i = s.vaddrBit cur pf i
  taken : ∀ pf' b, s''.taken pf' b = if pf' = pf ∧ b ∈ bits then false else s'.taken pf' b
  unmapped : ∀ k < cnt, s''.frameAt cur (vaddr / pgSize + k) = none
  others : ∀ pid page, ¬ InRun cur (vaddr / pgSize) cnt pid page →
    s''.frameAt pid page = s'.frameAt pid page

/-- A run inside the bitmap of a flag lies in its half. -/
theorem runInHalf_of_inside {start : Nat} (inside : start + cnt ≤ pools.vaddrPages pf) :
    RunInHalf pf (vaddrStart pf + start * pgSize) cnt := by
  intro k small
  cases pf with
  | kernel =>
      change kHeapStart ≤ kHeapStart + start * pgSize + k * pgSize
      omega
  | user =>
      change userVaddrStart + start * pgSize + k * pgSize < kernelBase
      change start + cnt ≤ 8 * userBtmpBytesLen at inside
      have bytes : userBtmpBytesLen = 94199 := rfl
      unfold userVaddrStart kernelBase pgSize
      omega

theorem vaddrStart_onPage (start : Nat) : (vaddrStart pf + start * pgSize) % pgSize = 0 := by
  rw [Nat.add_mul_mod_self_right]
  cases pf <;> decide

/-- `malloc_page` returns an address. -/
theorem mallocPage_allocates
    (ran : (mallocPage cur pf cnt).run s = .ok (some vaddr, s'))
    (inside : (vaddr - vaddrStart pf) / pgSize + cnt ≤ pools.vaddrPages pf) :
    ∃ bits, Allocates s s' cur pf vaddr cnt bits ∧ (∀ b ∈ bits, s'.taken pf b = true) ∧
      ∃ mid start, vaddr = vaddrStart pf + start * pgSize ∧ 0 < cnt ∧
        SetsRun s mid cur pf start cnt true ∧
        RewritesRun mid s' cur (vaddr / pgSize) (framesOf pools pf bits) := by
  obtain ⟨_, _, required, ran⟩ := call_bind_returns.mp ran
  obtain ⟨range, rfl⟩ := call_lift_returns.mp required
  rw [require_eq_ok] at range
  obtain ⟨found, mid, got, ran⟩ := call_bind_returns.mp ran
  cases found with
  | none =>
      obtain ⟨wrong, -⟩ := call_pure_returns.mp ran
      cases wrong
  | some vaddrStart =>
      obtain ⟨done, _, mapped, ran⟩ := call_bind_returns.mp ran
      cases done with
      | false =>
          obtain ⟨wrong, -⟩ := call_pure_returns.mp ran
          cases wrong
      | true =>
          obtain ⟨same, rfl⟩ := call_pure_returns.mp ran
          cases same
          obtain ⟨start, rfl, free, sets⟩ := vaddrGet_takes range.1 got
          have index : (UKernel.Paging.vaddrStart pf + start * pgSize -
              UKernel.Paging.vaddrStart pf) / pgSize = start := by
            rw [Nat.add_sub_cancel_left]
            exact Nat.mul_div_cancel start (show 0 < pgSize by decide)
          rw [index] at inside
          obtain ⟨bits, length, nodup, frames, takes, unmapped, rewrites⟩ :=
            mapPages_maps (runInHalf_of_inside inside) mapped
          refine ⟨bits, ?_, fun b member => by simp [takes, member], mid, start, rfl, range.1, sets,
            rewrites⟩
          exact
            { count := length
              distinct := nodup
              frames := fun b member => by
                rw [← sets.taken]
                exact frames b member
              free := ⟨start, rfl, free⟩
              unmapped := fun k small => by
                rw [← sets.frameAt]
                exact unmapped k small
              mapped := fun k small => by
                rw [rewrites.entries k (by simpa [framesOf] using small)]
                simp [framesOf]
              others := fun pid page apart => by
                rw [rewrites.others, sets.frameAt]
                rwa [framesOf, List.length_map, length] }

/-- **Allocating and freeing pages.** If `malloc_page` returns an address and the run lies inside
the managed range, it allocated pages and frames that were free; and `mfree_page` of the same pages
returns, and gives them back. -/
theorem malloc_mfree_page {allMem : Nat} {s s' : Pages (memPoolSizes allMem)}
    (ran : (mallocPage cur pf cnt).run s = .ok (some vaddr, s'))
    (inside : (vaddr - vaddrStart pf) / pgSize + cnt ≤ (memPoolSizes allMem).vaddrPages pf) :
    ∃ bits, Allocates s s' cur pf vaddr cnt bits ∧
      ∃ s'', (mfreePage cur pf vaddr cnt).run s' = .ok ((), s'') ∧
        GivesBack s s' s'' cur pf vaddr cnt bits := by
  obtain ⟨bits, allocates, -, mid, start, rfl, some_, sets, rewrites⟩ :=
    mallocPage_allocates ran inside
  refine ⟨bits, allocates, ?_⟩
  have aligned := memPoolSizes_aligned allMem
  have length := allocates.count
  have index : (vaddrStart pf + start * pgSize - vaddrStart pf) / pgSize = start := by
    rw [Nat.add_sub_cancel_left]
    exact Nat.mul_div_cancel start (show 0 < pgSize by decide)
  rw [index] at inside
  have half := runInHalf_of_inside inside
  have onPage : (vaddrStart pf + start * pgSize) % pgSize = 0 := vaddrStart_onPage start
  obtain ⟨unmapped, unmaps, rewrites', taken⟩ := unmapPages_runs aligned onPage
    (length ▸ half) (fun b member => (allocates.frames b member).1) allocates.mapped
  -- The first frame selects the branch of its pool.
  obtain ⟨firstBit, member, first⟩ : ∃ b ∈ bits, s'.frameAt cur
      ((vaddrStart pf + start * pgSize) / pgSize) =
        some (frameAddr (memPoolSizes allMem) pf b) := by
    have zero := allocates.mapped 0 (length ▸ some_)
    rw [Nat.add_zero] at zero
    exact ⟨bits[0], List.getElem_mem _, zero⟩
  obtain ⟨-, firstOnPage, above, branch⟩ :=
    frameAddr_inBranch aligned (allocates.frames firstBit member).1
  have addr : (addrV2p cur (vaddrStart pf + start * pgSize)).run s' =
      .ok (frameAddr (memPoolSizes allMem) pf firstBit, s') := by
    have headHalf : InHalf pf (vaddrStart pf + start * pgSize) := by
      have head := half 0 some_
      rwa [Nat.zero_mul, Nat.add_zero] at head
    rw [addrV2p, call_bind_of (readPte_mapped headHalf first)]
    exact call_pure_returns.mpr ⟨by rw [onPage, Nat.add_zero], rfl⟩
  have known : unmapped.vaddrBit cur pf start ≠ none := by
    rw [rewrites'.vaddr, rewrites.vaddr, sets.own, if_pos (by omega)]
    simp
  have removes : ∃ s'', (vaddrRemove cur pf (vaddrStart pf + start * pgSize) cnt).run unmapped =
      .ok ((), s'') ∧ SetsRun unmapped s'' cur pf start cnt false := vaddrRemove_gives rfl known
  obtain ⟨s'', removed, gives⟩ := removes
  refine ⟨s'', ?_, ?_⟩
  · have first' : (liftM (require (1 ≤ cnt ∧ (vaddrStart pf + start * pgSize) % pgSize = 0)) :
        PageCall (memPoolSizes allMem) Unit).run s' = .ok ((), s') :=
      call_lift_returns.mpr ⟨require_of ⟨some_, onPage⟩, rfl⟩
    have second : (liftM (require (frameAddr (memPoolSizes allMem) pf firstBit % pgSize = 0 ∧
        0x102000 ≤ frameAddr (memPoolSizes allMem) pf firstBit)) :
        PageCall (memPoolSizes allMem) Unit).run s' = .ok ((), s') :=
      call_lift_returns.mpr ⟨require_of ⟨firstOnPage, above⟩, rfl⟩
    rw [mfreePage, call_bind_of first', call_bind_of addr, call_bind_of second]
    rw [show decide ((memPoolSizes allMem).phyAddrStart .user ≤
      frameAddr (memPoolSizes allMem) pf firstBit) = decide (pf = .user) from
        decide_eq_decide.mpr branch, ← length, call_bind_of unmaps, length]
    exact removed
  · refine ⟨fun pf' i => ?_, fun pf' b => ?_, fun k small => ?_, fun pid page apart => ?_⟩
    · by_cases same : pf' = pf
      · rw [same, gives.own, rewrites'.vaddr, rewrites.vaddr, sets.own]
        split
        case isTrue inRun =>
            obtain ⟨start', isStart, free⟩ := allocates.free
            have equal : start' = start := by
              have positive : 0 < pgSize := by decide
              exact (Nat.eq_of_mul_eq_mul_right positive (by omega)).symm
            have before := free (i - start) (by omega)
            rw [equal, show start + (i - start) = i by omega] at before
            exact before.symm
        case isFalse => rfl
      · rw [gives.other pf' same, rewrites'.vaddr, rewrites.vaddr, sets.other pf' same]
    · rw [gives.taken, taken]
    · rw [gives.frameAt, rewrites'.entries k (by simpa [length] using small)]
      simp
    · rw [gives.frameAt, rewrites'.others]
      rwa [List.length_map, length]

/-- Two pages of the kernel on a machine of three megabytes. -/
theorem malloc_mfree_two_pages : ∃ s' : Pages somePools,
    (mallocPage 1 .kernel 2).run memPoolInit = .ok (some kHeapStart, s') ∧
    ∃ bits, Allocates memPoolInit s' 1 .kernel kHeapStart 2 bits ∧
      ∃ s'', (mfreePage 1 .kernel kHeapStart 2).run s' = .ok ((), s'') ∧
        GivesBack memPoolInit s' s'' 1 .kernel kHeapStart 2 bits := by
  have ran : valueOf (mallocPage 1 .kernel 2) (memPoolInit : Pages somePools) =
      some (some kHeapStart) := by
    decide +kernel
  obtain ⟨s', ran⟩ := exists_of_valueOf ran
  exact ⟨s', ran, malloc_mfree_page ran (by decide)⟩

end UKernel.Paging
