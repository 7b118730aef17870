import UKernel.Memory.PageRequest

/-! # The translation cache

The TLB in front of the page tables of one address space. An access fills it, loading CR3 empties
it, and `invlpg` drops the entry of the page of its memory operand. `page_table_pte_remove` gives
the instruction its parameter `vaddr` as the operand, so what is dropped is the entry of the page
in which that variable lies, an address of the stack, and not the entry of the page that was
unmapped. Where the operand lies is an argument of the model.

The main result is `UKernel.Tlb.tlb_agrees`.
-/

namespace UKernel.Tlb

open UKernel.Library UKernel.Memory UKernel.Paging

/-- The pages, and the frames of the pages whose translation is cached. -/
structure Cached (pools : Pools) where
  pages : Pages pools
  tlb : Nat → Option Nat

variable {pools : Pools}

/-- A call that changes the pages and may change the TLB. -/
abbrev CachedCall (pools : Pools) (α : Type) := Call (Cached pools) α

/-- A call on the page tables that executes no instruction on the TLB. -/
def onTables {α : Type} (call : PageCall pools α) : CachedCall pools α :=
  onPart Cached.pages (fun s pages => { s with pages := pages }) call

/-- An access to memory: the frame is that of the TLB, which is filled from the page tables. -/
def access (cur vaddr : Nat) : CachedCall pools Nat := do
  let s ← get
  match s.tlb (vaddr / pgSize) with
  | some frame => return frame
  | none =>
      match s.pages.frameAt cur (vaddr / pgSize) with
      | none => throw .badPointer
      | some frame =>
          set { s with tlb := Function.update s.tlb (vaddr / pgSize) (some frame) }
          return frame

/-- `page_dir_activate`, which loads CR3. -/
def pageDirActivate : CachedCall pools Unit :=
  modify fun s => { s with tlb := fun _ => none }

/-- The instruction `invlpg`, with a memory operand at an address. -/
def invlpg (operand : Nat) : CachedCall pools Unit :=
  modify fun s => { s with tlb := Function.update s.tlb (operand / pgSize) none }

/-- `page_table_pte_remove`, whose variable `vaddr` lies at `operand`. -/
def pageTablePteRemove (active operand vaddr : Nat) : CachedCall pools Unit := do
  onTables (UKernel.Paging.pageTablePteRemove active vaddr)
  invlpg operand

/-- The loop of `mfree_page`. -/
def unmapPages (cur operand : Nat) (userBranch : Bool) (vaddr : Nat) : Nat → CachedCall pools Unit
  | 0 => pure ()
  | cnt + 1 => do
      let pgPhyAddr ← onTables (addrV2p cur vaddr)
      require (InBranch pools userBranch pgPhyAddr)
      onTables (pfree pgPhyAddr)
      pageTablePteRemove cur operand vaddr
      unmapPages cur operand userBranch (vaddr + pgSize) cnt

/-- `mfree_page`. -/
def mfreePage (cur operand : Nat) (pf : PoolFlags) (vaddr pgCnt : Nat) : CachedCall pools Unit := do
  require (1 ≤ pgCnt ∧ vaddr % pgSize = 0)
  let pgPhyAddr ← onTables (addrV2p cur vaddr)
  require (pgPhyAddr % pgSize = 0 ∧ 0x102000 ≤ pgPhyAddr)
  unmapPages cur operand (pools.phyAddrStart .user ≤ pgPhyAddr) vaddr pgCnt
  onTables (vaddrRemove cur pf vaddr pgCnt)

/-- What happens in an address space: calls, accesses, and loading CR3 again. -/
inductive TlbOp where
  | mallocPage (pf : PoolFlags) (pgCnt : Nat)
  | access (vaddr : Nat)
  | mfreePage (pf : PoolFlags) (vaddr pgCnt operand : Nat)
  | pageDirActivate
  deriving DecidableEq, Repr

/-- Take one step. -/
def tlbExec (cur : Nat) : TlbOp → CachedCall pools Unit
  | .mallocPage pf pgCnt => do
      let _ ← onTables (UKernel.Paging.mallocPage cur pf pgCnt)
      return ()
  | .access vaddr => do
      let _ ← access cur vaddr
      return ()
  | .mfreePage pf vaddr pgCnt operand => mfreePage cur operand pf vaddr pgCnt
  | .pageDirActivate => pageDirActivate

/-- The runs in one address space, from the moment at which its page directory is activated. -/
def translation (pools : Pools) (cur : Nat) : TransitionSystem (Cached pools) TlbOp where
  initial s := s.tlb = fun _ => none
  step s op next := (tlbExec cur op).run s = .ok ((), next)

/-- `mfree_page` up to and including the call of `page_table_pte_remove` for page `k`. -/
def removeUpTo (cur operand vaddr k : Nat) : CachedCall pools Unit := do
  let pgPhyAddr ← onTables (addrV2p cur vaddr)
  unmapPages cur operand (pools.phyAddrStart .user ≤ pgPhyAddr) vaddr (k + 1)

/-- After each call of `page_table_pte_remove`, the TLB holds no entry for the page. -/
def Flushes (cur : Nat) (s : Cached pools) : TlbOp → Prop
  | .mfreePage _ vaddr pgCnt operand => ∀ k < pgCnt, ∀ mid,
      (removeUpTo cur operand vaddr k).run s = .ok ((), mid) → mid.tlb (vaddr / pgSize + k) = none
  | _ => True

/-- Each page that is freed has no entry in the TLB, or the operand lies in it. -/
def Uncached (s : Cached pools) : TlbOp → Prop
  | .mfreePage _ vaddr pgCnt operand => ∀ k < pgCnt,
      s.tlb (vaddr / pgSize + k) = none ∨ operand / pgSize = vaddr / pgSize + k
  | _ => True

instance (s : Cached pools) : (op : TlbOp) → Decidable (Uncached s op)
  | .mfreePage _ _ pgCnt _ => inferInstanceAs (Decidable (∀ k < pgCnt, _))
  | .mallocPage _ _ | .access _ | .pageDirActivate => inferInstanceAs (Decidable True)

/-- The entries of the TLB are those of the page tables. -/
def Agrees (cur : Nat) (s : Cached pools) : Prop :=
  ∀ page frame, s.tlb page = some frame → s.pages.frameAt cur page = some frame

variable {s s' : Cached pools} {cur operand vaddr cnt k page frame : Nat} {pf : PoolFlags}
  {userBranch : Bool} {op : TlbOp}

/-! ## The calls -/

/-- The parts of `mfree_page` that execute no `invlpg` leave the mappings alone. -/
theorem freeAPhyPage_frameAt {addr : Nat} {pages pages' : Pages pools}
    (ran : (pfree addr).run pages = .ok ((), pages')) : pages'.frameAt = pages.frameAt := by
  cases call_modify_returns.mp ran
  split <;> rfl

theorem vaddrRemove_frameAt {pages pages' : Pages pools}
    (ran : (vaddrRemove cur pf vaddr cnt).run pages = .ok ((), pages')) :
    pages'.frameAt = pages.frameAt := by
  cases pf with
  | kernel =>
      cases call_modify_returns.mp ran
      rfl
  | user =>
      obtain ⟨space, _, read, ran⟩ := call_bind_returns.mp ran
      obtain ⟨known, rfl⟩ := spaceOf_returns read
      cases call_modify_returns.mp ran
      exact (reserved_user known).frameAt

/-- `addr_v2p` changes nothing. -/
theorem addrV2p_same {addr : Nat} (ran : (onTables (addrV2p cur vaddr)).run s = .ok (addr, s')) :
    s = s' := by
  obtain ⟨pages, inner, rfl⟩ := onPart_returns.mp ran
  obtain ⟨_, _, read, inner⟩ := call_bind_returns.mp inner
  obtain rfl := readPte_same read
  obtain ⟨-, rfl⟩ := call_pure_returns.mp inner
  rfl

/-- What `page_table_pte_remove` does to the mappings and to the TLB. -/
theorem pageTablePteRemove_returns
    (ran : (pageTablePteRemove cur operand vaddr).run s = .ok ((), s')) :
    Rewrites s.pages s'.pages cur (vaddr / pgSize) none ∧
      s'.tlb = Function.update s.tlb (operand / pgSize) none := by
  obtain ⟨_, _, removed, ran⟩ := call_bind_returns.mp ran
  obtain ⟨pages, inner, rfl⟩ := onPart_returns.mp removed
  cases call_modify_returns.mp ran
  exact ⟨pageTablePteRemove_rewrites inner, rfl⟩

/-- One round of the loop of `mfree_page`. -/
theorem unmapPages_round
    (ran : (unmapPages cur operand userBranch vaddr (cnt + 1)).run s = .ok ((), s')) :
    ∃ mid, (∀ page, page ≠ vaddr / pgSize → mid.pages.frameAt cur page = s.pages.frameAt cur page) ∧
      mid.tlb = Function.update s.tlb (operand / pgSize) none ∧
      (unmapPages cur operand userBranch (vaddr + pgSize) cnt).run mid = .ok ((), s') ∧
      ∀ rounds, (unmapPages cur operand userBranch vaddr (rounds + 1)).run s =
        (unmapPages cur operand userBranch (vaddr + pgSize) rounds).run mid := by
  obtain ⟨addr, _, read, ran⟩ := call_bind_returns.mp ran
  obtain rfl := addrV2p_same read
  obtain ⟨_, _, required, ran⟩ := call_bind_returns.mp ran
  obtain ⟨inBranch, rfl⟩ := call_lift_returns.mp required
  obtain ⟨_, _, freed, ran⟩ := call_bind_returns.mp ran
  obtain ⟨pages, freed', rfl⟩ := onPart_returns.mp freed
  obtain ⟨_, mid, removed, ran⟩ := call_bind_returns.mp ran
  obtain ⟨rewrites, tlb⟩ := pageTablePteRemove_returns removed
  refine ⟨mid, fun page apart => ?_, tlb, ran, fun rounds => ?_⟩
  · rw [rewrites.others _ _ (not_sameEntry apart)]
    exact congrFun (congrFun (freeAPhyPage_frameAt freed') cur) page
  · rw [unmapPages, call_bind_of read, call_bind_of required, call_bind_of freed,
      call_bind_of removed]

/-- The loop of `mfree_page`: mappings of other pages stay, and the TLB loses one entry at most. -/
theorem unmapPages_returns
    (ran : (unmapPages cur operand userBranch vaddr cnt).run s = .ok ((), s')) :
    (∀ page, (∀ k < cnt, page ≠ vaddr / pgSize + k) →
      s'.pages.frameAt cur page = s.pages.frameAt cur page) ∧
      ∀ page, s'.tlb page = if 0 < cnt ∧ page = operand / pgSize then none else s.tlb page := by
  induction cnt generalizing s vaddr with
  | zero =>
      obtain ⟨-, rfl⟩ := call_pure_returns.mp ran
      exact ⟨fun _ _ => rfl, fun page => by simp⟩
  | succ cnt ih =>
      obtain ⟨mid, others, tlb, ran, -⟩ := unmapPages_round ran
      obtain ⟨later, tlbLater⟩ := ih ran
      refine ⟨fun page apart => ?_, fun page => ?_⟩
      · rw [later, others]
        · exact apart 0 (Nat.succ_pos _)
        · intro k small
          rw [next_page, show vaddr / pgSize + 1 + k = vaddr / pgSize + (k + 1) by omega]
          exact apart (k + 1) (Nat.succ_lt_succ small)
      · rw [tlbLater, tlb]
        by_cases same : page = operand / pgSize
        · simp [same]
        · simp [same]

/-- A prefix of the loop returns if the loop does. -/
theorem unmapPages_prefix (ran : (unmapPages cur operand userBranch vaddr cnt).run s = .ok ((), s'))
    (less : k < cnt) :
    ∃ mid, (unmapPages cur operand userBranch vaddr (k + 1)).run s = .ok ((), mid) := by
  induction cnt generalizing s vaddr k with
  | zero => exact absurd less (Nat.not_lt_zero k)
  | succ cnt ih =>
      obtain ⟨mid, -, -, ran, rounds⟩ := unmapPages_round ran
      cases k with
      | zero => exact ⟨mid, rounds 0⟩
      | succ k =>
          obtain ⟨mid', prefix_⟩ := ih ran (Nat.lt_of_succ_lt_succ less)
          exact ⟨mid', (rounds (k + 1)).trans prefix_⟩

/-- `mfree_page` up to its last part. -/
theorem mfreePage_returns (ran : (mfreePage cur operand pf vaddr cnt).run s = .ok ((), s')) :
    ∃ addr mid, (onTables (addrV2p cur vaddr)).run s = .ok (addr, s) ∧
      (unmapPages cur operand (pools.phyAddrStart .user ≤ addr) vaddr cnt).run s = .ok ((), mid) ∧
      s'.tlb = mid.tlb ∧ s'.pages.frameAt = mid.pages.frameAt := by
  obtain ⟨_, _, required, ran⟩ := call_bind_returns.mp ran
  obtain ⟨-, rfl⟩ := call_lift_returns.mp required
  obtain ⟨addr, _, read, ran⟩ := call_bind_returns.mp ran
  obtain rfl := addrV2p_same read
  obtain ⟨_, _, required, ran⟩ := call_bind_returns.mp ran
  obtain ⟨-, rfl⟩ := call_lift_returns.mp required
  obtain ⟨_, mid, loop, ran⟩ := call_bind_returns.mp ran
  obtain ⟨pages, given, rfl⟩ := onPart_returns.mp ran
  exact ⟨addr, mid, read, loop, rfl, vaddrRemove_frameAt given⟩

/-! ## One step -/

/-- A step flushes the pages that it frees exactly if they are not cached. -/
theorem flushes_iff {next : Cached pools} (ran : (tlbExec cur op).run s = .ok ((), next)) :
    Flushes cur s op ↔ Uncached s op := by
  cases op with
  | mallocPage pf pgCnt => exact Iff.rfl
  | access vaddr => exact Iff.rfl
  | pageDirActivate => exact Iff.rfl
  | mfreePage pf vaddr pgCnt operand =>
      obtain ⟨addr, _, read, loop, -⟩ := mfreePage_returns ran
      refine forall_congr' fun k => forall_congr' fun less => ?_
      obtain ⟨mid, reached⟩ := unmapPages_prefix loop less
      have upTo : (removeUpTo cur operand vaddr k).run s = .ok ((), mid) := by
        rw [removeUpTo, call_bind_of read]
        exact reached
      have tlb := (unmapPages_returns reached).2 (vaddr / pgSize + k)
      rw [if_congr (and_iff_right (Nat.succ_pos k)) rfl rfl] at tlb
      constructor
      · intro flushes
        rw [flushes mid upTo] at tlb
        by_cases same : operand / pgSize = vaddr / pgSize + k
        · exact .inr same
        · rw [if_neg (Ne.symm same)] at tlb
          exact .inl tlb.symm
      · intro uncached mid' upTo'
        rw [upTo] at upTo'
        cases upTo'
        rw [tlb]
        rcases uncached with none_ | same
        · rw [none_, ite_self]
        · rw [if_pos same.symm]

/-- An access of a page returns the cached frame or that of the page tables. -/
theorem access_returns (ran : (access cur vaddr).run s = .ok (frame, s')) :
    (s.tlb (vaddr / pgSize) = some frame ∧ s' = s) ∨
      s.pages.frameAt cur (vaddr / pgSize) = some frame ∧
        s' = { s with tlb := Function.update s.tlb (vaddr / pgSize) (some frame) } := by
  obtain ⟨_, _, read, ran⟩ := call_bind_returns.mp ran
  obtain ⟨rfl, rfl⟩ := call_get_returns.mp read
  split at ran
  case h_1 frame' cached =>
      obtain ⟨rfl, rfl⟩ := call_pure_returns.mp ran
      exact .inl ⟨cached, rfl⟩
  case h_2 =>
      split at ran
      case h_1 => exact (call_throw_returns ran).elim
      case h_2 frame' mapped =>
          obtain ⟨_, _, stored, ran⟩ := call_bind_returns.mp ran
          cases stored
          obtain ⟨rfl, rfl⟩ := call_pure_returns.mp ran
          exact .inr ⟨mapped, rfl⟩

/-- A step that frees no cached page keeps the TLB and the page tables in agreement. -/
theorem step_agrees {next : Cached pools} (agrees : Agrees cur s) (uncached : Uncached s op)
    (ran : (tlbExec cur op).run s = .ok ((), next)) : Agrees cur next := by
  cases op with
  | mallocPage pf pgCnt =>
      obtain ⟨found, _, called, ran⟩ := call_bind_returns.mp ran
      obtain ⟨pages, inner, rfl⟩ := onPart_returns.mp called
      obtain ⟨-, rfl⟩ := call_pure_returns.mp ran
      exact fun page frame cached => mallocPage_keeps inner (agrees page frame cached)
  | access vaddr =>
      obtain ⟨frame, _, called, ran⟩ := call_bind_returns.mp ran
      obtain ⟨-, rfl⟩ := call_pure_returns.mp ran
      rcases access_returns called with ⟨-, rfl⟩ | ⟨mapped, rfl⟩
      · exact agrees
      · intro page frame' cached
        dsimp only at cached ⊢
        by_cases same : page = vaddr / pgSize
        · rw [same, Function.update_self] at cached
          rw [same, mapped, cached]
        · rw [Function.update_of_ne same] at cached
          exact agrees page frame' cached
  | pageDirActivate =>
      cases call_modify_returns.mp ran
      intro page frame cached
      cases cached
  | mfreePage pf vaddr pgCnt operand =>
      obtain ⟨addr, mid, -, loop, tlb, frameAt⟩ := mfreePage_returns ran
      obtain ⟨others, tlbLoop⟩ := unmapPages_returns loop
      intro page frame cached
      rw [tlb, tlbLoop] at cached
      rw [frameAt]
      split at cached
      case isTrue => cases cached
      case isFalse other =>
          rw [others page fun k small same => ?_]
          · exact agrees page frame cached
          · rcases uncached k small with none_ | inside
            · rw [same, none_] at cached
              cases cached
            · exact other ⟨by omega, by rw [inside, same]⟩

/-! ## The main result -/

/-- **The TLB agrees with the page tables.** In every run in which no cached page is freed, the
entries of the TLB are those of the page tables, so every access is translated as the page tables
say; and then a call of `mfree_page` leaves no entry behind exactly if it frees no cached page. -/
theorem tlb_agrees (reached : ((translation pools cur).under Uncached).Reachable s) :
    Agrees cur s ∧
      (∀ vaddr frame s', (access cur vaddr).run s = .ok (frame, s') →
        s.pages.frameAt cur (vaddr / pgSize) = some frame) ∧
      ∀ op next, (tlbExec cur op).run s = .ok ((), next) → (Flushes cur s op ↔ Uncached s op) := by
  have agrees : Agrees cur s := by
    refine reached.invariant (Agrees cur) ?_ ?_
    · intro s initial page frame cached
      change s.tlb = _ at initial
      rw [initial] at cached
      cases cached
    · intro s op next _ agrees step
      exact step_agrees agrees step.1 step.2
  refine ⟨agrees, fun vaddr frame s' ran => ?_, fun op next ran => flushes_iff ran⟩
  rcases access_returns ran with ⟨cached, -⟩ | ⟨mapped, -⟩
  · exact agrees _ _ cached
  · exact mapped

/-- An address space whose TLB is empty. -/
def activated : Cached somePools := ⟨memPoolInit, fun _ => none⟩

/-- A page that is allocated and freed without an access in between. -/
theorem tlb_agrees_unused : ∃ s : Cached somePools,
    ((translation somePools 1).under Uncached).Reachable s ∧ Agrees 1 s ∧
      ∀ op next, (tlbExec 1 op).run s = .ok ((), next) → (Flushes 1 s op ↔ Uncached s op) := by
  have start : ((translation somePools 1).under Uncached).Reachable activated := .initial rfl
  have ran : valueOf (do
      tlbExec 1 (.mallocPage .kernel 1)
      let s ← get
      return decide (Uncached s (.mfreePage .kernel kHeapStart 1 0xc009eff8))) activated =
        some true := by
    decide +kernel
  have freed : valueOf (do
      tlbExec 1 (.mallocPage .kernel 1)
      tlbExec 1 (.mfreePage .kernel kHeapStart 1 0xc009eff8)) activated = some () := by
    decide +kernel
  obtain ⟨last, freed⟩ := exists_of_valueOf freed
  obtain ⟨⟨⟩, s, allocated, freed⟩ := call_bind_returns.mp freed
  obtain ⟨_, ran⟩ := exists_of_valueOf ran
  rw [call_bind_of allocated, call_bind_of (call_get_returns.mpr ⟨rfl, rfl⟩)] at ran
  have uncached := of_decide_eq_true (call_pure_returns.mp ran).1
  have middle : ((translation somePools 1).under Uncached).Reachable s :=
    .step (.mallocPage .kernel 1) start ⟨trivial, allocated⟩
  have reached : ((translation somePools 1).under Uncached).Reachable last :=
    .step (.mfreePage .kernel kHeapStart 1 0xc009eff8) middle ⟨uncached, freed⟩
  exact ⟨last, reached, (tlb_agrees reached).1, (tlb_agrees reached).2.2⟩

/-- A page of the kernel is allocated, accessed and freed. The variable `vaddr` lies on the stack,
in another page, so the entry of the freed page stays, and later accesses still go to its frame. -/
theorem stale_after_free : ∃ s next : Cached somePools,
    (translation somePools 1).Reachable s ∧
      (tlbExec 1 (.mfreePage .kernel kHeapStart 1 0xc009eff8)).run s = .ok ((), next) ∧
      ¬ Flushes 1 s (.mfreePage .kernel kHeapStart 1 0xc009eff8) ∧
      next.pages.frameAt 1 (kHeapStart / pgSize) = none ∧
      next.tlb (kHeapStart / pgSize) ≠ none := by
  have start : (translation somePools 1).Reachable activated := .initial rfl
  have ran : valueOf (do
      tlbExec 1 (.mallocPage .kernel 1)
      tlbExec 1 (.access kHeapStart)
      tlbExec 1 (.mfreePage .kernel kHeapStart 1 0xc009eff8)
      let next ← get
      return decide (next.pages.frameAt 1 (kHeapStart / pgSize) = none ∧
        next.tlb (kHeapStart / pgSize) ≠ none)) activated = some true := by
    decide +kernel
  have cached : valueOf (do
      tlbExec 1 (.mallocPage .kernel 1)
      tlbExec 1 (.access kHeapStart)
      let s ← get
      return decide (Uncached s (.mfreePage .kernel kHeapStart 1 0xc009eff8))) activated =
        some false := by
    decide +kernel
  obtain ⟨_, ran⟩ := exists_of_valueOf ran
  obtain ⟨⟨⟩, first, allocated, ran⟩ := call_bind_returns.mp ran
  obtain ⟨⟨⟩, s, accessed, ran⟩ := call_bind_returns.mp ran
  obtain ⟨⟨⟩, next, freed, ran⟩ := call_bind_returns.mp ran
  rw [call_bind_of (call_get_returns.mpr ⟨rfl, rfl⟩)] at ran
  have stale := of_decide_eq_true (call_pure_returns.mp ran).1
  obtain ⟨_, cached⟩ := exists_of_valueOf cached
  rw [call_bind_of allocated, call_bind_of accessed,
    call_bind_of (call_get_returns.mpr ⟨rfl, rfl⟩)] at cached
  have notUncached := of_decide_eq_false (call_pure_returns.mp cached).1
  have middle : (translation somePools 1).Reachable first :=
    .step (.mallocPage .kernel 1) start allocated
  have reached : (translation somePools 1).Reachable s :=
    .step (.access kHeapStart) middle accessed
  exact ⟨s, next, reached, freed, fun flushes => notUncached ((flushes_iff freed).mp flushes),
    stale.1, stale.2⟩

end UKernel.Tlb
