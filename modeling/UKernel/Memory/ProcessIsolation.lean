import UKernel.Memory.FrameIsolation

/-! # What other processes leave alone

A call changes the records of the process that makes it, and of a child that it makes or reaps
(`UKernel.Paging.Within`); a process that exits gives its children another parent. As no frame has
two holders, the pages that a process has mapped are its own, and stay mapped to the same frames,
whatever the other processes do (`UKernel.Paging.others_keep_pages`).
-/

namespace UKernel.Paging

open UKernel.Library UKernel.Fs UKernel.Memory

variable {pools : Pools} {s s' s'' : Pages pools} {who : Set Nat} {α β : Type}
  {cur child pid vaddr addr cnt : Nat} {pf : PoolFlags} {space : Space}

/-! ## Calls that change the records of some processes -/

/-- The records of all other processes are the same. -/
def SameOutside (who : Set Nat) (s s' : Pages pools) : Prop :=
  ∀ pid ∉ who, s'.space pid = s.space pid

instance : Std.Refl (@SameOutside pools who) := ⟨fun _ _ _ => rfl⟩

instance : IsTrans (Pages pools) (SameOutside who) :=
  ⟨fun _ _ _ first second pid outside => (second pid outside).trans (first pid outside)⟩

/-- A call that changes the records of some processes at most. -/
abbrev Within (who : Set Nat) (call : PageCall pools α) : Prop := Keeps (SameOutside who) call

/-- Two calls on behalf of some processes, one after the other. -/
theorem Within.bind {first : PageCall pools α} {second : α → PageCall pools β}
    (one : Within who first) (two : ∀ a, Within who (second a)) : Within who (first >>= second) :=
  Keeps.bind one two

/-- The address space of one of the processes is set. -/
theorem setSpace_within (member : cur ∈ who) (space : Space) :
    Within who (modify fun s => s.setSpace cur space : PageCall pools Unit) :=
  Keeps.modify fun _ _ outside => setSpace_other fun here => outside (here ▸ member)

/-- An address space is read. -/
theorem spaceOf_within : Within who (spaceOf cur : PageCall pools Space) := by
  intro s space s' ran
  obtain ⟨-, rfl⟩ := spaceOf_returns ran
  exact Std.Refl.refl s

/-- An entry of a page table is read. -/
theorem readPte_within : Within who (readPte cur vaddr : PageCall pools Pte) := by
  intro s pte s' ran
  cases readPte_same ran
  exact Std.Refl.refl s

/-- An entry of a page table of one of the processes is written. -/
theorem writePte_within (member : cur ∈ who) (pte : Pte) :
    Within who (writePte cur vaddr pte : PageCall pools Unit) := by
  unfold writePte
  split
  · exact Keeps.modify fun _ _ _ => rfl
  · split
    · exact .throw _
    · exact .bind spaceOf_within fun _ => setSpace_within member _

/-- `palloc` takes a frame from its pool, and maps it nowhere. -/
theorem palloc_within : Within who (palloc pf : PageCall pools (Option Nat)) := by
  intro s found s' ran
  obtain ⟨b, -, -, -, rfl⟩ := palloc_returns ran
  exact fun _ _ => rfl

/-- The caller gets a page table of its own. -/
theorem addTable_within (member : cur ∈ who) :
    Within who (addTable cur vaddr : PageCall pools Unit) :=
  .bind palloc_within fun _ => .bind spaceOf_within fun _ => setSpace_within member _

/-- `page_table_add` maps a page of the caller. -/
theorem pageTableAdd_within (member : cur ∈ who) :
    Within who (pageTableAdd cur vaddr addr : PageCall pools Unit) := by
  have rest : Within who (do require ((← readPte cur vaddr).present = false)
                             writePte cur vaddr ⟨addr, true⟩ : PageCall pools Unit) :=
    .bind readPte_within fun _ => .bind (.lift _) fun _ => writePte_within member _
  unfold pageTableAdd
  split
  · refine .bind spaceOf_within fun space => ?_
    split
    · exact .bind (addTable_within member) fun _ => rest
    · exact rest
  · exact rest

/-- `vaddr_get` takes addresses in the bitmap of the caller or of the kernel. -/
theorem vaddrGet_within (member : cur ∈ who) :
    Within who (vaddrGet cur pf cnt : PageCall pools (Option Nat)) := by
  cases pf with
  | kernel =>
      refine .bind .get fun _ => .bind (.lift _) fun start => ?_
      cases start with
      | none => exact .pure _
      | some start => exact .bind (Keeps.modify fun _ _ _ => rfl) fun _ => .pure _
  | user =>
      refine .bind spaceOf_within fun _ => .bind (.lift _) fun start => ?_
      cases start with
      | none => exact .pure _
      | some start =>
          exact .bind (setSpace_within member _) fun _ => .bind (.lift _) fun _ => .pure _

/-- `vaddr_remove` gives addresses back in the bitmap of the caller or of the kernel. -/
theorem vaddrRemove_within (member : cur ∈ who) :
    Within who (vaddrRemove cur pf vaddr cnt : PageCall pools Unit) := by
  cases pf with
  | kernel => exact Keeps.modify fun _ _ _ => rfl
  | user => exact .bind spaceOf_within fun _ => setSpace_within member _

/-- The loop of `malloc_page` maps pages of the caller. -/
theorem mapPages_within (member : cur ∈ who) :
    Within who (mapPages cur pf vaddr cnt : PageCall pools Bool) := by
  induction cnt generalizing vaddr with
  | zero => exact .pure _
  | succ cnt ih =>
      refine .bind palloc_within fun found => ?_
      cases found with
      | none => exact .pure _
      | some addr => exact .bind (pageTableAdd_within member) fun _ => ih

/-- `malloc_page` changes the memory of the caller only. -/
theorem mallocPage_within (member : cur ∈ who) :
    Within who (mallocPage cur pf cnt : PageCall pools (Option Nat)) := by
  refine .bind (.lift _) fun _ => .bind (vaddrGet_within member) fun start => ?_
  cases start with
  | none => exact .pure _
  | some start =>
      refine .bind (mapPages_within member) fun done => ?_
      split <;> exact .pure _

/-- `free_a_phy_page` gives a frame back to its pool, and unmaps nothing. -/
theorem freeAPhyPage_within : Within who (freeAPhyPage addr : PageCall pools Unit) := by
  refine Keeps.modify fun s pid _ => ?_
  split <;> rfl

/-- `page_table_pte_remove` unmaps a page of the caller. -/
theorem pageTablePteRemove_within (member : cur ∈ who) :
    Within who (pageTablePteRemove cur vaddr : PageCall pools Unit) :=
  .bind readPte_within fun _ => writePte_within member _

/-- The loops of `mfree_page` unmap pages of the caller. -/
theorem unmapPages_within {branch : Bool} (member : cur ∈ who) :
    Within who (unmapPages cur branch vaddr cnt : PageCall pools Unit) := by
  induction cnt generalizing vaddr with
  | zero => exact .pure _
  | succ cnt ih =>
      exact .bind (.bind readPte_within fun _ => .pure _) fun _ => .bind (.lift _) fun _ =>
        .bind freeAPhyPage_within fun _ => .bind (pageTablePteRemove_within member) fun _ => ih

/-- `mfree_page` changes the memory of the caller only. -/
theorem mfreePage_within (member : cur ∈ who) :
    Within who (mfreePage cur pf vaddr cnt : PageCall pools Unit) :=
  .bind (.lift _) fun _ => .bind (.bind readPte_within fun _ => .pure _) fun _ =>
    .bind (.lift _) fun _ => .bind (unmapPages_within member) fun _ => vaddrRemove_within member

/-- `get_a_page` changes the memory of the caller only. -/
theorem getAPage_within (member : cur ∈ who) :
    Within who (getAPage cur vaddr : PageCall pools (Option Nat)) := by
  refine .bind spaceOf_within fun _ => .bind (.lift _) fun _ =>
    .bind (setSpace_within member _) fun _ => .bind palloc_within fun found => ?_
  cases found with
  | none => exact .pure _
  | some addr => exact .bind (pageTableAdd_within member) fun _ => .pure _

/-- `get_a_page_without_opvaddrbitmap` changes the memory of the process that it runs for. -/
theorem copyPage_within (member : cur ∈ who) :
    Within who (getAPageWithoutOpvaddrbitmap cur vaddr : PageCall pools Unit) := by
  refine .bind palloc_within fun found => ?_
  cases found with
  | none => exact .pure _
  | some addr => exact pageTableAdd_within member

/-- The pages of a byte of the bitmap of the parent are mapped in the child. -/
theorem copyByte_within {idxByte left : Nat} {byte : Byte} (member : cur ∈ who) :
    Within who (copyByte cur idxByte byte left : PageCall pools Unit) := by
  induction left with
  | zero => exact .pure _
  | succ left ih =>
      dsimp only [copyByte]
      split
      · exact .bind (copyPage_within member) fun _ => ih
      · exact ih

/-- The loop over the bitmap of the parent changes the memory of the child only. -/
theorem copyBytes_within {parentBits : Memory} {bytes : List Nat} (member : cur ∈ who) :
    Within who (copyBytes cur parentBits bytes : PageCall pools Unit) := by
  induction bytes with
  | nil => exact .pure _
  | cons idxByte rest ih =>
      rw [copyBytes]
      split
      · exact .bind (copyByte_within member) fun _ => ih
      · exact ih

/-- `copy_process` changes the memory of the parent, for its buffer, and of the child. -/
theorem copyProcess_within {pcb : Nat} (member : cur ∈ who) (member' : child ∈ who) :
    Within who (copyProcess cur child pcb : PageCall pools Bool) := by
  refine .bind spaceOf_within fun _ => .bind (mallocPage_within member) fun bufPage => ?_
  cases bufPage with
  | none => exact .pure _
  | some bufPage =>
  refine .bind (mallocPage_within member) fun bits => ?_
  cases bits with
  | none => exact .pure _
  | some bits =>
  refine .bind (mallocPage_within member) fun pgdir => ?_
  cases pgdir with
  | none => exact .pure _
  | some pgdir =>
  exact .bind (setSpace_within member' _) fun _ => .bind (copyBytes_within member') fun _ =>
    .bind (mfreePage_within member) fun _ => .pure _

/-- `sys_fork` changes the memory of the parent and of the child. -/
theorem sysFork_within (member : cur ∈ who) (member' : child ∈ who) :
    Within who (sysFork cur child : PageCall pools Bool) := by
  refine .bind (mallocPage_within member) fun pcb => ?_
  cases pcb with
  | none => exact .pure _
  | some pcb => exact copyProcess_within member member'

/-- The pages of a space are given back to the pools. -/
theorem freePages_within {list : List Nat} :
    Within who (freePages space list : PageCall pools Unit) := by
  induction list with
  | nil => exact .pure _
  | cons page rest ih =>
      rw [freePages]
      split
      · exact .bind freeAPhyPage_within fun _ => ih
      · exact ih

/-- The page tables of a space are given back to the pool of the kernel. -/
theorem freeTables_within {list : List Nat} :
    Within who (freeTables space list : PageCall pools Unit) := by
  induction list with
  | nil => exact .pure _
  | cons pdeIdx rest ih =>
      rw [freeTables]
      split
      · exact .bind freePages_within fun _ => .bind freeAPhyPage_within fun _ => ih
      · exact ih

/-- `thread_exit` changes the memory of the process that is over, and of its caller. -/
theorem threadExit_within {threadOver : Nat} (member : cur ∈ who) (member' : threadOver ∈ who) :
    Within who (threadExit cur threadOver : PageCall pools Unit) := by
  refine .bind spaceOf_within fun _ => .bind (mfreePage_within member) fun _ =>
    .bind (mfreePage_within member) fun _ => Keeps.modify fun _ pid outside => ?_
  have other : pid ≠ threadOver := fun here => outside (here.symm ▸ member')
  exact Function.update_of_ne other ..

/-! ## The steps of others -/

/-- A process with another parent. -/
def Space.withParent (space : Space) (parent : Option Nat) : Space :=
  { space with parentPid := parent }

/-- A process is the same as before, or is not there as before, up to its parent. -/
def SameProcess (pid : Nat) (s s' : Pages pools) : Prop :=
  (s'.space pid).map (·.withParent none) = (s.space pid).map (·.withParent none)

/-- Being the same but for the parent holds in both directions. -/
theorem SameProcess.symm (same : SameProcess pid s s') : SameProcess pid s' s :=
  Eq.symm same

/-- A process that two calls leave as it was. -/
theorem SameProcess.trans (first : SameProcess pid s s') (second : SameProcess pid s' s'') :
    SameProcess pid s s'' :=
  Eq.trans second first

/-- A process that is the same has the same pages. -/
theorem SameProcess.known (same : SameProcess pid s s') (known : s.space pid = some space) :
    ∃ parent, s'.space pid = some (space.withParent parent) := by
  rw [SameProcess, known, Option.map_some] at same
  obtain ⟨space', found, equal⟩ := Option.map_eq_some_iff.mp same
  refine ⟨space'.parentPid, found.trans (congrArg some ?_)⟩
  calc space' = (space'.withParent none).withParent space'.parentPid := rfl
    _ = (space.withParent none).withParent space'.parentPid := by rw [equal]
    _ = space.withParent space'.parentPid := rfl

/-- A call on behalf of other processes leaves a process as it was. -/
theorem Within.sameProcess {call : PageCall pools α} {a : α} (within : Within who call)
    (outside : pid ∉ who) (ran : call.run s = .ok (a, s')) : SameProcess pid s s' := by
  rw [SameProcess, within s a s' ran pid outside]

/-- `sys_exit` leaves the other processes as they were, but for their parents. -/
theorem sysExit_sameProcess (other : pid ≠ cur) (ran : (sysExit cur).run s = .ok ((), s')) :
    SameProcess pid s s' := by
  obtain ⟨_, s₁, adopted, ran⟩ := call_bind_returns.mp ran
  cases call_modify_returns.mp adopted
  have adoption : SameProcess pid s
      { s with space := fun pid => (s.space pid).map fun space => space.adopted cur } := by
    rw [SameProcess, Option.map_map]
    refine congrArg (Option.map · (s.space pid)) (funext fun space => ?_)
    simp only [Function.comp_apply, Space.adopted]
    split <;> rfl
  have rest : Within {cur} (do
      releaseProgResource cur
      let space ← spaceOf cur
      modify fun s => s.setSpace cur { space with hanging := true } : PageCall pools Unit) :=
    .bind (.bind spaceOf_within fun _ => .bind freeTables_within fun _ => mfreePage_within rfl)
      fun _ => .bind spaceOf_within fun _ => setSpace_within (Set.mem_singleton cur) _
  exact adoption.trans (rest.sameProcess other ran)

/-- The process, or the thread of the kernel, that makes a call. -/
def MemoryOp.caller : MemoryOp → Nat
  | .call (.fork parent _) => parent
  | .call (.malloc cur _) => cur
  | .call (.mfree cur _ _) => cur
  | .call (.exit cur) => cur
  | .call (.wait parent _) => parent
  | .load cur _ => cur
  | .getKernelPages cur _ => cur
  | .mfreeKernelPages cur _ _ => cur

/-- The processes whose records a step changes: that of the caller, and of a child that it makes or
reaps. -/
def MemoryOp.touched : MemoryOp → Set Nat
  | .call (.fork parent child) => {parent, child}
  | .call (.wait parent child) => {parent, child}
  | op => {op.caller}

/-- A step leaves the processes that it does not touch as they are. -/
theorem memoryStep_sameProcess {m next : KernelMemory pools} {op : MemoryOp}
    (stepped : (memory pools).step m op next) (outside : pid ∉ op.touched) :
    SameProcess pid m.pages next.pages := by
  cases op with
  | call op =>
      obtain ⟨⟨-, ran⟩, -⟩ := stepped
      cases op with
      | fork parent child =>
          obtain ⟨_, s₁, forked, ran⟩ := call_bind_returns.mp ran
          obtain ⟨-, rfl⟩ := call_pure_returns.mp ran
          have within : Within {parent, child} (sysFork parent child : PageCall pools Bool) :=
            sysFork_within (.inl rfl) (.inr rfl)
          exact within.sameProcess outside forked
      | malloc cur pgCnt =>
          obtain ⟨_, s₁, got, ran⟩ := call_bind_returns.mp ran
          obtain ⟨-, rfl⟩ := call_pure_returns.mp ran
          have within : Within {cur} (mallocPage cur .user pgCnt : PageCall pools (Option Nat)) :=
            mallocPage_within rfl
          exact within.sameProcess outside got
      | mfree cur vaddr pgCnt =>
          have within : Within {cur} (mfreePage cur .user vaddr pgCnt : PageCall pools Unit) :=
            mfreePage_within rfl
          exact within.sameProcess outside ran
      | exit cur => exact sysExit_sameProcess outside ran
      | wait parent child =>
          have within : Within {parent, child} (threadExit parent child : PageCall pools Unit) :=
            threadExit_within (.inl rfl) (.inr rfl)
          exact within.sameProcess outside ran
  | load cur vaddr =>
      obtain ⟨-, -, -, ⟨found, ran⟩, -⟩ := stepped
      have within : Within {cur} (getAPage cur vaddr : PageCall pools (Option Nat)) :=
        getAPage_within rfl
      exact within.sameProcess outside ran
  | getKernelPages cur pgCnt =>
      obtain ⟨found, ran, -⟩ := stepped
      have within : Within {cur} (mallocPage cur .kernel pgCnt : PageCall pools (Option Nat)) :=
        mallocPage_within rfl
      exact within.sameProcess outside ran
  | mfreeKernelPages cur vaddr pgCnt =>
      obtain ⟨-, -, ran, -⟩ := stepped
      have within : Within {cur} (mfreePage cur .kernel vaddr pgCnt : PageCall pools Unit) :=
        mfreePage_within rfl
      exact within.sameProcess outside ran

/-- A process that runs is touched by its own steps only: a child that is made was not there, and
one that is reaped has exited. -/
theorem not_touched {m next : KernelMemory pools} {op : MemoryOp}
    (stepped : (memory pools).step m op next) (lives : m.pages.Lives pid)
    (other : op.caller ≠ pid) : pid ∉ op.touched := by
  obtain ⟨space, known, running⟩ := lives
  cases op with
  | call op =>
      obtain ⟨⟨enabled, -⟩, -⟩ := stepped
      cases op with
      | fork parent child =>
          rintro (rfl | rfl)
          · exact other rfl
          · rw [enabled.2] at known
            cases known
      | wait parent child =>
          rintro (rfl | rfl)
          · exact other rfl
          · obtain ⟨-, space', known', exited, -⟩ := enabled
            cases known.symm.trans known'
            rw [running] at exited
            cases exited
      | malloc cur pgCnt => exact Ne.symm other
      | mfree cur vaddr pgCnt => exact Ne.symm other
      | exit cur => exact Ne.symm other
  | load cur vaddr => exact Ne.symm other
  | getKernelPages cur pgCnt => exact Ne.symm other
  | mfreeKernelPages cur vaddr pgCnt => exact Ne.symm other

/-- The memory of a machine on which a process makes no step. -/
abbrev memoryOfOthers (pools : Pools) (pid : Nat) :
    TransitionSystem (KernelMemory pools) MemoryOp :=
  (memory pools).under fun _ op => op.caller ≠ pid

/-- The steps of others leave a process that runs as it is. -/
theorem memorySteps_sameProcess {m last : KernelMemory pools} {ops : List MemoryOp}
    (reachable : (memory pools).Reachable m) (known : m.pages.space pid = some space)
    (lives : space.hanging = false)
    (steps : (memoryOfOthers pools pid).Steps m ops last) :
    SameProcess pid m.pages last.pages := by
  refine steps.invariant (fun m' : KernelMemory pools => SameProcess pid m.pages m'.pages)
    reachable rfl ?_
  intro m' op next _ same other stepped
  obtain ⟨parent, known'⟩ := same.known known
  have lives' : m'.pages.Lives pid := ⟨_, known', lives⟩
  exact same.trans (memoryStep_sameProcess stepped (not_touched stepped lives' other))

/-- **A process keeps its pages.** Whatever calls the other processes make, and in whatever order,
the page tables of a process that runs stay as they are, and so does its bitmap; each page that it
has mapped stays mapped to the same frame, which stays in use, and which no other page and no page
table is mapped to. -/
theorem others_keep_pages {m last : KernelMemory pools} {ops : List MemoryOp}
    (reachable : (memory pools).Reachable m) (known : m.pages.space pid = some space)
    (lives : space.hanging = false)
    (steps : (memoryOfOthers pools pid).Steps m ops last) :
    (∃ parent, last.pages.space pid = some (space.withParent parent)) ∧
    ∀ page, space.Maps page → ∃ b < pools.frames .user,
      (space.pte page).addr = frameAddr pools .user b ∧ last.pages.taken .user b = true ∧
        ∀ holder, Holds last.pages.kernelPte last.pages.space none holder
          (.user, (space.pte page).addr) → holder = .userPage pid page := by
  obtain ⟨parent, known'⟩ := (memorySteps_sameProcess reachable known lives steps).known known
  refine ⟨⟨parent, known'⟩, fun page maps => ?_⟩
  have isolated := memory_isolated (steps.of_under.reachable reachable)
  have holds : Holds last.pages.kernelPte last.pages.space none (.userPage pid page)
      (.user, (space.pte page).addr) := ⟨_, known', lives, maps, rfl⟩
  obtain ⟨b, small, taken, same⟩ := isolated.frames.inUse _ _ holds
  exact ⟨b, small, same, taken, fun holder holds' =>
    isolated.frames.exclusive _ _ _ holds' holds⟩

/-- The theorem for the first process, while a child allocates pages, frees some and exits. -/
theorem others_keep_pages_first : ∃ (m last : KernelMemory somePools) (space : Space),
    (memory somePools).Reachable m ∧ m.pages.space 1 = some space ∧
      (memory somePools).Steps m
        [.call (.malloc 2 3), .call (.mfree 2 0x8049000 2), .call (.exit 2)] last ∧
      ∃ parent, last.pages.space 1 = some (space.withParent parent) := by
  obtain ⟨s, s₁, m, s₂, s₃, s₄, start, forked, got, freed, exited, reaped, -⟩ := someLife
  have first : (memory somePools).Reachable ⟨s, ∅⟩ := .initial ⟨start, rfl⟩
  have reachable : (memory somePools).Reachable ⟨s₁, ∅⟩ :=
    first.step (.call (.fork 1 2)) ⟨forked, rfl⟩
  -- The child's steps, which are not steps of its parent.
  have others : (2 : Nat) ≠ 1 := by decide
  have allocates : (memoryOfOthers somePools 1).step ⟨s₁, ∅⟩ (.call (.malloc 2 3)) ⟨m, ∅⟩ :=
    ⟨others, got, rfl⟩
  have frees : (memoryOfOthers somePools 1).step ⟨m, ∅⟩ (.call (.mfree 2 0x8049000 2)) ⟨s₂, ∅⟩ :=
    ⟨others, freed, rfl⟩
  have exits : (memoryOfOthers somePools 1).step ⟨s₂, ∅⟩ (.call (.exit 2)) ⟨s₃, ∅⟩ :=
    ⟨others, exited, rfl⟩
  have none : (memoryOfOthers somePools 1).Steps ⟨s₁, ∅⟩ [] ⟨s₁, ∅⟩ := .nil
  have steps := ((none.snoc _ allocates).snoc _ frees).snoc _ exits
  -- The parent reaps the child afterwards, so it runs now, and did so before.
  obtain ⟨parent, known, lives⟩ := reaped.1.1
  have same : SameProcess 1 s₁ s₃ :=
    ((memoryStep_sameProcess allocates.2 others.symm).trans
      (memoryStep_sameProcess frees.2 others.symm)).trans
      (memoryStep_sameProcess exits.2 others.symm)
  obtain ⟨_, known'⟩ := same.symm.known known
  exact ⟨⟨s₁, ∅⟩, ⟨s₃, ∅⟩, _, reachable, known', steps.of_under,
    (others_keep_pages reachable known' lives steps).1⟩

end UKernel.Paging
