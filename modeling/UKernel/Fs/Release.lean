import UKernel.Fs.OpenList

/-! # Releasing an inode

`inode_release` gives back the blocks that an inode owns and its bit of the inode bitmap, and clears
its slot. Everything else on disk stays, and the open inodes stay open
(`UKernel.Fs.inodeRelease_run`).
-/

namespace UKernel.Fs

open UKernel.Library

variable {part : Partition} {s s₁ s₂ s' : FsState part} {block inodeNo : Word} {blocks : List Word}
  {inode inode' obj : Inode} {disk : Memory} {ptr : Ptr} {gone gone' : Word → Prop}

/-! ## Giving blocks back -/

/-- A block whose bit is not the first one, which is what `inode_release` asserts. -/
def Releasable (part : Partition) (block : Word) : Prop :=
  ∃ bitIdx, 0 < bitIdx ∧ bitIdx < 4096 * part.sb.blockBitmapSects ∧ block = blockOfBit part bitIdx

/-- Some blocks were given back: their bits are cleared, in memory and before the inode table of the
disk. -/
structure Freed (s s' : FsState part) (gone : Word → Prop) : Prop where
  memory : SameMemory s s'
  inodeBitmap : s'.inodeBitmap = s.inodeBitmap
  disk : SameFromTable part s.disk s'.disk
  marks : ∀ block, Marked s'.blockBitmap block ↔ Marked s.blockBitmap block ∧ ¬ gone block

theorem Freed.none (s : FsState part) : Freed s s fun _ => False :=
  ⟨SameMemory.refl s, rfl, fun _ _ => rfl, fun _ => (and_iff_left not_false).symm⟩

theorem Freed.trans (first : Freed s s₁ gone) (second : Freed s₁ s' gone') :
    Freed s s' fun block => gone block ∨ gone' block where
  memory := IsTrans.trans _ _ _ first.memory second.memory
  inodeBitmap := second.inodeBitmap.trans first.inodeBitmap
  disk i far := (first.disk i far).trans (second.disk i far)
  marks block := by
    rw [second.marks, first.marks, not_or, and_assoc]

theorem Freed.congr (freed : Freed s s' gone) (same : ∀ block, Marked s.blockBitmap block →
    (gone block ↔ gone' block)) : Freed s s' gone' where
  memory := freed.memory
  inodeBitmap := freed.inodeBitmap
  disk := freed.disk
  marks block := by
    rw [freed.marks]
    exact and_congr_right fun marked => not_congr (same block marked)

theorem freeBlock_run (releasable : Releasable part block) (s : FsState part) :
    ∃ s', (freeBlock block).run s = .ok ((), s') ∧ Freed s s' (· = block) := by
  obtain ⟨bitIdx, positive, small, rfl⟩ := releasable
  have synced : ∃ after : FsState part, (bitmapSync bitIdx .blockBitmap).run
      { s with blockBitmap := s.blockBitmap.set bitIdx false } = .ok ((), after) :=
    ⟨_, call_modify_returns.mpr rfl⟩
  obtain ⟨after, synced⟩ := synced
  obtain ⟨disk, rfl, same⟩ := bitmapSync_block small synced
  refine ⟨{ s with disk := disk, blockBitmap := s.blockBitmap.set bitIdx false }, ?_,
    ⟨rfl, rfl, rfl, rfl, rfl, rfl, rfl⟩, rfl, same, fun block => ?_⟩
  · rw [freeBlock, blockOfBit_sub small]
    rw [call_bind_of (call_lift_returns.mpr ⟨require_of positive, rfl⟩),
      call_bind_of (setBlockBit_returns.mpr ⟨small, rfl⟩)]
    exact synced
  · exact (marked_clear small).trans and_comm

/-- Each of the blocks that is one is given back. -/
theorem freeBlocks_run (releasable : ∀ block ∈ blocks, block ≠ 0 → Releasable part block)
    (s : FsState part) : ∃ s', (freeBlocks blocks).run s = .ok ((), s') ∧
      Freed s s' fun block => block ≠ 0 ∧ block ∈ blocks := by
  induction blocks generalizing s with
  | nil =>
      refine ⟨s, rfl, (Freed.none s).congr fun block _ => ?_⟩
      simp
  | cons block blocks ih =>
      obtain ⟨here, others⟩ := List.forall_mem_cons.mp releasable
      rw [freeBlocks]
      by_cases absent : block = 0
      · obtain ⟨s', ran, freed⟩ := ih others s
        refine ⟨s', by rw [if_neg (not_not.mpr absent)]; exact ran, freed.congr fun other _ => ?_⟩
        refine and_congr_right fun present => ?_
        rw [List.mem_cons, or_iff_right fun same => present (same.trans absent)]
      · obtain ⟨s₁, first, freed⟩ := freeBlock_run (here absent) s
        obtain ⟨s', rest, freed'⟩ := ih others s₁
        refine ⟨s', by rw [if_pos absent, call_bind_of first]; exact rest,
          (freed.trans freed').congr fun other marked => ?_⟩
        have present := marked.ne_zero
        rw [and_iff_right present, and_iff_right present, List.mem_cons]

/-! ## Opening and closing the inode -/

/-- `inode_open` returns if the open inodes are objects. -/
theorem inodeOpen_total (small : inodeNo.toNat < 4096)
    (live : ∀ ptr ∈ s.openInodes, ∃ obj, s.inodes ptr = some obj) :
    ∃ ptr s', (inodeOpen inodeNo).run s = .ok (ptr, s') := by
  obtain ⟨found, searched⟩ := findOpen_total inodeNo live
  cases found with
  | none => exact ⟨_, _, inodeOpen_of_notOpen small (findOpen_none.mp searched).2⟩
  | some ptr =>
      obtain ⟨-, -, obj, here, -⟩ := findOpen_some searched
      refine ⟨ptr, s.reopen ptr obj, ?_⟩
      rw [inodeOpen, call_bind_of (call_get_returns.mpr ⟨rfl, rfl⟩), call_bind_of searched]
      dsimp only
      rw [call_bind_of (deref_returns.mpr ⟨here, rfl⟩)]
      rfl

/-- `inode_close` returns, for an object of the kernel's heap if it is the last opening. -/
theorem inodeClose_run (live : s.inodes ptr = some obj)
    (kernel : obj.iOpenCnts = 1 → ptr.inKernel = true) :
    (inodeClose ptr).run s = .ok ((), s.close ptr obj) := by
  rw [inodeClose, call_bind_of (deref_returns.mpr ⟨live, rfl⟩), FsState.close]
  dsimp only
  by_cases last : obj.iOpenCnts = 1
  · have inside : assertKernelHeap ptr = .ok () := if_pos (kernel last)
    have zero : (if obj.iOpenCnts = 0 then 2 ^ 32 - 1 else obj.iOpenCnts - 1) = 0 := by
      rw [last]
      rfl
    rw [if_pos zero, if_pos last, call_bind_of (call_modify_returns.mpr rfl),
      call_bind_of (call_lift_returns.mpr ⟨inside, rfl⟩)]
    rfl
  · have more : (if obj.iOpenCnts = 0 then 2 ^ 32 - 1 else obj.iOpenCnts - 1) ≠ 0 := by
      split
      · decide
      · omega
    rw [if_neg more, if_neg last]
    exact store_returns.mpr rfl

/-- The list of open inodes and its objects are the same; addresses may have been used up. -/
structure SameOpen (s s' : FsState part) : Prop where
  openInodes : s'.openInodes = s.openInodes
  objects : ∀ ptr ∈ s.openInodes, s'.inodes ptr = s.inodes ptr
  nextAddr : s.nextAddr ≤ s'.nextAddr
  rootDir : s'.rootDir = s.rootDir
  fileTable : s'.fileTable = s.fileTable
  fdTable : s'.fdTable = s.fdTable
  userProcess : s'.userProcess = s.userProcess

/-- An inode that can be opened: the open inodes are objects that were opened, and the slot and the
objects with the number hold the same inode. -/
structure Openable (s : FsState part) (inodeNo : Word) : Prop where
  small : inodeNo.toNat < 4096
  number : (slot part s.disk inodeNo.toNat).iNo = inodeNo
  live : ∀ ptr ∈ s.openInodes, ∃ obj, s.inodes ptr = some obj ∧ 0 < obj.iOpenCnts ∧
    (obj.iNo = inodeNo → obj.SameFile (slot part s.disk inodeNo.toNat))
  fresh : .kernel s.nextAddr ∉ s.openInodes

/-- Opening an inode, changing the disk and the bitmaps, and closing the inode leaves the open
inodes as they were. -/
theorem Openable.opens (openable : Openable s inodeNo) : ∃ ptr s₁ obj,
    (inodeOpen inodeNo).run s = .ok (ptr, s₁) ∧ s₁.inodes ptr = some obj ∧
      obj.SameFile (slot part s.disk inodeNo.toNat) ∧ s₁.disk = s.disk ∧
      s₁.blockBitmap = s.blockBitmap ∧ s₁.inodeBitmap = s.inodeBitmap ∧
      ∀ s₂, SameMemory s₁ s₂ → ∃ s', (inodeClose ptr).run s₂ = .ok ((), s') ∧ SameOpen s s' ∧
        s'.disk = s₂.disk ∧ s'.blockBitmap = s₂.blockBitmap ∧ s'.inodeBitmap = s₂.inodeBitmap := by
  obtain ⟨ptr, s₁, ran⟩ := inodeOpen_total openable.small fun ptr listed =>
    (openable.live ptr listed).imp fun _ is => is.1
  rcases inodeOpen_returns ran with ⟨listed, obj, live, number, rfl⟩ | ⟨-, -, rfl, rfl⟩
  · -- The inode was open: its count is one more in between.
    obtain ⟨obj', live', positive, agrees⟩ := openable.live ptr listed
    cases live.symm.trans live'
    refine ⟨ptr, _, _, ran, Function.update_self .., agrees number, rfl, rfl, rfl,
      fun s₂ same => ?_⟩
    have here : s₂.inodes ptr = some { obj with iOpenCnts := obj.iOpenCnts + 1 } := by
      rw [same.inodes]
      exact Function.update_self ..
    refine ⟨_, inodeClose_run here fun once => absurd once ?_, ?_⟩
    · dsimp only
      omega
    · rw [FsState.close, if_neg (by dsimp only; omega)]
      refine ⟨⟨same.openInodes, fun other _ => ?_, Nat.le_of_eq same.nextAddr.symm, same.rootDir,
        same.fileTable, same.fdTable, same.userProcess⟩, rfl, rfl, rfl⟩
      dsimp only
      by_cases self : other = ptr
      · rw [self, Function.update_self, if_neg (Nat.succ_ne_zero _), live]
        rfl
      · rw [Function.update_of_ne self, same.inodes]
        exact Function.update_of_ne self _ _
  · -- The inode was loaded, and is not left open.
    refine ⟨_, _, _, ran, Function.update_self .., ⟨rfl, rfl, rfl⟩, rfl, rfl, rfl,
      fun s₂ same => ?_⟩
    have here : s₂.inodes (.kernel s.nextAddr) =
        some { slot part s.disk inodeNo.toNat with iOpenCnts := 1 } := by
      rw [same.inodes]
      exact Function.update_self ..
    refine ⟨_, inodeClose_run here fun _ => rfl, ?_⟩
    rw [FsState.close, if_pos rfl]
    refine ⟨⟨?_, fun other listed => ?_, ?_, same.rootDir, same.fileTable, same.fdTable,
      same.userProcess⟩, rfl, rfl, rfl⟩
    · dsimp only
      rw [same.openInodes]
      exact List.erase_cons_head ..
    · have apart : other ≠ .kernel s.nextAddr := fun self => openable.fresh (self ▸ listed)
      dsimp only
      rw [Function.update_of_ne apart, same.inodes]
      exact Function.update_of_ne apart _ _
    · have next := same.nextAddr
      change s₂.nextAddr = s.nextAddr + 1 at next
      dsimp only
      omega

/-! ## The call -/

/-- What `inode_release` did: the blocks of the inode and its bit are given back, its slot is
cleared, and the data area, the other slots and the open inodes are the same. -/
structure Released (s s' : FsState part) (inodeNo : Word) : Prop where
  marks : ∀ block, Marked s'.blockBitmap block ↔ Marked s.blockBitmap block ∧
    ∀ k ≤ 140, ownBlock s.disk (slot part s.disk inodeNo.toNat) k ≠ block
  inodeBitmap : s'.inodeBitmap = s.inodeBitmap.set inodeNo.toNat false
  data : SameData part s.disk s'.disk
  slots : ∀ n < 4096, n ≠ inodeNo.toNat → SameSlot part s.disk s'.disk n
  cleared : ∀ k < 76, s'.disk (slotAddr part inodeNo.toNat + k) = 0
  opened : SameOpen s s'

/-- The blocks that `inode_release` collects are those that the inode owns. -/
theorem own_iff (present : block ≠ 0) :
    (block = inode.sector 12 ∨ ∃ k < if inode.sector 12 ≠ 0 then 140 else 12,
      allBlocks disk inode k = block) ↔ ∃ k ≤ 140, ownBlock disk inode k = block := by
  constructor
  · rintro (same | ⟨k, small, same⟩)
    · exact ⟨140, Nat.le_refl _, ownBlock_table.trans same.symm⟩
    · have less : k < 140 := by
        split at small
        · exact small
        · omega
      exact ⟨k, by omega, (ownBlock_of_lt less).trans same⟩
  · rintro ⟨k, small, same⟩
    by_cases last : k = 140
    · rw [last, ownBlock_table] at same
      exact .inl same.symm
    · rw [ownBlock_of_lt (by omega)] at same
      refine .inr ⟨k, ?_, same⟩
      by_cases table : inode.sector 12 = 0
      · rw [if_neg (not_not.mpr table)]
        by_contra indirect
        exact present (same.symm.trans (allBlocks_noTable (by omega) table))
      · rw [if_pos table]
        omega

/-- The part of `inode_release` that gives blocks back. -/
def freeOwn (disk : Memory) (inode : Inode) : FsCall part Unit := do
  if inode.sector 12 ≠ 0 then
    freeBlock (inode.sector 12)
  let blockCnt := if inode.sector 12 ≠ 0 then 140 else 12
  freeBlocks ((List.range blockCnt).map (allBlocks disk inode))

theorem inodeRelease_eq (inodeNo : Word) : (inodeRelease inodeNo : FsCall part Unit) = (do
    let ptr ← inodeOpen inodeNo
    let inodeToDel ← deref ptr
    require (inodeToDel.iNo = inodeNo)
    let s ← get
    freeOwn s.disk inodeToDel
    setInodeBit inodeNo.toNat false
    bitmapSync inodeNo.toNat .inodeBitmap
    inodeDelete inodeNo
    inodeClose ptr) := by
  unfold inodeRelease freeOwn
  congr 1
  funext ptr
  congr 1
  funext inode
  congr 1
  funext _
  congr 1
  funext s
  by_cases table : inode.sector 12 = 0
  · simp only [if_neg (not_not.mpr table)]
  · simp only [if_pos table, bind_assoc]

theorem freeOwn_run (disk : Memory)
    (releasable : ∀ k ≤ 140, ownBlock disk inode k ≠ 0 → Releasable part (ownBlock disk inode k))
    (s : FsState part) :
    ∃ s', (freeOwn disk inode).run s = .ok ((), s') ∧
      Freed s s' fun block => ∃ k ≤ 140, ownBlock disk inode k = block := by
  have each : ∀ block ∈ (List.range (if inode.sector 12 ≠ 0 then 140 else 12)).map
      (allBlocks disk inode), block ≠ 0 → Releasable part block := by
    intro block member present
    obtain ⟨k, inside, same⟩ := List.mem_map.mp member
    obtain ⟨k', small, rfl⟩ := (own_iff present).mp (.inr ⟨k, List.mem_range.mp inside, same⟩)
    exact releasable k' small present
  have own : ∀ block, Marked s.blockBitmap block →
      (block = inode.sector 12 ∨ (block ≠ 0 ∧ block ∈
        (List.range (if inode.sector 12 ≠ 0 then 140 else 12)).map (allBlocks disk inode)) ↔
        ∃ k ≤ 140, ownBlock disk inode k = block) := by
    intro block marked
    rw [and_iff_right marked.ne_zero, ← own_iff marked.ne_zero]
    simp only [List.mem_map, List.mem_range]
  by_cases table : inode.sector 12 = 0
  · obtain ⟨s', ran, freed⟩ := freeBlocks_run each s
    refine ⟨s', ?_, freed.congr fun block marked => ?_⟩
    · rw [freeOwn, if_neg (not_not.mpr table)]
      exact ran
    · rw [← own block marked, or_iff_right fun same => marked.ne_zero (same.trans table)]
  · have first : Releasable part (inode.sector 12) := by
      have last := releasable 140 (Nat.le_refl _)
      rw [ownBlock_table] at last
      exact last table
    obtain ⟨s₁, ran, freed⟩ := freeBlock_run first s
    obtain ⟨s', rest, freed'⟩ := freeBlocks_run each s₁
    refine ⟨s', ?_, (freed.trans freed').congr own⟩
    rw [freeOwn, if_pos table, call_bind_of ran]
    exact rest

/-- **Releasing an inode.** `inode_release` of an inode that can be opened, and whose blocks are not
the first one of the data area, returns, and gives back what the inode owns. -/
theorem inodeRelease_run (openable : Openable s inodeNo)
    (releasable : ∀ k ≤ 140, ownBlock s.disk (slot part s.disk inodeNo.toNat) k ≠ 0 →
      Releasable part (ownBlock s.disk (slot part s.disk inodeNo.toNat) k)) :
    ∃ s', (inodeRelease inodeNo).run s = .ok ((), s') ∧ Released s s' inodeNo := by
  obtain ⟨ptr, s₁, obj, opens, live, same, disk, btmp, inodes, closes⟩ := openable.opens
  have number : obj.iNo = inodeNo := same.1.trans openable.number
  rw [← same.ownBlock] at releasable
  obtain ⟨s₂, frees, freed⟩ := freeOwn_run s.disk releasable s₁
  have synced : ∃ after : FsState part, (bitmapSync inodeNo.toNat .inodeBitmap).run
      { s₂ with inodeBitmap := s₂.inodeBitmap.set inodeNo.toNat false } = .ok ((), after) :=
    ⟨_, call_modify_returns.mpr rfl⟩
  obtain ⟨after, synced⟩ := synced
  obtain ⟨disk₃, rfl, written⟩ := bitmapSync_inode openable.small synced
  obtain ⟨s', closed, opened, disk', btmp', inodes'⟩ := closes { s₂ with
      disk := disk₃.splice (slotAddr part inodeNo.toNat) Memory.zeros 76
      inodeBitmap := s₂.inodeBitmap.set inodeNo.toNat false }
    (IsTrans.trans _ _ _ freed.memory ⟨rfl, rfl, rfl, rfl, rfl, rfl, rfl⟩)
  have table : SameFromTable part s.disk disk₃ := by
    intro i far
    rw [← disk, freed.disk i far, written i far]
  refine ⟨s', ?_, ?_⟩
  · rw [inodeRelease_eq, call_bind_of opens, call_bind_of (deref_returns.mpr ⟨live, rfl⟩),
      call_bind_of (call_lift_returns.mpr ⟨require_of number, rfl⟩),
      call_bind_of (call_get_returns.mpr ⟨rfl, rfl⟩), disk, call_bind_of frees,
      call_bind_of (setInodeBit_returns.mpr ⟨openable.small, rfl⟩), call_bind_of synced,
      call_bind_of (inodeDelete_returns.mpr ⟨openable.small, rfl⟩)]
    exact closed
  · exact {
      marks := fun block => by
        rw [btmp']
        change Marked s₂.blockBitmap block ↔ _
        rw [freed.marks, btmp, same.ownBlock]
        simp
      inodeBitmap := by
        rw [inodes']
        change s₂.inodeBitmap.set _ _ = _
        rw [freed.inodeBitmap, inodes]
      data := by
        rw [disk']
        exact fun i far => (table.sameData i far).trans (sameData_splice_slot openable.small i far)
      slots := fun n small apart => by
        rw [disk']
        exact table.sameSlot.trans (sameSlot_splice apart)
      cleared := fun k small => by
        rw [disk']
        exact slot_splice small
      opened := opened }

/-! ## Runs that return -/

theorem freeBlock_table (ran : (freeBlock block).run s = .ok ((), s')) :
    SameFromTable part s.disk s'.disk := by
  obtain ⟨_, _, lifted, ran⟩ := call_bind_returns.mp ran
  obtain ⟨-, rfl⟩ := call_lift_returns.mp lifted
  obtain ⟨_, _, sets, ran⟩ := call_bind_returns.mp ran
  obtain ⟨small, rfl⟩ := setBlockBit_returns.mp sets
  obtain ⟨disk, rfl, same⟩ := bitmapSync_block small ran
  exact same

theorem freeBlocks_table (ran : (freeBlocks blocks).run s = .ok ((), s')) :
    SameFromTable part s.disk s'.disk := by
  induction blocks generalizing s with
  | nil =>
      obtain ⟨-, rfl⟩ := call_pure_returns.mp ran
      exact fun _ _ => rfl
  | cons block blocks ih =>
      rw [freeBlocks] at ran
      by_cases absent : block = 0
      · rw [if_neg (not_not.mpr absent)] at ran
        exact ih ran
      · rw [if_pos absent] at ran
        obtain ⟨_, s₁, first, ran⟩ := call_bind_returns.mp ran
        intro i far
        exact (freeBlock_table first i far).trans (ih ran i far)

theorem freeOwn_table (ran : (freeOwn disk inode).run s = .ok ((), s')) :
    SameFromTable part s.disk s'.disk := by
  rw [freeOwn] at ran
  by_cases table : inode.sector 12 = 0
  · rw [if_neg (not_not.mpr table)] at ran
    exact freeBlocks_table ran
  · rw [if_pos table] at ran
    obtain ⟨_, s₁, first, ran⟩ := call_bind_returns.mp ran
    intro i far
    exact (freeBlock_table first i far).trans (freeBlocks_table ran i far)

/-- `inode_release` of any inode leaves the other slots alone, if it returns. -/
theorem inodeRelease_slots (ran : (inodeRelease inodeNo).run s = .ok ((), s')) {n : Nat}
    (apart : n ≠ inodeNo.toNat) : SameSlot part s.disk s'.disk n := by
  rw [inodeRelease_eq] at ran
  obtain ⟨ptr, s₁, opens, ran⟩ := call_bind_returns.mp ran
  have opened : s₁.disk = s.disk := by
    rcases inodeOpen_returns opens with ⟨-, obj, -, -, rfl⟩ | ⟨-, -, -, rfl⟩
    · rfl
    · rfl
  obtain ⟨obj, _, found, ran⟩ := call_bind_returns.mp ran
  obtain ⟨-, rfl⟩ := deref_returns.mp found
  obtain ⟨_, _, lifted, ran⟩ := call_bind_returns.mp ran
  obtain ⟨-, rfl⟩ := call_lift_returns.mp lifted
  obtain ⟨_, _, gets, ran⟩ := call_bind_returns.mp ran
  obtain ⟨rfl, rfl⟩ := call_get_returns.mp gets
  obtain ⟨_, s₂, frees, ran⟩ := call_bind_returns.mp ran
  obtain ⟨_, _, sets, ran⟩ := call_bind_returns.mp ran
  obtain ⟨small, rfl⟩ := setInodeBit_returns.mp sets
  obtain ⟨_, _, synced, ran⟩ := call_bind_returns.mp ran
  obtain ⟨disk₃, rfl, written⟩ := bitmapSync_inode small synced
  obtain ⟨_, _, deletes, ran⟩ := call_bind_returns.mp ran
  obtain ⟨-, rfl⟩ := inodeDelete_returns.mp deletes
  obtain ⟨obj', -, -, rfl⟩ := inodeClose_returns ran
  have closed : ∀ t : FsState part, (t.close ptr obj').disk = t.disk := by
    intro t
    unfold FsState.close
    split
    · rfl
    · rfl
  rw [closed, ← opened]
  exact ((freeOwn_table frees).sameSlot.trans (SameFromTable.sameSlot written)).trans
    (sameSlot_splice apart)

end UKernel.Fs
