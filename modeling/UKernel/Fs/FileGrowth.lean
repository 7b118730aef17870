import UKernel.Fs.Blocks
import UKernel.Fs.ReadWrite

/-! # The blocks that `file_write` allocates

Before it writes, `file_write` gives a first block to a file that has none and allocates the
blocks that the new size needs. Of the blocks that the file owns afterwards, each is one that it
owned at the same index, or was not marked before (`UKernel.Fs.Extends`); the array `all_blocks`
holds the blocks of the file at the indices that are written
(`UKernel.Fs.blocksToWrite_returns`).
-/

namespace UKernel.Fs

open UKernel.Library

variable {part : Partition} {s s' : FsState part} {ptr : Ptr} {inode inode' other : Inode}

/-! ## More blocks -/

/-- A block that was allocated between two states of the block bitmap. -/
def Fresh (btmp btmp' : Bitmap part.blockBitmapBytes) (block : Word) : Prop :=
  ¬ Marked btmp block ∧ Marked btmp' block

/-- The blocks of one inode were extended by blocks that were allocated, and its table of
indirect blocks may have been rewritten. -/
structure Extends (s s' : FsState part) (inode inode' : Inode) : Prop where
  marks : ∀ block, Marked s.blockBitmap block → Marked s'.blockBitmap block
  kept : ∀ block, Marked s.blockBitmap block → block ≠ inode.sector 12 →
    SameBlock s.disk s'.disk block
  grown : ∀ k ≤ 140, ownBlock s'.disk inode' k = ownBlock s.disk inode k ∨
    Fresh s.blockBitmap s'.blockBitmap (ownBlock s'.disk inode' k)
  apart : ∀ k ≤ 140, ∀ k' ≤ 140, ¬ Marked s.blockBitmap (ownBlock s'.disk inode' k) →
    ownBlock s'.disk inode' k ≠ 0 →
    ownBlock s'.disk inode' k = ownBlock s'.disk inode' k' → k = k'

/-- Two inodes own no block in common. -/
def BlocksApart (disk : Memory) (inode other : Inode) : Prop :=
  ∀ k ≤ 140, ∀ k' ≤ 140, ownBlock disk inode k ≠ 0 → ownBlock disk inode k ≠ ownBlock disk other k'

section Extends

theorem Extends.refl (owns : OwnsBlocks s.disk s.blockBitmap inode) : Extends s s inode inode where
  marks _ marked := marked
  kept _ _ _ _ _ := rfl
  grown _ _ := .inl rfl
  apart k small _ _ unmarked used _ := absurd (owns.marked k small used) unmarked

/-- An inode whose blocks were extended owns the new ones as well. -/
theorem Extends.owns (grows : Extends s s' inode inode')
    (owns : OwnsBlocks s.disk s.blockBitmap inode) :
    OwnsBlocks s'.disk s'.blockBitmap inode' := by
  constructor
  · intro k small k' small' used same
    by_cases marked : Marked s.blockBitmap (ownBlock s'.disk inode' k)
    · have old : ownBlock s'.disk inode' k = ownBlock s.disk inode k :=
        (grows.grown k small).resolve_right fun fresh => fresh.1 marked
      have old' : ownBlock s'.disk inode' k' = ownBlock s.disk inode k' :=
        (grows.grown k' small').resolve_right fun fresh => fresh.1 (same ▸ marked)
      rw [old] at used
      exact owns.apart k small k' small' used (old.symm.trans (same.trans old'))
    · exact grows.apart k small k' small' marked used same
  · intro k small used
    rcases grows.grown k small with old | fresh
    · rw [old] at used ⊢
      exact grows.marks _ (owns.marked k small used)
    · exact fresh.2

theorem BlocksApart.symm (apart : BlocksApart s.disk inode other) :
    BlocksApart s.disk other inode :=
  fun k small k' small' used same => apart k' small' k small (same ▸ used) same.symm

/-- A block of another inode keeps its bytes. -/
theorem Extends.sameBlock (grows : Extends s s' inode inode')
    (owns : OwnsBlocks s.disk s.blockBitmap other) (apart : BlocksApart s.disk other inode)
    {k : Nat}
    (small : k ≤ 140) (used : ownBlock s.disk other k ≠ 0) :
    SameBlock s.disk s'.disk (ownBlock s.disk other k) := by
  apply grows.kept _ (owns.marked k small used)
  have table := apart k small 140 (Nat.le_refl _) used
  rwa [ownBlock_table] at table

/-- Another inode keeps its blocks. -/
theorem Extends.ownBlock_other (grows : Extends s s' inode inode')
    (owns : OwnsBlocks s.disk s.blockBitmap other) (apart : BlocksApart s.disk other inode)
    {k : Nat}
    (small : k ≤ 140) : ownBlock s'.disk other k = ownBlock s.disk other k := by
  apply ownBlock_congr small fun _ _ => rfl
  intro table
  have same := grows.sameBlock owns apart (Nat.le_refl 140)
  rw [ownBlock_table] at same
  exact same table

/-- The new blocks are not blocks of another inode. -/
theorem Extends.blocksApart (grows : Extends s s' inode inode')
    (owns : OwnsBlocks s.disk s.blockBitmap other) (apart : BlocksApart s.disk other inode) :
    BlocksApart s'.disk other inode' := by
  intro k small k' small' used same
  rw [grows.ownBlock_other owns apart small] at used same
  rcases grows.grown k' small' with old | fresh
  · exact apart k small k' small' used (same.trans old)
  · exact fresh.1 (same ▸ owns.marked k small used)

/-- Another inode still owns its blocks. -/
theorem Extends.owns_other (grows : Extends s s' inode inode')
    (owns : OwnsBlocks s.disk s.blockBitmap other) (apart : BlocksApart s.disk other inode) :
    OwnsBlocks s'.disk s'.blockBitmap other := by
  apply owns.frame fun _ _ => rfl
  · intro table
    have same := grows.sameBlock owns apart (Nat.le_refl 140)
    rw [ownBlock_table] at same
    exact same table
  · intro k small used
    exact grows.marks _ (owns.marked k small used)

end Extends

/-! ## Steps of the allocation -/

/-- The inode after a new block was entered. -/
def Inode.enter (inode : Inode) (blockIdx : Nat) (blockLba : Word) : Inode :=
  if blockIdx < 12 then inode.setSector blockIdx blockLba else inode

theorem enter_sector {blockIdx j : Nat} {blockLba : Word} :
    (inode.enter blockIdx blockLba).sector j =
      if j = blockIdx ∧ blockIdx < 12 then blockLba else inode.sector j := by
  unfold Inode.enter
  by_cases direct : blockIdx < 12
  · rw [if_pos direct, Inode.sector_setSector (by omega)]
    simp only [direct, and_true]
  · rw [if_neg direct, if_neg fun both => direct both.2]

theorem enter_iSectors {blockIdx : Nat} {blockLba : Word} : inode.enter blockIdx blockLba =
    { inode with iSectors := (inode.enter blockIdx blockLba).iSectors } := by
  unfold Inode.enter
  split
  · rfl
  · rfl

theorem enterDirect_returns {blockIdx : Nat} {blockLba : Word} (live : s.inodes ptr = some inode)
    (ran : (enterDirect ptr blockIdx blockLba).run s = .ok ((), s')) :
    s' = { s with
      inodes := Function.update s.inodes ptr (some (inode.enter blockIdx blockLba)) } := by
  unfold enterDirect at ran
  unfold Inode.enter
  split at ran
  case isTrue direct =>
      rw [if_pos direct]
      obtain ⟨object, _, reads, ran⟩ := call_bind_returns.mp ran
      obtain ⟨found, rfl⟩ := deref_returns.mp reads
      rw [live] at found
      cases found
      obtain ⟨_, _, lifted, ran⟩ := call_bind_returns.mp ran
      obtain ⟨-, rfl⟩ := call_lift_returns.mp lifted
      exact (store_returns.mp ran).symm
  case isFalse indirect =>
      obtain ⟨-, rfl⟩ := call_pure_returns.mp ran
      rw [if_neg indirect, ← live, Function.update_eq_self]

/-- What the loops of `file_write` that allocate blocks did. -/
structure Grown (s s' : FsState part) (inode inode' : Inode) (first left : Nat)
    (blocks blocks' : Nat → Word) : Prop where
  sameFile : inode' = { inode with iSectors := inode'.iSectors }
  marks : ∀ block, Marked s.blockBitmap block → Marked s'.blockBitmap block
  table : SameFromTable part s.disk s'.disk
  sectors : ∀ j < 13, inode'.sector j =
    if first ≤ j ∧ j < first + left ∧ j < 12 then blocks' j else inode.sector j
  kept : ∀ k, k < first ∨ first + left ≤ k → blocks' k = blocks k
  fresh : ∀ k, first ≤ k → k < first + left → Fresh s.blockBitmap s'.blockBitmap (blocks' k)
  apart : ∀ k k', first ≤ k → k < first + left → first ≤ k' → k' < first + left →
    blocks' k = blocks' k' → k = k'

theorem growBlocks_grown {left first : Nat} {blocks blocks' : Nat → Word}
    (live : s.inodes ptr = some inode)
    (ran : (growBlocks ptr left first blocks).run s = .ok (some blocks', s')) :
    ∃ inode', s' = { s with
        disk := s'.disk
        blockBitmap := s'.blockBitmap
        inodes := Function.update s.inodes ptr (some inode') } ∧
      Grown s s' inode inode' first left blocks blocks' := by
  induction left generalizing s first blocks inode with
  | zero =>
      obtain ⟨same, rfl⟩ := call_pure_returns.mp ran
      cases same
      refine ⟨inode, by rw [← live, Function.update_eq_self], rfl, fun _ marked => marked,
        fun _ _ => rfl, ?_, fun _ _ => rfl, ?_, ?_⟩
      · intro j _
        rw [if_neg (by omega)]
      · intro k low high
        omega
      · intro k _ low high
        omega
  | succ left ih =>
      obtain ⟨found, _, allocates, ran⟩ := call_bind_returns.mp ran
      obtain ⟨bitIdx, rfl, small, free, rfl⟩ := blockBitmapAlloc_returns allocates
      obtain ⟨_, _, enters, ran⟩ := call_bind_returns.mp ran
      cases enterDirect_returns (by exact live) enters
      obtain ⟨_, _, syncs, ran⟩ := call_bind_returns.mp ran
      obtain ⟨disk, rfl, same⟩ := syncBlock_returns small syncs
      obtain ⟨inode', state, grown⟩ := ih (Function.update_self ..) ran
      have marked : Marked (s.blockBitmap.set bitIdx true) (blockOfBit part bitIdx) :=
        (marked_set small).mpr (.inl rfl)
      have unmarked : ¬ Marked s.blockBitmap (blockOfBit part bitIdx) :=
        not_marked_of_free small free
      have marks : ∀ block, Marked s.blockBitmap block →
          Marked (s.blockBitmap.set bitIdx true) block :=
        fun block old => (marked_set small).mpr (.inr old)
      have head : blocks' first = blockOfBit part bitIdx := by
        rw [grown.kept first (by omega), Function.update_self]
      have later : ∀ k, first + 1 ≤ k → k < first + 1 + left →
          ¬ Marked (s.blockBitmap.set bitIdx true) (blocks' k) :=
        fun k low high => (grown.fresh k low high).1
      refine ⟨inode', ?_, ?_, ?_, ?_, ?_, ?_, ?_, ?_⟩
      · rw [state]
        simp only [Function.update_idem]
      · rw [grown.sameFile, enter_iSectors]
      · exact fun block old => grown.marks block (marks block old)
      · exact fun i far => (same i far).trans (grown.table i far)
      · intro j less
        rw [grown.sectors j less, enter_sector]
        by_cases hit : j = first
        · subst hit
          rw [if_neg (by omega)]
          by_cases direct : j < 12
          · rw [if_pos ⟨rfl, direct⟩, if_pos (by omega), head]
          · rw [if_neg (by omega), if_neg (by omega)]
        · rw [if_neg fun both : j = first ∧ first < 12 => hit both.1]
          refine ite_congr (propext ?_) (fun _ => rfl) fun _ => rfl
          omega
      · intro k outside
        rw [grown.kept k (by omega), Function.update_of_ne (by omega)]
      · intro k low high
        by_cases hit : k = first
        · rw [hit, head]
          exact ⟨unmarked, grown.marks _ marked⟩
        · obtain ⟨new, old⟩ := grown.fresh k (by omega) (by omega)
          exact ⟨fun was => new (marks _ was), old⟩
      · intro k k' low high low' high' same
        by_cases hit : k = first
        · by_cases hit' : k' = first
          · omega
          · rw [hit, head] at same
            exact absurd (same ▸ marked) (later k' (by omega) (by omega))
        · by_cases hit' : k' = first
          · rw [hit', head] at same
            exact absurd (same ▸ marked) (later k (by omega) (by omega))
          · exact grown.apart k k' (by omega) (by omega) (by omega) (by omega) same

/-! ## The collected blocks -/

/-- The image of the table of indirect blocks, read back. -/
theorem allBlocks_writeTable {disk : Memory} {blocks : Nat → Word} {k : Nat} (indirect : 12 ≤ k)
    (small : k < 140) (table : inode.sector 12 ≠ 0) :
    allBlocks (ideWrite disk (inode.sector 12).toNat (tableImage blocks) 1) inode k = blocks k := by
  rw [allBlocks_table indirect table]
  apply getWord_of_bytes
  intro j less
  rw [ideRead_ideWrite_self (by omega), tableImage]
  congr 2
  · omega
  · omega

/-- Blocks that were allocated and entered extend those of the inode. -/
theorem Grown.extends {s₁ s₂ : FsState part} {inode₁ inode₂ : Inode} {first left : Nat}
    {blocks blocks' : Nat → Word} (grown : Grown s₁ s₂ inode₁ inode₂ first left blocks blocks')
    (owns : OwnsBlocks s.disk s.blockBitmap inode)
    (before : ∀ block, Marked s.blockBitmap block → Marked s₁.blockBitmap block)
    (bitmap : s'.blockBitmap = s₂.blockBitmap)
    (kept : ∀ block, Marked s.blockBitmap block → block ≠ inode.sector 12 →
      SameBlock s.disk s'.disk block)
    (inside : ∀ k, first ≤ k → k < first + left → allBlocks s'.disk inode' k = blocks' k)
    (outside : ∀ k < 140, k < first ∨ first + left ≤ k →
      allBlocks s'.disk inode' k = allBlocks s.disk inode k)
    (table : inode'.sector 12 = inode.sector 12 ∨
      Fresh s.blockBitmap s₁.blockBitmap (inode'.sector 12)) :
    Extends s s' inode inode' := by
  have fresh : ∀ k < 140, first ≤ k → k < first + left →
      ¬ Marked s₁.blockBitmap (ownBlock s'.disk inode' k) ∧
        Marked s'.blockBitmap (ownBlock s'.disk inode' k) := by
    intro k small low high
    rw [ownBlock_of_lt small, inside k low high, bitmap]
    exact grown.fresh k low high
  have old : ∀ k < 140, k < first ∨ first + left ≤ k →
      ownBlock s'.disk inode' k = ownBlock s.disk inode k := by
    intro k small apart
    rw [ownBlock_of_lt small, ownBlock_of_lt small, outside k small apart]
  -- A block of the inode is a new one, the new table, or one that was marked.
  have kinds : ∀ k ≤ 140, ownBlock s'.disk inode' k ≠ 0 →
      Marked s.blockBitmap (ownBlock s'.disk inode' k) ∨
      (k < 140 ∧ first ≤ k ∧ k < first + left ∧
        ¬ Marked s₁.blockBitmap (ownBlock s'.disk inode' k)) ∨
      (k = 140 ∧ Marked s₁.blockBitmap (ownBlock s'.disk inode' k)) := by
    intro k small used
    by_cases last : k = 140
    · subst last
      rcases table with same | new
      · have was : ownBlock s'.disk inode' 140 = ownBlock s.disk inode 140 := by
          rw [ownBlock_table, ownBlock_table, same]
        rw [was] at used ⊢
        exact .inl (owns.marked 140 small used)
      · rw [ownBlock_table]
        exact .inr (.inr ⟨rfl, new.2⟩)
    · by_cases new : first ≤ k ∧ k < first + left
      · exact .inr (.inl ⟨by omega, new.1, new.2, (fresh k (by omega) new.1 new.2).1⟩)
      · have was := old k (by omega) (by omega)
        rw [was] at used ⊢
        exact .inl (owns.marked k small used)
  refine ⟨?_, kept, ?_, ?_⟩
  · intro block marked
    rw [bitmap]
    exact grown.marks block (before block marked)
  · intro k small
    by_cases last : k = 140
    · subst last
      rw [ownBlock_table, ownBlock_table]
      refine table.imp id fun new => ⟨new.1, ?_⟩
      rw [bitmap]
      exact grown.marks _ new.2
    · by_cases new : first ≤ k ∧ k < first + left
      · obtain ⟨unmarked, marked⟩ := fresh k (by omega) new.1 new.2
        exact .inr ⟨fun was => unmarked (before _ was), marked⟩
      · exact .inl (old k (by omega) (by omega))
  · intro k small k' small' unmarked used same
    rcases (kinds k small used).resolve_left unmarked with
      ⟨less, low, high, new⟩ | ⟨last, marked⟩
    · rcases (kinds k' small' (same ▸ used)).resolve_left (same ▸ unmarked) with
        ⟨less', low', high', -⟩ | ⟨-, marked'⟩
      · rw [ownBlock_of_lt less, ownBlock_of_lt less', inside k low high,
          inside k' low' high'] at same
        exact grown.apart k k' low high low' high' same
      · exact absurd (same ▸ marked') new
    · rcases (kinds k' small' (same ▸ used)).resolve_left (same ▸ unmarked) with
        ⟨-, -, -, new'⟩ | ⟨last', -⟩
      · exact absurd (same ▸ marked) new'
      · rw [last, last']

/-- The blocks that a file has and will have were collected in `all_blocks`. -/
structure Collected (s s' : FsState part) (inode inode' : Inode) (hasUsed willUse : Nat)
    (blocks : Nat → Word) : Prop where
  sameFile : inode' = { inode with iSectors := inode'.iSectors }
  grows : Extends s s' inode inode'
  blocks : ∀ k, hasUsed - 1 ≤ k → k < willUse → blocks k = allBlocks s'.disk inode' k
  old : ∀ k < 140, k < hasUsed ∨ willUse ≤ k →
    allBlocks s'.disk inode' k = allBlocks s.disk inode k
  new : ∀ k, hasUsed ≤ k → k < willUse →
    Fresh s.blockBitmap s'.blockBitmap (allBlocks s'.disk inode' k)

section Collected

variable {hasUsed willUse : Nat} {blocks : Nat → Word}

/-- The blocks that a file has are collected, when it needs no more. -/
theorem collected_same (owns : OwnsBlocks s.disk s.blockBitmap inode)
    (collects : ∀ k, hasUsed - 1 ≤ k → k < hasUsed → blocks k = allBlocks s.disk inode k) :
    Collected s s inode inode hasUsed hasUsed blocks where
  sameFile := rfl
  grows := .refl owns
  blocks := collects
  old _ _ _ := rfl
  new k low high := by omega

/-- Direct blocks are collected. -/
theorem collectDirect_last {k : Nat} (positive : 0 < hasUsed) (direct : hasUsed ≤ 12)
    (low : hasUsed - 1 ≤ k) (high : k < hasUsed) {disk : Memory} :
    collectDirect inode (hasUsed - 1) (hasUsed - 1) (fun _ => 0) k = allBlocks disk inode k := by
  rw [collectDirect, if_pos (by omega), allBlocks_direct (by omega)]

theorem collectTable_block {k : Nat} {disk : Memory} {start : Nat → Word} (indirect : 12 ≤ k)
    (small : k < 140) (table : inode.sector 12 ≠ 0) :
    collectTable disk inode start k = allBlocks disk inode k := by
  rw [collectTable, if_pos ⟨indirect, small⟩, allBlocks_table indirect table]

/-- The blocks are the direct ones. -/
theorem Grown.collected_direct (grown : Grown s s' inode inode' hasUsed (willUse - hasUsed)
      (collectDirect inode (hasUsed - 1) (hasUsed - 1) fun _ => 0) blocks)
    (owns : OwnsBlocks s.disk s.blockBitmap inode) (positive : 0 < hasUsed)
    (direct : willUse ≤ 12) :
    Collected s s' inode inode' hasUsed willUse blocks := by
  have kept : ∀ block, Marked s.blockBitmap block → SameBlock s.disk s'.disk block :=
    fun block marked => grown.table.sameData.sameBlock marked.in_data
  have table : inode'.sector 12 = inode.sector 12 := by
    rw [grown.sectors 12 (by decide), if_neg (by omega)]
  have inside : ∀ k, hasUsed ≤ k → k < willUse → allBlocks s'.disk inode' k = blocks k := by
    intro k low high
    rw [allBlocks_direct (by omega), grown.sectors k (by omega), if_pos (by omega)]
  have outside : ∀ k < 140, k < hasUsed ∨ willUse ≤ k →
      allBlocks s'.disk inode' k = allBlocks s.disk inode k := by
    intro k small apart
    by_cases less : k < 12
    · rw [allBlocks_direct less, allBlocks_direct less, grown.sectors k (by omega),
        if_neg (by omega)]
    · exact allBlocks_indirect (by omega) small table fun used =>
        kept _ (owns.table_marked used)
  refine ⟨grown.sameFile, ?_, ?_, outside, ?_⟩
  · exact grown.extends owns (fun _ marked => marked) rfl (fun block marked _ => kept block marked)
      (fun k low high => inside k low (by omega)) (fun k small apart => outside k small (by omega))
      (.inl table)
  · intro k low high
    by_cases last : k < hasUsed
    · rw [grown.kept k (.inl last), outside k (by omega) (.inl last)]
      exact collectDirect_last positive (by omega) low last
    · exact (inside k (by omega) high).symm
  · intro k low high
    rw [inside k low high]
    exact grown.fresh k low (by omega)

/-- The blocks reach into the table of indirect blocks, which is written back. -/
theorem Grown.collected_table {s₁ s₂ : FsState part} {inode₁ : Inode} {start : Nat → Word}
    (grown : Grown s₁ s₂ inode₁ inode' hasUsed (willUse - hasUsed) start blocks)
    (owns : OwnsBlocks s.disk s.blockBitmap inode) (small : willUse ≤ 140)
    (sameFile : inode₁ = { inode with iSectors := inode₁.iSectors })
    (direct : ∀ j < 12, inode₁.sector j = inode.sector j)
    (before : ∀ block, Marked s.blockBitmap block → Marked s₁.blockBitmap block)
    (disk : s₁.disk = s.disk)
    (collects : ∀ k < 140, 12 ≤ k ∨ k + 1 = hasUsed → start k = allBlocks s.disk inode k)
    (table : inode₁.sector 12 = inode.sector 12 ∨
      Fresh s.blockBitmap s₁.blockBitmap (inode₁.sector 12))
    (used : inode₁.sector 12 ≠ 0) :
    Collected s { s₂ with disk := ideWrite s₂.disk (inode₁.sector 12).toNat (tableImage blocks) 1 }
      inode inode' hasUsed willUse blocks := by
  have tableKept : inode'.sector 12 = inode₁.sector 12 := by
    rw [grown.sectors 12 (by decide), if_neg (by omega)]
  have written : ∀ k, 12 ≤ k → k < 140 → allBlocks
      (ideWrite s₂.disk (inode₁.sector 12).toNat (tableImage blocks) 1) inode' k = blocks k := by
    intro k low high
    rw [← tableKept]
    exact allBlocks_writeTable low high (by rwa [tableKept])
  have kept : ∀ block, Marked s.blockBitmap block → block ≠ inode.sector 12 → SameBlock s.disk
      (ideWrite s₂.disk (inode₁.sector 12).toNat (tableImage blocks) 1) block := by
    intro block marked apart
    have grew : SameBlock s.disk s₂.disk block :=
      disk ▸ grown.table.sameData.sameBlock marked.in_data
    refine grew.trans (sameBlock_ideWrite ?_)
    rcases table with same | fresh
    · rwa [same]
    · exact fun hit => fresh.1 (hit ▸ marked)
  have inside : ∀ k, hasUsed ≤ k → k < willUse → allBlocks
      (ideWrite s₂.disk (inode₁.sector 12).toNat (tableImage blocks) 1) inode' k = blocks k := by
    intro k low high
    by_cases less : k < 12
    · rw [allBlocks_direct less, grown.sectors k (by omega), if_pos (by omega)]
    · exact written k (by omega) (by omega)
  have outside : ∀ k < 140, k < hasUsed ∨ willUse ≤ k → allBlocks
      (ideWrite s₂.disk (inode₁.sector 12).toNat (tableImage blocks) 1) inode' k =
        allBlocks s.disk inode k := by
    intro k high apart
    by_cases less : k < 12
    · rw [allBlocks_direct less, allBlocks_direct less, grown.sectors k (by omega),
        if_neg (by omega), direct k less]
    · rw [written k (by omega) high, grown.kept k (by omega), collects k high (by omega)]
  refine ⟨?_, ?_, ?_, outside, ?_⟩
  · rw [grown.sameFile, sameFile]
  · exact grown.extends owns before rfl kept (fun k low high => inside k low (by omega))
      (fun k high apart => outside k high (by omega)) (by rwa [tableKept])
  · intro k low high
    by_cases last : k < hasUsed
    · rw [grown.kept k (.inl last), outside k (by omega) (.inl last)]
      exact collects k (by omega) (by omega)
    · exact (inside k (by omega) high).symm
  · intro k low high
    obtain ⟨unmarked, marked⟩ := grown.fresh k low (by omega)
    rw [inside k low high]
    exact ⟨fun was => unmarked (before _ was), marked⟩

/-- The part of `file_write` that collects the blocks does that. -/
theorem blocksToWrite_returns (live : s.inodes ptr = some inode)
    (owns : OwnsBlocks s.disk s.blockBitmap inode) (positive : 0 < hasUsed) (small : willUse ≤ 140)
    (ran : (blocksToWrite ptr hasUsed willUse).run s = .ok (some blocks, s')) :
    ∃ inode', s' = { s with
        disk := s'.disk
        blockBitmap := s'.blockBitmap
        inodes := Function.update s.inodes ptr (some inode') } ∧
      Collected s s' inode inode' hasUsed willUse blocks := by
  have unchanged : Function.update s.inodes ptr (some inode) = s.inodes := by
    rw [← live, Function.update_eq_self]
  obtain ⟨object, _, reads, ran⟩ := call_bind_returns.mp ran
  obtain ⟨found, rfl⟩ := deref_returns.mp reads
  rw [live] at found
  cases found
  rw [call_bind_of (call_get_returns.mpr ⟨rfl, rfl⟩)] at ran
  split at ran
  case isTrue same =>
      subst same
      split at ran
      case isTrue direct =>
          obtain ⟨is, rfl⟩ := call_pure_returns.mp ran
          cases is
          exact ⟨inode, by rw [unchanged], collected_same owns fun k low high =>
            collectDirect_last positive direct low high⟩
      case isFalse indirect =>
          obtain ⟨_, _, lifted, ran⟩ := call_bind_returns.mp ran
          obtain ⟨table, rfl⟩ := call_lift_returns.mp lifted
          obtain ⟨is, rfl⟩ := call_pure_returns.mp ran
          cases is
          exact ⟨inode, by rw [unchanged], collected_same owns fun k low high =>
            collectTable_block (by omega) (by omega) (require_eq_ok.mp table)⟩
  case isFalse more =>
      split at ran
      case isTrue direct =>
          obtain ⟨_, _, lifted, ran⟩ := call_bind_returns.mp ran
          obtain ⟨-, rfl⟩ := call_lift_returns.mp lifted
          obtain ⟨inode', state, grown⟩ := growBlocks_grown live ran
          exact ⟨inode', state, grown.collected_direct owns positive direct⟩
      case isFalse indirect =>
          split at ran
          case isTrue crosses =>
              obtain ⟨block, _, allocates, ran⟩ := call_bind_returns.mp ran
              obtain ⟨bitIdx, rfl, inside, free, rfl⟩ := blockBitmapAlloc_returns allocates
              obtain ⟨_, _, lifted, ran⟩ := call_bind_returns.mp ran
              obtain ⟨none, rfl⟩ := call_lift_returns.mp lifted
              have noTable : inode.sector 12 = 0 := require_eq_ok.mp none
              obtain ⟨_, _, stores, ran⟩ := call_bind_returns.mp ran
              cases store_returns.mp stores
              obtain ⟨grew, s₂, grows, ran⟩ := call_bind_returns.mp ran
              cases grew with
              | none =>
                  obtain ⟨is, -⟩ := call_pure_returns.mp ran
                  cases is
              | some grew =>
                  obtain ⟨_, _, writes, ran⟩ := call_bind_returns.mp ran
                  cases writeBlock_returns.mp writes
                  obtain ⟨is, rfl⟩ := call_pure_returns.mp ran
                  cases is
                  obtain ⟨inode', state, grown⟩ := growBlocks_grown (Function.update_self ..) grows
                  have sector : (inode.setSector 12 (blockOfBit part bitIdx)).sector 12 =
                      blockOfBit part bitIdx := by
                    rw [Inode.sector_setSector (by decide), if_pos rfl]
                  refine ⟨inode', ?_, ?_⟩
                  · rw [state]
                    simp only [Function.update_idem]
                  · have collected := grown.collected_table owns small rfl
                      (fun j less => by rw [Inode.sector_setSector (by decide), if_neg (by omega)])
                      (fun block marked => (marked_set inside).mpr (.inr marked)) rfl
                      (fun k high which => ?_)
                      (.inr (by
                        rw [sector]
                        exact ⟨not_marked_of_free inside free, (marked_set inside).mpr (.inl rfl)⟩))
                      (by
                        rw [sector]
                        exact blockOfBit_ne_zero inside)
                    · rwa [sector] at collected
                    · rcases which with far | last
                      · rw [collectDirect, if_neg (by omega), allBlocks_noTable far noTable]
                      · exact collectDirect_last positive crosses (by omega) (by omega)
          case isFalse far =>
              obtain ⟨_, _, lifted, ran⟩ := call_bind_returns.mp ran
              obtain ⟨present, rfl⟩ := call_lift_returns.mp lifted
              have table : inode.sector 12 ≠ 0 := require_eq_ok.mp present
              obtain ⟨grew, s₂, grows, ran⟩ := call_bind_returns.mp ran
              cases grew with
              | none =>
                  obtain ⟨is, -⟩ := call_pure_returns.mp ran
                  cases is
              | some grew =>
                  obtain ⟨_, _, writes, ran⟩ := call_bind_returns.mp ran
                  cases writeBlock_returns.mp writes
                  obtain ⟨is, rfl⟩ := call_pure_returns.mp ran
                  cases is
                  obtain ⟨inode', state, grown⟩ := growBlocks_grown live grows
                  refine ⟨inode', ?_, ?_⟩
                  · rw [state]
                  · exact grown.collected_table owns small rfl (fun _ _ => rfl)
                      (fun _ marked => marked) rfl
                      (fun k high which => collectTable_block (by omega) high table)
                      (.inl rfl) table

end Collected

/-! ## The first block -/

/-- `file_write` gives a first block to a file that has none, and changes nothing else of it. -/
theorem firstBlock_returns (live : s.inodes ptr = some inode)
    (owns : OwnsBlocks s.disk s.blockBitmap inode)
    (ran : (firstBlock ptr).run s = .ok (true, s')) :
    ∃ inode', s' = { s with
        disk := s'.disk
        blockBitmap := s'.blockBitmap
        inodes := Function.update s.inodes ptr (some inode') } ∧
      inode' = { inode with iSectors := inode'.iSectors } ∧
      Extends s s' inode inode' ∧ inode'.sector 0 ≠ 0 ∧
      ∀ k < 140, k ≠ 0 ∨ inode.sector 0 ≠ 0 →
        allBlocks s'.disk inode' k = allBlocks s.disk inode k := by
  obtain ⟨object, _, reads, ran⟩ := call_bind_returns.mp ran
  obtain ⟨found, rfl⟩ := deref_returns.mp reads
  rw [live] at found
  cases found
  split at ran
  case isTrue none =>
      obtain ⟨block, _, allocates, ran⟩ := call_bind_returns.mp ran
      obtain ⟨bitIdx, rfl, inside, free, rfl⟩ := blockBitmapAlloc_returns allocates
      obtain ⟨_, _, stores, ran⟩ := call_bind_returns.mp ran
      cases store_returns.mp stores
      obtain ⟨_, _, lifted, ran⟩ := call_bind_returns.mp ran
      obtain ⟨-, rfl⟩ := call_lift_returns.mp lifted
      obtain ⟨_, _, syncs, ran⟩ := call_bind_returns.mp ran
      obtain ⟨disk, rfl, table⟩ := syncBlock_returns inside syncs
      obtain ⟨-, rfl⟩ := call_pure_returns.mp ran
      have sectors : ∀ j, (inode.setSector 0 (blockOfBit part bitIdx)).sector j =
          if j = 0 then blockOfBit part bitIdx else inode.sector j :=
        fun j => Inode.sector_setSector (by decide)
      have kept : ∀ block, Marked s.blockBitmap block → SameBlock s.disk disk block :=
        fun block marked => table.sameData.sameBlock marked.in_data
      have outside : ∀ k < 140, k ≠ 0 →
          allBlocks disk (inode.setSector 0 (blockOfBit part bitIdx)) k =
            allBlocks s.disk inode k := by
        intro k small other
        by_cases direct : k < 12
        · rw [allBlocks_direct direct, allBlocks_direct direct, sectors, if_neg other]
        · exact allBlocks_indirect (by omega) small (by rw [sectors, if_neg (by decide)])
            fun used => kept _ (owns.table_marked used)
      let after : FsState part := { s with
        disk := disk
        blockBitmap := s.blockBitmap.set bitIdx true
        inodes := Function.update s.inodes ptr
          (some (inode.setSector 0 (blockOfBit part bitIdx))) }
      have grown : Grown s after inode (inode.setSector 0 (blockOfBit part bitIdx)) 0 1
          (fun _ => blockOfBit part bitIdx) fun _ => blockOfBit part bitIdx := by
        refine ⟨rfl, fun block marked => (marked_set inside).mpr (.inr marked), table, ?_,
          fun _ _ => rfl, ?_, ?_⟩
        · intro j _
          rw [sectors]
          refine ite_congr (propext ?_) (fun _ => rfl) fun _ => rfl
          omega
        · exact fun _ _ _ => ⟨not_marked_of_free inside free, (marked_set inside).mpr (.inl rfl)⟩
        · intro k k' low high low' high' same
          omega
      refine ⟨_, rfl, rfl, ?_, ?_, ?_⟩
      · refine grown.extends owns (fun _ marked => marked) rfl
          (fun block marked _ => kept block marked) ?_ ?_ (.inl ?_)
        · intro k low high
          rw [allBlocks_direct (by omega), sectors, if_pos (by omega)]
        · exact fun k small apart => outside k small (by omega)
        · rw [sectors, if_neg (by decide)]
      · rw [sectors, if_pos rfl]
        exact blockOfBit_ne_zero inside
      · intro k small which
        exact outside k small (which.resolve_right fun used => used none)
  case isFalse present =>
      obtain ⟨-, rfl⟩ := call_pure_returns.mp ran
      exact ⟨inode, by rw [← live, Function.update_eq_self], rfl, .refl owns, present,
        fun _ _ _ => rfl⟩

end UKernel.Fs
