import UKernel.Fs.InodeTable

/-! # Blocks of files and directories

A block is marked when its bit is set in the block bitmap, and an inode owns the blocks it
reaches and its table of indirect blocks. An allocated block was not marked
(`UKernel.Fs.newBlock_returns`), and what an inode reaches changes only with its own blocks
(`UKernel.Fs.allBlocks_congr`).
-/

namespace UKernel.Fs

open UKernel.Library

variable {part : Partition}

/-! ## Marked blocks -/

section Marked

variable {btmp : Bitmap part.blockBitmapBytes} {bitIdx bitIdx' : Nat} {block : Word}

/-- The bit of a block is set. -/
def Marked (btmp : Bitmap part.blockBitmapBytes) (block : Word) : Prop :=
  ∃ bitIdx < 4096 * part.sb.blockBitmapSects, block = blockOfBit part bitIdx ∧
    btmp.test bitIdx = true

theorem blockOfBit_inj (small : bitIdx < 4096 * part.sb.blockBitmapSects)
    (small' : bitIdx' < 4096 * part.sb.blockBitmapSects) :
    blockOfBit part bitIdx = blockOfBit part bitIdx' ↔ bitIdx = bitIdx' := by
  constructor
  · intro same
    have numbers := congrArg BitVec.toNat same
    rw [blockOfBit_toNat small, blockOfBit_toNat small'] at numbers
    omega
  · exact congrArg _

/-- The bit of a block, computed as the source computes it. -/
theorem blockOfBit_sub (small : bitIdx < 4096 * part.sb.blockBitmapSects) :
    (blockOfBit part bitIdx - BitVec.ofNat 32 part.sb.dataStartLba).toNat = bitIdx := by
  have bound := part.blocks_small
  rw [BitVec.toNat_sub, blockOfBit_toNat small, BitVec.toNat_ofNat]
  omega

/-- Marked blocks lie in the data area. -/
theorem Marked.in_data (marked : Marked btmp block) : part.sb.dataStartLba ≤ block.toNat := by
  obtain ⟨bitIdx, small, rfl, -⟩ := marked
  rw [blockOfBit_toNat small]
  exact Nat.le_add_right _ _

theorem blockOfBit_ne_zero (small : bitIdx < 4096 * part.sb.blockBitmapSects) :
    blockOfBit part bitIdx ≠ 0 := by
  intro zero
  have numbers := congrArg BitVec.toNat zero
  rw [blockOfBit_toNat small] at numbers
  obtain ⟨-, -, -, table⟩ := part.layout
  have := BitVec.toNat_ofNat 0 32
  simp only [BitVec.ofNat_eq_ofNat, BitVec.toNat_ofNat] at numbers
  omega

theorem Marked.ne_zero (marked : Marked btmp block) : block ≠ 0 := by
  obtain ⟨bitIdx, small, rfl, -⟩ := marked
  exact blockOfBit_ne_zero small

theorem not_marked_of_free (small : bitIdx < 4096 * part.sb.blockBitmapSects)
    (free : btmp.test bitIdx = false) : ¬ Marked btmp (blockOfBit part bitIdx) := by
  intro marked
  obtain ⟨bitIdx', small', same, set⟩ := marked
  rw [blockOfBit_inj small small'] at same
  rw [← same, free] at set
  cases set

/-- Setting a bit marks its block. -/
theorem marked_set (small : bitIdx < 4096 * part.sb.blockBitmapSects) :
    Marked (btmp.set bitIdx true) block ↔ block = blockOfBit part bitIdx ∨ Marked btmp block := by
  constructor
  · intro marked
    obtain ⟨other, small', rfl, set⟩ := marked
    by_cases same : other = bitIdx
    · exact .inl (congrArg _ same)
    · rw [Bitmap.test_set, if_neg same] at set
      exact .inr ⟨other, small', rfl, set⟩
  · intro either
    rcases either with rfl | ⟨other, small', rfl, set⟩
    · exact ⟨bitIdx, small, rfl, by rw [Bitmap.test_set, if_pos rfl]⟩
    · refine ⟨other, small', rfl, ?_⟩
      rw [Bitmap.test_set]
      split
      · rfl
      · exact set

/-- Clearing a bit releases its block. -/
theorem marked_clear (small : bitIdx < 4096 * part.sb.blockBitmapSects) :
    Marked (btmp.set bitIdx false) block ↔ block ≠ blockOfBit part bitIdx ∧ Marked btmp block := by
  constructor
  · intro marked
    obtain ⟨other, small', rfl, set⟩ := marked
    rw [Bitmap.test_set] at set
    by_cases same : other = bitIdx
    · rw [if_pos same] at set
      cases set
    · rw [if_neg same] at set
      exact ⟨fun eq => same ((blockOfBit_inj small' small).mp eq), other, small', rfl, set⟩
  · intro both
    obtain ⟨apart, other, small', rfl, set⟩ := both
    refine ⟨other, small', rfl, ?_⟩
    rw [Bitmap.test_set, if_neg fun same => apart (congrArg _ same)]
    exact set

end Marked

/-! ## Regions of the disk -/

/-- The inode table and the data area are the same on two disks. -/
def SameFromTable (part : Partition) (disk disk' : Memory) : Prop :=
  ∀ i, 512 * part.sb.inodeTableLba ≤ i → disk i = disk' i

/-- The data area is the same on two disks. -/
def SameData (part : Partition) (disk disk' : Memory) : Prop :=
  ∀ i, 512 * part.sb.dataStartLba ≤ i → disk i = disk' i

/-- A block holds the same bytes on two disks. -/
def SameBlock (disk disk' : Memory) (block : Word) : Prop :=
  ∀ i < 512, ideRead disk block.toNat i = ideRead disk' block.toNat i

section Regions

variable {disk disk' disk'' buf : Memory} {block other : Word} {n : Nat}

theorem SameFromTable.sameData (same : SameFromTable part disk disk') :
    SameData part disk disk' := by
  obtain ⟨-, -, -, table⟩ := part.layout
  intro i far
  exact same i (by omega)

theorem SameFromTable.sameSlot (same : SameFromTable part disk disk') :
    SameSlot part disk disk' n := by
  intro k _
  exact same _ (by unfold slotAddr; omega)

theorem SameData.sameBlock (same : SameData part disk disk')
    (far : part.sb.dataStartLba ≤ block.toNat) : SameBlock disk disk' block := by
  intro i _
  unfold ideRead
  exact same _ (by omega)

theorem SameBlock.trans (first : SameBlock disk disk' block)
    (second : SameBlock disk' disk'' block) : SameBlock disk disk'' block :=
  fun i small => (first i small).trans (second i small)

theorem SameSlot.trans (first : SameSlot part disk disk' n)
    (second : SameSlot part disk' disk'' n) : SameSlot part disk disk'' n :=
  fun k small => (first k small).trans (second k small)

/-- Writing a block leaves the others alone. -/
theorem sameBlock_ideWrite (apart : other ≠ block) :
    SameBlock disk (ideWrite disk block.toNat buf 1) other := by
  intro i small
  have numbers : other.toNat ≠ block.toNat := fun same => apart (BitVec.eq_of_toNat_eq same)
  rw [ideRead_ideWrite_other small (by omega)]

/-- Writing a block leaves the inode table alone. -/
theorem sameSlot_ideWrite (far : part.sb.dataStartLba ≤ block.toNat) (inside : n < 4096) :
    SameSlot part disk (ideWrite disk block.toNat buf 1) n := by
  obtain ⟨-, -, -, table⟩ := part.layout
  intro k small
  unfold ideWrite
  rw [Memory.splice_outside]
  unfold slotAddr
  omega

/-- Writing a slot of the inode table leaves the data area alone. -/
theorem sameData_splice_slot {src : Memory} (inside : n < 4096) :
    SameData part disk (disk.splice (slotAddr part n) src 76) := by
  obtain ⟨-, -, -, table⟩ := part.layout
  intro i far
  rw [Memory.splice_outside]
  unfold slotAddr
  omega

end Regions

/-! ## Allocation -/

/-- `bitmap_sync` of the bit of a block. -/
def syncBlock (block : Word) : FsCall part Unit :=
  bitmapSync (block - BitVec.ofNat 32 part.sb.dataStartLba).toNat .blockBitmap

/-- `ide_write` of one block. -/
def writeBlock (block : Word) (buf : Memory) : FsCall part Unit :=
  modify fun s => { s with disk := ideWrite s.disk block.toNat buf 1 }

section Allocation

variable {s s' : FsState part} {bitIdx : Nat} {block : Word} {buf : Memory}

@[simp] theorem writeBlock_returns :
    (writeBlock block buf).run s = .ok ((), s') ↔
      { s with disk := ideWrite s.disk block.toNat buf 1 } = s' :=
  call_modify_returns

/-- Synchronising the block bitmap writes before the inode table. -/
theorem bitmapSync_block (small : bitIdx < 4096 * part.sb.blockBitmapSects)
    (ran : (bitmapSync bitIdx .blockBitmap).run s = .ok ((), s')) :
    ∃ disk, s' = { s with disk := disk } ∧ SameFromTable part s.disk disk := by
  obtain ⟨-, inodes, table, -⟩ := part.layout
  refine ⟨_, (call_modify_returns.mp ran).symm, fun i far => ?_⟩
  unfold ideWrite
  rw [Memory.splice_outside]
  omega

/-- Synchronising the inode bitmap writes before the inode table. -/
theorem bitmapSync_inode (small : bitIdx < 4096)
    (ran : (bitmapSync bitIdx .inodeBitmap).run s = .ok ((), s')) :
    ∃ disk, s' = { s with disk := disk } ∧ SameFromTable part s.disk disk := by
  obtain ⟨-, -, table, -⟩ := part.layout
  refine ⟨_, (call_modify_returns.mp ran).symm, fun i far => ?_⟩
  unfold ideWrite
  rw [Memory.splice_outside]
  omega

theorem syncBlock_returns (small : bitIdx < 4096 * part.sb.blockBitmapSects)
    (ran : (syncBlock (blockOfBit part bitIdx)).run s = .ok ((), s')) :
    ∃ disk, s' = { s with disk := disk } ∧ SameFromTable part s.disk disk := by
  rw [syncBlock, blockOfBit_sub small] at ran
  exact bitmapSync_block small ran

end Allocation

/-! ## The blocks of an inode -/

/-- The blocks an inode owns: those it reaches, and its table of indirect blocks as the
last one. -/
def ownBlock (disk : Memory) (inode : Inode) (k : Nat) : Word :=
  if k = 140 then inode.sector 12 else allBlocks disk inode k

/-- An inode owns marked blocks, each of them once. -/
structure OwnsBlocks (disk : Memory) (btmp : Bitmap part.blockBitmapBytes) (inode : Inode) :
    Prop where
  apart : ∀ k ≤ 140, ∀ k' ≤ 140, ownBlock disk inode k ≠ 0 →
    ownBlock disk inode k = ownBlock disk inode k' → k = k'
  marked : ∀ k ≤ 140, ownBlock disk inode k ≠ 0 → Marked btmp (ownBlock disk inode k)

section Own

variable {disk disk' : Memory} {inode inode' : Inode} {k : Nat}
  {btmp btmp' : Bitmap part.blockBitmapBytes}

theorem allBlocks_direct (direct : k < 12) : allBlocks disk inode k = inode.sector k :=
  if_pos direct

theorem allBlocks_noTable (indirect : 12 ≤ k) (none : inode.sector 12 = 0) :
    allBlocks disk inode k = 0 := by
  rw [allBlocks, if_neg (by omega), if_neg (by simp [none])]

theorem allBlocks_table (indirect : 12 ≤ k) (table : inode.sector 12 ≠ 0) :
    allBlocks disk inode k =
      getWord (ideRead disk (inode.sector 12).toNat) (4 * (k - 12)) := by
  rw [allBlocks, if_neg (by omega), if_pos table]

/-- The indirect blocks an inode reaches depend on its table. -/
theorem allBlocks_indirect (indirect : 12 ≤ k) (small : k < 140)
    (sector : inode'.sector 12 = inode.sector 12)
    (table : inode.sector 12 ≠ 0 → SameBlock disk disk' (inode.sector 12)) :
    allBlocks disk' inode' k = allBlocks disk inode k := by
  by_cases none : inode.sector 12 = 0
  · rw [allBlocks_noTable indirect none, allBlocks_noTable indirect (sector.trans none)]
  · rw [allBlocks_table indirect none, allBlocks_table indirect (by rwa [sector]), sector]
    apply getWord_congr
    intro j less
    exact (table none _ (by omega)).symm

/-- The blocks an inode reaches depend on its sectors and on its table of indirect blocks. -/
theorem allBlocks_congr (small : k < 140)
    (sectors : ∀ i < 13, inode'.sector i = inode.sector i)
    (table : inode.sector 12 ≠ 0 → SameBlock disk disk' (inode.sector 12)) :
    allBlocks disk' inode' k = allBlocks disk inode k := by
  by_cases direct : k < 12
  · rw [allBlocks_direct direct, allBlocks_direct direct, sectors k (by omega)]
  · exact allBlocks_indirect (by omega) small (sectors 12 (by decide)) table

theorem ownBlock_table : ownBlock disk inode 140 = inode.sector 12 :=
  if_pos rfl

theorem ownBlock_of_lt (small : k < 140) : ownBlock disk inode k = allBlocks disk inode k :=
  if_neg (by omega)

/-- What an inode owns depends on its sectors and on its table of indirect blocks. -/
theorem ownBlock_congr (small : k ≤ 140)
    (sectors : ∀ i < 13, inode'.sector i = inode.sector i)
    (table : inode.sector 12 ≠ 0 → SameBlock disk disk' (inode.sector 12)) :
    ownBlock disk' inode' k = ownBlock disk inode k := by
  by_cases last : k = 140
  · rw [last, ownBlock_table, ownBlock_table, sectors 12 (by decide)]
  · rw [ownBlock_of_lt (by omega), ownBlock_of_lt (by omega),
      allBlocks_congr (by omega) sectors table]

/-- An inode owns its blocks as long as they stay marked and its table is left alone. -/
theorem OwnsBlocks.frame (owns : OwnsBlocks disk btmp inode)
    (sectors : ∀ i < 13, inode'.sector i = inode.sector i)
    (table : inode.sector 12 ≠ 0 → SameBlock disk disk' (inode.sector 12))
    (keeps : ∀ k ≤ 140, ownBlock disk inode k ≠ 0 → Marked btmp' (ownBlock disk inode k)) :
    OwnsBlocks disk' btmp' inode' := by
  constructor
  · intro k small k' small' used same
    rw [ownBlock_congr small sectors table] at used same
    rw [ownBlock_congr small' sectors table] at same
    exact owns.apart k small k' small' used same
  · intro k small used
    rw [ownBlock_congr small sectors table] at used ⊢
    exact keeps k small used

/-- The table of indirect blocks is marked. -/
theorem OwnsBlocks.table_marked (owns : OwnsBlocks disk btmp inode)
    (table : inode.sector 12 ≠ 0) : Marked btmp (inode.sector 12) := by
  have own := owns.marked 140 (Nat.le_refl _)
  rw [ownBlock_table] at own
  exact own table

theorem OwnsBlocks.block_marked (owns : OwnsBlocks disk btmp inode) (small : k < 140)
    (used : allBlocks disk inode k ≠ 0) : Marked btmp (allBlocks disk inode k) := by
  have own := owns.marked k (by omega)
  rw [ownBlock_of_lt small] at own
  exact own used

/-! Inodes with the same number, size and sectors reach the same blocks. -/

theorem Inode.SameFile.trans {inode'' : Inode} (first : inode.SameFile inode')
    (second : inode'.SameFile inode'') : inode.SameFile inode'' :=
  ⟨first.1.trans second.1, first.2.1.trans second.2.1, first.2.2.trans second.2.2⟩

theorem Inode.SameFile.sector (same : inode.SameFile inode') (i : Nat) :
    inode.sector i = inode'.sector i := by
  unfold Inode.sector
  rw [same.2.2]

theorem Inode.SameFile.allBlocks (same : inode.SameFile inode') :
    allBlocks disk inode = allBlocks disk inode' := by
  funext k
  unfold Fs.allBlocks
  rw [same.sector, same.sector]

theorem Inode.SameFile.ownBlock (same : inode.SameFile inode') :
    ownBlock disk inode = ownBlock disk inode' := by
  funext k
  unfold Fs.ownBlock
  rw [same.sector, same.allBlocks]

end Own

end UKernel.Fs
