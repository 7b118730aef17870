import UKernel.Fs.FileWrite
import UKernel.Fs.OpenOutcome

/-! # The content of a file

A file holds the bytes that were written to it (`UKernel.Fs.HasContent`): a call of `file_write`
that returns its count appends the buffer (`UKernel.Fs.Appends.hasContent`), and `file_read` returns
the bytes from the position on (`UKernel.Fs.fileRead_content`).
-/

namespace UKernel.Fs

open UKernel.Library

variable {part : Partition} {s s' : FsState part} {ptr : Ptr} {inode inode' : Inode}

/-- The blocks of an inode hold the given bytes. A file that was never written has no block, and
otherwise there is a block for each byte and one for the next. -/
structure HasContent (s : FsState part) (inode : Inode) (content : List Byte) : Prop where
  owns : OwnsBlocks s.disk s.blockBitmap inode
  size : inode.iSize.toNat = content.length
  bytes : ∀ i < content.length,
    ideRead s.disk (allBlocks s.disk inode (i / 512)).toNat (i % 512) = content.getD i 0
  blocks : (content = [] ∧ inode.sector 0 = 0) ∨
    ∀ k ≤ content.length / 512, allBlocks s.disk inode k ≠ 0

section Append

variable {inode₁ inode₂ : Inode} {blocks : Nat → Word} {buf content : List Byte}
  {s₁ s₂ : FsState part}

/-- The blocks that the file had keep their places and their bytes. -/
theorem Appends.kept (appends : Appends inode inode₁ inode₂ blocks buf s s₁ s₂ s')
    (holds : HasContent s inode content) {k : Nat} (small : 512 * k < content.length) :
    allBlocks s.disk inode k ≠ 0 ∧ allBlocks s₂.disk inode₂ k = allBlocks s.disk inode k ∧
      SameBlock s.disk s₂.disk (allBlocks s.disk inode k) := by
  have fits := appends.fits
  rw [holds.size] at fits
  have used : ∀ k ≤ content.length / 512, allBlocks s.disk inode k ≠ 0 := by
    refine holds.blocks.resolve_left fun never => ?_
    rw [never.1, List.length_nil] at small
    omega
  have first : inode.sector 0 ≠ 0 := by
    have zero := used 0 (Nat.zero_le _)
    rwa [allBlocks_direct (by decide)] at zero
  have same₁ : allBlocks s₁.disk inode₁ k = allBlocks s.disk inode k :=
    appends.same k (by omega) (.inr first)
  have same₂ : allBlocks s₂.disk inode₂ k = allBlocks s₁.disk inode₁ k := by
    refine appends.collected.old k (by omega) (.inl ?_)
    rw [holds.size]
    omega
  have here := used k (by omega)
  have marked := holds.owns.block_marked (by omega) here
  -- A block of bytes is not the table of indirect blocks.
  have noTable : ∀ {s₀ : FsState part} {inode₀ : Inode}, OwnsBlocks s₀.disk s₀.blockBitmap inode₀ →
      allBlocks s₀.disk inode₀ k = allBlocks s.disk inode k →
      allBlocks s.disk inode k ≠ inode₀.sector 12 := by
    intro s₀ inode₀ owns same hit
    have apart := owns.apart k (by omega) 140 (Nat.le_refl _)
    rw [ownBlock_of_lt (by omega), ownBlock_table, same] at apart
    have := apart here hit
    omega
  have kept₁ := appends.first.kept _ marked (noTable holds.owns rfl)
  have kept₂ := appends.collected.grows.kept _ (appends.first.marks _ marked)
    (noTable (appends.first.owns holds.owns) same₁)
  exact ⟨here, same₂.trans same₁, kept₁.trans kept₂⟩

/-- After the call there is a block for each byte and one for the next. -/
theorem Appends.blocks_used (appends : Appends inode inode₁ inode₂ blocks buf s s₁ s₂ s')
    (holds : HasContent s inode content) {k : Nat}
    (small : k ≤ (content.length + buf.length) / 512) : allBlocks s₂.disk inode₂ k ≠ 0 := by
  have fits := appends.fits
  rw [holds.size] at fits
  have collected := appends.collected
  rw [holds.size] at collected
  by_cases new : content.length / 512 + 1 ≤ k
  · exact (collected.new k new (by omega)).2.ne_zero
  · rw [collected.old k (by omega) (.inl (by omega))]
    by_cases zero : k = 0
    · rw [zero, allBlocks_direct (by decide)]
      exact appends.used
    · rw [appends.same k (by omega) (.inl zero)]
      refine holds.blocks.resolve_left (fun never => ?_) k (by omega)
      rw [never.1, List.length_nil] at new
      omega

/-- **Appending.** A call of `file_write` that returns its count appends the buffer to what the
file holds. -/
theorem Appends.hasContent (appends : Appends inode inode₁ inode₂ blocks buf s s₁ s₂ s')
    (holds : HasContent s inode content) : HasContent s' (inode₂.grow buf) (content ++ buf) := by
  have fits := appends.fits
  rw [holds.size] at fits
  have owned := appends.owned holds.owns
  have same : ∀ k < 140, allBlocks s'.disk (inode₂.grow buf) k = allBlocks s₂.disk inode₂ k :=
    fun k small => allBlocks_congr small (fun _ _ => rfl) (appends.table owned)
  have collects : ∀ k, content.length / 512 ≤ k → 512 * k < content.length + buf.length →
      blocks k = allBlocks s₂.disk inode₂ k := by
    intro k low high
    have collected := appends.collected.blocks k
    rw [holds.size] at collected
    exact collected (by omega) (by omega)
  have distinct : ∀ k < 140, ∀ k' < 140, k ≤ (content.length + buf.length) / 512 →
      allBlocks s₂.disk inode₂ k = allBlocks s₂.disk inode₂ k' → k = k' := by
    intro k small k' small' inside hit
    have apart := owned.apart k (by omega) k' (by omega)
    rw [ownBlock_of_lt small, ownBlock_of_lt small'] at apart
    exact apart (appends.blocks_used holds inside) hit
  obtain ⟨disk, written, synced⟩ := appends.written
  rw [holds.size] at written
  refine ⟨appends.owns holds.owns, ?_, ?_, .inr ?_⟩
  · have size : inode₂.iSize = inode.iSize := by
      rw [appends.collected.sameFile, appends.sameFile]
    rw [Inode.grow, size, BitVec.toNat_add, BitVec.toNat_ofNat, holds.size, List.length_append]
    omega
  · intro i inside
    rw [List.length_append] at inside
    rw [same _ (by omega)]
    have marked := owned.block_marked (show i / 512 < 140 by omega)
      (appends.blocks_used holds (by omega))
    have data : ideRead s'.disk (allBlocks s₂.disk inode₂ (i / 512)).toNat (i % 512) =
        ideRead disk (allBlocks s₂.disk inode₂ (i / 512)).toNat (i % 512) :=
      (synced.sameBlock marked.in_data _ (Nat.mod_lt _ (by decide))).symm
    rw [data]
    by_cases early : i < content.length / 512 * 512
    · obtain ⟨-, place, kept⟩ := appends.kept holds (show 512 * (i / 512) < content.length by omega)
      have untouched : SameBlock s₂.disk disk (allBlocks s₂.disk inode₂ (i / 512)) := by
        apply written.untouched
        intro k low high hit
        rw [collects k low high] at hit
        have := distinct _ (by omega) k (by omega) (by omega) hit
        omega
      rw [← untouched _ (Nat.mod_lt _ (by decide)), place, ← kept _ (Nat.mod_lt _ (by decide)),
        holds.bytes i (by omega), List.getD_append _ _ _ _ (by omega)]
    · have wrote := written.bytes (fun k k' low high low' high' hit => by
        rw [collects k low high, collects k' low' high'] at hit
        exact distinct k (by omega) k' (by omega) (by omega) hit) i (by omega) inside
      rw [collects _ (by omega) (by omega)] at wrote
      rw [wrote]
      by_cases old : i < content.length
      · obtain ⟨-, place, kept⟩ :=
          appends.kept holds (show 512 * (i / 512) < content.length by omega)
        rw [if_pos old, place, ← kept _ (Nat.mod_lt _ (by decide)), holds.bytes i old,
          List.getD_append _ _ _ _ old]
      · rw [if_neg old, List.getD_append_right _ _ _ _ (by omega)]
  · intro k small
    rw [List.length_append] at small
    rw [same k (by omega)]
    exact appends.blocks_used holds small

end Append

/-! ## Reading -/

section Read

variable {content : List Byte} {globalFd : Nat}

/-- The rounds of `file_read` return the bytes of a range that the blocks hold. -/
theorem readChunks_content {disk : Memory} {blocks : Nat → Word} {left fdPos sizeLeft : Nat}
    {block : Nat → Except Fault Word} (elements : ∀ k < allBlocksLen, block k = .ok (blocks k))
    (enough : sizeLeft ≤ left) (noWrap : fdPos + sizeLeft < 2 ^ 32)
    (inside : fdPos + sizeLeft ≤ content.length) (small : content.length ≤ 512 * 140)
    (holds : ∀ i, fdPos ≤ i → i < fdPos + sizeLeft →
      ideRead disk (blocks (i / 512)).toNat (i % 512) = content.getD i 0) :
    ∃ chunks : List (List Byte),
      readChunks disk block left fdPos sizeLeft = chunks.map .ok ∧
        chunks.flatten = (content.drop fdPos).take sizeLeft := by
  induction left generalizing fdPos sizeLeft with
  | zero =>
      refine ⟨[], rfl, ?_⟩
      rw [Nat.le_zero.mp enough, List.take_zero, List.flatten_nil]
  | succ left ih =>
      by_cases none : sizeLeft = 0
      · refine ⟨[], by rw [readChunks, if_pos none, List.map_nil], ?_⟩
        rw [none, List.take_zero, List.flatten_nil]
      · obtain ⟨chunkSize, chunk⟩ : ∃ n, n = min sizeLeft (512 - fdPos % 512) := ⟨_, rfl⟩
        have wrap : (fdPos + chunkSize) % 2 ^ 32 = fdPos + chunkSize :=
          Nat.mod_eq_of_lt (by omega)
        have later : ∃ chunks : List (List Byte),
            readChunks disk block left (fdPos + chunkSize) (sizeLeft - chunkSize) =
              chunks.map .ok ∧
            chunks.flatten = (content.drop (fdPos + chunkSize)).take (sizeLeft - chunkSize) :=
          ih (by omega) (by omega) (by omega) fun i low high => holds i (by omega) (by omega)
        obtain ⟨chunks, reads, whole⟩ := later
        have element : block (fdPos / 512) = .ok (blocks (fdPos / 512)) :=
          elements _ (show fdPos / 512 < 140 by omega)
        have bytes : ((List.range chunkSize).map fun i =>
            ideRead disk (blocks (fdPos / 512)).toNat (fdPos % 512 + i)) =
              (content.drop fdPos).take chunkSize := by
          apply List.ext_getElem
          · rw [List.length_map, List.length_range, List.length_take, List.length_drop]
            omega
          · intro i less _
            rw [List.length_map, List.length_range] at less
            have byte := holds (fdPos + i) (by omega) (by omega)
            rw [List.getElem_map, List.getElem_range, List.getElem_take, List.getElem_drop,
              ← List.getD_eq_getElem content 0 (by omega), ← byte]
            congr 3
            · omega
            · omega
        refine ⟨(content.drop fdPos).take chunkSize :: chunks, ?_, ?_⟩
        · rw [readChunks, if_neg none, element]
          dsimp only
          rw [← chunk, wrap, reads, bytes, List.map_cons]
        · rw [List.flatten_cons, whole, ← List.drop_drop, ← List.take_add,
            Nat.add_sub_cancel' (by omega)]

/-- The state after the position of an open file was advanced. -/
def FsState.advanced (s : FsState part) (globalFd bytes : Nat) : FsState part :=
  { s with
    fileTable := Function.update s.fileTable globalFd
      { s.fileTable globalFd with fdPos := (s.fileTable globalFd).fdPos + BitVec.ofNat 32 bytes } }

theorem advance_run {bytes : Nat} :
    (advance globalFd bytes).run s = .ok ((), s.advanced globalFd bytes) := rfl

theorem readRounds_chunks {chunks : List (List Byte)} :
    (readRounds globalFd (chunks.map .ok)).run s =
      .ok (chunks.flatten, s.advanced globalFd chunks.flatten.length) := by
  induction chunks generalizing s with
  | nil =>
      rw [List.map_nil, List.flatten_nil, readRounds, call_pure_returns, FsState.advanced,
        List.length_nil, BitVec.add_zero, Function.update_eq_self]
      exact ⟨rfl, rfl⟩
  | cons chunk chunks ih =>
      rw [List.map_cons, readRounds, call_bind_of (call_lift_returns.mpr ⟨rfl, rfl⟩),
        call_bind_of advance_run, call_bind_of ih, call_pure_returns]
      refine ⟨List.flatten_cons.symm, ?_⟩
      simp only [FsState.advanced, Function.update_idem, Function.update_self, List.flatten_cons,
        List.length_append, BitVec.ofNat_add, BitVec.add_assoc]

/-- A file that comes to its indirect blocks has a table of them. -/
theorem HasContent.table (holds : HasContent s inode content) {blockIdx : Nat}
    (inside : blockIdx ≤ content.length / 512) (indirect : 12 ≤ blockIdx) :
    inode.sector 12 ≠ 0 := by
  intro none
  have used := holds.blocks.resolve_left (fun never => ?_) blockIdx inside
  · exact used (allBlocks_noTable indirect none)
  · rw [never.1, List.length_nil] at inside
    omega

/-- The blocks that are read are collected, and no assertion fails. -/
theorem blocksToRead_blocks {disk : Memory} {startIdx endIdx : Nat}
    (table : 12 ≤ endIdx → inode.sector 12 ≠ 0) (small : endIdx < 139) :
    ∃ blocks, blocksToRead disk inode startIdx endIdx = .ok blocks ∧
      ∀ k, startIdx ≤ k → k ≤ endIdx → blocks k = allBlocks disk inode k := by
  have direct : ∀ first last k, first ≤ k → k ≤ last → k < 12 →
      collectDirect inode first last (fun _ => 0) k = allBlocks disk inode k := by
    intro first last k low high less
    rw [collectDirect, if_pos ⟨low, high⟩, allBlocks_direct less]
  unfold blocksToRead
  by_cases same : startIdx = endIdx
  · rw [if_pos same]
    by_cases less : endIdx < 12
    · rw [if_pos less]
      exact ⟨_, rfl, fun k low high => direct _ _ k (by omega) high (by omega)⟩
    · rw [if_neg less]
      exact ⟨_, rfl, fun k low high =>
        collectTable_block (by omega) (by omega) (table (by omega))⟩
  · rw [if_neg same]
    by_cases less : endIdx < 12
    · rw [if_pos less]
      exact ⟨_, rfl, fun k low high => direct _ _ k low high (by omega)⟩
    · rw [if_neg less, require_of (table (by omega))]
      by_cases crosses : startIdx < 12
      · rw [if_pos crosses]
        refine ⟨_, rfl, fun k low high => ?_⟩
        by_cases indirect : 12 ≤ k
        · exact collectTable_block indirect (by omega) (table (by omega))
        · rw [collectTable, if_neg (by omega)]
          exact direct _ _ k low (by omega) (by omega)
      · rw [if_neg crosses]
        exact ⟨_, rfl, fun k low high =>
          collectTable_block (by omega) (by omega) (table (by omega))⟩

theorem sizeToRead_content {length fdPos count : Nat} (small : length < 2 ^ 32)
    (inside : fdPos ≤ length) (noWrap : fdPos + count < 2 ^ 32) :
    sizeToRead (BitVec.ofNat 32 length) (BitVec.ofNat 32 fdPos) (BitVec.ofNat 32 count) =
      if fdPos = length ∧ 0 < count then none else some (min count (length - fdPos)) := by
  have ends : BitVec.ofNat 32 length < BitVec.ofNat 32 fdPos + BitVec.ofNat 32 count ↔
      length < fdPos + count := by
    rw [BitVec.lt_def, BitVec.toNat_add, BitVec.toNat_ofNat, BitVec.toNat_ofNat, BitVec.toNat_ofNat]
    omega
  have left : (BitVec.ofNat 32 length - BitVec.ofNat 32 fdPos).toNat = length - fdPos := by
    rw [BitVec.toNat_sub, BitVec.toNat_ofNat, BitVec.toNat_ofNat]
    omega
  have empty : BitVec.ofNat 32 length - BitVec.ofNat 32 fdPos = 0 ↔ fdPos = length := by
    rw [← BitVec.toNat_inj, left]
    simp only [BitVec.ofNat_eq_ofNat, BitVec.toNat_ofNat, Nat.zero_mod]
    omega
  unfold sizeToRead
  by_cases past : length < fdPos + count
  · rw [if_pos (ends.mpr past)]
    by_cases done : fdPos = length
    · rw [if_pos (empty.mpr done), if_pos ⟨done, by omega⟩]
    · rw [if_neg (mt empty.mp done), if_neg fun both => done both.1, left,
        Nat.min_eq_right (by omega)]
  · rw [if_neg (mt ends.mp past), if_neg (by omega), BitVec.toNat_ofNat,
      Nat.min_eq_left (by omega), Nat.mod_eq_of_lt (by omega)]

/-- **Reading.** From a position inside a file of fewer than 139 blocks, `file_read` returns the
bytes from the position on, and `-1` at the end of the file. -/
theorem fileRead_content (holds : HasContent s inode content) (short : content.length < 512 * 139)
    (live : s.inodes ptr = some inode) (file : (s.fileTable globalFd).fdInode = some ptr)
    {fdPos count : Nat} (position : (s.fileTable globalFd).fdPos = BitVec.ofNat 32 fdPos)
    (inside : fdPos ≤ content.length) (noWrap : fdPos + count < 2 ^ 32) :
    (fileRead globalFd (BitVec.ofNat 32 count)).run s =
      if fdPos = content.length ∧ 0 < count then .ok (none, s)
      else .ok (some ((content.drop fdPos).take count),
        s.advanced globalFd ((content.drop fdPos).take count).length) := by
  have found : (fdInodeOf globalFd : FsCall part Ptr).run s = .ok (ptr, s) := by
    rw [fdInodeOf, call_bind_of (call_get_returns.mpr ⟨rfl, rfl⟩), file]
    rfl
  have size : inode.iSize = BitVec.ofNat 32 content.length := by
    apply BitVec.eq_of_toNat_eq
    rw [holds.size, BitVec.toNat_ofNat]
    omega
  have bytesToRead := sizeToRead_content (by omega) inside noWrap
  rw [fileRead, call_bind_of found, call_bind_of (deref_returns.mpr ⟨live, rfl⟩),
    call_bind_of (call_get_returns.mpr ⟨rfl, rfl⟩)]
  dsimp only
  rw [size, position, bytesToRead]
  by_cases atEnd : fdPos = content.length ∧ 0 < count
  · rw [if_pos atEnd, if_pos atEnd]
    rfl
  · rw [if_neg atEnd, if_neg atEnd]
    dsimp only
    obtain ⟨size, minimum⟩ : ∃ n, n = min count (content.length - fdPos) := ⟨_, rfl⟩
    have taken : (content.drop fdPos).take size = (content.drop fdPos).take count := by
      rw [minimum, ← List.length_drop, List.take_eq_take_iff]
      omega
    have start : (BitVec.ofNat 32 fdPos).toNat = fdPos := by
      rw [BitVec.toNat_ofNat]
      omega
    have stop : (BitVec.ofNat 32 fdPos + BitVec.ofNat 32 size).toNat = fdPos + size := by
      rw [BitVec.toNat_add, BitVec.toNat_ofNat, BitVec.toNat_ofNat]
      omega
    have collected : ∃ blocks,
        blocksToRead s.disk inode (fdPos / 512) ((fdPos + size) / 512) = .ok blocks ∧
        ∀ k, fdPos / 512 ≤ k → k ≤ (fdPos + size) / 512 → blocks k = allBlocks s.disk inode k :=
      blocksToRead_blocks (holds.table (Nat.div_le_div_right (by omega))) (by omega)
    obtain ⟨blocks, collects, places⟩ := collected
    have read : ∃ chunks : List (List Byte),
        readChunks s.disk (blockAt blocks) size fdPos size = chunks.map .ok ∧
        chunks.flatten = (content.drop fdPos).take size := by
      refine readChunks_content (fun _ less => if_pos less) (Nat.le_refl size) (by omega) (by omega)
        (by omega) ?_
      intro i low high
      rw [places _ (by omega) (by omega)]
      exact holds.bytes i (by omega)
    obtain ⟨chunks, reads, whole⟩ := read
    rw [← minimum, start, stop, call_bind_of (call_lift_returns.mpr ⟨require_of (by omega), rfl⟩),
      call_bind_of (call_lift_returns.mpr ⟨collects, rfl⟩), reads, call_bind_of readRounds_chunks,
      call_pure_returns, whole, taken]
    exact ⟨rfl, rfl⟩

end Read

/-! ## A new file -/

/-- A call changes the object of one inode only. -/
def OnlyObject (dir : Ptr) (s s' : FsState part) : Prop :=
  ∀ ptr, ptr ≠ dir → s'.inodes ptr = s.inodes ptr

section Create

variable {dir : Ptr} {dirInode : Inode} {pDe : DirEntry} {block : Word}

instance : Std.Refl (@OnlyObject part dir) := ⟨fun _ _ _ => rfl⟩

instance : IsTrans (FsState part) (OnlyObject dir) :=
  ⟨fun _ _ _ first second ptr other => (second ptr other).trans (first ptr other)⟩

theorem OnDisk.onlyObject {α : Type} {call : FsCall part α} (onDisk : OnDisk call) :
    Keeps (OnlyObject dir) call :=
  onDisk.mono fun _ _ same ptr _ => congrFun same.inodes ptr

theorem store_onlyObject : Keeps (OnlyObject dir) (store dir inode : FsCall part Unit) :=
  .modify fun _ _ other => Function.update_of_ne other ..

theorem startBlock_onlyObject :
    Keeps (OnlyObject dir) (startBlock dir dirInode block pDe : FsCall part Bool) :=
  .bind (writeBlock_onDisk _ _).onlyObject fun _ => .bind store_onlyObject fun _ => .pure _

theorem addBlock_onlyObject (blockIdx : Nat) :
    Keeps (OnlyObject dir) (addBlock dir dirInode pDe blockIdx : FsCall part Bool) := by
  refine .bind newDirBlock_onDisk.onlyObject fun found => ?_
  cases found with
  | none => exact .pure _
  | some blockLba =>
      dsimp only
      split
      · exact startBlock_onlyObject
      · split
        · refine .bind newDirBlock_onDisk.onlyObject fun second => ?_
          cases second with
          | none =>
              exact .bind (setBlockBit_onDisk _ _).onlyObject fun _ =>
                .bind store_onlyObject fun _ => .pure _
          | some second =>
              exact .bind (writeBlock_onDisk _ _).onlyObject fun _ => startBlock_onlyObject
        · exact .bind (writeBlock_onDisk _ _).onlyObject fun _ => startBlock_onlyObject

theorem syncBlocks_onlyObject (left blockIdx : Nat) :
    Keeps (OnlyObject dir) (syncBlocks dir dirInode pDe left blockIdx : FsCall part Bool) := by
  induction left generalizing blockIdx with
  | zero => exact .pure _
  | succ left ih =>
      rw [syncBlocks]
      dsimp only
      split
      · exact addBlock_onlyObject blockIdx
      · refine .bind .get fun s => ?_
        split
        · exact .bind (writeBlock_onDisk _ _).onlyObject fun _ =>
            .bind store_onlyObject fun _ => .pure _
        · exact ih (blockIdx + 1)

/-- `sync_dir_entry` changes the object of the directory only. -/
theorem syncDirEntry_onlyObject :
    Keeps (OnlyObject dir) (syncDirEntry dir pDe : FsCall part Bool) :=
  .bind (deref_onDisk dir).onlyObject fun _ => .bind (.lift _) fun _ => syncBlocks_onlyObject 140 0

/-- The object of the inode of a new file is empty. -/
theorem fileCreate_object {parentDir : Ptr} {filename : List Byte} {flag : Byte} {fd : Nat}
    (elsewhere : parentDir ≠ s.newPtr)
    (ran : (fileCreate parentDir filename flag).run s = .ok (some fd, s')) :
    ∃ inode, s'.inodes s.newPtr = some inode ∧ inode.iSize = 0 ∧ ∀ i < 13, inode.sector i = 0 := by
  obtain ⟨found, allocated, allocates, ran⟩ := call_bind_returns.mp ran
  have same := inodeBitmapAlloc_onDisk s _ _ allocates
  cases found with
  | none =>
      obtain ⟨is, -⟩ := call_pure_returns.mp ran
      cases is
  | some inodeNo =>
      have ptr : allocated.newPtr = s.newPtr := by
        unfold FsState.newPtr
        rw [same.userProcess, same.nextAddr]
      rw [call_bind_of (call_get_returns.mpr ⟨rfl, rfl⟩), call_bind_of mallocInode_newPtr,
        call_bind_of (store_returns.mpr rfl), ptr] at ran
      cases free : allocated.freeSlot with
      | none =>
          simp only [free] at ran
          obtain ⟨_, _, _, ran⟩ := call_bind_returns.mp ran
          obtain ⟨_, _, _, ran⟩ := call_bind_returns.mp ran
          obtain ⟨is, -⟩ := call_pure_returns.mp ran
          cases is
      | some g =>
          simp only [free] at ran
          obtain ⟨_, filled, fills, ran⟩ := call_bind_returns.mp ran
          cases call_modify_returns.mp fills
          obtain ⟨entry, _, makes, ran⟩ := call_bind_returns.mp ran
          obtain ⟨-, rfl⟩ := call_lift_returns.mp makes
          obtain ⟨done, synced, syncs, ran⟩ := call_bind_returns.mp ran
          have kept := syncDirEntry_onlyObject _ _ _ syncs s.newPtr elsewhere.symm
          dsimp only at kept
          rw [Function.update_self] at kept
          cases done with
          | true =>
              obtain ⟨-, s₁, inode, -, live, rest⟩ := publishFile_returns ran
              rw [kept] at live
              cases live
              refine ⟨{ inodeInit (BitVec.ofNat 32 inodeNo) with iOpenCnts := 1 }, ?_, rfl, ?_⟩
              · rw [rest]
                exact Function.update_self ..
              · intro i _
                simp [Inode.sector, inodeInit]
          | false =>
              obtain ⟨_, _, _, ran⟩ := call_bind_returns.mp ran
              obtain ⟨_, _, _, ran⟩ := call_bind_returns.mp ran
              obtain ⟨_, _, _, ran⟩ := call_bind_returns.mp ran
              obtain ⟨is, -⟩ := call_pure_returns.mp ran
              cases is

/-- The descriptor of a new file refers to it. -/
theorem fileCreate_descriptor {parentDir : Ptr} {filename : List Byte} {flag : Byte} {fd : Nat}
    (ran : (fileCreate parentDir filename flag).run s = .ok (some fd, s')) :
    ∃ g, s'.fdTable fd = some g ∧ (s'.fileTable g).fdInode = some s.newPtr := by
  rcases fileCreate_returns ran with ⟨is, -⟩ | ⟨g, -, installed, same⟩
  · cases is
  · rcases installed.cases with ⟨is, -⟩ | ⟨localFd, is, -, table⟩
    · cases is
    · cases is
      refine ⟨g, by rw [table, Function.update_self], ?_⟩
      rw [same.fileTable, fileTable_fill, Function.update_self]

end Create

/-! ## Writing and reading back -/

section

variable {calls : List (Nat × List Byte)} {first : FsState part} {content : List Byte}

/-- The buffers of calls of `file_write`, one after the other. -/
def written (calls : List (Nat × List Byte)) : List Byte :=
  (calls.map Prod.snd).flatten

/-- Calls of `file_write` that return their count append their buffers. -/
theorem writes_hasContent (holds : ∃ inode, first.inodes ptr = some inode ∧
      HasContent first inode content)
    (steps : (writing part {ptr}).Steps first calls s) :
    ∃ inode, s.inodes ptr = some inode ∧ HasContent s inode (content ++ written calls) := by
  induction steps with
  | nil =>
      obtain ⟨inode, live, has⟩ := holds
      refine ⟨inode, live, ?_⟩
      rw [written, List.map_nil, List.flatten_nil, List.append_nil]
      exact has
  | snoc call before step ih =>
      obtain ⟨inode, live, has⟩ := ih
      obtain ⟨⟨_, rfl, file⟩, ran⟩ := step
      obtain ⟨-, inode₁, inode₂, blocks, s₁, s₂, appends, fdPos, state⟩ :=
        fileWrite_returns file live has.owns ran
      refine ⟨inode₂.grow call.2, ?_, ?_⟩
      · rw [state]
        exact Function.update_self ..
      · have more := appends.hasContent has
        rw [List.append_assoc] at more
        rw [written, List.map_append, List.flatten_append, List.map_singleton,
          List.flatten_singleton]
        exact more

/-- What an open file holds is read and written through its inode only. -/
theorem HasContent.of_disk {inode : Inode} (has : HasContent s inode content)
    (disk : s'.disk = s.disk) (bitmap : s'.blockBitmap = s.blockBitmap) :
    HasContent s' inode content := by
  obtain ⟨owns, size, bytes, blocks⟩ := has
  rw [← disk] at owns bytes blocks
  rw [← bitmap] at owns
  exact ⟨owns, size, bytes, blocks⟩

/-- **Reading what was written.** A file that `file_create` made in memory apart from the
directory and to which calls of `file_write` that return their count wrote fewer than 139 blocks
is read back: from any position inside it, `file_read` returns the bytes that were written from
the position on, at most as many as asked for, and advances the position by their number. It
returns `-1` exactly at the end of the file, when bytes are asked for. -/
theorem file_read_returns_written {s₀ s₁ s : FsState part} {parentDir : Ptr}
    {filename : List Byte} {flag : Byte} {fd : Nat} (elsewhere : parentDir ≠ s₀.newPtr)
    (created : (fileCreate parentDir filename flag).run s₀ = .ok (some fd, s₁))
    (wrote : (writing part {s₀.newPtr}).Steps s₁ calls s)
    (short : (written calls).length < 71168)
    (table : Nat → File) (globalFd fdPos count : Nat)
    (file : (table globalFd).fdInode = some s₀.newPtr)
    (position : (table globalFd).fdPos = BitVec.ofNat 32 fdPos)
    (inside : fdPos ≤ (written calls).length) (noWrap : fdPos + count < 2 ^ 32) :
    (∃ g, s₁.fdTable fd = some g ∧ (s₁.fileTable g).fdInode = some s₀.newPtr) ∧
    (fileRead globalFd (BitVec.ofNat 32 count)).run { s with fileTable := table } =
      if fdPos = (written calls).length ∧ 0 < count then .ok (none, { s with fileTable := table })
      else .ok (some (((written calls).drop fdPos).take count),
        { s with fileTable := Function.update table globalFd { table globalFd with
            fdPos := (table globalFd).fdPos +
              BitVec.ofNat 32 (((written calls).drop fdPos).take count).length } }) := by
  refine ⟨fileCreate_descriptor created, ?_⟩
  obtain ⟨object, live, size, sectors⟩ := fileCreate_object elsewhere created
  have nothing : ∀ k ≤ 140, ownBlock s₁.disk object k = 0 :=
    fun k small => ownBlock_empty sectors small
  have empty : HasContent s₁ object [] := by
    refine ⟨⟨?_, ?_⟩, ?_, ?_, .inl ⟨rfl, sectors 0 (by decide)⟩⟩
    · exact fun k small _ _ used _ => absurd (nothing k small) used
    · exact fun k small used => absurd (nothing k small) used
    · rw [size]
      rfl
    · intro i less
      cases less
  obtain ⟨inode, live', has⟩ := writes_hasContent ⟨object, live, empty⟩ wrote
  rw [List.nil_append] at has
  have whole : HasContent { s with fileTable := table } inode (written calls) := has.of_disk rfl rfl
  exact fileRead_content whole short live' file position inside noWrap

end

/-- A mounted partition whose root directory is open and has no entry. -/
def emptyRoot : FsState somePartition :=
  { blankState with
    blockBitmap := ⟨Function.update Memory.zeros 0 1⟩
    inodeBitmap := ⟨Function.update Memory.zeros 0 1⟩
    inodes := Function.update (fun _ => none) (.kernel 0) (some (inodeInit 0))
    nextAddr := 1 }

/-- Three bytes are written to a new file, and the last two of them are read. -/
theorem file_read_two : ∃ s₁ s, (fileCreate (.kernel 0) [97] oCreat).run emptyRoot =
      .ok (some 3, s₁) ∧
    (fileWrite 3 [1, 2, 3]).run s₁ = .ok (some 3, s) ∧
    valueOf (fileRead 3 5) { s with fileTable := fun _ => ⟨1, 0, some (.kernel 1)⟩ } =
      some (some [2, 3]) := by
  have ran : valueOf (do
      let created ← fileCreate (.kernel 0) [97] oCreat
      let s ← get
      let wrote ← fileWrite 3 [1, 2, 3]
      return (created, (s.fileTable 3).fdInode, wrote)) emptyRoot =
        some (some 3, some (.kernel 1), some 3) := by
    decide +kernel
  obtain ⟨s', ran⟩ := exists_of_valueOf ran
  obtain ⟨created, s₁, creates, ran⟩ := call_bind_returns.mp ran
  rw [call_bind_of (call_get_returns.mpr ⟨rfl, rfl⟩)] at ran
  obtain ⟨wrote, s, writes, ran⟩ := call_bind_returns.mp ran
  obtain ⟨all, rfl⟩ := call_pure_returns.mp ran
  rw [Prod.mk.injEq, Prod.mk.injEq] at all
  obtain ⟨rfl, file, rfl⟩ := all
  have steps : (writing somePartition {.kernel 1}).Steps s₁ [(3, [1, 2, 3])] s :=
    .snoc (3, [1, 2, 3]) .nil ⟨⟨.kernel 1, rfl, file⟩, writes⟩
  have read := (file_read_returns_written (by decide) creates steps (by decide)
    (fun _ => ⟨1, 0, some (.kernel 1)⟩) 3 1 5 rfl rfl (by decide) (by decide)).2
  rw [if_neg (by decide)] at read
  have returned := congrArg (fun result => result.toOption.map Prod.fst) read
  exact ⟨s₁, s, creates, writes, returned⟩

end UKernel.Fs
