import UKernel.Fs.Directory

/-! # Adding an entry to a directory

`sync_dir_entry` puts an entry into the first free slot, or into a new block. It does not read
the table of indirect blocks, so it replaces the table of a directory whose direct blocks are
full (`UKernel.Fs.sync_dir_entry_correct`).
-/

namespace UKernel.Fs

open UKernel.Library

variable {part : Partition}

/-! ## The call -/

/-- The array `all_blocks` of `sync_dir_entry`: only the direct blocks are filled in. -/
def directBlocks (inode : Inode) (blockIdx : Nat) : Word :=
  if blockIdx < 12 then inode.sector blockIdx else 0

/-- The loop of `sync_dir_entry` over the entries of a sector: the first of unknown type. -/
def firstFree (buf : Memory) : Option Nat :=
  (List.range 21).find? fun dirEntryIdx => getWord buf (24 * dirEntryIdx + 20) = ftUnknown

/-- The words `all_blocks + 12` as bytes, when only the one at `k` is filled in. -/
def tableWith (k : Nat) (block : Word) : Memory := fun i =>
  wordByte (if i / 4 = k then block else 0) (i % 4)

/-- `block_bitmap_alloc`, and the synchronisation of its bit. -/
def newDirBlock : FsCall part (Option Word) := do
  let blockLba ← blockBitmapAlloc
  if let some block := blockLba then
    require (block - BitVec.ofNat 32 part.sb.dataStartLba ≠ 0xffffffff)
    syncBlock block
  return blockLba

/-- The end of `sync_dir_entry` after it allocated a block for the entry. -/
def startBlock (dir : Ptr) (dirInode : Inode) (block : Word) (pDe : DirEntry) :
    FsCall part Bool := do
  writeBlock block (Memory.zeros.splice 0 pDe.image 24)
  store dir { dirInode with iSize := dirInode.iSize + 24 }
  return true

/-- The branch of `sync_dir_entry` for an index without a block. -/
def addBlock (dir : Ptr) (dirInode : Inode) (pDe : DirEntry) (blockIdx : Nat) :
    FsCall part Bool := do
  let some blockLba ← newDirBlock | return false
  if blockIdx < 12 then
    startBlock dir (dirInode.setSector blockIdx blockLba) blockLba pDe
  else if blockIdx = 12 then
    -- the block just allocated becomes the table, and its first entry a second one
    match ← newDirBlock with
    | none =>
        setBlockBit (blockLba - BitVec.ofNat 32 part.sb.dataStartLba).toNat false
        store dir (dirInode.setSector 12 0)
        return false
    | some second =>
        writeBlock blockLba (tableWith 0 second)
        startBlock dir (dirInode.setSector 12 blockLba) second pDe
  else
    writeBlock (dirInode.sector 12) (tableWith (blockIdx - 12) blockLba)
    startBlock dir dirInode blockLba pDe

/-- The loop of `sync_dir_entry` over the blocks; at most `left` are left. -/
def syncBlocks (dir : Ptr) (dirInode : Inode) (pDe : DirEntry) : Nat → Nat → FsCall part Bool
  | 0, _ => return false
  | left + 1, blockIdx => do
      let block := directBlocks dirInode blockIdx
      if block = 0 then
        addBlock dir dirInode pDe blockIdx
      else
        let s ← get
        let ioBuf := ideRead s.disk block.toNat
        match firstFree ioBuf with
        | some dirEntryIdx =>
            writeBlock block (ioBuf.splice (24 * dirEntryIdx) pDe.image 24)
            store dir { dirInode with iSize := dirInode.iSize + 24 }
            return true
        | none => syncBlocks dir dirInode pDe left (blockIdx + 1)

/-- `sync_dir_entry`. -/
def syncDirEntry (dir : Ptr) (pDe : DirEntry) : FsCall part Bool := do
  let dirInode ← deref dir
  require (dirInode.iSize.toNat % 24 = 0)
  syncBlocks dir dirInode pDe 140 0

/-! ## What the steps do -/

section Steps

variable {s s' : FsState part} {dir : Ptr} {inode : Inode} {pDe : DirEntry} {blockIdx left : Nat}

/-- A new block was free, is marked, and its allocation leaves inode table and data alone. -/
theorem newDirBlock_returns {block : Option Word}
    (ran : (newDirBlock : FsCall part _).run s = .ok (block, s')) :
    ∃ bitIdx disk, block = some (blockOfBit part bitIdx) ∧
      bitIdx < 4096 * part.sb.blockBitmapSects ∧ s.blockBitmap.test bitIdx = false ∧
      s' = { s with disk := disk, blockBitmap := s.blockBitmap.set bitIdx true } ∧
      SameFromTable part s.disk disk := by
  obtain ⟨found, middle, allocated, ran⟩ := call_bind_returns.mp ran
  obtain ⟨bitIdx, rfl, small, free, rfl⟩ := blockBitmapAlloc_returns allocated
  simp only [call_bind_returns, call_pure_returns] at ran
  obtain ⟨_, _, checked, _, _, synced, rfl, rfl⟩ := ran
  obtain ⟨-, rfl⟩ := call_lift_returns.mp checked
  obtain ⟨disk, rfl, same⟩ := syncBlock_returns small synced
  exact ⟨bitIdx, disk, rfl, small, free, rfl, same⟩

theorem startBlock_returns {block : Word} {done : Bool} :
    (startBlock dir inode block pDe).run s = .ok (done, s') ↔ true = done ∧
      { s with
        disk := ideWrite s.disk block.toNat (Memory.zeros.splice 0 pDe.image 24) 1
        inodes := Function.update s.inodes dir
          (some { inode with iSize := inode.iSize + 24 }) } = s' := by
  rw [startBlock, call_bind_of (writeBlock_returns.mpr rfl), call_bind_of (store_returns.mpr rfl),
    call_pure_returns]

/-- The state after the entry was written over the free slot `i` of a block. -/
def FsState.fillSlot (s : FsState part) (dir : Ptr) (inode : Inode) (pDe : DirEntry) (block : Word)
    (i : Nat) : FsState part :=
  { s with
    disk := ideWrite s.disk block.toNat
      ((ideRead s.disk block.toNat).splice (24 * i) pDe.image 24) 1
    inodes := Function.update s.inodes dir (some { inode with iSize := inode.iSize + 24 }) }

/-- The block has no free slot. -/
def NoFree (disk : Memory) (block : Word) : Prop :=
  firstFree (ideRead disk block.toNat) = none

/-- The loop stops at the first block that is missing or has a free slot. -/
theorem syncBlocks_returns
    (ran : (syncBlocks dir inode pDe left blockIdx).run s = .ok (true, s')) :
    ∃ b, blockIdx ≤ b ∧ b < blockIdx + left ∧
      (∀ c, blockIdx ≤ c → c < b →
        directBlocks inode c ≠ 0 ∧ NoFree s.disk (directBlocks inode c)) ∧
      ((directBlocks inode b = 0 ∧ (addBlock dir inode pDe b).run s = .ok (true, s')) ∨
        (directBlocks inode b ≠ 0 ∧
          ∃ i, firstFree (ideRead s.disk (directBlocks inode b).toNat) = some i ∧
            s' = s.fillSlot dir inode pDe (directBlocks inode b) i)) := by
  induction left generalizing blockIdx with
  | zero =>
      rw [syncBlocks, call_pure_returns] at ran
      cases ran.1
  | succ left ih =>
      rw [syncBlocks] at ran
      by_cases missing : directBlocks inode blockIdx = 0
      · simp only [missing, if_true] at ran
        exact ⟨blockIdx, Nat.le_refl _, by omega, fun c low high => absurd high (by omega),
          .inl ⟨missing, ran⟩⟩
      · simp only [missing, if_false] at ran
        rw [call_bind_of (call_get_returns.mpr ⟨rfl, rfl⟩)] at ran
        cases free : firstFree (ideRead s.disk (directBlocks inode blockIdx).toNat) with
        | some i =>
            simp only [free] at ran
            rw [call_bind_of (writeBlock_returns.mpr rfl), call_bind_of (store_returns.mpr rfl),
              call_pure_returns] at ran
            exact ⟨blockIdx, Nat.le_refl _, by omega, fun c low high => absurd high (by omega),
              .inr ⟨missing, i, free, ran.2.symm⟩⟩
        | none =>
            simp only [free] at ran
            obtain ⟨b, low, high, before, found⟩ := ih ran
            refine ⟨b, by omega, by omega, fun c low' less => ?_, found⟩
            by_cases first : c = blockIdx
            · rw [first]
              exact ⟨missing, free⟩
            · exact before c (by omega) less

theorem addBlock_true {done : Bool}
    (ran : (addBlock dir inode pDe blockIdx).run s = .ok (done, s')) :
    done = true := by
  obtain ⟨_, _, allocated, ran⟩ := call_bind_returns.mp ran
  obtain ⟨_, _, rfl, -⟩ := newDirBlock_returns allocated
  dsimp only at ran
  by_cases direct : blockIdx < 12
  · rw [if_pos direct, startBlock_returns] at ran
    exact ran.1.symm
  · rw [if_neg direct] at ran
    by_cases twelve : blockIdx = 12
    · rw [if_pos twelve] at ran
      obtain ⟨_, _, allocated, ran⟩ := call_bind_returns.mp ran
      obtain ⟨_, _, rfl, -⟩ := newDirBlock_returns allocated
      obtain ⟨_, _, -, ran⟩ := call_bind_returns.mp ran
      exact (startBlock_returns.mp ran).1.symm
    · rw [if_neg twelve] at ran
      obtain ⟨_, _, -, ran⟩ := call_bind_returns.mp ran
      exact (startBlock_returns.mp ran).1.symm

/-- The loop comes to an index without a block, and adds one there. -/
theorem syncBlocks_true {done : Bool} (low : blockIdx ≤ 12) (enough : 12 < blockIdx + left)
    (ran : (syncBlocks dir inode pDe left blockIdx).run s = .ok (done, s')) : done = true := by
  induction left generalizing blockIdx with
  | zero => omega
  | succ left ih =>
      rw [syncBlocks] at ran
      by_cases missing : directBlocks inode blockIdx = 0
      · simp only [missing, if_true] at ran
        exact addBlock_true ran
      · simp only [missing, if_false] at ran
        rw [call_bind_of (call_get_returns.mpr ⟨rfl, rfl⟩)] at ran
        have direct : blockIdx < 12 := by
          by_contra indirect
          exact missing (if_neg indirect)
        split at ran
        · obtain ⟨_, _, -, ran⟩ := call_bind_returns.mp ran
          obtain ⟨_, _, -, ran⟩ := call_bind_returns.mp ran
          exact (call_pure_returns.mp ran).1.symm
        · exact ih direct (by omega) ran

theorem syncDirEntry_true {done : Bool} (ran : (syncDirEntry dir pDe).run s = .ok (done, s')) :
    done = true := by
  obtain ⟨_, _, -, ran⟩ := call_bind_returns.mp ran
  obtain ⟨_, _, -, ran⟩ := call_bind_returns.mp ran
  exact syncBlocks_true (Nat.zero_le _) (by decide) ran

end Steps

/-! ## Blocks that have no free slot -/

section Full

variable {disk : Memory} {inode : Inode} {block : Word} {i : Nat}

/-- The slot that `firstFree` finds is of unknown type. -/
theorem firstFree_some {buf : Memory} (found : firstFree buf = some i) :
    i < 21 ∧ getWord buf (24 * i + 20) = ftUnknown := by
  have listed := List.mem_of_find?_eq_some found
  exact ⟨List.mem_range.mp listed, by simpa using List.find?_some found⟩

/-- The entry in a slot of a block. -/
theorem entry_type {pos : Pos} : (DirEntry.load (slotBuf disk inode pos)).fType =
    getWord (ideRead disk (allBlocks disk inode pos.1).toNat) (24 * pos.2 + 20) := by
  apply getWord_congr
  intro k small
  rw [slotBuf, Memory.shift]
  congr 1
  omega

/-- A block without a free slot is full of entries. -/
theorem noFree_iff {b : Fin 140} (present : allBlocks disk inode b ≠ 0) :
    NoFree disk (allBlocks disk inode b) ↔ ∀ i, entries disk inode (b, i) ≠ none := by
  simp only [NoFree, firstFree, List.find?_eq_none, List.mem_range, decide_eq_true_eq]
  constructor
  · intro full i free
    have type := full i i.isLt
    rw [entries_present present, entry_type, if_neg type] at free
    cases free
  · intro full i small type
    apply full ⟨i, small⟩
    rw [entries_present present, entry_type, if_pos type]

end Full

/-! ## What an insertion changes -/

/-- What `sync_dir_entry` did: the entry is at a position that was free, every other entry is
where it was, the inode owns its blocks, and the marked blocks that it does not own, and the
inode table, were left alone. -/
structure Inserted (s s' : FsState part) (dir : Ptr) (inode inode' : Inode) (pos : Pos)
    (pDe : DirEntry) : Prop where
  was_free : entries s.disk inode pos = none
  entries_eq : entries s'.disk inode' = Function.update (entries s.disk inode) pos (some pDe)
  readable : Readable s'.disk inode'
  owns : OwnsBlocks s'.disk s'.blockBitmap inode'
  own_new : ∀ k ≤ 140, ownBlock s'.disk inode' k = 0 ∨
    ownBlock s'.disk inode' k = ownBlock s.disk inode k ∨
    ¬ Marked s.blockBitmap (ownBlock s'.disk inode' k)
  marks : ∀ block, Marked s.blockBitmap block → Marked s'.blockBitmap block
  blocks : ∀ block, Marked s.blockBitmap block → (∀ k ≤ 140, ownBlock s.disk inode k ≠ block) →
    SameBlock s.disk s'.disk block
  slots : ∀ n < 4096, SameSlot part s.disk s'.disk n
  iNo_eq : inode'.iNo = inode.iNo
  iSize_eq : inode'.iSize = inode.iSize + 24
  state_eq : s' = { s with
    disk := s'.disk
    blockBitmap := s'.blockBitmap
    inodes := Function.update s.inodes dir (some inode') }

/-- An insertion after which the inode reaches the blocks that it reached before, but for the block
of the entry. -/
structure InsertedAt (s s' : FsState part) (dir : Ptr) (inode inode' : Inode) (pos : Pos)
    (pDe : DirEntry) : Prop extends Inserted s s' dir inode inode' pos pDe where
  others_eq : ∀ k < 140, k ≠ pos.1.val → allBlocks s'.disk inode' k = allBlocks s.disk inode k

section Insertion

variable {s s' : FsState part} {dir : Ptr} {disk disk' : Memory} {inode inode' base : Inode}
  {pos : Pos} {pDe : DirEntry} {btmp btmp' : Bitmap part.blockBitmapBytes}

/-- The directory's object after the insertion. -/
theorem Inserted.object (inserted : Inserted s s' dir inode inode' pos pDe) :
    s'.inodes dir = some inode' := by
  have objects : s'.inodes = Function.update s.inodes dir (some inode') :=
    congrArg FsState.inodes inserted.state_eq
  rw [objects, Function.update_self]

/-- An entry was written to a position, and nothing else changed. -/
theorem entries_placed (typed : pDe.Typed) (present : allBlocks disk' inode' pos.1 ≠ 0)
    (written : ∀ k < 24, slotBuf disk' inode' pos k = pDe.image k)
    (others : ∀ pos' ≠ pos, entries disk' inode' pos' = entries disk inode pos') :
    entries disk' inode' = Function.update (entries disk inode) pos (some pDe) := by
  funext pos'
  by_cases here : pos' = pos
  · rw [here, Function.update_self, entries_present present, DirEntry.load_congr written,
      DirEntry.load_image, if_neg typed.ne_unknown]
  · rw [Function.update_of_ne here, others pos' here]

/-- A directory stays readable when an entry is written, and the free slots are blank. -/
theorem readable_placed (readable : Readable disk inode) (typed : pDe.Typed)
    (placed : entries disk' inode' = Function.update (entries disk inode) pos (some pDe))
    (blank : ∀ pos' ≠ pos, allBlocks disk' inode' pos'.1 ≠ 0 → entries disk' inode' pos' = none →
      slotBuf disk' inode' pos' 0 = 0) : Readable disk' inode' := by
  constructor
  · intro pos' present free
    by_cases here : pos' = pos
    · rw [placed, here, Function.update_self] at free
      cases free
    · exact blank pos' here present free
  · intro pos' entry there
    rw [placed] at there
    by_cases here : pos' = pos
    · rw [here, Function.update_self] at there
      cases there
      exact typed
    · rw [Function.update_of_ne here] at there
      exact readable.typed pos' entry there

/-- The bytes of a position of a block that did not change. -/
theorem slotBuf_congr (same : allBlocks disk' inode' pos.1 = allBlocks disk inode pos.1)
    (block : SameBlock disk disk' (allBlocks disk inode pos.1)) {k : Nat} (small : k < 24) :
    slotBuf disk' inode' pos k = slotBuf disk inode pos k := by
  rw [slotBuf, slotBuf, same]
  exact (block _ (by have := pos.2.isLt; omega)).symm

/-- A block of which only one slot was written: the bytes of the other slots are as they were. -/
theorem slotBuf_kept {src : Memory} (pos : Pos)
    (all : ∀ k < 140, allBlocks disk' inode' k = allBlocks disk inode k)
    (written : ∀ k < 512, ideRead disk' (allBlocks disk inode pos.1).toNat k =
      (ideRead disk (allBlocks disk inode pos.1).toNat).splice (24 * pos.2) src 24 k)
    (others : ∀ k < 140, k ≠ pos.1.val → allBlocks disk inode k ≠ 0 →
      SameBlock disk disk' (allBlocks disk inode k)) :
    ∀ pos' ≠ pos, allBlocks disk inode pos'.1 ≠ 0 → ∀ k < 24,
      slotBuf disk' inode' pos' k = slotBuf disk inode pos' k := by
  intro pos' apart used k small
  by_cases block : pos'.1 = pos.1
  · have slot : pos'.2.val ≠ pos.2.val :=
      fun same => apart (Prod.ext block (Fin.ext same))
    have := pos'.2.isLt
    rw [slotBuf, slotBuf, all _ pos'.1.isLt, block, Memory.shift, Memory.shift,
      written _ (by omega), Memory.splice_outside (by omega)]
  · exact slotBuf_congr (all _ pos'.1.isLt)
      (others _ pos'.1.isLt (fun same => block (Fin.ext same)) used) small

/-- The bytes of the slot that was written. -/
theorem slotBuf_written {src : Memory} {pos : Pos}
    (all : ∀ k < 140, allBlocks disk' inode' k = allBlocks disk inode k)
    (written : ∀ k < 512, ideRead disk' (allBlocks disk inode pos.1).toNat k =
      (ideRead disk (allBlocks disk inode pos.1).toNat).splice (24 * pos.2) src 24 k)
    {k : Nat} (small : k < 24) : slotBuf disk' inode' pos k = src k := by
  have := pos.2.isLt
  rw [slotBuf, all _ pos.1.isLt, Memory.shift, written _ (by omega),
    Memory.splice_inside (by omega) (by omega), Nat.add_sub_cancel_left]

/-- A position whose block and bytes are as they were holds the entry of before. -/
theorem entries_kept (all : allBlocks disk' inode' pos.1 = allBlocks disk inode pos.1)
    (kept : allBlocks disk inode pos.1 ≠ 0 → ∀ k < 24,
      slotBuf disk' inode' pos k = slotBuf disk inode pos k) :
    entries disk' inode' pos = entries disk inode pos := by
  by_cases absent : allBlocks disk inode pos.1 = 0
  · rw [entries_absent absent, entries_absent (all.trans absent)]
  · rw [entries_present absent, entries_present (by rwa [all]),
      DirEntry.load_congr (kept absent)]

/-- A block of which only the slot `i` was written: its other slots are as they were. -/
theorem fillSlot_entries (pos : Pos) (readable : Readable disk inode) (typed : pDe.Typed)
    (all : ∀ k < 140, allBlocks disk' inode' k = allBlocks disk inode k)
    (present : allBlocks disk inode pos.1 ≠ 0)
    (written : ∀ k < 512, ideRead disk' (allBlocks disk inode pos.1).toNat k =
      (ideRead disk (allBlocks disk inode pos.1).toNat).splice (24 * pos.2) pDe.image 24 k)
    (others : ∀ k < 140, k ≠ pos.1.val → allBlocks disk inode k ≠ 0 →
      SameBlock disk disk' (allBlocks disk inode k)) :
    entries disk' inode' = Function.update (entries disk inode) pos (some pDe) ∧
      Readable disk' inode' := by
  have kept := slotBuf_kept pos all written others
  have placed : entries disk' inode' = Function.update (entries disk inode) pos (some pDe) := by
    apply entries_placed typed
    · rwa [all _ pos.1.isLt]
    · exact fun k small => slotBuf_written all written small
    · exact fun pos' apart => entries_kept (all _ pos'.1.isLt) (kept pos' apart)
  refine ⟨placed, readable_placed readable typed placed fun pos' apart used free => ?_⟩
  rw [all _ pos'.1.isLt] at used
  rw [placed, Function.update_of_ne apart] at free
  rw [kept pos' apart used 0 (by decide)]
  exact readable.blank pos' used free

/-- A new block that holds the entry in its first slot, and zeros after it. -/
theorem startBlock_entries {b : Fin 140} {block : Word} (readable : Readable disk inode)
    (typed : pDe.Typed) (absent : allBlocks disk inode b = 0) (nonzero : block ≠ 0)
    (all : ∀ k < 140, allBlocks disk' inode' k = if k = b then block else allBlocks disk inode k)
    (written : ∀ k < 512, ideRead disk' block.toNat k =
      Memory.zeros.splice 0 pDe.image 24 k)
    (others : ∀ k < 140, allBlocks disk inode k ≠ 0 →
      SameBlock disk disk' (allBlocks disk inode k)) :
    entries disk' inode' = Function.update (entries disk inode) (b, 0) (some pDe) ∧
      Readable disk' inode' := by
  have here : allBlocks disk' inode' b = block := by
    rw [all b b.isLt, if_pos rfl]
  have elsewhere : ∀ pos' : Pos, pos'.1 ≠ b →
      allBlocks disk' inode' pos'.1 = allBlocks disk inode pos'.1 := by
    intro pos' apart
    rw [all _ pos'.1.isLt, if_neg fun same => apart (Fin.ext same)]
  have zero : ∀ i : Fin 21, i ≠ 0 → ∀ k < 24, slotBuf disk' inode' (b, i) k = 0 := by
    intro i apart k small
    have positive : 0 < i.val := Nat.pos_of_ne_zero fun is => apart (Fin.ext is)
    have := i.isLt
    change ideRead disk' (allBlocks disk' inode' b).toNat (24 * i + k) = 0
    rw [here, written _ (by omega), Memory.splice_outside (by omega)]
    rfl
  have placed :
      entries disk' inode' = Function.update (entries disk inode) (b, 0) (some pDe) := by
    apply entries_placed typed
    · rwa [here]
    · intro k small
      rw [slotBuf, here, Memory.shift, written _ (by simp; omega)]
      rw [Memory.splice_inside (by simp) (by simp; omega)]
      simp
    · intro pos' apart
      by_cases block' : pos'.1 = b
      · obtain ⟨b', i⟩ := pos'
        subst block'
        rw [entries_absent absent, entries_present (by rwa [here])]
        have blank : DirEntry.load (slotBuf disk' inode' (b', i)) = DirEntry.load Memory.zeros :=
          DirEntry.load_congr (zero i fun is => apart (by rw [is]))
        rw [blank, if_pos]
        rfl
      · exact entries_congr (elsewhere pos' block') (others _ pos'.1.isLt)
  refine ⟨placed, readable_placed readable typed placed fun pos' apart used free => ?_⟩
  by_cases block' : pos'.1 = b
  · obtain ⟨b', i⟩ := pos'
    subst block'
    exact zero i (fun is => apart (by rw [is])) 0 (by decide)
  · have same := elsewhere pos' block'
    rw [same] at used
    rw [entries_congr same (others _ pos'.1.isLt)] at free
    rw [slotBuf_congr same (others _ pos'.1.isLt used) (by decide)]
    exact readable.blank pos' used free

/-- Owning the blocks of before and new ones that were not marked. -/
theorem OwnsBlocks.add (owns : OwnsBlocks disk btmp inode)
    (new : ∀ k ≤ 140, ownBlock disk' inode' k = 0 ∨
      ownBlock disk' inode' k = ownBlock disk inode k ∨ ¬ Marked btmp (ownBlock disk' inode' k))
    (apart : ∀ k ≤ 140, ∀ k' ≤ 140, ownBlock disk' inode' k ≠ 0 →
      ¬ Marked btmp (ownBlock disk' inode' k) → ownBlock disk' inode' k = ownBlock disk' inode' k' →
      k = k')
    (marked : ∀ k ≤ 140, ¬ Marked btmp (ownBlock disk' inode' k) → ownBlock disk' inode' k ≠ 0 →
      Marked btmp' (ownBlock disk' inode' k))
    (keeps : ∀ block, Marked btmp block → Marked btmp' block) :
    OwnsBlocks disk' btmp' inode' := by
  have old : ∀ k ≤ 140, ownBlock disk' inode' k ≠ 0 → Marked btmp (ownBlock disk' inode' k) →
      ownBlock disk' inode' k = ownBlock disk inode k := by
    intro k small used was
    rcases new k small with zero | same | fresh
    · exact absurd zero used
    · exact same
    · exact absurd was fresh
  constructor
  · intro k small k' small' used same
    by_cases was : Marked btmp (ownBlock disk' inode' k)
    · have first := old k small used was
      have second := old k' small' (same ▸ used) (same ▸ was)
      rw [first, second] at same
      rw [first] at used
      exact owns.apart k small k' small' used same
    · exact apart k small k' small' used was same
  · intro k small used
    by_cases was : Marked btmp (ownBlock disk' inode' k)
    · exact keeps _ was
    · exact marked k small was used

/-- Writing the entry over a free slot. -/
theorem fillSlot_inserted {b : Fin 140} {i : Fin 21} (typed : pDe.Typed)
    (owns : OwnsBlocks s.disk s.blockBitmap inode) (readable : Readable s.disk inode)
    (present : allBlocks s.disk inode b ≠ 0) (free : entries s.disk inode (b, i) = none) :
    InsertedAt s (s.fillSlot dir inode pDe (allBlocks s.disk inode b) i) dir inode
      { inode with iSize := inode.iSize + 24 } (b, i) pDe := by
  have own : ownBlock s.disk inode b = allBlocks s.disk inode b := ownBlock_of_lt b.isLt
  have marked := owns.block_marked b.isLt present
  have others : ∀ k ≤ 140, k ≠ b.val → ownBlock s.disk inode k ≠ 0 →
      SameBlock s.disk (s.fillSlot dir inode pDe (allBlocks s.disk inode b) i).disk
        (ownBlock s.disk inode k) := by
    intro k small apart used
    refine sameBlock_ideWrite fun same => apart ?_
    exact owns.apart k small b (by omega) used (same.trans own.symm)
  have table : inode.sector 12 ≠ 0 → SameBlock s.disk
      (s.fillSlot dir inode pDe (allBlocks s.disk inode b) i).disk (inode.sector 12) := by
    intro used
    have own : ownBlock s.disk inode 140 = inode.sector 12 := ownBlock_table
    rw [← own] at used ⊢
    exact others 140 (Nat.le_refl _) (by omega) used
  have all : ∀ k < 140, allBlocks (s.fillSlot dir inode pDe (allBlocks s.disk inode b) i).disk
      { inode with iSize := inode.iSize + 24 } k = allBlocks s.disk inode k :=
    fun k small => allBlocks_congr small (fun _ _ => rfl) table
  obtain ⟨placed, readable'⟩ := fillSlot_entries (b, i) readable typed all present
    (fun k small => ideRead_ideWrite_self small) (fun k small apart used => by
      rw [← ownBlock_of_lt small] at used ⊢
      exact others k (by omega) apart used)
  exact {
    was_free := free
    entries_eq := placed
    readable := readable'
    owns := owns.frame (fun _ _ => rfl) table owns.marked
    own_new := fun k small => .inr (.inl (ownBlock_congr small (fun _ _ => rfl) table))
    marks := fun _ was => was
    blocks := fun block _ foreign =>
      sameBlock_ideWrite fun same => foreign b (by omega) (own.trans same.symm)
    slots := fun n small => sameSlot_ideWrite marked.in_data small
    iNo_eq := rfl
    iSize_eq := rfl
    state_eq := rfl
    others_eq := fun k small _ => all k small }

/-- Writing the entry to a new block. The disk before the write holds what the disk of `s` does
in every marked block and in the inode table, and the inode reaches the new block and the ones
it reached before. -/
theorem startBlock_inserted {b : Fin 140} {block : Word} (typed : pDe.Typed)
    (owns : OwnsBlocks s.disk s.blockBitmap inode) (readable : Readable s.disk inode)
    (absent : allBlocks s.disk inode b = 0) (fresh : ¬ Marked s.blockBitmap block)
    (used : Marked btmp' block) (marks : ∀ w, Marked s.blockBitmap w → Marked btmp' w)
    (blocks : ∀ w, Marked s.blockBitmap w → SameBlock s.disk disk w)
    (slots : ∀ n < 4096, SameSlot part s.disk disk n)
    (ends : disk' = ideWrite disk block.toNat (Memory.zeros.splice 0 pDe.image 24) 1)
    (all : ∀ k < 140,
      allBlocks disk' inode' k = if k = b then block else allBlocks s.disk inode k)
    (table : inode'.sector 12 = inode.sector 12 ∨ (¬ Marked s.blockBitmap (inode'.sector 12) ∧
      Marked btmp' (inode'.sector 12) ∧ inode'.sector 12 ≠ block))
    (number : inode'.iNo = inode.iNo) (size : inode'.iSize = inode.iSize + 24)
    (after : s' = { s with
      disk := disk'
      blockBitmap := btmp'
      inodes := Function.update s.inodes dir (some inode') }) :
    InsertedAt s s' dir inode inode' (b, 0) pDe := by
  have written : ∀ w, Marked s.blockBitmap w → SameBlock s.disk disk' w := by
    intro w was
    rw [ends]
    exact (blocks w was).trans (sameBlock_ideWrite fun same => fresh (same ▸ was))
  obtain ⟨placed, readable'⟩ := startBlock_entries readable typed absent used.ne_zero all
    (fun k small => by rw [ends]; exact ideRead_ideWrite_self small)
    (fun k small there => written _ (owns.block_marked small there))
  have own : ∀ k < 140, ownBlock disk' inode' k = if k = b then block
      else ownBlock s.disk inode k := by
    intro k small
    rw [ownBlock_of_lt small, ownBlock_of_lt small, all k small]
  have new : ∀ k ≤ 140, ownBlock disk' inode' k = 0 ∨
      ownBlock disk' inode' k = ownBlock s.disk inode k ∨
      ¬ Marked s.blockBitmap (ownBlock disk' inode' k) := by
    intro k small
    by_cases last : k = 140
    · rw [last, ownBlock_table, ownBlock_table]
      rcases table with same | fresh'
      · exact .inr (.inl same)
      · exact .inr (.inr fresh'.1)
    · rw [own k (by omega)]
      by_cases here : k = b
      · rw [if_pos here]
        exact .inr (.inr fresh)
      · rw [if_neg here]
        exact .inr (.inl rfl)
  -- an unmarked block of the inode is the new one, or the new table
  have which : ∀ k ≤ 140, ownBlock disk' inode' k ≠ 0 →
      ¬ Marked s.blockBitmap (ownBlock disk' inode' k) →
      (k = b.val ∧ ownBlock disk' inode' k = block) ∨
      (k = 140 ∧ Marked btmp' (ownBlock disk' inode' k) ∧ ownBlock disk' inode' k ≠ block) := by
    intro k small there unmarked
    by_cases last : k = 140
    · rw [last, ownBlock_table] at there unmarked ⊢
      rcases table with same | fresh'
      · rw [same] at there unmarked
        exact absurd (owns.table_marked there) unmarked
      · exact .inr ⟨rfl, fresh'.2⟩
    · rw [own k (by omega)] at there unmarked ⊢
      by_cases here : k = b
      · exact .inl ⟨here, if_pos here⟩
      · rw [if_neg here] at there unmarked
        exact absurd (owns.marked k small there) unmarked
  subst after
  exact {
    was_free := entries_absent absent
    entries_eq := placed
    readable := readable'
    owns := by
      refine owns.add new ?_ ?_ marks
      · intro k small k' small' there unmarked same
        rcases which k small there unmarked with ⟨here, is⟩ | ⟨here, -, isnt⟩
        · rcases which k' small' (same ▸ there) (same ▸ unmarked) with ⟨here', -⟩ | ⟨-, -, isnt⟩
          · rw [here, here']
          · exact absurd (same.symm.trans is) isnt
        · rcases which k' small' (same ▸ there) (same ▸ unmarked) with ⟨-, is⟩ | ⟨here', -⟩
          · exact absurd (same.trans is) isnt
          · rw [here, here']
      · intro k small unmarked there
        rcases which k small there unmarked with ⟨-, is⟩ | ⟨-, marked, -⟩
        · rw [is]
          exact used
        · exact marked
    own_new := new
    marks := marks
    blocks := fun w was _ => written w was
    slots := fun n small => by
      refine (slots n small).trans ?_
      rw [ends]
      exact sameSlot_ideWrite used.in_data small
    iNo_eq := number
    iSize_eq := size
    state_eq := rfl
    others_eq := fun k less apart => by rw [all k less, if_neg apart] }

/-- Writing the entry to a new direct block. -/
theorem startDirect_inserted {b : Fin 140} {bitIdx : Nat} (typed : pDe.Typed)
    (owns : OwnsBlocks s.disk s.blockBitmap inode) (readable : Readable s.disk inode)
    (direct : b.val < 12) (absent : inode.sector b = 0)
    (small : bitIdx < 4096 * part.sb.blockBitmapSects)
    (free : s.blockBitmap.test bitIdx = false) (same : SameFromTable part s.disk disk)
    (after : s' = { s with
      disk := ideWrite disk (blockOfBit part bitIdx).toNat (Memory.zeros.splice 0 pDe.image 24) 1
      blockBitmap := s.blockBitmap.set bitIdx true
      inodes := Function.update s.inodes dir (some { inode.setSector b (blockOfBit part bitIdx)
        with iSize := inode.iSize + 24 }) }) :
    InsertedAt s s' dir inode
      { inode.setSector b (blockOfBit part bitIdx) with iSize := inode.iSize + 24 } (b, 0)
      pDe := by
  have fresh := not_marked_of_free small free
  have used : Marked (s.blockBitmap.set bitIdx true) (blockOfBit part bitIdx) :=
    (marked_set small).mpr (.inl rfl)
  have blocks : ∀ w, Marked s.blockBitmap w → SameBlock s.disk disk w :=
    fun w was => same.sameData.sameBlock was.in_data
  have sector : ∀ i, Inode.sector { inode.setSector b (blockOfBit part bitIdx) with
      iSize := inode.iSize + 24 } i =
      if i = b then blockOfBit part bitIdx else inode.sector i :=
    fun i => Inode.sector_setSector (by omega)
  refine startBlock_inserted typed owns readable ((allBlocks_direct direct).trans absent) fresh used
    (fun w was => (marked_set small).mpr (.inr was)) blocks (fun n _ => same.sameSlot) rfl ?_
    (.inl ?_) rfl rfl after
  · intro k less
    by_cases direct' : k < 12
    · rw [allBlocks_direct direct', allBlocks_direct direct', sector]
    · rw [if_neg (by omega)]
      refine allBlocks_indirect (by omega) less (by rw [sector, if_neg (by omega)]) fun there => ?_
      have was := owns.table_marked there
      exact (blocks _ was).trans (sameBlock_ideWrite fun eq => fresh (eq ▸ was))
  · rw [sector, if_neg (by omega)]

/-- The inode without its table of indirect blocks. -/
def Inode.detach (inode : Inode) : Inode :=
  inode.setSector 12 0

theorem detach_sector {i : Nat} :
    inode.detach.sector i = if i = 12 then 0 else inode.sector i :=
  Inode.sector_setSector (by decide)

theorem detach_allBlocks {k : Nat} :
    allBlocks disk inode.detach k = if k < 12 then inode.sector k else 0 := by
  by_cases direct : k < 12
  · rw [allBlocks_direct direct, if_pos direct, detach_sector, if_neg (by omega)]
  · rw [if_neg direct, allBlocks_noTable (by omega)]
    rw [detach_sector, if_pos rfl]

/-- Without the table the direct entries remain. -/
theorem detach_entries :
    entries disk inode.detach pos = if pos.1.val < 12 then entries disk inode pos else none := by
  by_cases direct : pos.1.val < 12
  · rw [if_pos direct]
    apply entries_congr
    · rw [detach_allBlocks, if_pos direct, allBlocks_direct direct]
    · exact fun _ _ _ => rfl
  · rw [if_neg direct]
    apply entries_absent
    rw [detach_allBlocks, if_neg direct]

theorem detach_readable (readable : Readable disk inode) : Readable disk inode.detach := by
  constructor
  · intro pos present free
    rw [detach_allBlocks] at present
    by_cases direct : pos.1.val < 12
    · rw [if_pos direct] at present
      rw [detach_entries, if_pos direct] at free
      have sector : allBlocks disk inode pos.1 = inode.sector pos.1 := allBlocks_direct direct
      rw [← sector] at present
      have same : slotBuf disk inode.detach pos = slotBuf disk inode pos := by
        rw [slotBuf, slotBuf, detach_allBlocks, if_pos direct, allBlocks_direct direct]
      rw [same]
      exact readable.blank pos present free
    · rw [if_neg direct] at present
      exact absurd rfl present
  · intro pos entry there
    rw [detach_entries] at there
    by_cases direct : pos.1.val < 12
    · rw [if_pos direct] at there
      exact readable.typed pos entry there
    · rw [if_neg direct] at there
      cases there

theorem detach_ownBlock {k : Nat} (small : k ≤ 140) :
    ownBlock disk inode.detach k = if k < 12 then ownBlock disk inode k else 0 := by
  by_cases last : k = 140
  · rw [last, ownBlock_table, detach_sector]
    rfl
  · rw [ownBlock_of_lt (by omega), detach_allBlocks]
    by_cases direct : k < 12
    · rw [if_pos direct, if_pos direct, ownBlock_of_lt (by omega), allBlocks_direct direct]
    · rw [if_neg direct, if_neg direct]

theorem detach_owns (owns : OwnsBlocks disk btmp inode) : OwnsBlocks disk btmp inode.detach := by
  have direct : ∀ k ≤ 140, ownBlock disk inode.detach k ≠ 0 →
      ownBlock disk inode.detach k = ownBlock disk inode k := by
    intro k small there
    rw [detach_ownBlock small] at there ⊢
    by_cases less : k < 12
    · rw [if_pos less]
    · rw [if_neg less] at there
      exact absurd rfl there
  constructor
  · intro k small k' small' there same
    have there' : ownBlock disk inode.detach k' ≠ 0 := same ▸ there
    rw [direct k small there, direct k' small' there'] at same
    rw [direct k small there] at there
    exact owns.apart k small k' small' there same
  · intro k small there
    have is := direct k small there
    rw [is] at there ⊢
    exact owns.marked k small there

theorem getWord_tableWith {k j : Nat} {block : Word} :
    getWord (tableWith k block) (4 * j) = if j = k then block else 0 := by
  apply getWord_of_bytes
  intro i small
  rw [tableWith, show (4 * j + i) / 4 = j by omega, show (4 * j + i) % 4 = i by omega]

/-- Writing the entry to the first block of a new table. -/
theorem startTable_inserted {bitIdx bitIdx' : Nat} (typed : pDe.Typed)
    (owns : OwnsBlocks s.disk s.blockBitmap inode) (readable : Readable s.disk inode)
    (small : bitIdx < 4096 * part.sb.blockBitmapSects)
    (free : s.blockBitmap.test bitIdx = false)
    (small' : bitIdx' < 4096 * part.sb.blockBitmapSects)
    (free' : (s.blockBitmap.set bitIdx true).test bitIdx' = false)
    (same : SameFromTable part s.disk disk)
    (after : s' = { s with
      disk := ideWrite
        (ideWrite disk (blockOfBit part bitIdx).toNat (tableWith 0 (blockOfBit part bitIdx')) 1)
        (blockOfBit part bitIdx').toNat (Memory.zeros.splice 0 pDe.image 24) 1
      blockBitmap := (s.blockBitmap.set bitIdx true).set bitIdx' true
      inodes := Function.update s.inodes dir (some { inode.setSector 12 (blockOfBit part bitIdx)
        with iSize := inode.iSize + 24 }) }) :
    InsertedAt s s' dir inode.detach
      { inode.setSector 12 (blockOfBit part bitIdx) with iSize := inode.iSize + 24 } (12, 0)
      pDe := by
  have unmarked := not_marked_of_free small free
  have unmarked' := not_marked_of_free small' free'
  have tableMarked : Marked (s.blockBitmap.set bitIdx true) (blockOfBit part bitIdx) :=
    (marked_set small).mpr (.inl rfl)
  have apart : blockOfBit part bitIdx ≠ blockOfBit part bitIdx' :=
    fun eq => unmarked' (eq ▸ tableMarked)
  have sector : ∀ i, Inode.sector { inode.setSector 12 (blockOfBit part bitIdx) with
      iSize := inode.iSize + 24 } i =
      if i = 12 then blockOfBit part bitIdx else inode.sector i :=
    fun i => Inode.sector_setSector (by decide)
  have keeps : ∀ w, Marked s.blockBitmap w →
      Marked ((s.blockBitmap.set bitIdx true).set bitIdx' true) w :=
    fun w was => (marked_set small').mpr (.inr ((marked_set small).mpr (.inr was)))
  refine startBlock_inserted typed (detach_owns owns) (detach_readable readable)
    ?_ (fun was => unmarked' ((marked_set small).mpr (.inr was)))
    ((marked_set small').mpr (.inl rfl)) keeps ?_ ?_ rfl ?_ (.inr ⟨?_, ?_, ?_⟩) rfl rfl after
  · rw [detach_allBlocks]
    rfl
  · intro w was
    exact (same.sameData.sameBlock was.in_data).trans
      (sameBlock_ideWrite fun eq => unmarked (eq ▸ was))
  · intro n inside
    exact same.sameSlot.trans (sameSlot_ideWrite tableMarked.in_data inside)
  · intro k less
    rw [detach_allBlocks]
    by_cases direct : k < 12
    · rw [allBlocks_direct direct, sector, if_neg (by omega), if_pos direct,
        if_neg (by simp; omega)]
    · have table : Inode.sector { inode.setSector 12 (blockOfBit part bitIdx) with
          iSize := inode.iSize + 24 } 12 = blockOfBit part bitIdx := by
        rw [sector, if_pos rfl]
      have read : getWord (ideRead (ideWrite (ideWrite disk (blockOfBit part bitIdx).toNat
          (tableWith 0 (blockOfBit part bitIdx')) 1) (blockOfBit part bitIdx').toNat
          (Memory.zeros.splice 0 pDe.image 24) 1) (blockOfBit part bitIdx).toNat)
          (4 * (k - 12)) = getWord (tableWith 0 (blockOfBit part bitIdx')) (4 * (k - 12)) := by
        apply getWord_congr
        intro j inside
        rw [← (sameBlock_ideWrite apart) _ (by omega), ideRead_ideWrite_self (by omega)]
      rw [allBlocks_table (by omega) (by rw [table]; exact tableMarked.ne_zero), table, read,
        getWord_tableWith, if_neg direct]
      by_cases first : k = 12
      · rw [if_pos (by omega), if_pos (by simp [first])]
      · rw [if_neg (by omega), if_neg (by simp; omega)]
  · rw [sector, if_pos rfl]
    exact unmarked
  · rw [sector, if_pos rfl]
    exact (marked_set small').mpr (.inr tableMarked)
  · rw [sector, if_pos rfl]
    exact apart

/-- Every place in the direct blocks holds an entry. -/
def DirectFull (disk : Memory) (inode : Inode) : Prop :=
  ∀ pos : Pos, pos.1.val < 12 → entries disk inode pos ≠ none

/-- A position comes before another one, by block and slot. -/
def Before (pos pos' : Pos) : Prop :=
  pos.1 < pos'.1 ∨ (pos.1 = pos'.1 ∧ pos.2 < pos'.2)

/-- Every slot in front of the first free one of a block holds an entry. -/
theorem firstFree_front {b : Fin 140} {i : Nat} (present : allBlocks disk inode b ≠ 0)
    (found : firstFree (ideRead disk (allBlocks disk inode b).toNat) = some i) (j : Fin 21)
    (less : j.val < i) : entries disk inode (b, j) ≠ none := by
  obtain ⟨-, -, front⟩ := List.find?_range_eq_some.mp found
  have known := front j less
  intro free
  rw [entries_present present, entry_type] at free
  split at free
  case isTrue unknown => simp [unknown] at known
  case isFalse => cases free

/-- What `sync_dir_entry` did with an entry: it inserted it at the first free position, into the
directory or, when the direct blocks have no room, into the directory without its table of indirect
blocks. -/
structure Placed (s s' : FsState part) (dir : Ptr) (inode base inode' : Inode) (pos : Pos)
    (pDe : DirEntry) : Prop where
  base_eq : (base = inode ∧ pos.1.val < 12) ∨
    (DirectFull s.disk inode ∧ base = inode.detach ∧ pos = (12, 0))
  front : ∀ pos', Before pos' pos → entries s.disk inode pos' ≠ none
  inserted : InsertedAt s s' dir base inode' pos pDe
  table_eq : pos.1.val < 12 → inode'.sector 12 = inode.sector 12

/-- **Insertion.** A call of `sync_dir_entry` that returns true placed the entry. -/
theorem syncDirEntry_placed (typed : pDe.Typed) (live : s.inodes dir = some inode)
    (owns : OwnsBlocks s.disk s.blockBitmap inode) (readable : Readable s.disk inode)
    (ran : (syncDirEntry dir pDe).run s = .ok (true, s')) :
    ∃ base inode' pos, Placed s s' dir inode base inode' pos pDe := by
  rw [syncDirEntry, call_bind_of (deref_returns.mpr ⟨live, rfl⟩), call_bind_returns] at ran
  obtain ⟨_, _, checked, ran⟩ := ran
  obtain ⟨-, rfl⟩ := call_lift_returns.mp checked
  obtain ⟨b, -, -, before, here⟩ := syncBlocks_returns ran
  have full : ∀ pos' : Pos, pos'.1.val < b → pos'.1.val < 12 →
      entries s.disk inode pos' ≠ none := by
    intro pos' less direct'
    obtain ⟨there, full⟩ := before pos'.1 (Nat.zero_le _) less
    have sector : allBlocks s.disk inode pos'.1 = inode.sector pos'.1 := allBlocks_direct direct'
    rw [directBlocks, if_pos direct', ← sector] at there full
    exact (noFree_iff there).mp full pos'.2
  -- in front of the first slot of a block are earlier blocks only
  have start : ∀ (bound : b < 140), b ≤ 12 → ∀ pos', Before pos' (⟨b, bound⟩, 0) →
      entries s.disk inode pos' ≠ none := by
    intro bound small pos' front
    rcases front with less | ⟨-, less⟩
    · have less' : pos'.1.val < b := less
      exact full pos' less' (by omega)
    · exact absurd less (Nat.not_lt_zero _)
  rcases here with ⟨missing, added⟩ | ⟨present, i, free, after⟩
  · obtain ⟨found, middle, allocated, added⟩ := call_bind_returns.mp added
    obtain ⟨bitIdx, disk, rfl, small, free, rfl, same⟩ := newDirBlock_returns allocated
    simp only at added
    by_cases direct : b < 12
    · rw [if_pos direct, startBlock_returns] at added
      rw [directBlocks, if_pos direct] at missing
      have bound : b < 140 := by omega
      exact ⟨inode, _, (⟨b, bound⟩, 0), .inl ⟨rfl, direct⟩, start bound (by omega),
        startDirect_inserted (b := ⟨b, bound⟩) typed owns readable direct missing small free same
          added.2.symm,
        fun less => (Inode.sector_setSector (show b < 13 by omega)).trans
          (if_neg (show 12 ≠ b by omega))⟩
    · have twelve : b = 12 := by
        by_contra other
        exact (before 12 (Nat.zero_le _) (by omega)).1 (if_neg (by decide))
      subst twelve
      rw [if_neg direct, if_pos rfl, call_bind_returns] at added
      obtain ⟨second, middle, allocated', added⟩ := added
      obtain ⟨bitIdx', disk', rfl, small', free', rfl, same'⟩ := newDirBlock_returns allocated'
      simp only at added
      rw [call_bind_of (writeBlock_returns.mpr rfl), startBlock_returns] at added
      exact ⟨inode.detach, _, (12, 0), .inr ⟨fun pos direct' => full pos direct' direct', rfl, rfl⟩,
        start (by decide) (Nat.le_refl _),
        startTable_inserted typed owns readable small free small' free'
          (fun i far => (same i far).trans (same' i far)) added.2.symm,
        fun less => absurd less (Nat.lt_irrefl 12)⟩
  · have direct : b < 12 := by
      by_contra indirect
      exact present (if_neg indirect)
    have sector : allBlocks s.disk inode b = inode.sector b := allBlocks_direct direct
    rw [directBlocks, if_pos direct, ← sector] at present free after
    obtain ⟨less, unknown⟩ := firstFree_some free
    refine ⟨inode, { inode with iSize := inode.iSize + 24 }, (⟨b, by omega⟩, ⟨i, less⟩),
      .inl ⟨rfl, direct⟩, fun pos' front => ?_, after ▸
      fillSlot_inserted (b := ⟨b, by omega⟩) (i := ⟨i, less⟩) typed owns readable present ?_,
      fun _ => rfl⟩
    · rcases front with less' | ⟨same, less'⟩
      · have earlier : pos'.1.val < b := less'
        exact full pos' earlier (by omega)
      · have block : pos' = (⟨b, by omega⟩, pos'.2) := Prod.ext same rfl
        rw [block]
        exact firstFree_front (b := ⟨b, by omega⟩) present free pos'.2 less'
    · rw [entries_present present, entry_type, if_pos unknown]

theorem syncDirEntry_inserted (typed : pDe.Typed) (live : s.inodes dir = some inode)
    (owns : OwnsBlocks s.disk s.blockBitmap inode) (readable : Readable s.disk inode)
    (ran : (syncDirEntry dir pDe).run s = .ok (true, s')) :
    ∃ base inode' pos, ((base = inode ∧ pos.1.val < 12) ∨
      (DirectFull s.disk inode ∧ base = inode.detach)) ∧ Inserted s s' dir base inode' pos pDe := by
  obtain ⟨base, inode', pos, placed⟩ := syncDirEntry_placed typed live owns readable ran
  exact ⟨base, inode', pos, placed.base_eq.imp_right fun three => ⟨three.1, three.2.1⟩,
    placed.inserted.toInserted⟩

end Insertion

end UKernel.Fs
