import UKernel.Fs.Directory

/-! # Formatting and mounting

`partition_format` writes the metadata of an empty file system, and `mount_partition` reads it.
The bit behind the last one of the block bitmap is cleared as well, so that the blocks which can
be allocated lie inside the partition for a few sizes only
(`UKernel.Fs.wellFormatted_iff`): those where the bitmap, computed a second time for the
sectors it leaves, takes one sector less than at first.
-/

namespace UKernel.Fs

open UKernel.Library

/-! ## The superblock on disk -/

namespace SuperBlock

/-- The fields of a superblock, in order. -/
def words (sb : SuperBlock) : List Nat :=
  [sb.magic, sb.secCnt, sb.inodeCnt, sb.partLbaBase, sb.blockBitmapLba, sb.blockBitmapSects,
    sb.inodeBitmapLba, sb.inodeBitmapSects, sb.inodeTableLba, sb.inodeTableSects,
    sb.dataStartLba, sb.rootInodeNo, sb.dirEntrySize]

/-- The bytes of a superblock; the padding is zero. -/
def image (sb : SuperBlock) : Memory := fun k =>
  wordByte (BitVec.ofNat 32 (sb.words.getD (k / 4) 0)) (k % 4)

/-- The superblock whose bytes are in memory. -/
def load (m : Memory) : SuperBlock where
  magic := (getWord m 0).toNat
  secCnt := (getWord m 4).toNat
  inodeCnt := (getWord m 8).toNat
  partLbaBase := (getWord m 12).toNat
  blockBitmapLba := (getWord m 16).toNat
  blockBitmapSects := (getWord m 20).toNat
  inodeBitmapLba := (getWord m 24).toNat
  inodeBitmapSects := (getWord m 28).toNat
  inodeTableLba := (getWord m 32).toNat
  inodeTableSects := (getWord m 36).toNat
  dataStartLba := (getWord m 40).toNat
  rootInodeNo := (getWord m 44).toNat
  dirEntrySize := (getWord m 48).toNat

/-- Loading the image of a superblock gives the superblock. -/
theorem load_image {sb : SuperBlock} {m : Memory} (small : ∀ w ∈ sb.words, w < 2 ^ 32)
    (bytes : ∀ k < 52, m k = sb.image k) : load m = sb := by
  have word : ∀ i w, sb.words[i]? = some w → (getWord m (4 * i)).toNat = w := by
    intro i w here
    have inside : i < 13 := (List.getElem?_eq_some_iff.mp here).1
    have stored : getWord m (4 * i) = BitVec.ofNat 32 w := by
      apply getWord_of_bytes
      intro k less
      rw [bytes (4 * i + k) (by omega), image, show (4 * i + k) / 4 = i by omega,
        show (4 * i + k) % 4 = k by omega, List.getD_eq_getElem?_getD, here]
      rfl
    rw [stored, BitVec.toNat_ofNat, Nat.mod_eq_of_lt (small w (List.mem_of_getElem? here))]
  unfold load
  rw [word 0 _ rfl, word 1 _ rfl, word 2 _ rfl, word 3 _ rfl, word 4 _ rfl, word 5 _ rfl,
    word 6 _ rfl, word 7 _ rfl, word 8 _ rfl, word 9 _ rfl, word 10 _ rfl, word 11 _ rfl,
    word 12 _ rfl]

end SuperBlock

variable {part : Partition}

/-- The fields of a superblock fit into words. -/
theorem Partition.words_small (part : Partition) : ∀ w ∈ part.sb.words, w < 2 ^ 32 := by
  have disk := part.onDisk
  have data := part.dataStart_le
  obtain ⟨blocks, inodes, table, start⟩ := part.layout
  have sects := part.blocks_small
  intro w member
  simp only [SuperBlock.words, List.mem_cons, List.not_mem_nil, or_false] at member
  simp only [maxLba] at disk
  have entries : part.sb.secCnt = part.secCnt ∧ part.sb.partLbaBase = part.startLba ∧
      part.sb.magic = 0x19970630 ∧ part.sb.inodeCnt = 4096 ∧ part.sb.inodeBitmapSects = 1 ∧
      part.sb.inodeTableSects = 608 ∧ part.sb.rootInodeNo = 0 ∧ part.sb.dirEntrySize = 24 :=
    ⟨rfl, rfl, rfl, rfl, rfl, rfl, rfl, rfl⟩
  omega

/-! ## Formatting -/

/-- `ide_write`, with its assertions. -/
def writeSectors (lba : Nat) (buf : Memory) (secCnt : Nat) : FsCall part Unit := do
  require (lba ≤ maxLba)
  require (secCnt > 0)
  modify fun s => { s with disk := ideWrite s.disk lba buf secCnt }

/-- `ide_read`, with its assertions. -/
def readSectors (lba secCnt : Nat) : FsCall part Memory := do
  require (lba ≤ maxLba)
  require (secCnt > 0)
  let s ← get
  return ideRead s.disk lba

/-- The loop of `partition_format` that clears the first bits of a byte. -/
def clearBits (byte : Byte) : Nat → Byte
  | 0 => byte
  | bitIdx + 1 => clearBits byte bitIdx &&& ~~~(1#8 <<< bitIdx)

/-- The block bitmap that `partition_format` writes, for `block_bitmap_bit_len` bits. -/
def formattedBitmap (bitLen : Nat) : Memory :=
  let buf : Memory := Function.update Memory.zeros 0 0x01
  let lastByte := bitLen / 8
  let lastBit := bitLen % 8
  let lastSize := sectorSize - lastByte % sectorSize
  let buf : Memory := buf.splice lastByte (fun _ => 0xff) lastSize
  Function.update buf lastByte (clearBits (buf lastByte) (lastBit + 1))

/-- The inode of the root directory. -/
def rootInode (part : Partition) : Inode where
  iNo := 0
  iSize := BitVec.ofNat 32 (part.sb.dirEntrySize * 2)
  iOpenCnts := 0
  writeDeny := false
  iSectors i := if i = 0 then BitVec.ofNat 32 part.sb.dataStartLba else 0

/-- The file name `.`. -/
def dot : List Byte := [0x2e]

/-- The file name `..`. -/
def dotdot : List Byte := [0x2e, 0x2e]

/-- An entry of a new directory. -/
def directoryEntry (filename : List Byte) (inodeNo : Word) : DirEntry where
  filename i := filename.getD i 0
  iNo := inodeNo
  fType := ftDirectory

/-- The entries of the root directory. -/
def rootBlock : Memory :=
  (Memory.zeros.splice 0 (directoryEntry dot 0).image 24).splice 24
    (directoryEntry dotdot 0).image 24

/-- `partition_format`. -/
def partitionFormat : FsCall part Unit := do
  writeSectors (part.startLba + 1) part.sb.image 1
  writeSectors part.sb.blockBitmapLba (formattedBitmap part.blockBitmapBitLen)
    part.sb.blockBitmapSects
  writeSectors part.sb.inodeBitmapLba (Function.update Memory.zeros 0 0x1) part.sb.inodeBitmapSects
  writeSectors part.sb.inodeTableLba (rootInode part).image part.sb.inodeTableSects
  writeSectors part.sb.dataStartLba rootBlock 1

/-- A buffer into which sectors were read. -/
def readBuffer (sectors : Memory) (secCnt : Nat) : Memory :=
  Memory.zeros.splice 0 sectors (512 * secCnt)

/-- `mount_partition`; the superblock it leaves in memory is the value. -/
def mountPartition : FsCall part SuperBlock := do
  let sb := SuperBlock.load (← readSectors (part.startLba + 1) 1)
  let blocks ← readSectors sb.blockBitmapLba sb.blockBitmapSects
  modify fun s => { s with blockBitmap := ⟨readBuffer blocks sb.blockBitmapSects⟩ }
  let inodes ← readSectors sb.inodeBitmapLba sb.inodeBitmapSects
  modify fun s => { s with inodeBitmap := ⟨readBuffer inodes sb.inodeBitmapSects⟩ }
  modify fun s => { s with openInodes := [] }
  return sb

/-- `open_root_dir`, which stores the inode in `root_dir`. -/
def openRootDir (sb : SuperBlock) : FsCall part Unit := do
  let inode ← inodeOpen (BitVec.ofNat 32 sb.rootInodeNo)
  modify fun s => { s with rootDir := inode }

/-- The part of `filesys_init` after the search for file systems. -/
def filesysInit : FsCall part SuperBlock := do
  let sb ← mountPartition
  openRootDir sb
  modify fun s => { s with fileTable := fun fdIdx =>
    if fdIdx < maxFileOpen then { s.fileTable fdIdx with fdInode := none } else s.fileTable fdIdx }
  return sb

/-! ## The formatted bitmap -/

theorem clearBits_getLsbD {byte : Byte} {n k : Nat} :
    (clearBits byte n).getLsbD k = (byte.getLsbD k && !decide (k < n)) := by
  induction n with
  | zero => simp [clearBits]
  | succ n ih =>
      rw [clearBits, BitVec.getLsbD_and, ih, BitVec.getLsbD_not, BitVec.getLsbD_shiftLeft]
      by_cases inside : k < 8
      · by_cases less : k < n
        · simp [less, Nat.lt_succ_of_lt less]
        · by_cases same : k = n
          · subst same
            simp [inside]
          · have more : ¬ k < n + 1 := by omega
            have other : k - n ≠ 0 := by omega
            simp [inside, less, more, other]
      · simp [BitVec.getLsbD_of_ge byte k (by omega)]

/-- The bits of the formatted bitmap, up to the end of its last sector: bit zero is set unless
it is in the last byte, and the bits up to `block_bitmap_bit_len` are clear. -/
theorem formattedBitmap_getLsbD {bitLen i : Nat} (inside : i / 4096 ≤ bitLen / 4096) :
    (formattedBitmap bitLen (i / 8)).getLsbD (i % 8) =
      decide (bitLen < i ∨ i = 0 ∧ 8 ≤ bitLen) := by
  have small := Nat.mod_lt i (show 0 < 8 by decide)
  unfold formattedBitmap
  by_cases last : i / 8 = bitLen / 8
  · rw [last, Function.update_self, clearBits_getLsbD, Memory.splice_inside (Nat.le_refl _)
      (by simp only [sectorSize]; omega)]
    have ones : (0xff : Byte).getLsbD (i % 8) = true := by
      generalize i % 8 = k at small
      interval_cases k <;> rfl
    rw [ones, Bool.true_and, ← decide_not, decide_eq_decide]
    omega
  · rw [Function.update_of_ne last]
    by_cases above : bitLen / 8 < i / 8
    · rw [Memory.splice_inside (by omega) (by simp only [sectorSize]; omega)]
      have ones : (0xff : Byte).getLsbD (i % 8) = true := by
        generalize i % 8 = k at small
        interval_cases k <;> rfl
      rw [ones, eq_comm, decide_eq_true_iff]
      omega
    · rw [Memory.splice_outside (by omega)]
      by_cases first : i / 8 = 0
      · rw [first, Function.update_self]
        by_cases zero : i % 8 = 0
        · rw [zero]
          change true = _
          rw [eq_comm, decide_eq_true_iff]
          omega
        · have clear : (0x01 : Byte).getLsbD (i % 8) = false := by
            generalize i % 8 = k at small zero
            interval_cases k <;> simp_all
          rw [clear, eq_comm, decide_eq_false_iff_not]
          omega
      · have clear : (0 : Byte).getLsbD (i % 8) = false := BitVec.getLsbD_zero
        rw [Function.update_of_ne first, Memory.zeros, clear, eq_comm, decide_eq_false_iff_not]
        omega

/-! ## What is on the disk -/

/-- The disk of a formatted partition. -/
structure Formatted (part : Partition) (disk : Memory) : Prop where
  superblock : ∀ k < 512, ideRead disk (part.startLba + 1) k = part.sb.image k
  blocks : ∀ k < 512 * part.sb.blockBitmapSects,
    ideRead disk part.sb.blockBitmapLba k = formattedBitmap part.blockBitmapBitLen k
  inodes : ∀ k < 512, ideRead disk part.sb.inodeBitmapLba k =
    Function.update Memory.zeros 0 0x1 k
  table : ∀ k < 512 * 608, ideRead disk part.sb.inodeTableLba k = (rootInode part).image k
  root : ∀ k < 512, ideRead disk part.sb.dataStartLba k = rootBlock k

section

variable {s s' : FsState part} {lba secCnt : Nat} {buf : Memory}

theorem writeSectors_returns (ran : (writeSectors lba buf secCnt).run s = .ok ((), s')) :
    secCnt > 0 ∧ { s with disk := ideWrite s.disk lba buf secCnt } = s' := by
  obtain ⟨_, _, lifted, ran⟩ := call_bind_returns.mp ran
  obtain ⟨-, rfl⟩ := call_lift_returns.mp lifted
  obtain ⟨_, _, lifted, ran⟩ := call_bind_returns.mp ran
  obtain ⟨some, rfl⟩ := call_lift_returns.mp lifted
  exact ⟨require_eq_ok.mp some, call_modify_returns.mp ran⟩

theorem readSectors_returns (ran : (readSectors lba secCnt).run s = .ok (buf, s')) :
    ideRead s.disk lba = buf ∧ s = s' := by
  obtain ⟨_, _, lifted, ran⟩ := call_bind_returns.mp ran
  obtain ⟨-, rfl⟩ := call_lift_returns.mp lifted
  obtain ⟨_, _, lifted, ran⟩ := call_bind_returns.mp ran
  obtain ⟨-, rfl⟩ := call_lift_returns.mp lifted
  obtain ⟨_, _, read, ran⟩ := call_bind_returns.mp ran
  obtain ⟨rfl, rfl⟩ := call_get_returns.mp read
  exact call_pure_returns.mp ran

/-- Sectors that were written, read from their first one on. -/
theorem ideRead_written {disk : Memory} {k : Nat} (inside : k < 512 * secCnt) :
    ideRead (ideWrite disk lba buf secCnt) lba k = buf k := by
  rw [ideRead_ideWrite (Nat.le_refl _) (by omega), Nat.sub_self, Nat.mul_zero, Nat.zero_add]

/-- Sectors that lie elsewhere. -/
theorem ideRead_elsewhere {disk : Memory} {lba' k : Nat}
    (apart : 512 * lba' + k < 512 * lba ∨ 512 * (lba + secCnt) ≤ 512 * lba' + k) :
    ideRead (ideWrite disk lba buf secCnt) lba' k = ideRead disk lba' k := by
  unfold ideRead ideWrite
  rw [Memory.splice_outside (by omega)]

/-- **Formatting.** A partition that was formatted has at least one sector of block bitmap, and
each part of the metadata is where the superblock says. -/
theorem partitionFormat_returns (ran : (partitionFormat : FsCall part Unit).run s = .ok ((), s')) :
    0 < part.sb.blockBitmapSects ∧ Formatted part s'.disk := by
  obtain ⟨blocks, inodes, table, start⟩ := part.layout
  have one : part.sb.inodeBitmapSects = 1 := rfl
  have many : part.sb.inodeTableSects = 608 := rfl
  obtain ⟨_, s₁, written, ran⟩ := call_bind_returns.mp ran
  obtain ⟨-, rfl⟩ := writeSectors_returns written
  obtain ⟨_, s₂, written, ran⟩ := call_bind_returns.mp ran
  obtain ⟨some, rfl⟩ := writeSectors_returns written
  obtain ⟨_, s₃, written, ran⟩ := call_bind_returns.mp ran
  obtain ⟨-, rfl⟩ := writeSectors_returns written
  obtain ⟨_, s₄, written, ran⟩ := call_bind_returns.mp ran
  obtain ⟨-, rfl⟩ := writeSectors_returns written
  obtain ⟨-, rfl⟩ := writeSectors_returns ran
  dsimp only
  refine ⟨some, ⟨fun k small => ?_, fun k small => ?_, fun k small => ?_, fun k small => ?_,
    fun k small => ?_⟩⟩
  · rw [ideRead_elsewhere (by omega), ideRead_elsewhere (by omega), ideRead_elsewhere (by omega),
      ideRead_elsewhere (by omega), ideRead_written (by omega)]
  · rw [ideRead_elsewhere (by omega), ideRead_elsewhere (by omega), ideRead_elsewhere (by omega),
      ideRead_written small]
  · rw [ideRead_elsewhere (by omega), ideRead_elsewhere (by omega), ideRead_written (by omega)]
  · rw [ideRead_elsewhere (by omega), ideRead_written (by omega)]
  · exact ideRead_written (by omega)

/-- **Mounting.** Mounting a formatted partition finds the superblock that was written, loads both
bitmaps and leaves the disk alone. -/
theorem mountPartition_returns (formatted : Formatted part s.disk) {sb : SuperBlock}
    (ran : (mountPartition : FsCall part SuperBlock).run s = .ok (sb, s')) :
    sb = part.sb ∧ s'.disk = s.disk ∧ s'.openInodes = [] ∧
      (∀ i < 4096 * part.sb.blockBitmapSects, s'.blockBitmap.test i =
        decide (part.blockBitmapBitLen < i ∨ i = 0 ∧ 8 ≤ part.blockBitmapBitLen)) ∧
      s'.inodeBitmap.test 0 = true := by
  obtain ⟨sbBuf, _, read, ran⟩ := call_bind_returns.mp ran
  obtain ⟨rfl, rfl⟩ := readSectors_returns read
  have loaded : SuperBlock.load (ideRead s.disk (part.startLba + 1)) = part.sb :=
    SuperBlock.load_image part.words_small fun k small => formatted.superblock k (by omega)
  rw [loaded] at ran
  obtain ⟨blocks, _, read, ran⟩ := call_bind_returns.mp ran
  obtain ⟨rfl, rfl⟩ := readSectors_returns read
  obtain ⟨_, _, set, ran⟩ := call_bind_returns.mp ran
  cases call_modify_returns.mp set
  obtain ⟨inodes, _, read, ran⟩ := call_bind_returns.mp ran
  obtain ⟨rfl, rfl⟩ := readSectors_returns read
  obtain ⟨_, _, set, ran⟩ := call_bind_returns.mp ran
  cases call_modify_returns.mp set
  obtain ⟨_, _, set, ran⟩ := call_bind_returns.mp ran
  cases call_modify_returns.mp set
  obtain ⟨rfl, rfl⟩ := call_pure_returns.mp ran
  refine ⟨rfl, rfl, rfl, fun i small => ?_, ?_⟩
  · have lastSector : i / 4096 ≤ part.blockBitmapBitLen / 4096 := by
      have sects : part.sb.blockBitmapSects = divRoundUp part.blockBitmapBitLen bitsPerSector := rfl
      unfold divRoundUp bitsPerSector at sects
      omega
    rw [← formattedBitmap_getLsbD lastSector]
    dsimp only [Bitmap.test, readBuffer]
    rw [Memory.splice_inside (Nat.zero_le _) (by omega), Nat.sub_zero,
      formatted.blocks _ (by omega)]
  · have one : part.sb.inodeBitmapSects = 1 := rfl
    dsimp only [Bitmap.test, readBuffer]
    rw [Memory.splice_inside (Nat.zero_le _) (by omega), formatted.inodes _ (by omega)]
    rfl

end

/-! ## The property -/

/-- The parts of a partition in order, each with its first sector and the sector behind its last
one: boot sector, superblock, block bitmap, inode bitmap, inode table, data area. -/
def regions (part : Partition) (sb : SuperBlock) : List (Nat × Nat) :=
  [(part.startLba, part.startLba + 1), (part.startLba + 1, part.startLba + 2),
    (sb.blockBitmapLba, sb.blockBitmapLba + sb.blockBitmapSects),
    (sb.inodeBitmapLba, sb.inodeBitmapLba + sb.inodeBitmapSects),
    (sb.inodeTableLba, sb.inodeTableLba + sb.inodeTableSects),
    (sb.dataStartLba, part.startLba + part.secCnt)]

/-- A number of calls of `block_bitmap_alloc`, and the sectors they return. -/
def allocBlocks : Nat → FsCall part (List Word)
  | 0 => return []
  | n + 1 => do
      match ← blockBitmapAlloc with
      | none => allocBlocks n
      | some block => return block :: (← allocBlocks n)

/-- What is expected of a partition after it was formatted and mounted. -/
structure WellFormatted (part : Partition) (sb : SuperBlock) (s : FsState part) : Prop where
  disjoint : (regions part sb).Pairwise fun region other => region.2 ≤ other.1
  inside : ∀ region ∈ regions part sb, part.startLba ≤ region.1 ∧
    region.2 ≤ part.startLba + part.secCnt
  free_inside : ∀ i < 8 * part.blockBitmapBytes, s.blockBitmap.test i = false →
    sb.dataStartLba + i < part.startLba + part.secCnt
  first_used : s.blockBitmap.test 0 = true ∧ s.inodeBitmap.test 0 = true
  root : ∀ name ∈ [dot, dotdot], ∃ root s₁ entry s₂,
    (inodeOpen (BitVec.ofNat 32 sb.rootInodeNo)).run s = .ok (root, s₁) ∧
    (searchDirEntry root name).run s₁ = .ok (some entry, s₂) ∧ entry.iNo = 0
  alloc_inside : ∀ n blocks s', (allocBlocks n).run s = .ok (blocks, s') →
    ∀ block ∈ blocks, part.startLba ≤ block.toNat ∧
      block.toNat < part.startLba + part.secCnt

section

variable {s s' : FsState part}

theorem findSome?_congr {α β : Type} {f g : α → Option β} {list : List α}
    (same : ∀ x ∈ list, f x = g x) : list.findSome? f = list.findSome? g := by
  induction list with
  | nil => rfl
  | cons x rest ih =>
      rw [List.findSome?_cons, List.findSome?_cons, same x List.mem_cons_self,
        ih fun y member => same y (List.mem_cons_of_mem _ member)]

/-- The entries of the root directory's block. -/
theorem rootBlock_search {name : List Byte} (member : name ∈ [dot, dotdot]) {buf : Memory}
    (block : ∀ k < 512, buf k = rootBlock k) :
    ∃ entry, searchBlock buf name = some entry ∧ entry.iNo = 0 := by
  have short : name.length ≤ 2 := by
    simp only [List.mem_cons, List.not_mem_nil, or_false] at member
    rcases member with rfl | rfl <;> decide
  have same : searchBlock buf name = searchBlock rootBlock name := by
    refine findSome?_congr fun i member => ?_
    have small := List.mem_range.mp member
    have matched : strEq (buf.shift (24 * i)) name = strEq (rootBlock.shift (24 * i)) name :=
      strEq_congr fun k less => block _ (by omega)
    have loaded : DirEntry.load (buf.shift (24 * i)) = DirEntry.load (rootBlock.shift (24 * i)) :=
      DirEntry.load_congr fun k less => block _ (by omega)
    dsimp only
    rw [matched, loaded]
  rw [same]
  simp only [List.mem_cons, List.not_mem_nil, or_false] at member
  rcases member with rfl | rfl
  · exact ⟨DirEntry.load (rootBlock.shift 0), rfl, by decide⟩
  · exact ⟨DirEntry.load (rootBlock.shift 24), rfl, by decide⟩

/-- A search that succeeds in the first block. -/
theorem searchBlocks_first {disk : Memory} {inode : Inode} {name : List Byte} {entry : DirEntry}
    (present : allBlocks disk inode 0 ≠ 0)
    (found : searchBlock (ideRead disk (allBlocks disk inode 0).toNat) name = some entry) :
    searchBlocks disk inode name = some entry := by
  have range : List.range 140 = 0 :: List.range' 1 139 := by decide
  rw [searchBlocks, range, List.findSome?_cons]
  simp only [present, if_false, found]

/-- The root directory is found under the names `.` and `..`. -/
theorem root_found (formatted : Formatted part s.disk) (closed : s.openInodes = [])
    {name : List Byte} (member : name ∈ [dot, dotdot]) : ∃ root s₁ entry s₂,
    (inodeOpen (BitVec.ofNat 32 part.sb.rootInodeNo)).run s = .ok (root, s₁) ∧
    (searchDirEntry root name).run s₁ = .ok (some entry, s₂) ∧ entry.iNo = 0 := by
  have notOpen : NotOpen s (BitVec.ofNat 32 part.sb.rootInodeNo) := by
    intro ptr listed
    rw [closed] at listed
    cases listed
  have number : (BitVec.ofNat 32 part.sb.rootInodeNo).toNat = 0 := rfl
  have opened := inodeOpen_of_notOpen (by rw [number]; decide) notOpen
  rw [number] at opened
  have loaded : (slot part s.disk 0).SameFile (rootInode part) := by
    apply Inode.load_image
    intro k small
    rw [← formatted.table k (by omega)]
    rfl
  generalize obj : ({ slot part s.disk 0 with iOpenCnts := 1 } : Inode) = root at *
  have first : allBlocks s.disk root 0 = blockOfBit part 0 := by
    rw [allBlocks_direct (by decide), ← obj]
    exact congrFun loaded.2.2 0
  have small := part.blocks_small
  have addr : (blockOfBit part 0).toNat = part.sb.dataStartLba := by
    rw [blockOfBit, BitVec.toNat_ofNat, Nat.mod_eq_of_lt (by omega), Nat.add_zero]
  have block : ∀ k < 512, ideRead s.disk (allBlocks s.disk root 0).toNat k = rootBlock k := by
    rw [first, addr]
    exact formatted.root
  have nonzero : allBlocks s.disk root 0 ≠ 0 := by
    obtain ⟨-, -, -, start⟩ := part.layout
    rw [first, ← BitVec.toNat_inj.ne, addr]
    exact Nat.ne_of_gt (show 0 < part.sb.dataStartLba by omega)
  obtain ⟨entry, found, isRoot⟩ := rootBlock_search member block
  refine ⟨_, _, entry, _, opened, searchDirEntry_returns.mpr
    ⟨root, ?_, ?_, rfl⟩, isRoot⟩
  · rw [← obj]
    exact Function.update_self ..
  · exact searchBlocks_first nonzero found

/-- Free blocks inside the partition stay inside when a block is allocated. -/
theorem allocBlocks_inside {n : Nat} {blocks : List Word}
    (free : ∀ i < 4096 * part.sb.blockBitmapSects, s.blockBitmap.test i = false →
      part.sb.dataStartLba + i < part.startLba + part.secCnt)
    (ran : (allocBlocks n).run s = .ok (blocks, s')) : ∀ block ∈ blocks,
      part.startLba ≤ block.toNat ∧ block.toNat < part.startLba + part.secCnt := by
  induction n generalizing s blocks with
  | zero =>
      obtain ⟨rfl, -⟩ := call_pure_returns.mp ran
      simp
  | succ n ih =>
      obtain ⟨found, middle, allocated, ran⟩ := call_bind_returns.mp ran
      obtain ⟨bitIdx, rfl, small, clear, rfl⟩ := blockBitmapAlloc_returns allocated
      obtain ⟨rest, _, more, ran⟩ := call_bind_returns.mp ran
      obtain ⟨rfl, rfl⟩ := call_pure_returns.mp ran
      have inside := ih (fun i less free' => by
        dsimp only at free'
        rw [Bitmap.test_set] at free'
        by_cases same : i = bitIdx
        · rw [if_pos same] at free'
          cases free'
        · rw [if_neg same] at free'
          exact free i less free') more
      intro block member
      rcases List.mem_cons.mp member with rfl | later
      · obtain ⟨blocks, inodes, table, start⟩ := part.layout
        rw [blockOfBit_toNat small]
        exact ⟨by omega, free bitIdx small clear⟩
      · exact inside block later

/-- When the second computation of the bitmap's size gives less than the first one. -/
theorem secondBitmap_smaller {free first bitLen second : Nat} (fits : free ≤ 163840)
    (one : first = (free + 4095) / 4096) (len : bitLen = free - first)
    (two : second = (bitLen + 4095) / 4096) (some : 0 < second) :
    second < first ↔ 4096 ≤ free ∧ 0 < free % 4096 ∧ free % 4096 ≤ free / 4096 + 1 := by
  have whole := Nat.div_add_mod free 4096
  have small := Nat.mod_lt free (show 0 < 4096 by decide)
  generalize free / 4096 = q at *
  generalize free % 4096 = r at *
  by_cases exact : r = 0
  · omega
  · have first_eq : first = q + 1 := by omega
    have bitLen_eq : bitLen = 4095 * q + r - 1 := by omega
    omega

/-- **A formatted partition.** After `partition_format` and `mount_partition` the parts of the
partition are as expected and no block outside the partition can be allocated, if and only if the
sectors behind the other metadata are a multiple of 4096 and a few more: at least one, and
at most one more than the multiple. -/
theorem wellFormatted_iff {s₀ s₁ s : FsState part} {sb : SuperBlock}
    (formatted : (partitionFormat : FsCall part Unit).run s₀ = .ok ((), s₁))
    (mounted : (mountPartition : FsCall part SuperBlock).run s₁ = .ok (sb, s)) :
    WellFormatted part sb s ↔ 4096 ≤ part.secCnt - usedSects ∧
      0 < (part.secCnt - usedSects) % 4096 ∧
      (part.secCnt - usedSects) % 4096 ≤ (part.secCnt - usedSects) / 4096 + 1 := by
  obtain ⟨some, onDisk⟩ := partitionFormat_returns formatted
  obtain ⟨rfl, same, closed, bits, inodeBit⟩ := mountPartition_returns onDisk mounted
  have bytes := part.blockBitmapBytes_eq
  have sects : part.sb.blockBitmapSects = (part.blockBitmapBitLen + 4095) / 4096 := rfl
  have len : part.blockBitmapBitLen = part.secCnt - usedSects -
      (part.secCnt - usedSects + 4095) / 4096 := rfl
  have fits := part.onDisk
  have holds := part.holdsMetadata
  have used : usedSects = 611 := rfl
  simp only [maxLba] at fits
  rw [used] at len holds ⊢
  rw [← secondBitmap_smaller (by omega) rfl len sects some]
  obtain ⟨blocks, inodes, table, start⟩ := part.layout
  have one : part.sb.inodeBitmapSects = 1 := rfl
  have many : part.sb.inodeTableSects = 608 := rfl
  constructor
  · intro well
    -- The bit behind the last one is free, unless it is in the next sector.
    by_cases next : part.blockBitmapBitLen % 4096 = 0
    · omega
    · have free : s.blockBitmap.test part.blockBitmapBitLen = false := by
        rw [bits _ (by omega), decide_eq_false_iff_not]
        omega
      have inside := well.free_inside part.blockBitmapBitLen (by omega) free
      omega
  · intro few
    have free : ∀ i < 4096 * part.sb.blockBitmapSects, s.blockBitmap.test i = false →
        part.sb.dataStartLba + i < part.startLba + part.secCnt := by
      intro i less clear
      rw [bits i less, decide_eq_false_iff_not] at clear
      omega
    constructor
    · simp only [regions, List.pairwise_cons, List.mem_cons, List.not_mem_nil, or_false,
        forall_eq_or_imp, forall_eq, List.Pairwise.nil, and_true, false_imp_iff, implies_true]
      omega
    · simp only [regions, List.mem_cons, List.not_mem_nil, or_false, forall_eq_or_imp, forall_eq]
      omega
    · intro i less clear
      exact free i (by omega) clear
    · refine ⟨?_, inodeBit⟩
      rw [bits 0 (by omega), decide_eq_true_iff]
      omega
    · intro name member
      exact root_found (same ▸ onDisk) closed member
    · intro n blocks s' ran
      exact allocBlocks_inside free ran

end

/-- A partition with 4097 sectors behind the other metadata. -/
def tightPartition : Partition := ⟨2048, 4708, by decide, by decide⟩

/-- A partition that was never formatted. -/
def rawState (part : Partition) : FsState part where
  disk := Memory.zeros
  blockBitmap := ⟨Memory.zeros⟩
  inodeBitmap := ⟨Memory.zeros⟩
  inodes _ := none
  nextAddr := 0
  openInodes := []
  rootDir := .kernel 0
  fileTable _ := ⟨0, 0, none⟩
  fdTable _ := none
  userProcess := false

/-- A run of two calls, taken apart. -/
theorem formatAndMount (s₀ : FsState part)
    (returns : (valueOf (do partitionFormat; mountPartition) s₀).isSome = true) :
    ∃ s₁ sb s, (partitionFormat : FsCall part Unit).run s₀ = .ok ((), s₁) ∧
      (mountPartition : FsCall part SuperBlock).run s₁ = .ok (sb, s) := by
  obtain ⟨sb, value⟩ := Option.isSome_iff_exists.mp returns
  obtain ⟨s, ran⟩ := exists_of_valueOf value
  obtain ⟨_, s₁, formatted, mounted⟩ := call_bind_returns.mp ran
  exact ⟨s₁, sb, s, formatted, mounted⟩

/-- The theorem for a partition of a size that is tight. -/
theorem wellFormatted_tight : ∃ sb s, WellFormatted tightPartition sb s := by
  obtain ⟨s₁, sb, s, formatted, mounted⟩ :=
    formatAndMount (rawState tightPartition) (by decide +kernel)
  exact ⟨sb, s, (wellFormatted_iff formatted mounted).mpr (by decide)⟩

/-- In a partition of ten megabytes, the first sector behind the partition is free. -/
theorem sector_behind_partition_free : ∃ s₁ sb s,
    (partitionFormat : FsCall somePartition Unit).run (rawState somePartition) = .ok ((), s₁) ∧
    (mountPartition : FsCall somePartition SuperBlock).run s₁ = .ok (sb, s) ∧
    s.blockBitmap.test 19864 = false ∧
    sb.dataStartLba + 19864 = somePartition.startLba + somePartition.secCnt ∧
    ¬ WellFormatted somePartition sb s := by
  obtain ⟨s₁, sb, s, formatted, mounted⟩ :=
    formatAndMount (rawState somePartition) (by decide +kernel)
  obtain ⟨-, onDisk⟩ := partitionFormat_returns formatted
  obtain ⟨rfl, -, -, bits, -⟩ := mountPartition_returns onDisk mounted
  have free : s.blockBitmap.test 19864 = false := by
    rw [bits 19864 (by decide)]
    decide
  refine ⟨s₁, _, s, formatted, mounted, free, by decide, fun well => ?_⟩
  have inside := well.free_inside 19864 (by rw [Partition.blockBitmapBytes_eq]; decide) free
  revert inside
  decide

end UKernel.Fs
