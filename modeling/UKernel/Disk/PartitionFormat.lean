import UKernel.Disk.PartitionScan
import UKernel.Fs.Format

/-! # Formatting a partition of any size

`partition_format` of `fs.c` on a partition as the table describes it: the sizes are 32-bit
words, and nothing has checked that the metadata fits. Where it returns, the superblock is there
with its magic number, the sectors of metadata behind it have none, and all other sectors are
left alone (`UKernel.Ide.partitionFormat_returns`); on a partition that holds its metadata it is
the function of `UKernel.Fs` (`UKernel.Ide.partitionFormat_eq`).
-/

namespace UKernel.Ide

open UKernel.Library UKernel.Fs

/-! ## The function -/

/-- The assertions of `ide_write`; `select_sector` repeats the first one for each 256 sectors. -/
def checkedWrite (lba : Word) (buf : Memory) (secCnt : Word) (disk : Memory) :
    Except Fault Memory := do
  require (lba.toNat ≤ maxLba)
  require (secCnt.toNat > 0)
  require (lba.toNat + 256 * ((secCnt.toNat - 1) / 256) ≤ maxLba)
  return ideWrite disk lba.toNat buf secCnt.toNat

/-- `DIV_ROUND_UP(x, BITS_PER_SECTOR)`. -/
def bitmapSects (x : Word) : Word :=
  (x + 4096 - 1) / 4096

namespace PartRecord

variable (part : PartRecord)

/-- `free_sects`. -/
def freeSects : Word :=
  part.secCnt - BitVec.ofNat 32 usedSects

/-- `block_bitmap_bit_len`. -/
def blockBitmapBitLen : Word :=
  part.freeSects - bitmapSects part.freeSects

/-- `block_bitmap_sects`, as it is computed the second time. -/
def blockBitmapSects : Word :=
  bitmapSects part.blockBitmapBitLen

/-- `block_bitmap_lba`. -/
def blockBitmapLba : Word :=
  part.startLba + 2

/-- `inode_bitmap_lba`. -/
def inodeBitmapLba : Word :=
  part.blockBitmapLba + part.blockBitmapSects

/-- `inode_table_lba`. -/
def inodeTableLba : Word :=
  part.inodeBitmapLba + 1

/-- `data_start_lba`. -/
def dataStartLba : Word :=
  part.inodeTableLba + 608

/-- The superblock that `partition_format` writes. -/
def sb : SuperBlock where
  magic := 0x19970630
  secCnt := part.secCnt.toNat
  inodeCnt := maxFilesPerPart
  partLbaBase := part.startLba.toNat
  blockBitmapLba := part.blockBitmapLba.toNat
  blockBitmapSects := part.blockBitmapSects.toNat
  inodeBitmapLba := part.inodeBitmapLba.toNat
  inodeBitmapSects := 1
  inodeTableLba := part.inodeTableLba.toNat
  inodeTableSects := 608
  dataStartLba := part.dataStartLba.toNat
  rootInodeNo := 0
  dirEntrySize := dirEntrySize

/-- The inode of the root directory. -/
def rootInode : Inode where
  iNo := 0
  iSize := BitVec.ofNat 32 (part.sb.dirEntrySize * 2)
  iOpenCnts := 0
  writeDeny := false
  iSectors i := if i = 0 then part.dataStartLba else 0

/-- The sector of the superblock. -/
def superLba : Nat :=
  (part.startLba + 1).toNat

/-- The last sector that `partition_format` writes. -/
def lastLba : Nat :=
  part.superLba + part.blockBitmapSects.toNat + 610

end PartRecord

/-- `partition_format`. -/
def partitionFormat (part : PartRecord) (disk : Memory) : Except Fault Memory := do
  let disk ← checkedWrite (part.startLba + 1) part.sb.image 1 disk
  let disk ← checkedWrite part.blockBitmapLba (formattedBitmap part.blockBitmapBitLen.toNat)
    part.blockBitmapSects disk
  let disk ← checkedWrite part.inodeBitmapLba (Function.update Memory.zeros 0 0x1) 1 disk
  let disk ← checkedWrite part.inodeTableLba part.rootInode.image 608 disk
  checkedWrite part.dataStartLba rootBlock 1 disk

/-! ## The magic number -/

/-- A sector begins with the magic number of a superblock. -/
def HasMagic (disk : Memory) (lba : Nat) : Prop :=
  getWord (ideRead disk lba) 0 = 0x19970630

instance (disk : Memory) (lba : Nat) : Decidable (HasMagic disk lba) :=
  inferInstanceAs (Decidable (getWord (ideRead disk lba) 0 = 0x19970630))

section

variable {part : PartRecord} {disk disk' buf : Memory} {lba secCnt : Word} {sector count : Nat}

theorem checkedWrite_returns (ran : checkedWrite lba buf secCnt disk = .ok disk') :
    lba.toNat ≤ maxLba ∧ 0 < secCnt.toNat ∧
      disk' = ideWrite disk lba.toNat buf secCnt.toNat := by
  obtain ⟨_, small, ran⟩ := except_bind_eq_ok.mp ran
  obtain ⟨_, some, ran⟩ := except_bind_eq_ok.mp ran
  obtain ⟨_, -, ran⟩ := except_bind_eq_ok.mp ran
  exact ⟨require_eq_ok.mp small, require_eq_ok.mp some, (Except.ok.inj ran).symm⟩

theorem hasMagic_congr {first : Nat}
    (same : ∀ k < 4, ideRead disk sector k = ideRead disk' first k) :
    HasMagic disk sector ↔ HasMagic disk' first := by
  have words : getWord (ideRead disk sector) 0 = getWord (ideRead disk' first) 0 := by
    apply getWord_congr
    intro k small
    rw [Nat.zero_add]
    exact same k small
  rw [HasMagic, HasMagic, words]

/-- Sectors that a write leaves alone. -/
theorem hasMagic_elsewhere {first : Nat} (apart : sector < first ∨ first + count ≤ sector) :
    HasMagic (ideWrite disk first buf count) sector ↔ HasMagic disk sector := by
  apply hasMagic_congr
  intro k small
  apply ideRead_elsewhere
  omega

/-- The magic number begins with a byte that the rest of the metadata has nowhere at the beginning
of a sector. -/
theorem hasMagic_byte (magic : HasMagic disk sector) : ideRead disk sector 0 = 0x30 := by
  have byte : wordByte (getWord (ideRead disk sector) 0) 0 = ideRead disk sector 0 :=
    wordByte_getWord (by decide)
  rw [show getWord (ideRead disk sector) 0 = 0x19970630 from magic] at byte
  rw [← byte]
  decide

/-- A sector of a region that was written, whose first byte is another one. -/
theorem not_hasMagic_written {first : Nat} (low : first ≤ sector) (high : sector < first + count)
    (other : buf (512 * (sector - first)) ≠ 0x30) :
    ¬ HasMagic (ideWrite disk first buf count) sector := by
  intro magic
  have byte := hasMagic_byte magic
  rw [ideRead_ideWrite low (by omega)] at byte
  exact other byte

/-- No sector of a formatted block bitmap begins with the first byte of the magic number, in which
a lower bit is set and a higher one clear. -/
theorem formattedBitmap_byte {bitLen i : Nat} (inside : i ≤ bitLen / 4096) :
    formattedBitmap bitLen (512 * i) ≠ 0x30 := by
  intro equal
  have low := @formattedBitmap_getLsbD bitLen (4096 * i + 5) (by omega)
  have high := @formattedBitmap_getLsbD bitLen (4096 * i + 6) (by omega)
  rw [show (4096 * i + 5) / 8 = 512 * i by omega, equal] at low
  rw [show (4096 * i + 6) / 8 = 512 * i by omega, equal] at high
  rw [show (4096 * i + 5) % 8 = 5 by omega] at low
  rw [show (4096 * i + 6) % 8 = 6 by omega] at high
  have set : (0x30 : Byte).getLsbD 5 = true := by decide
  have clear : (0x30 : Byte).getLsbD 6 = false := by decide
  rw [set, eq_comm, decide_eq_true_iff] at low
  rw [clear, eq_comm, decide_eq_false_iff_not] at high
  omega

/-! ## What formatting does -/

theorem bitmapSects_toNat (x : Word) :
    (bitmapSects x).toNat = (x.toNat + 4095) % 2 ^ 32 / 4096 := by
  have assoc : x + 4096 - 1 = x + 4095 := by bv_omega
  rw [bitmapSects, assoc, BitVec.toNat_udiv, BitVec.toNat_add]
  rfl

/-- The sectors of a block bitmap hold its bits, unless there are none. -/
theorem bitmapSects_pos {x : Word} (some : 0 < (bitmapSects x).toNat) :
    (bitmapSects x).toNat = (x.toNat + 4095) / 4096 := by
  have small := x.isLt
  rw [bitmapSects_toNat] at some ⊢
  omega

/-- Where the metadata goes, when its first sector is on the disk. -/
theorem PartRecord.layout (onDisk : part.superLba ≤ maxLba) :
    part.blockBitmapLba.toNat = part.superLba + 1 ∧
      part.inodeBitmapLba.toNat = part.superLba + 1 + part.blockBitmapSects.toNat ∧
      part.inodeTableLba.toNat = part.superLba + 2 + part.blockBitmapSects.toNat ∧
      part.dataStartLba.toNat = part.lastLba := by
  have sects : part.blockBitmapSects.toNat < 2 ^ 20 + 1 := by
    rw [PartRecord.blockBitmapSects, bitmapSects_toNat]
    omega
  have next : part.startLba + 2 = part.startLba + 1 + 1 := by bv_omega
  unfold PartRecord.lastLba PartRecord.dataStartLba PartRecord.inodeTableLba
    PartRecord.inodeBitmapLba PartRecord.blockBitmapLba
  rw [next]
  unfold PartRecord.superLba at onDisk ⊢
  generalize part.startLba + 1 = super at onDisk ⊢
  generalize part.blockBitmapSects = sects' at sects ⊢
  have one : (1 : Word).toNat = 1 := rfl
  have many : (608 : Word).toNat = 608 := rfl
  simp only [maxLba] at onDisk
  simp only [BitVec.toNat_add, one, many]
  omega

/-- No sector of the inode table begins with the first byte of the magic number. -/
theorem PartRecord.rootInode_byte (part : PartRecord) (i : Nat) :
    part.rootInode.image (512 * i) ≠ 0x30 := by
  by_cases first : i = 0
  · rw [first]
    change wordByte 0 0 ≠ 0x30
    decide
  · unfold Inode.image
    rw [if_neg (by omega), if_neg (by omega), if_neg (by omega)]
    decide

/-- **Formatting.** The superblock has its magic number, the metadata behind it has none at the
beginning of a sector, and no other sector has changed. -/
theorem partitionFormat_returns (ran : partitionFormat part disk = .ok disk') :
    part.superLba ≤ maxLba ∧ HasMagic disk' part.superLba ∧
      (∀ lba, part.superLba < lba → lba ≤ part.lastLba → ¬ HasMagic disk' lba) ∧
      ∀ lba, lba < part.superLba ∨ part.lastLba < lba →
        (HasMagic disk' lba ↔ HasMagic disk lba) := by
  obtain ⟨d₁, superblock, ran⟩ := except_bind_eq_ok.mp ran
  obtain ⟨d₂, blocks, ran⟩ := except_bind_eq_ok.mp ran
  obtain ⟨d₃, inodes, ran⟩ := except_bind_eq_ok.mp ran
  obtain ⟨d₄, table, root⟩ := except_bind_eq_ok.mp ran
  obtain ⟨onDisk, -, first⟩ := checkedWrite_returns superblock
  obtain ⟨-, some, second⟩ := checkedWrite_returns blocks
  obtain ⟨-, -, third⟩ := checkedWrite_returns inodes
  obtain ⟨-, -, fourth⟩ := checkedWrite_returns table
  obtain ⟨-, -, fifth⟩ := checkedWrite_returns root
  obtain ⟨blocksAt, inodesAt, tableAt, rootAt⟩ := part.layout onDisk
  have holds : part.blockBitmapSects.toNat = (part.blockBitmapBitLen.toNat + 4095) / 4096 :=
    bitmapSects_pos some
  have one : (1 : Word).toNat = 1 := rfl
  have many : (608 : Word).toNat = 608 := rfl
  have here : (part.startLba + 1).toNat = part.superLba := rfl
  have last : part.lastLba = part.superLba + part.blockBitmapSects.toNat + 610 := rfl
  rw [here, one] at first
  rw [blocksAt] at second
  rw [inodesAt, one] at third
  rw [tableAt, many] at fourth
  rw [rootAt, one] at fifth
  subst first second third fourth fifth
  refine ⟨onDisk, ?_, fun lba low high => ?_, fun lba apart => ?_⟩
  · rw [hasMagic_elsewhere (by omega), hasMagic_elsewhere (by omega),
      hasMagic_elsewhere (by omega), hasMagic_elsewhere (by omega)]
    unfold HasMagic
    apply getWord_of_bytes
    intro k small
    rw [ideRead_ideWrite (Nat.le_refl _) (by omega), Nat.sub_self, Nat.mul_zero, Nat.zero_add,
      Nat.zero_add, SuperBlock.image, show k / 4 = 0 by omega, show k % 4 = k by omega]
    rfl
  · by_cases isRoot : lba = part.lastLba
    · subst isRoot
      apply not_hasMagic_written (Nat.le_refl _) (Nat.lt_succ_self _)
      rw [Nat.sub_self]
      decide
    rw [hasMagic_elsewhere (by omega)]
    by_cases inTable : part.superLba + 2 + part.blockBitmapSects.toNat ≤ lba
    · exact not_hasMagic_written inTable (by omega) (part.rootInode_byte _)
    rw [hasMagic_elsewhere (by omega)]
    by_cases inInodes : part.superLba + 1 + part.blockBitmapSects.toNat ≤ lba
    · apply not_hasMagic_written inInodes (by omega)
      rw [show lba - (part.superLba + 1 + part.blockBitmapSects.toNat) = 0 by omega]
      decide
    rw [hasMagic_elsewhere (by omega)]
    apply not_hasMagic_written (by omega) (by omega)
    apply formattedBitmap_byte
    omega
  · rw [hasMagic_elsewhere (by omega), hasMagic_elsewhere (by omega),
      hasMagic_elsewhere (by omega), hasMagic_elsewhere (by omega), hasMagic_elsewhere (by omega)]

end

/-! ## Partitions that hold their metadata -/

/-- The entry for a partition that holds its metadata and lies on the disk. -/
def PartRecord.of (part : Partition) (channelNo : Nat) : PartRecord :=
  ⟨BitVec.ofNat 32 part.startLba, BitVec.ofNat 32 part.secCnt, some channelNo⟩

section

variable {part : Partition} {channelNo lba secCnt : Nat} {buf : Memory} {s : FsState part}

/-- A write of `UKernel.Fs` whose sectors all lie on the disk. -/
theorem writeSectors_run {lbaWord countWord : Word} (lbaIs : lbaWord.toNat = lba)
    (countIs : countWord.toNat = secCnt)
    (fits : lba ≤ maxLba → lba + 256 * ((secCnt - 1) / 256) ≤ maxLba) :
    (writeSectors lba buf secCnt).run s = (checkedWrite lbaWord buf countWord s.disk).map
      fun disk => ((), { s with disk := disk }) := by
  unfold checkedWrite writeSectors
  rw [lbaIs, countIs]
  by_cases onDisk : lba ≤ maxLba
  · by_cases some : secCnt > 0
    · rw [require_of (fits onDisk), require_of onDisk, require_of some]
      rfl
    · rw [require_of onDisk, require, if_neg some]
      rfl
  · rw [require, if_neg onDisk]
    rfl

/-- Two calls that change nothing but the disk, one after the other. -/
theorem run_bind_disk {first second : FsCall part Unit} {writes : Except Fault Memory}
    {next : Memory → Except Fault Memory}
    (one : first.run s = writes.map fun disk => ((), { s with disk := disk }))
    (two : ∀ disk, second.run { s with disk := disk } =
      (next disk).map fun disk => ((), { s with disk := disk })) :
    (first >>= fun _ => second).run s =
      (writes >>= next).map fun disk => ((), { s with disk := disk }) := by
  rw [StateT.run_bind, one]
  cases writes with
  | error fault => rfl
  | ok disk => exact two disk

/-- The words of a partition that holds its metadata are its numbers. -/
theorem PartRecord.of_sb (part : Partition) (channelNo : Nat) :
    (PartRecord.of part channelNo).superLba = part.startLba + 1 ∧
      (PartRecord.of part channelNo).blockBitmapBitLen.toNat = part.blockBitmapBitLen ∧
      (PartRecord.of part channelNo).sb = part.sb := by
  have disk := part.onDisk
  have holds := part.holdsMetadata
  simp only [maxLba] at disk
  have used : usedSects = 611 := rfl
  have size : (PartRecord.of part channelNo).secCnt.toNat = part.secCnt := by
    rw [PartRecord.of, BitVec.toNat_ofNat, Nat.mod_eq_of_lt (by omega)]
  have first : (PartRecord.of part channelNo).startLba.toNat = part.startLba := by
    rw [PartRecord.of, BitVec.toNat_ofNat, Nat.mod_eq_of_lt (by omega)]
  have free : (PartRecord.of part channelNo).freeSects.toNat = part.freeSects := by
    rw [PartRecord.freeSects, BitVec.toNat_sub, size, used]
    change (2 ^ 32 - 611 + part.secCnt) % 2 ^ 32 = part.secCnt - usedSects
    omega
  have bits : (PartRecord.of part channelNo).blockBitmapBitLen.toNat = part.blockBitmapBitLen := by
    rw [PartRecord.blockBitmapBitLen, BitVec.toNat_sub, bitmapSects_toNat, free,
      Partition.blockBitmapBitLen, divRoundUp, bitsPerSector]
    have small : part.freeSects ≤ part.secCnt := Nat.sub_le ..
    omega
  have count : (PartRecord.of part channelNo).blockBitmapSects.toNat = part.blockBitmapSects := by
    rw [PartRecord.blockBitmapSects, bitmapSects_toNat, bits, Partition.blockBitmapSects,
      divRoundUp, bitsPerSector]
    have small : part.blockBitmapBitLen ≤ part.secCnt :=
      (Nat.sub_le ..).trans (Nat.sub_le ..)
    omega
  have onDisk : (PartRecord.of part channelNo).superLba = part.startLba + 1 := by
    rw [PartRecord.superLba, BitVec.toNat_add, first]
    change (part.startLba + 1) % 2 ^ 32 = _
    omega
  obtain ⟨blocksAt, inodesAt, tableAt, rootAt⟩ :=
    (PartRecord.of part channelNo).layout (by rw [onDisk, maxLba]; omega)
  refine ⟨onDisk, bits, ?_⟩
  unfold PartRecord.sb Partition.sb
  rw [size, first, count, blocksAt, inodesAt, tableAt, rootAt, PartRecord.lastLba, onDisk, count]
  have bitmaps : divRoundUp maxFilesPerPart bitsPerSector = 1 := rfl
  have tables : divRoundUp (inodeSize * maxFilesPerPart) sectorSize = 608 := rfl
  have blocksSame : part.startLba + 1 + 1 = part.startLba + 2 := rfl
  have inodesSame : part.startLba + 2 + part.blockBitmapSects + 1 =
      part.startLba + 1 + 2 + part.blockBitmapSects := by omega
  have rootSame : part.startLba + 1 + 2 + part.blockBitmapSects + 608 =
      part.startLba + 1 + part.blockBitmapSects + 610 := by omega
  rw [bitmaps, tables, blocksSame, inodesSame, rootSame]

/-- On a partition that holds its metadata, formatting is the function of `UKernel.Fs`. -/
theorem partitionFormat_eq :
    (Fs.partitionFormat : FsCall part Unit).run s =
      (partitionFormat (.of part channelNo) s.disk).map
        fun disk => ((), { s with disk := disk }) := by
  obtain ⟨onDisk, bits, sb⟩ := PartRecord.of_sb part channelNo
  have disk := part.onDisk
  have data := part.dataStart_le
  obtain ⟨blocks, inodes, table, start⟩ := part.layout
  have small := part.blocks_small
  simp only [maxLba] at disk
  have max : maxLba = 163839 := rfl
  have one : (1 : Word).toNat = 1 := rfl
  have inodeSects : (1 : Word).toNat = part.sb.inodeBitmapSects := rfl
  have many : part.sb.inodeTableSects = 608 := rfl
  have tableSects : (608 : Word).toNat = part.sb.inodeTableSects := rfl
  have blocksWord := congrArg SuperBlock.blockBitmapLba sb
  have countWord := congrArg SuperBlock.blockBitmapSects sb
  have inodesWord := congrArg SuperBlock.inodeBitmapLba sb
  have tableWord := congrArg SuperBlock.inodeTableLba sb
  have rootWord := congrArg SuperBlock.dataStartLba sb
  have root : (PartRecord.of part channelNo).rootInode = Fs.rootInode part := by
    have rootAt : (PartRecord.of part channelNo).dataStartLba =
        BitVec.ofNat 32 part.sb.dataStartLba := by
      apply BitVec.eq_of_toNat_eq
      rw [BitVec.toNat_ofNat, Nat.mod_eq_of_lt (by omega)]
      exact rootWord
    rw [PartRecord.rootInode, Fs.rootInode, sb, rootAt]
  unfold Fs.partitionFormat partitionFormat
  rw [sb, bits, root]
  apply run_bind_disk (writeSectors_run onDisk one (by omega))
  intro disk
  apply run_bind_disk (writeSectors_run blocksWord countWord (by omega))
  intro disk
  apply run_bind_disk (writeSectors_run inodesWord inodeSects (by omega))
  intro disk
  apply run_bind_disk (writeSectors_run tableWord tableSects (by omega))
  intro disk
  exact writeSectors_run rootWord one (by omega)

end

end UKernel.Ide
