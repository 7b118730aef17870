import UKernel.Library.Bytes
import UKernel.Library.Fault

/-! # Disk and partition layout

The disk is a memory of 512-byte sectors. `partition_format` of `fs.c` computes the layout of
a partition from its first sector and its size, and `UKernel.Fs.Partition.sb` is the
superblock it writes; a partition that could not hold the metadata, or that would not lie on
the disk, cannot be built.
-/

namespace UKernel.Fs

open UKernel.Library

/-! ## Sectors -/

/-- `SECTOR_SIZE`, and also `BLOCK_SIZE`. -/
abbrev sectorSize : Nat := 512

/-- `ide_read`: the bytes of consecutive sectors. -/
def ideRead (disk : Memory) (lba : Nat) : Memory :=
  fun i => disk (512 * lba + i)

/-- `ide_write` of `secCnt` sectors. -/
def ideWrite (disk : Memory) (lba : Nat) (buf : Memory) (secCnt : Nat) : Memory :=
  disk.splice (512 * lba) buf (512 * secCnt)

section Sectors

variable {disk buf : Memory} {lba lba' cnt i : Nat}

/-- A sector that was written. -/
theorem ideRead_ideWrite (low : lba ≤ lba') (high : 512 * (lba' - lba) + i < 512 * cnt) :
    ideRead (ideWrite disk lba buf cnt) lba' i = buf (512 * (lba' - lba) + i) := by
  unfold ideRead ideWrite
  rw [Memory.splice_inside (by omega) (by omega)]
  congr 1
  omega

/-- Writing one sector and reading it back. -/
theorem ideRead_ideWrite_self (small : i < 512) :
    ideRead (ideWrite disk lba buf 1) lba i = buf i := by
  rw [ideRead_ideWrite (Nat.le_refl _) (by omega), Nat.sub_self, Nat.mul_zero, Nat.zero_add]

/-- A sector that was not written. -/
theorem ideRead_ideWrite_other (small : i < 512) (outside : lba' < lba ∨ lba + cnt ≤ lba') :
    ideRead (ideWrite disk lba buf cnt) lba' i = ideRead disk lba' i := by
  unfold ideRead ideWrite
  exact Memory.splice_outside (by omega)

/-- Reading sectors, changing a part of them and writing them back changes that part. -/
theorem ideWrite_splice {src : Memory} {off len : Nat} (inside : off + len ≤ 512 * cnt) :
    ideWrite disk lba ((ideRead disk lba).splice off src len) cnt =
      disk.splice (512 * lba + off) src len := by
  funext i
  unfold ideWrite
  by_cases written : 512 * lba ≤ i ∧ i < 512 * lba + 512 * cnt
  · rw [Memory.splice_inside written.1 written.2]
    by_cases part : 512 * lba + off ≤ i ∧ i < 512 * lba + off + len
    · rw [Memory.splice_inside part.1 part.2, Memory.splice_inside (by omega) (by omega)]
      congr 1
      omega
    · rw [Memory.splice_outside (by omega), Memory.splice_outside (by omega)]
      unfold ideRead
      congr 1
      omega
  · rw [Memory.splice_outside (by omega), Memory.splice_outside (by omega)]

end Sectors

/-! ## The layout -/

/-- `max_lba`. -/
abbrev maxLba : Nat := 80 * 1024 * 1024 / 512 - 1

/-- `MAX_FILES_PER_PART`. -/
abbrev maxFilesPerPart : Nat := 4096

/-- `BITS_PER_SECTOR`. -/
abbrev bitsPerSector : Nat := 4096

/-- `sizeof(struct inode)`. -/
abbrev inodeSize : Nat := 76

/-- `sizeof(struct dir_entry)`. -/
abbrev dirEntrySize : Nat := 24

/-- `DIV_ROUND_UP`. -/
def divRoundUp (x step : Nat) : Nat :=
  (x + step - 1) / step

/-- `struct super_block`, without its padding. -/
structure SuperBlock where
  magic : Nat
  secCnt : Nat
  inodeCnt : Nat
  partLbaBase : Nat
  blockBitmapLba : Nat
  blockBitmapSects : Nat
  inodeBitmapLba : Nat
  inodeBitmapSects : Nat
  inodeTableLba : Nat
  inodeTableSects : Nat
  dataStartLba : Nat
  rootInodeNo : Nat
  dirEntrySize : Nat
  deriving DecidableEq, Repr

/-- The sectors of the boot block, the superblock, the inode bitmap and the inode table. -/
def usedSects : Nat :=
  1 + 1 + divRoundUp maxFilesPerPart bitsPerSector +
    divRoundUp (inodeSize * maxFilesPerPart) sectorSize

/-- A partition that holds at least its metadata and lies on the disk. -/
structure Partition where
  startLba : Nat
  secCnt : Nat
  holdsMetadata : usedSects ≤ secCnt
  onDisk : startLba + secCnt ≤ maxLba + 1

namespace Partition

variable (part : Partition)

/-- `free_sects`. -/
def freeSects : Nat :=
  part.secCnt - usedSects

/-- `block_bitmap_bit_len`. -/
def blockBitmapBitLen : Nat :=
  part.freeSects - divRoundUp part.freeSects bitsPerSector

/-- `block_bitmap_sects`, as it is computed the second time. -/
def blockBitmapSects : Nat :=
  divRoundUp part.blockBitmapBitLen bitsPerSector

/-- The superblock that `partition_format` writes. -/
def sb : SuperBlock where
  magic := 0x19970630
  secCnt := part.secCnt
  inodeCnt := maxFilesPerPart
  partLbaBase := part.startLba
  blockBitmapLba := part.startLba + 2
  blockBitmapSects := part.blockBitmapSects
  inodeBitmapLba := part.startLba + 2 + part.blockBitmapSects
  inodeBitmapSects := divRoundUp maxFilesPerPart bitsPerSector
  inodeTableLba := part.startLba + 2 + part.blockBitmapSects +
    divRoundUp maxFilesPerPart bitsPerSector
  inodeTableSects := divRoundUp (inodeSize * maxFilesPerPart) sectorSize
  dataStartLba := part.startLba + 2 + part.blockBitmapSects +
    divRoundUp maxFilesPerPart bitsPerSector +
    divRoundUp (inodeSize * maxFilesPerPart) sectorSize
  rootInodeNo := 0
  dirEntrySize := dirEntrySize

/-- `btmp_bytes_len` of the block bitmap. -/
@[irreducible] def blockBitmapBytes : Nat :=
  part.sb.blockBitmapSects * sectorSize

/-- `btmp_bytes_len` of the inode bitmap. -/
@[irreducible] def inodeBitmapBytes : Nat :=
  part.sb.inodeBitmapSects * sectorSize

theorem blockBitmapBytes_eq : part.blockBitmapBytes = 512 * part.sb.blockBitmapSects := by
  rw [blockBitmapBytes, Nat.mul_comm]

theorem inodeBitmapBytes_eq : part.inodeBitmapBytes = 512 := by
  have one : part.sb.inodeBitmapSects = 1 := rfl
  unfold inodeBitmapBytes
  rw [one, Nat.one_mul]

/-- The regions of a partition follow each other: superblock, block bitmap, inode bitmap,
inode table, data. -/
theorem layout :
    part.sb.blockBitmapLba = part.startLba + 2 ∧
    part.sb.inodeBitmapLba = part.sb.blockBitmapLba + part.sb.blockBitmapSects ∧
    part.sb.inodeTableLba = part.sb.inodeBitmapLba + 1 ∧
    part.sb.dataStartLba = part.sb.inodeTableLba + 608 := by
  exact ⟨rfl, rfl, rfl, rfl⟩

/-- The data area starts inside the partition or at its end. -/
theorem dataStart_le : part.sb.dataStartLba ≤ part.startLba + part.secCnt := by
  have holds := part.holdsMetadata
  simp only [sb, blockBitmapSects, blockBitmapBitLen, freeSects, divRoundUp, usedSects,
    maxFilesPerPart, bitsPerSector, inodeSize, sectorSize] at *
  omega

/-- Sector addresses are small: every block the bitmap can name has a 31-bit address. -/
theorem blocks_small :
    part.sb.dataStartLba + 4096 * part.sb.blockBitmapSects < 2 ^ 31 := by
  have holds := part.holdsMetadata
  have fits := part.onDisk
  simp only [sb, blockBitmapSects, blockBitmapBitLen, freeSects, divRoundUp, usedSects,
    maxFilesPerPart, bitsPerSector, inodeSize, sectorSize, maxLba] at *
  omega

@[simp] theorem sb_rootInodeNo : part.sb.rootInodeNo = 0 := rfl

@[simp] theorem sb_dirEntrySize : part.sb.dirEntrySize = 24 := rfl

end Partition

end UKernel.Fs
