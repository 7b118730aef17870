import UKernel.Fs.FileContent
import UKernel.Process.Segments

/-! # The content of a program file

A program as its bytes: the header, and the segments of the program headers with the type
`PT_LOAD`. A read inside the file delivers its bytes, unless it comes to the last block that a file
can have (`UKernel.Exec.ElfFile.HasContent.read_iff`); `load` therefore comes to the segments of the
content, if they can be read (`UKernel.Exec.program_iff`).
-/

namespace UKernel.Exec

open UKernel.Library UKernel.Fs UKernel.Memory UKernel.Paging

/-- The bytes at a place of a file. -/
def slice (content : List Byte) (pos count : Nat) : List Byte := (content.drop pos).take count

/-- The file has the given bytes. A file that comes to its indirect blocks has a table of them. -/
structure ElfFile.HasContent (file : ElfFile) (content : List Byte) : Prop where
  size : file.inode.iSize = BitVec.ofNat 32 content.length
  small : content.length ≤ 512 * 140
  bytes : ∀ i < content.length,
    Fs.ideRead file.disk (allBlocks file.disk file.inode (i / 512)).toNat (i % 512) =
      content.getD i 0
  table : 512 * 12 ≤ content.length → file.inode.sector 12 ≠ 0

/-- The header at the start of a file. -/
def ehdrOf (content : List Byte) : Elf32Ehdr :=
  .load fun i => (slice content 0 ehdrSize).getD i 0

/-- The program header at a place of a file. -/
def phdrAt (content : List Byte) (pos : Nat) : Elf32Phdr :=
  .load fun i => (slice content pos phdrSize).getD i 0

/-- A segment that a program header describes. -/
structure LoadSegment where
  vaddr : Word
  offset : Word
  filesz : Word
  memsz : Word
  deriving DecidableEq

/-- The segment of the program header at a place of a file, with `p_memsz`, which `load` does not
read. -/
def LoadSegment.at (content : List Byte) (pos : Nat) : LoadSegment where
  vaddr := (phdrAt content pos).pVaddr
  offset := (phdrAt content pos).pOffset
  filesz := (phdrAt content pos).pFilesz
  memsz := getWord (fun i => (slice content pos phdrSize).getD i 0) 20

/-- The loadable segments of a table of program headers; `left` of them are left. -/
def loadSegments (content : List Byte) : Nat → Nat → List LoadSegment
  | 0, _ => []
  | left + 1, pos =>
      if (phdrAt content pos).pType = ptLoad then
        .at content pos :: loadSegments content left (pos + phdrSize)
      else loadSegments content left (pos + phdrSize)

/-- What `load` makes of a segment. -/
def LoadSegment.script (content : List Byte) (segment : LoadSegment) : Segment where
  vaddr := segment.vaddr
  pages := occupyPages segment.filesz segment.vaddr
  bytes := slice content segment.offset.toNat segment.filesz.toNat

/-- The program headers and the segments lie before the block in which `file_read` stops. A segment
at the end of the file, which is empty, is not looked for there. -/
structure Readable (content : List Byte) (left pos : Nat) : Prop where
  headers : ∀ i < left, pos + (i + 1) * phdrSize < 512 * 139
  segments : ∀ segment ∈ loadSegments content left pos,
    segment.offset.toNat < content.length →
      segment.offset.toNat + segment.filesz.toNat < 512 * 139

/-- The program headers and the bytes of the segments lie inside the file. -/
structure Inside (content : List Byte) (left pos : Nat) : Prop where
  headers : ∀ i < left, pos + (i + 1) * phdrSize ≤ content.length
  segments : ∀ segment ∈ loadSegments content left pos,
    segment.offset.toNat + segment.filesz.toNat ≤ content.length

variable {file : ElfFile} {content bytes : List Byte} {ehdr : Elf32Ehdr} {fdPos : Word}
  {left pos count : Nat}

/-! ## Reading -/

/-- A file of the file system. -/
theorem ElfFile.HasContent.of_content {part : Partition} {s : FsState part} {inode : Inode}
    {beyond : Nat → Word} (has : Fs.HasContent s inode content)
    (small : content.length ≤ 512 * 140) :
    ElfFile.HasContent ⟨inode, s.disk, beyond⟩ content where
  size := by
    apply BitVec.eq_of_toNat_eq
    rw [has.size, BitVec.toNat_ofNat]
    omega
  small := small
  bytes := has.bytes
  table large := has.table (Nat.le_refl _) (by omega)

theorem length_slice (inside : pos + count ≤ content.length) :
    (slice content pos count).length = count := by
  rw [slice, List.length_take, List.length_drop]
  omega

theorem Inside.tail (inside : Inside content (left + 1) pos) :
    Inside content left (pos + phdrSize) where
  headers i less := by
    have next := inside.headers (i + 1) (Nat.succ_lt_succ less)
    unfold phdrSize at next ⊢
    omega
  segments segment member := by
    refine inside.segments segment ?_
    rw [loadSegments]
    split
    · exact List.mem_cons_of_mem _ member
    · exact member

/-- The loadable segments of a program. -/
def segmentsIn (content : List Byte) : List LoadSegment :=
  loadSegments content (ehdrOf content).ePhnum.toNat (ehdrOf content).ePhoff.toNat

/-- A program that passes the checks of `load`, whose program headers lie inside the file, and whose
segments lie inside the file and in the user part of memory below the stack. -/
structure WellFormed (content : List Byte) : Prop where
  whole : ehdrSize ≤ content.length
  valid : (ehdrOf content).Valid
  inside : Inside content (ehdrOf content).ePhnum.toNat (ehdrOf content).ePhoff.toNat
  sizes : ∀ segment ∈ segmentsIn content, segment.filesz.toNat ≤ segment.memsz.toNat
  user : ∀ segment ∈ segmentsIn content, userVaddrStart ≤ segment.vaddr.toNat ∧
    segment.vaddr.toNat + segment.memsz.toNat ≤ userStack3Vaddr

end UKernel.Exec
