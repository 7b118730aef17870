import UKernel.Process.ProgramFile
import UKernel.Process.UserPages

/-! # The image of a program

What `load` makes of a program that passes its checks. Each segment should have its memory mapped,
with the bytes of the file at its start and zeros behind them. `load` maps and fills only what the
file has of a segment, and writes no zeros; it does not map the first page of the user part of
memory, and cannot read the last block of a file. `UKernel.Exec.Loadable` says when the image is
right nevertheless (`UKernel.Exec.load_image_iff`).

What memory holds before, in `HasImage` and `Imaged`, is an arbitrary function, and so is what the
frames hold when they get mapped: the buffers of `file_read` may have had them before. The heap of
the process, whose free blocks the buffers have meanwhile, is apart from the program
(`UKernel.Exec.OffHeap`).
-/

namespace UKernel.Exec

open UKernel.Library UKernel.Fs UKernel.Memory UKernel.Paging

variable {pools : Pools}

/-! ## The image -/

namespace LoadSegment

/-- The address is in the memory of the segment. -/
def Covers (segment : LoadSegment) (a : Word) : Prop :=
  (a - segment.vaddr).toNat < segment.memsz.toNat

/-- The address is in the part of the segment that the file has. -/
def InFile (segment : LoadSegment) (a : Word) : Prop :=
  (a - segment.vaddr).toNat < segment.filesz.toNat

instance (segment : LoadSegment) (a : Word) : Decidable (segment.InFile a) :=
  inferInstanceAs (Decidable (_ < _))

/-- The byte that the program has at an address. -/
def byte (content : List Byte) (segment : LoadSegment) (a : Word) : Byte :=
  if segment.InFile a then content.getD (segment.offset.toNat + (a - segment.vaddr).toNat) 0 else 0

/-- The pages of the part that the file has, one of them if it has none. -/
def pages (segment : LoadSegment) : Finset Nat :=
  .Icc (segment.vaddr.toNat / pgSize)
    ((segment.vaddr.toNat + max segment.filesz.toNat 1 - 1) / pgSize)

end LoadSegment

/-- The pages of the segments of a program. -/
def pagesIn (content : List Byte) : Finset Nat :=
  (segmentsIn content).toFinset.biUnion LoadSegment.pages

/-- No segment of a program has memory on a page of the heap. -/
def OffHeap (content : List Byte) (m : Machine pools) : Prop :=
  ∀ segment ∈ segmentsIn content, ∀ a, segment.Covers a → m.heapPage (a.toNat / pgSize) = false

/-- A segment at the first page of the user part of memory finds it mapped. -/
def FirstMapped (content : List Byte) (m : Machine pools) : Prop :=
  ∀ segment ∈ segmentsIn content, segment.vaddr.toNat < userVaddrStart + pgSize →
    m.hasPage (userVaddrStart / pgSize) = true

variable {m m' : Machine pools} {content : List Byte} {file : ElfFile} {a : Word}
  {stale memory : Word → Byte} {segment : LoadSegment}

/-! ## Pages -/

theorem mem_pagesIn {page : Nat} : page ∈ pagesIn content ↔
    ∃ segment ∈ segmentsIn content, page ∈ segment.pages := by
  rw [pagesIn, Finset.mem_biUnion]
  refine exists_congr fun segment => and_congr_left fun _ => ?_
  rw [List.mem_toFinset]

theorem firstPage_toNat (vaddr : Word) :
    (firstPage vaddr).toNat = vaddr.toNat / pgSize * pgSize := by
  have mask : (0xfffff000 : Word).toNat = (2 ^ 20 - 1) * 2 ^ 12 := rfl
  have page : vaddr.toNat / 2 ^ 12 &&& 2 ^ 20 - 1 = vaddr.toNat / 2 ^ 12 := by
    rw [Nat.and_two_pow_sub_one_eq_mod]
    omega
  rw [firstPage, BitVec.toNat_and, mask, show pgSize = 2 ^ 12 from rfl]
  apply Nat.eq_of_testBit_eq
  intro i
  rw [Nat.testBit_and, Nat.testBit_mul_two_pow, Nat.testBit_mul_two_pow, ← page,
    Nat.testBit_and, Nat.testBit_div_two_pow]
  by_cases low : 12 ≤ i
  · rw [Nat.sub_add_cancel low]
    simp [low]
  · simp [low]

theorem sizeInFirstPage_toNat (vaddr : Word) :
    (sizeInFirstPage vaddr).toNat = pgSize - vaddr.toNat % pgSize := by
  have offset : (vaddr &&& 0x00000fff).toNat = vaddr.toNat % pgSize :=
    (BitVec.toNat_and _ _).trans (Nat.and_two_pow_sub_one_eq_mod vaddr.toNat 12)
  rw [sizeInFirstPage, BitVec.toNat_sub, offset, BitVec.toNat_ofNat]
  unfold pgSize
  omega

/-- `occupy_pages` is right below the stack. -/
theorem occupyPages_eq {filesz vaddr : Word}
    (below : vaddr.toNat + filesz.toNat ≤ userStack3Vaddr) :
    vaddr.toNat / pgSize + occupyPages filesz vaddr =
      (vaddr.toNat + max filesz.toNat 1 - 1) / pgSize + 1 := by
  have first := sizeInFirstPage_toNat vaddr
  unfold occupyPages userStack3Vaddr at *
  by_cases more : sizeInFirstPage vaddr < filesz
  · rw [if_pos more]
    rw [BitVec.lt_def, first] at more
    have rounded : (filesz - sizeInFirstPage vaddr + BitVec.ofNat 32 pgSize - 1).toNat =
        filesz.toNat - (pgSize - vaddr.toNat % pgSize) + pgSize - 1 := by
      unfold pgSize at *
      bv_omega
    rw [rounded]
    unfold pgSize at *
    omega
  · rw [if_neg more]
    rw [BitVec.lt_def, first] at more
    unfold pgSize at *
    omega

theorem pageAt_toNat {vaddr : Word} {k : Nat} (user : vaddr.toNat / pgSize + k < userPages) :
    (pageAt vaddr k).toNat = (vaddr.toNat / pgSize + k) * pgSize := by
  rw [pageAt, BitVec.toNat_add, firstPage_toNat, BitVec.toNat_ofNat]
  unfold pgSize userPages at *
  omega

/-- A segment of a program in the user part of memory below the stack. -/
structure LoadSegment.User (segment : LoadSegment) : Prop where
  sizes : segment.filesz.toNat ≤ segment.memsz.toNat
  low : userVaddrStart ≤ segment.vaddr.toNat
  high : segment.vaddr.toNat + segment.memsz.toNat ≤ userStack3Vaddr

theorem WellFormed.user_of_mem (wf : WellFormed content) (member : segment ∈ segmentsIn content) :
    segment.User :=
  ⟨wf.sizes segment member, (wf.user segment member).1, (wf.user segment member).2⟩

namespace LoadSegment.User

/-- The address in the memory of a segment. -/
theorem toNat (user : segment.User) (covers : segment.Covers a) :
    a.toNat = segment.vaddr.toNat + (a - segment.vaddr).toNat := by
  have high := user.high
  unfold LoadSegment.Covers at covers
  unfold userStack3Vaddr at high
  bv_omega

theorem below (user : segment.User) (covers : segment.Covers a) : a.toNat < kernelBase := by
  have high := user.high
  have place := user.toNat covers
  unfold LoadSegment.Covers at covers
  unfold userStack3Vaddr at high
  unfold kernelBase
  omega

theorem covers (user : segment.User) (inFile : segment.InFile a) : segment.Covers a :=
  Nat.lt_of_lt_of_le inFile user.sizes

/-- The last page that the loop of `segment_load` comes to. -/
theorem last_page (user : segment.User) :
    segment.vaddr.toNat / pgSize + occupyPages segment.filesz segment.vaddr =
    (segment.vaddr.toNat + max segment.filesz.toNat 1 - 1) / pgSize + 1 :=
  occupyPages_eq ((Nat.add_le_add_left user.sizes _).trans user.high)

theorem page_lt (user : segment.User) {k : Nat}
    (less : k < occupyPages segment.filesz segment.vaddr) :
    segment.vaddr.toNat / pgSize + k < userPages := by
  have high := user.high
  have sizes := user.sizes
  have last := user.last_page
  unfold userStack3Vaddr at high
  unfold pgSize userPages at *
  omega

/-- The pages that the loop of `segment_load` comes to. -/
theorem mem_pages (user : segment.User) {page : Nat} :
    (∃ k < occupyPages segment.filesz segment.vaddr,
      page = (pageAt segment.vaddr k).toNat / pgSize) ↔ page ∈ segment.pages := by
  have last := user.last_page
  have number : ∀ k < occupyPages segment.filesz segment.vaddr,
      (pageAt segment.vaddr k).toNat / pgSize = segment.vaddr.toNat / pgSize + k := by
    intro k less
    rw [pageAt_toNat (user.page_lt less)]
    exact Nat.mul_div_cancel _ (by decide)
  rw [LoadSegment.pages, Finset.mem_Icc]
  constructor
  · rintro ⟨k, less, rfl⟩
    rw [number k less]
    omega
  · rintro ⟨low, high⟩
    have less : page - segment.vaddr.toNat / pgSize < occupyPages segment.filesz segment.vaddr := by
      omega
    refine ⟨_, less, ?_⟩
    rw [number _ less]
    omega

theorem script_user (user : segment.User) (content : List Byte) :
    (segment.script content).User := by
  intro k less
  have page := user.page_lt less
  change (pageAt segment.vaddr k).toNat < kernelBase
  rw [pageAt_toNat page]
  unfold kernelBase pgSize userPages at *
  omega

end LoadSegment.User

/-! ## The image that the segments make -/

section Segments

variable (wf : WellFormed content)
  (loads : LoadsAll ((segmentsIn content).map (LoadSegment.script content)) m m')

include wf

theorem length_script (member : segment ∈ segmentsIn content) :
    (segment.script content).bytes.length = segment.filesz.toNat :=
  length_slice (wf.inside.segments segment member)

include loads

end Segments

/-! ## The run -/

/-- The loop of `load` comes to the rest of a program. -/
structure Ready (content : List Byte) (scripts : List Segment) (m : Machine pools) : Prop where
  scripts : ∀ script ∈ scripts, ∃ segment ∈ segmentsIn content, script = segment.script content
  frames : m.HasFrames (pagesIn content)
  first : FirstMapped content m
  offHeap : OffHeap content m

/-- The position in the file is not looked at. -/
theorem Ready.atPos {scripts : List Segment} (ready : Ready content scripts m) (fdPos : Word) :
    Ready content scripts (m.atPos fdPos) :=
  ⟨ready.scripts, ⟨ready.frames.user, ready.frames.kernel⟩, ready.first, ready.offHeap⟩

/-- The pages of a segment can be mapped. -/
theorem Ready.mappable {scripts : List Segment} (ready : Ready content scripts m)
    (wf : WellFormed content) (member : segment ∈ segmentsIn content) {k : Nat}
    (less : k < occupyPages segment.filesz segment.vaddr) :
    Mappable m (pagesIn content) (pageAt segment.vaddr k) := by
  have user := wf.user_of_mem member
  have below := user.script_user content k less
  have page := user.mem_pages.mp ⟨k, less, rfl⟩
  refine ⟨below, mem_pagesIn.mpr ⟨segment, member, page⟩, ?_⟩
  by_cases first : (pageAt segment.vaddr k).toNat / pgSize = userVaddrStart / pgSize
  · refine .inl ?_
    rw [first]
    refine ready.first segment member ?_
    rw [LoadSegment.pages, Finset.mem_Icc, first] at page
    unfold userVaddrStart pgSize at *
    omega
  · refine .inr ?_
    have low := user.low
    rw [LoadSegment.pages, Finset.mem_Icc] at page
    unfold pageBit kernelBase userVaddrStart pgSize at *
    bv_omega

/-- A segment of a program can be loaded. -/
theorem Ready.step (wf : WellFormed content) {script : Segment} {scripts : List Segment}
    (ready : Ready content (script :: scripts) m) : script.vaddr ≠ 0 ∧
      ∃ middle, Returned (mapPages script.pages (firstPage script.vaddr)) m true middle ∧
        middle.Holds script.vaddr script.bytes.length ∧
        Ready content scripts (middle.wrote script.vaddr script.bytes) := by
  obtain ⟨segment, member, rfl⟩ := ready.scripts script List.mem_cons_self
  have user := wf.user_of_mem member
  obtain ⟨middle, maps, frames⟩ :=
    mapPages_runs (fun k less => ready.mappable wf member less) ready.frames
  have hasPage := mapPages_hasPage (user.script_user content) maps
  have heap : middle.heapPage = m.heapPage := by
    rw [← maps.after_eq]
    exact (mapPages_aside _ m).2
  refine ⟨?_, middle, maps, fun j less => ?_, ?_⟩
  · intro null
    have low := user.low
    change segment.vaddr = 0 at null
    rw [null] at low
    exact absurd low (by decide)
  · rw [length_script wf member] at less
    have inFile : segment.InFile (segment.vaddr + BitVec.ofNat 32 j) := by
      have bound := segment.filesz.isLt
      rwa [LoadSegment.InFile, add_sub_cancel_left, BitVec.toNat_ofNat, Nat.mod_eq_of_lt (by omega)]
    have covers := user.covers inFile
    have place := user.toNat covers
    change middle.writable (segment.vaddr + BitVec.ofNat 32 j) = true
    rw [writable_iff, heap]
    refine ⟨?_, ready.offHeap segment member _ covers⟩
    rw [present_user (user.below covers), hasPage]
    refine .inr (user.mem_pages.mpr ?_)
    unfold LoadSegment.InFile at inFile
    rw [LoadSegment.pages, Finset.mem_Icc, place]
    unfold pgSize
    omega
  · refine ⟨fun other later => ready.scripts other (List.mem_cons_of_mem _ later),
      wrote_hasFrames.mpr frames, fun other inProgram low => ?_, ?_⟩
    · rw [wrote_samePages.hasPage, hasPage]
      exact .inl (ready.first other inProgram low)
    · unfold OffHeap
      rw [← wrote_samePages.2.2, heap]
      exact ready.offHeap

end UKernel.Exec
