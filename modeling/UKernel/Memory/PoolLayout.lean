import UKernel.Memory.PhysicalPools

/-! # How memory is divided

`mem_pool_init` counts pages in sixteen bits, and rounds the bitmaps of the two pools down to whole
bytes. The bitmaps lie behind each other, and the pools leave fewer than sixteen pages out, if and
only if the count of pages does not wrap, which is below 258 megabytes
(`UKernel.PhysicalPools.memPoolInit_laidOut_iff`).
-/

namespace UKernel.PhysicalPools

open UKernel.Library UKernel.Fs
open UKernel.Paging (PoolFlags)

/-! ## What the pools cover -/

/-- The whole pages above the low megabyte and the page tables. -/
def wholePages (allMem : Word) : Nat := (allMem.toNat - usedMem.toNat) / 4096

/-- A pool has a bit for a page above `used_mem`. -/
def Frames.Covers (s : Frames) (page : Nat) : Prop :=
  ∃ pf, ∃ bitIdx < s.bitCnt pf,
    (BitVec.ofNat 32 bitIdx * pgSize + (s.pool pf).phyAddrStart).toNat =
      usedMem.toNat + 4096 * page

/-- The pages that no pool manages. -/
def Frames.uncovered (s : Frames) (allMem : Word) : Set Nat :=
  {page | page < wholePages allMem ∧ ¬ s.Covers page}

/-- The bytes of the bitmaps of the kernel's frames, of the users' frames and of the kernel's
virtual pages. -/
def Frames.bitmapRanges (s : Frames) : List (Set Nat) :=
  [Set.Ico (s.pool .kernel).bits ((s.pool .kernel).bits + (s.pool .kernel).btmpBytesLen),
    Set.Ico (s.pool .user).bits ((s.pool .user).bits + (s.pool .user).btmpBytesLen),
    Set.Ico s.kernelVaddr.bits (s.kernelVaddr.bits + s.kernelVaddr.btmpBytesLen)]

/-- The address at which the control block of the main thread follows the bitmaps. -/
def memBitmapEnd : Nat := 0xc009e000

/-- The pools leave out fewer than sixteen of the whole pages, and the three bitmaps lie apart from
each other in front of the control block of the main thread. -/
structure Frames.LaidOut (s : Frames) (allMem : Word) : Prop where
  covers : (s.uncovered allMem).ncard < 16
  inside : ∀ range ∈ s.bitmapRanges, range ⊆ Set.Ico memBitmapBase memBitmapEnd
  apart : s.bitmapRanges.Pairwise Disjoint

section

variable {allMem : Word} {mem : Memory} {page : Nat}

/-- The pages of the two pools are the whole pages, counted in sixteen bits. -/
theorem freePages_sum (large : 0x400000 ≤ allMem.toNat) :
    (kernelFreePages allMem).toNat + (userFreePages allMem).toNat =
      wholePages allMem % 2 ^ 16 := by
  obtain ⟨kernel, user⟩ := freePages_toNat large
  have pages : Paging.allFreePages allMem.toNat = wholePages allMem % 2 ^ 16 := rfl
  rw [kernel, user, Paging.userFreePages, Paging.kernelFreePages, pages]
  omega

/-- The kernel's pool begins at `used_mem`, and the users' pool after the kernel's pages. -/
theorem covers_iff (large : 0x400000 ≤ allMem.toNat) :
    (memPoolInit allMem mem).Covers page ↔ page < bitsOf allMem .kernel ∨
      (kernelFreePages allMem).toNat ≤ page ∧
        page < (kernelFreePages allMem).toNat + bitsOf allMem .user := by
  have up := @upStart_toNat allMem
  have addr : ∀ pf b, b < bitsOf allMem pf →
      (BitVec.ofNat 32 b * pgSize + (poolsOf allMem pf).phyAddrStart).toNat =
        4096 * b + (poolsOf allMem pf).phyAddrStart.toNat :=
    fun pf b small => frameAddr_toNat large small
  have kernel : (poolsOf allMem .kernel).phyAddrStart.toNat = 0x200000 := usedMem_toNat
  have user : (poolsOf allMem .user).phyAddrStart.toNat =
      0x200000 + 4096 * (kernelFreePages allMem).toNat := up
  unfold Frames.Covers
  rw [usedMem_toNat]
  constructor
  · rintro ⟨pf, b, small, same⟩
    have same := (addr pf b small).symm.trans same
    have small : b < bitsOf allMem pf := small
    cases pf with
    | kernel =>
        rw [kernel] at same
        exact .inl (by omega)
    | user =>
        rw [user] at same
        exact .inr ⟨by omega, by omega⟩
  · rintro (low | ⟨low, high⟩)
    · refine ⟨.kernel, page, low, (addr .kernel page low).trans ?_⟩
      rw [kernel]
      omega
    · refine ⟨.user, page - (kernelFreePages allMem).toNat, ?_, (addr .user _ ?_).trans ?_⟩
      · change _ < bitsOf allMem .user
        omega
      · omega
      · rw [user]
        omega

/-- If the count of pages does not wrap, the rounding of the bitmaps loses seven pages of each pool
at most. -/
theorem uncovered_small (large : 0x400000 ≤ allMem.toNat) (fits : wholePages allMem < 2 ^ 16) :
    ((memPoolInit allMem mem).uncovered allMem).ncard < 16 := by
  have sum := freePages_sum large
  rw [Nat.mod_eq_of_lt fits] at sum
  generalize rounds : (kernelFreePages allMem).toNat = k at sum
  have kernel : bitsOf allMem .kernel = 8 * (k / 8) := rounds ▸ rfl
  have user : bitsOf allMem .user = 8 * ((userFreePages allMem).toNat / 8) := rfl
  have subset : (memPoolInit allMem mem).uncovered allMem ⊆
      ↑(Finset.Ico (bitsOf allMem .kernel) k ∪
        Finset.Ico (k + bitsOf allMem .user) (wholePages allMem)) := by
    rintro page ⟨low, outside⟩
    rw [covers_iff large, rounds] at outside
    simp only [Finset.coe_union, Finset.coe_Ico, Set.mem_union, Set.mem_Ico]
    omega
  calc ((memPoolInit allMem mem).uncovered allMem).ncard
      ≤ (Finset.Ico (bitsOf allMem .kernel) k ∪
          Finset.Ico (k + bitsOf allMem .user) (wholePages allMem)).card := by
        rw [← Set.ncard_coe_finset]
        exact Set.ncard_le_ncard subset
    _ ≤ (k - bitsOf allMem .kernel) + (wholePages allMem - (k + bitsOf allMem .user)) := by
        rw [← Nat.card_Ico, ← Nat.card_Ico]
        exact Finset.card_union_le _ _
    _ < 16 := by omega

/-- If the count of pages wraps, all pages behind the counted ones are left out. -/
theorem uncovered_large (large : 0x400000 ≤ allMem.toNat) (wraps : 2 ^ 16 ≤ wholePages allMem) :
    2 ^ 16 ≤ ((memPoolInit allMem mem).uncovered allMem).ncard := by
  have sum := freePages_sum large
  have kernel := @bitsOf_kernel allMem
  have user := @bitsOf_user allMem
  have subset : (↑(Finset.Ico (wholePages allMem % 2 ^ 16) (wholePages allMem)) : Set Nat) ⊆
      (memPoolInit allMem mem).uncovered allMem := by
    intro page inside
    rw [Finset.coe_Ico, Set.mem_Ico] at inside
    refine ⟨inside.2, fun covered => ?_⟩
    rw [covers_iff large] at covered
    omega
  have finite : ((memPoolInit allMem mem).uncovered allMem).Finite :=
    (Set.finite_Iio (wholePages allMem)).subset fun page member => member.1
  calc 2 ^ 16
      ≤ wholePages allMem - wholePages allMem % 2 ^ 16 := by omega
    _ = (↑(Finset.Ico (wholePages allMem % 2 ^ 16) (wholePages allMem)) : Set Nat).ncard := by
        rw [Set.ncard_coe_finset, Nat.card_Ico]
    _ ≤ ((memPoolInit allMem mem).uncovered allMem).ncard := Set.ncard_le_ncard subset finite

/-- The bitmaps have fewer bytes than the pages between their base and the main thread. -/
theorem bitmaps_fit (large : 0x400000 ≤ allMem.toNat) :
    memBitmapBase + kbmLength allMem + ubmLength allMem + kbmLength allMem ≤ memBitmapEnd := by
  obtain ⟨kernel, user⟩ := freePages_toNat large
  have pages : Paging.allFreePages allMem.toNat < 2 ^ 16 := Nat.mod_lt _ (by decide)
  rw [Paging.userFreePages] at user
  rw [Paging.kernelFreePages] at kernel user
  unfold kbmLength ubmLength memBitmapBase memBitmapEnd
  omega

/-- The three bitmaps follow each other. -/
theorem bitmapRanges_apart :
    (memPoolInit allMem mem).bitmapRanges.Pairwise Disjoint := by
  have behind : ∀ a b c d : Nat, b ≤ c → Disjoint (Set.Ico a b) (Set.Ico c d) := by
    intro a b c d after
    rw [Set.disjoint_left]
    intro x first second
    exact absurd (first.2.trans_le after) (Nat.not_lt.mpr second.1)
  rw [Frames.bitmapRanges, List.pairwise_cons, List.pairwise_cons]
  refine ⟨fun range member => ?_, fun range member => ?_, List.pairwise_singleton _ _⟩
  · rcases List.mem_pair.mp member with rfl | rfl
    · exact behind _ _ _ _ (Nat.le_refl _)
    · exact behind _ _ _ _ (Nat.le_add_right _ _)
  · rw [List.mem_singleton.mp member]
    exact behind _ _ _ _ (Nat.le_refl _)

theorem bitmapRanges_inside (large : 0x400000 ≤ allMem.toNat) :
    ∀ range ∈ (memPoolInit allMem mem).bitmapRanges,
      range ⊆ Set.Ico memBitmapBase memBitmapEnd := by
  have fit := @bitmaps_fit allMem large
  intro range member
  simp only [Frames.bitmapRanges, List.mem_cons, List.not_mem_nil, or_false] at member
  rcases member with rfl | rfl | rfl
  · refine Set.Ico_subset_Ico (Nat.le_refl _) ?_
    change memBitmapBase + kbmLength allMem ≤ memBitmapEnd
    omega
  · refine Set.Ico_subset_Ico (Nat.le_add_right _ _) ?_
    change memBitmapBase + kbmLength allMem + ubmLength allMem ≤ memBitmapEnd
    omega
  · refine Set.Ico_subset_Ico ?_ fit
    change memBitmapBase ≤ memBitmapBase + kbmLength allMem + ubmLength allMem
    omega

/-- **The division of memory.** Between 4 and 512 megabytes, `mem_pool_init` leaves out fewer than
sixteen of the whole pages and lays the bitmaps apart if and only if there are fewer than 2¹⁶ whole
pages. -/
theorem memPoolInit_laidOut_iff (large : 0x400000 ≤ allMem.toNat)
    (supported : allMem.toNat ≤ 0x20000000) :
    (memPoolInit allMem mem).LaidOut allMem ↔ allMem.toNat < 0x10200000 := by
  have fits : wholePages allMem < 2 ^ 16 ↔ allMem.toNat < 0x10200000 := by
    rw [wholePages, usedMem_toNat]
    omega
  rw [← fits]
  constructor
  · intro laidOut
    by_contra wraps
    have many := @uncovered_large allMem mem large (Nat.not_lt.mp wraps)
    have few := laidOut.covers
    omega
  · exact fun fits =>
      ⟨uncovered_small large fits, bitmapRanges_inside large, bitmapRanges_apart⟩

end

/-- A machine with 32 megabytes. -/
theorem memPoolInit_laidOut_small : (memPoolInit 0x2000000 Memory.zeros).LaidOut 0x2000000 :=
  (memPoolInit_laidOut_iff (by decide) (by decide)).mpr (by decide)

/-- The largest supported memory: half of it is not in the pools. -/
theorem memPoolInit_wraps : ¬ (memPoolInit 0x20000000 Memory.zeros).LaidOut 0x20000000 := by
  intro laidOut
  have many := @uncovered_large 0x20000000 Memory.zeros (by decide) (by decide)
  have few := laidOut.covers
  omega

end UKernel.PhysicalPools
