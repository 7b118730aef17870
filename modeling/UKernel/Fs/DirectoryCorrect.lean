import UKernel.Fs.DirectoryInsert

/-! # A directory after an insertion

After `sync_dir_entry` the search finds the new entry, and every entry it found before, if and
only if the name leaves room for a zero byte and no entry of the indirect blocks is lost
(`UKernel.Fs.sync_dir_entry_correct`).
-/

namespace UKernel.Fs

open UKernel.Library

variable {part : Partition}

/-- The number of entries. -/
def liveCount (said : Pos → Option DirEntry) : Nat :=
  (Finset.univ.filter fun pos => (said pos).isSome).card

/-- A directory has room for 2940 entries. -/
theorem liveCount_le (said : Pos → Option DirEntry) : liveCount said ≤ 2940 :=
  le_trans (Finset.card_filter_le _ _) (le_of_eq (by simp))

/-- A well-formed directory: its blocks are its own, its free slots are blank, its entries are
typed and have different names, and its size counts them. -/
structure WfDir (disk : Memory) (btmp : Bitmap part.blockBitmapBytes) (inode : Inode) : Prop where
  owns : OwnsBlocks disk btmp inode
  readable : Readable disk inode
  nonempty : ∀ pos entry, entries disk inode pos = some entry → entry.filename 0 ≠ 0
  unique : ∀ pos pos' entry entry' name, entries disk inode pos = some entry →
    entries disk inode pos' = some entry' → name ≠ [] → 0 ∉ name → entry.HasName name →
    entry'.HasName name → pos = pos'
  size : inode.iSize.toNat = 24 * liveCount (entries disk inode)

/-- The direct blocks have no room, and the table of indirect blocks leads to an entry. -/
def LosesTable (disk : Memory) (inode : Inode) : Prop :=
  DirectFull disk inode ∧ ∃ pos : Pos, 12 ≤ pos.1.val ∧ entries disk inode pos ≠ none

/-- Every name that was found before is found, with the same inode number and type. -/
def KeepsNames (s s' : FsState part) (dir : Ptr) : Prop :=
  ∀ name ≠ [], 0 ∉ name → ∀ entry, (searchDirEntry dir name).run s = .ok (some entry, s) →
    ∃ entry', (searchDirEntry dir name).run s' = .ok (some entry', s') ∧
      entry'.iNo = entry.iNo ∧ entry'.fType = entry.fType

/-- The new name is found with its inode number and type, every name of before is found, and
the size grew by one entry. -/
def InsertCorrect (s s' : FsState part) (dir : Ptr) (name : List Byte) (inodeNo fileType : Word) :
    Prop :=
  (∃ entry, (searchDirEntry dir name).run s' = .ok (some entry, s') ∧ entry.iNo = inodeNo ∧
    entry.fType = fileType) ∧
  KeepsNames s s' dir ∧
  ∃ inode inode', s.inodes dir = some inode ∧ s'.inodes dir = some inode' ∧
    inode'.iSize = inode.iSize + 24

section Correct

variable {s s' : FsState part} {dir : Ptr} {disk : Memory} {inode inode' base : Inode} {pos : Pos}
  {pDe : DirEntry} {name : List Byte} {inodeNo fileType : Word}

theorem created_typed (typed : fileType = ftRegular ∨ fileType = ftDirectory)
    (created : createDirEntry name inodeNo fileType .blank = .ok pDe) : pDe.Typed := by
  obtain ⟨-, -, type, -⟩ := createDirEntry_returns created
  rw [DirEntry.Typed, type]
  exact typed

/-- The search for a name is a matter of what is said. -/
theorem search_run (live : s.inodes dir = some inode) :
    (searchDirEntry dir name).run s = .ok (searchBlocks s.disk inode name, s) :=
  searchDirEntry_returns.mpr ⟨inode, live, rfl, rfl⟩

/-- The directory without its table says less. -/
theorem base_said (either : (base = inode ∧ pos.1.val < 12) ∨
    (DirectFull disk inode ∧ base = inode.detach)) {pos' : Pos} {entry : DirEntry}
    (there : entries disk base pos' = some entry) : entries disk inode pos' = some entry := by
  rcases either with ⟨rfl, -⟩ | ⟨-, rfl⟩
  · exact there
  · rw [detach_entries] at there
    split at there
    · exact there
    · cases there

/-- If no entry is lost with the table, the directory says the same without it. -/
theorem base_entries (either : (base = inode ∧ pos.1.val < 12) ∨
    (DirectFull disk inode ∧ base = inode.detach)) (keeps : ¬ LosesTable disk inode) :
    entries disk base = entries disk inode := by
  rcases either with ⟨rfl, -⟩ | ⟨full, rfl⟩
  · rfl
  · funext pos'
    rw [detach_entries]
    by_cases direct : pos'.1.val < 12
    · rw [if_pos direct]
    · rw [if_neg direct]
      by_contra there
      exact keeps ⟨full, pos', by omega, fun none => there none.symm⟩

/-- An entry in the indirect blocks is not found after the table was replaced. -/
theorem table_lost (wf : WfDir s.disk s.blockBitmap inode) (live : s.inodes dir = some inode)
    (clean : 0 ∉ name)
    (absent : ∀ pos entry, entries s.disk inode pos = some entry → ¬ entry.HasName name)
    (named : pDe.HasName name)
    (either : (base = inode ∧ pos.1.val < 12) ∨ (DirectFull s.disk inode ∧ base = inode.detach))
    (inserted : Inserted s s' dir base inode' pos pDe) (live' : s'.inodes dir = some inode')
    (loses : LosesTable s.disk inode) : ¬ KeepsNames s s' dir := by
  obtain ⟨full, lost, indirect, there⟩ := loses
  obtain ⟨entry, said⟩ := Option.ne_none_iff_exists'.mp there
  obtain ⟨old, nonempty', clean', has⟩ :=
    (wf.readable.typed lost entry said).exists_name (wf.nonempty lost entry said)
  intro kept
  have before : searchBlocks s.disk inode old = some entry :=
    wf.readable.search_finds lost
      (fun pos' entry' said' has' => wf.unique pos' lost entry' entry old said' said nonempty'
        clean' has' has) nonempty' clean' said has
  obtain ⟨entry', after, -⟩ := kept old nonempty' clean' entry (by rw [search_run live, before])
  rw [search_run live'] at after
  obtain ⟨pos', said', has'⟩ := inserted.readable.search_sound nonempty' clean'
    (congrArg Prod.fst (Except.ok.inj after))
  rw [inserted.entries_eq] at said'
  by_cases here : pos' = pos
  · rw [here, Function.update_self] at said'
    cases said'
    exact absent lost entry said (DirEntry.HasName.unique clean' clean has' named ▸ has)
  · rw [Function.update_of_ne here] at said'
    have same := wf.unique pos' lost entry' entry old (base_said either said') said nonempty' clean'
      has' has
    rcases either with ⟨rfl, direct⟩ | ⟨-, rfl⟩
    · exact full pos direct inserted.was_free
    · rw [same, detach_entries, if_neg (by omega)] at said'
      cases said'

/-- **Inserting an entry.** For every well-formed directory and every new name, when
`sync_dir_entry` returns true the search finds the new entry and every entry of before, and the
size grew, if and only if the name leaves room for a zero byte (or the inode number supplies
one) and no entry of the indirect blocks is lost with a table that is replaced. -/
theorem sync_dir_entry_correct (live : s.inodes dir = some inode)
    (wf : WfDir s.disk s.blockBitmap inode) (nonempty : name ≠ []) (clean : 0 ∉ name)
    (typed : fileType = ftRegular ∨ fileType = ftDirectory)
    (created : createDirEntry name inodeNo fileType .blank = .ok pDe)
    (absent : (searchDirEntry dir name).run s = .ok (none, s))
    (ran : (syncDirEntry dir pDe).run s = .ok (true, s')) :
    InsertCorrect s s' dir name inodeNo fileType ↔
      (name.length = 16 → inodeNo.toNat % 256 = 0) ∧ ¬ LosesTable s.disk inode := by
  obtain ⟨base, inode', pos, either, inserted⟩ :=
    syncDirEntry_inserted (created_typed typed created) live wf.owns wf.readable ran
  have live' := inserted.object
  rw [search_run live] at absent
  have unnamed := (wf.readable.search_none nonempty clean).mp
    (congrArg Prod.fst (Except.ok.inj absent))
  rw [← created_hasName created]
  constructor
  · intro correct
    obtain ⟨⟨entry, found, -⟩, kept, -⟩ := correct
    rw [search_run live'] at found
    obtain ⟨pos', said, has⟩ := inserted.readable.search_sound nonempty clean
      (congrArg Prod.fst (Except.ok.inj found))
    have named : pDe.HasName name := by
      rw [inserted.entries_eq] at said
      by_cases here : pos' = pos
      · rw [here, Function.update_self] at said
        cases said
        exact has
      · rw [Function.update_of_ne here] at said
        exact absurd has (unnamed pos' entry (base_said either said))
    exact ⟨named, fun loses =>
      table_lost wf live clean unnamed named either inserted live' loses kept⟩
  · intro both
    obtain ⟨named, keeps⟩ := both
    have said := inserted.entries_eq
    rw [base_entries either keeps] at said
    have was_free := inserted.was_free
    rw [base_entries either keeps] at was_free
    have here : entries s'.disk inode' pos = some pDe := by
      rw [said, Function.update_self]
    obtain ⟨-, number, type, -⟩ := createDirEntry_returns created
    refine ⟨⟨pDe, ?_, number, type⟩, ?_, inode, inode', live, live', ?_⟩
    · rw [search_run live', inserted.readable.search_finds pos ?_ nonempty clean here named]
      intro pos' entry' there has
      by_contra apart
      rw [said, Function.update_of_ne apart] at there
      exact unnamed pos' entry' there has
    · intro old nonempty' clean' entry found
      rw [search_run live] at found
      obtain ⟨pos₁, there, has⟩ := wf.readable.search_sound nonempty' clean'
        (congrArg Prod.fst (Except.ok.inj found))
      have apart : pos₁ ≠ pos := by
        rintro rfl
        rw [was_free] at there
        cases there
      refine ⟨entry, ?_, rfl, rfl⟩
      rw [search_run live', inserted.readable.search_finds pos₁ ?_ nonempty' clean' ?_ has]
      · intro pos' entry' there' has'
        rw [said] at there'
        by_cases new : pos' = pos
        · rw [new, Function.update_self] at there'
          cases there'
          have same := DirEntry.HasName.unique clean' clean has' named
          exact absurd (same ▸ has) (unnamed pos₁ entry there)
        · rw [Function.update_of_ne new] at there'
          exact wf.unique pos' pos₁ entry' entry old there' there nonempty' clean' has' has
      · rw [said, Function.update_of_ne apart, there]
    · rw [inserted.iSize_eq]
      rcases either with ⟨rfl, -⟩ | ⟨-, rfl⟩
      · rfl
      · rfl

end Correct

/-! ## Two directories -/

/-- The entry of a regular file with inode 5. -/
def regularEntry (name : List Byte) : DirEntry where
  filename i := name.getD i 0
  iNo := 5
  fType := ftRegular

/-- A directory that has no block yet. -/
def newDirectory : FsState somePartition :=
  { blankState with inodes := fun _ => some (inodeInit 1) }

theorem regularEntry_created {name : List Byte} (short : name.length ≤ 16) :
    createDirEntry name 5 ftRegular .blank = .ok (regularEntry name) := by
  rw [createDirEntry, require_of short, except_ok_bind, except_pure_eq]
  unfold regularEntry DirEntry.blank
  congr 2
  funext i
  by_cases inside : i.val < name.length
  · rw [dif_pos inside, List.getD_eq_getElem name 0 inside]
    rfl
  · rw [dif_neg inside, List.getD_eq_default name 0 (by omega)]

theorem newDirectory_absent (k : Nat) : allBlocks newDirectory.disk (inodeInit 1) k = 0 := by
  by_cases direct : k < 12
  · rw [allBlocks_direct direct]
    simp [Inode.sector, inodeInit]
  · exact allBlocks_noTable (by omega) rfl

theorem newDirectory_silent (pos : Pos) : entries newDirectory.disk (inodeInit 1) pos = none :=
  entries_absent (newDirectory_absent pos.1)

theorem newDirectory_wf :
    WfDir newDirectory.disk newDirectory.blockBitmap (inodeInit 1) := by
  have unused : ∀ k ≤ 140, ownBlock newDirectory.disk (inodeInit 1) k = 0 := by
    intro k small
    by_cases last : k = 140
    · rw [last, ownBlock_table]
      rfl
    · rw [ownBlock_of_lt (by omega), newDirectory_absent]
  constructor
  · exact ⟨fun k small _ _ used => absurd (unused k small) used,
      fun k small used => absurd (unused k small) used⟩
  · exact ⟨fun pos present => absurd (newDirectory_absent pos.1) present,
      fun pos entry there => by rw [newDirectory_silent] at there; cases there⟩
  · intro pos entry there
    rw [newDirectory_silent] at there
    cases there
  · intro pos _ entry _ _ there
    rw [newDirectory_silent] at there
    cases there
  · have none : liveCount (entries newDirectory.disk (inodeInit 1)) = 0 := by
      rw [liveCount, Finset.card_eq_zero, Finset.filter_eq_empty_iff]
      intro pos _
      rw [newDirectory_silent]
      simp
    rw [none]
    rfl

/-! A directory whose twelve direct blocks hold as many entries each, at most 21; with so many, its
table leads to one more. Block `k` of the directory is block `k + 1` of the partition, and the table
is block 14. -/

/-- The name at a position: two bytes that number the block and the slot. -/
def packedName (b i : Nat) : List Byte :=
  [BitVec.ofNat 8 (b + 1), BitVec.ofNat 8 (i + 1)]

/-- The block and slot hold an entry. -/
def Packed (n b i : Nat) : Prop :=
  (b < 12 ∧ i < n) ∨ (b = 12 ∧ i < n - 20)

instance (n b i : Nat) : Decidable (Packed n b i) :=
  inferInstanceAs (Decidable ((b < 12 ∧ i < n) ∨ (b = 12 ∧ i < n - 20)))

/-- The bytes of a block of the data area. -/
def packedBlock (n bitIdx : Nat) : Memory := fun off =>
  if bitIdx = 14 then tableWith 0 (blockOfBit somePartition 13) off
  else if 1 ≤ bitIdx ∧ Packed n (bitIdx - 1) (off / 24) then
    (regularEntry (packedName (bitIdx - 1) (off / 24))).image (off % 24)
  else 0

/-- The inode of the directory. -/
def packedInode (n : Nat) : Inode where
  iNo := 1
  iSize := BitVec.ofNat 32 (24 * (12 * n + (n - 20)))
  iOpenCnts := 1
  writeDeny := false
  iSectors k := if k.val < 12 then blockOfBit somePartition (k + 1) else blockOfBit somePartition 14

/-- A partition with this directory. -/
def packedDirectory (n : Nat) : FsState somePartition :=
  { blankState with
    disk := fun i => if 2664 ≤ i / 512 then packedBlock n (i / 512 - 2664) (i % 512) else 0
    blockBitmap := ⟨fun i => if i = 0 then 0xff else if i = 1 then 0x7f else 0⟩
    inodes := fun _ => some (packedInode n) }

section Packed

variable {n : Nat}

theorem somePartition_data : somePartition.sb.dataStartLba = 2664 := by
  decide

theorem somePartition_sects : somePartition.sb.blockBitmapSects = 5 := by
  decide

theorem packed_read {bitIdx off : Nat} (small : bitIdx < 15) (inside : off < 512) :
    ideRead (packedDirectory n).disk (blockOfBit somePartition bitIdx).toNat off =
      packedBlock n bitIdx off := by
  rw [blockOfBit_toNat (by rw [somePartition_sects]; omega), somePartition_data, ideRead]
  change (if 2664 ≤ (512 * (2664 + bitIdx) + off) / 512 then
    packedBlock n ((512 * (2664 + bitIdx) + off) / 512 - 2664) ((512 * (2664 + bitIdx) + off) % 512)
    else 0) = _
  rw [if_pos (by omega), show (512 * (2664 + bitIdx) + off) / 512 - 2664 = bitIdx by omega,
    show (512 * (2664 + bitIdx) + off) % 512 = off by omega]

theorem packed_sector {k : Nat} (small : k ≤ 12) : (packedInode n).sector k =
    if k < 12 then blockOfBit somePartition (k + 1) else blockOfBit somePartition 14 := by
  rw [Inode.sector, dif_pos (by omega)]
  rfl

theorem packed_nonzero {bitIdx : Nat} (small : bitIdx < 15) :
    blockOfBit somePartition bitIdx ≠ 0 :=
  blockOfBit_ne_zero (by rw [somePartition_sects]; omega)

theorem packed_allBlocks {k : Nat} (small : k < 140) :
    allBlocks (packedDirectory n).disk (packedInode n) k =
      if k < 13 then blockOfBit somePartition (k + 1) else 0 := by
  by_cases direct : k < 12
  · rw [allBlocks_direct direct, packed_sector (by omega), if_pos direct, if_pos (by omega)]
  · have table : (packedInode n).sector 12 = blockOfBit somePartition 14 := by
      rw [packed_sector (by omega), if_neg (by omega)]
    have read : getWord (ideRead (packedDirectory n).disk (blockOfBit somePartition 14).toNat)
        (4 * (k - 12)) = getWord (tableWith 0 (blockOfBit somePartition 13)) (4 * (k - 12)) := by
      apply getWord_congr
      intro j less
      rw [packed_read (by omega) (by omega), packedBlock, if_pos rfl]
    rw [allBlocks_table (by omega) (by rw [table]; exact packed_nonzero (by omega)), table, read,
      getWord_tableWith]
    by_cases first : k = 12
    · rw [if_pos (by omega), if_pos (by omega), first]
    · rw [if_neg (by omega), if_neg (by omega)]

theorem packed_slot {b i k : Nat} (block : b < 13) (slot : i < 21) (small : k < 24) :
    ideRead (packedDirectory n).disk (blockOfBit somePartition (b + 1)).toNat (24 * i + k) =
      if Packed n b i then (regularEntry (packedName b i)).image k else 0 := by
  rw [packed_read (by omega) (by omega), packedBlock, if_neg (by omega), Nat.add_sub_cancel,
    show (24 * i + k) / 24 = i by omega, show (24 * i + k) % 24 = k by omega]
  simp

theorem packed_entries (pos : Pos) : entries (packedDirectory n).disk (packedInode n) pos =
    if Packed n pos.1 pos.2 then some (regularEntry (packedName pos.1 pos.2)) else none := by
  have all := packed_allBlocks (n := n) pos.1.isLt
  by_cases block : pos.1.val < 13
  · rw [if_pos block] at all
    have present : allBlocks (packedDirectory n).disk (packedInode n) pos.1 ≠ 0 := by
      rw [all]
      exact packed_nonzero (by omega)
    have slot : ∀ k < 24, slotBuf (packedDirectory n).disk (packedInode n) pos k =
        if Packed n pos.1 pos.2 then (regularEntry (packedName pos.1 pos.2)).image k else 0 := by
      intro k small
      rw [slotBuf, all, Memory.shift, packed_slot block pos.2.isLt small]
    rw [entries_present present]
    by_cases here : Packed n pos.1 pos.2
    · have loaded : DirEntry.load (slotBuf (packedDirectory n).disk (packedInode n) pos) =
          regularEntry (packedName pos.1 pos.2) := by
        rw [← DirEntry.load_image (regularEntry (packedName pos.1 pos.2))]
        apply DirEntry.load_congr
        intro k small
        rw [slot k small, if_pos here]
      rw [loaded, if_pos here]
      exact if_neg (show ftRegular ≠ ftUnknown by decide)
    · have loaded : DirEntry.load (slotBuf (packedDirectory n).disk (packedInode n) pos) =
          DirEntry.load Memory.zeros := by
        apply DirEntry.load_congr
        intro k small
        rw [slot k small, if_neg here]
        rfl
      rw [loaded, if_neg here, if_pos]
      rfl
  · rw [if_neg block] at all
    rw [entries_absent all, if_neg]
    unfold Packed
    omega

theorem packed_ownBlock {k : Nat} (small : k ≤ 140) :
    ownBlock (packedDirectory n).disk (packedInode n) k =
      if k < 13 then blockOfBit somePartition (k + 1)
      else if k = 140 then blockOfBit somePartition 14 else 0 := by
  by_cases last : k = 140
  · rw [last, ownBlock_table, packed_sector (by omega)]
    rfl
  · rw [ownBlock_of_lt (by omega), packed_allBlocks (by omega), if_neg last]

theorem packed_owns :
    OwnsBlocks (packedDirectory n).disk (packedDirectory n).blockBitmap (packedInode n) := by
  have bits : ∀ bitIdx < 15, (packedDirectory 0).blockBitmap.test bitIdx = true := by
    decide
  have own : ∀ k ≤ 140, ownBlock (packedDirectory n).disk (packedInode n) k ≠ 0 →
      ∃ bitIdx < 15, ownBlock (packedDirectory n).disk (packedInode n) k =
        blockOfBit somePartition bitIdx ∧
          ((k < 13 ∧ bitIdx = k + 1) ∨ (k = 140 ∧ bitIdx = 14)) := by
    intro k small used
    rw [packed_ownBlock small] at used ⊢
    by_cases direct : k < 13
    · exact ⟨k + 1, by omega, if_pos direct, .inl ⟨direct, rfl⟩⟩
    · rw [if_neg direct] at used ⊢
      by_cases last : k = 140
      · exact ⟨14, by omega, if_pos last, .inr ⟨last, rfl⟩⟩
      · rw [if_neg last] at used
        exact absurd rfl used
  constructor
  · intro k small k' small' used same
    obtain ⟨bitIdx, less, is, place⟩ := own k small used
    obtain ⟨bitIdx', less', is', place'⟩ := own k' small' (same ▸ used)
    rw [is, is', blockOfBit_inj (by rw [somePartition_sects]; omega)
      (by rw [somePartition_sects]; omega)] at same
    omega
  · intro k small used
    obtain ⟨bitIdx, less, is, -⟩ := own k small used
    exact ⟨bitIdx, by rw [somePartition_sects]; omega, is, bits bitIdx less⟩

theorem packed_some {pos : Pos} {entry : DirEntry}
    (there : entries (packedDirectory n).disk (packedInode n) pos = some entry) :
    pos.1.val < 13 ∧ entry = regularEntry (packedName pos.1 pos.2) := by
  rw [packed_entries] at there
  by_cases here : Packed n pos.1 pos.2
  · rw [if_pos here] at there
    cases there
    exact ⟨by unfold Packed at here; omega, rfl⟩
  · rw [if_neg here] at there
    cases there

/-- A name determines the position of its entry. -/
theorem packed_unique {b i b' i' : Nat} {name : List Byte} (small : b < 13) (small' : b' < 13)
    (less : i < 21) (less' : i' < 21) (nonempty : name ≠ [])
    (has : (regularEntry (packedName b i)).HasName name)
    (has' : (regularEntry (packedName b' i')).HasName name) : b = b' ∧ i = i' := by
  have byte : ∀ n < 21, (BitVec.ofNat 8 (n + 1)).toNat = n + 1 := by
    intro n bound
    rw [BitVec.toNat_ofNat, Nat.mod_eq_of_lt (by omega)]
  obtain ⟨chars, ends⟩ := strEq_iff.mp has
  obtain ⟨chars', -⟩ := strEq_iff.mp has'
  have one : 0 < name.length := List.length_pos_iff.mpr nonempty
  have two : 1 < name.length := by
    by_contra short
    have last : name.length = 1 := by omega
    rw [last] at ends
    have zero := congrArg BitVec.toNat (show BitVec.ofNat 8 (i + 1) = 0 from ends)
    rw [byte i less] at zero
    exact absurd zero (Nat.succ_ne_zero i)
  have first : BitVec.ofNat 8 (b + 1) = BitVec.ofNat 8 (b' + 1) :=
    (chars 0 one).trans (chars' 0 one).symm
  have second : BitVec.ofNat 8 (i + 1) = BitVec.ofNat 8 (i' + 1) :=
    (chars 1 two).trans (chars' 1 two).symm
  have blocks := congrArg BitVec.toNat first
  have slots := congrArg BitVec.toNat second
  rw [byte b (by omega), byte b' (by omega)] at blocks
  rw [byte i less, byte i' less'] at slots
  omega

/-- The directory is well formed, if its size counts its entries. -/
theorem packed_wf (count : (Finset.univ.filter fun pos : Pos => Packed n pos.1 pos.2).card =
      12 * n + (n - 20)) (few : n ≤ 21) :
    WfDir (packedDirectory n).disk (packedDirectory n).blockBitmap (packedInode n) := by
  refine ⟨packed_owns, ⟨?_, ?_⟩, ?_, ?_, ?_⟩
  · intro pos present free
    rw [packed_allBlocks pos.1.isLt] at present
    rw [packed_entries] at free
    by_cases block : pos.1.val < 13
    · have unpacked : ¬ Packed n pos.1 pos.2 := by
        intro here
        rw [if_pos here] at free
        cases free
      rw [slotBuf, packed_allBlocks pos.1.isLt, if_pos block, Memory.shift,
        packed_slot block pos.2.isLt (by decide), if_neg unpacked]
    · rw [if_neg block] at present
      exact absurd rfl present
  · intro pos entry there
    obtain ⟨-, rfl⟩ := packed_some there
    exact .inl rfl
  · intro pos entry there
    obtain ⟨small, rfl⟩ := packed_some there
    intro zero
    have number := congrArg BitVec.toNat (show BitVec.ofNat 8 (pos.1 + 1) = 0 from zero)
    rw [BitVec.toNat_ofNat, Nat.mod_eq_of_lt (by omega)] at number
    exact absurd number (Nat.succ_ne_zero _)
  · intro pos pos' entry entry' name there there' nonempty _ has has'
    obtain ⟨small, rfl⟩ := packed_some there
    obtain ⟨small', rfl⟩ := packed_some there'
    obtain ⟨block, slot⟩ :=
      packed_unique small small' pos.2.isLt pos'.2.isLt nonempty has has'
    exact Prod.ext (Fin.ext block) (Fin.ext slot)
  · have live : (fun pos : Pos =>
          (entries (packedDirectory n).disk (packedInode n) pos).isSome = true) =
        fun pos => Packed n pos.1 pos.2 := by
      funext pos
      rw [packed_entries]
      split
      · simpa
      · simpa
    rw [liveCount, Finset.filter_congr (fun pos _ => iff_of_eq (congrFun live pos)), count,
      packedInode, BitVec.toNat_ofNat]
    omega

/-- No entry has a name of one letter. -/
theorem packed_unnamed : ∀ pos entry,
    entries (packedDirectory n).disk (packedInode n) pos = some entry → ¬ entry.HasName [97] := by
  intro pos entry there
  obtain ⟨small, rfl⟩ := packed_some there
  intro has
  have first := (strEq_iff.mp has).1 0 (by decide)
  have number := congrArg BitVec.toNat (show BitVec.ofNat 8 (pos.1 + 1) = 97 from first)
  rw [BitVec.toNat_ofNat, Nat.mod_eq_of_lt (by omega)] at number
  have : pos.1.val + 1 = 97 := number
  omega

theorem packed_absent (wf : WfDir (packedDirectory n).disk (packedDirectory n).blockBitmap
      (packedInode n)) : (searchDirEntry (.kernel 0) [97]).run (packedDirectory n) =
    .ok (none, packedDirectory n) := by
  have nothing := (wf.readable.search_none (by decide) (by decide)).mpr packed_unnamed
  rw [search_run rfl, nothing]

theorem twenty_wf : WfDir (packedDirectory 20).disk (packedDirectory 20).blockBitmap
    (packedInode 20) :=
  packed_wf (by decide +kernel) (by decide)

/-- A directory of 240 entries, in each of whose blocks there is a place, keeps them with the new
one. -/
theorem sync_dir_entry_among : ∃ s', (syncDirEntry (.kernel 0) (regularEntry [97])).run
    (packedDirectory 20) = .ok (true, s') ∧
    InsertCorrect (packedDirectory 20) s' (.kernel 0) [97] 5 ftRegular := by
  have returned :
      valueOf (syncDirEntry (.kernel 0) (regularEntry [97])) (packedDirectory 20) = some true := by
    decide +kernel
  obtain ⟨s', ran⟩ := exists_of_valueOf returned
  have keeps : ¬ LosesTable (packedDirectory 20).disk (packedInode 20) := by
    rintro ⟨full, -⟩
    have last := full (0, 20) (by decide)
    rw [packed_entries, if_neg (by decide)] at last
    exact last rfl
  exact ⟨s', ran, (sync_dir_entry_correct rfl twenty_wf (by decide) (by decide) (.inl rfl)
    (regularEntry_created (by decide)) (packed_absent twenty_wf) ran).mpr ⟨by decide, keeps⟩⟩

theorem full_wf : WfDir (packedDirectory 21).disk (packedDirectory 21).blockBitmap
    (packedInode 21) :=
  packed_wf (by decide +kernel) (by decide)

theorem full_loses : LosesTable (packedDirectory 21).disk (packedInode 21) := by
  refine ⟨fun pos direct => ?_, (12, 0), by decide, ?_⟩
  · rw [packed_entries, if_pos (.inl ⟨direct, pos.2.isLt⟩)]
    exact Option.some_ne_none _
  · rw [packed_entries, if_pos (.inr ⟨rfl, by decide⟩)]
    exact Option.some_ne_none _

/-- One more entry makes the entry behind the table disappear. -/
theorem sync_dir_entry_loses_table :
    WfDir (packedDirectory 21).disk (packedDirectory 21).blockBitmap (packedInode 21) ∧
    (searchDirEntry (.kernel 0) [97]).run (packedDirectory 21) = .ok (none, packedDirectory 21) ∧
    ∃ s', (syncDirEntry (.kernel 0) (regularEntry [97])).run (packedDirectory 21) =
      .ok (true, s') ∧ ¬ InsertCorrect (packedDirectory 21) s' (.kernel 0) [97] 5 ftRegular := by
  have returned :
      valueOf (syncDirEntry (.kernel 0) (regularEntry [97])) (packedDirectory 21) = some true := by
    decide +kernel
  obtain ⟨s', ran⟩ := exists_of_valueOf returned
  have created : createDirEntry [97] 5 ftRegular .blank = .ok (regularEntry [97]) :=
    regularEntry_created (by decide)
  obtain ⟨base, inode', pos, either, inserted⟩ := syncDirEntry_inserted
    (created_typed (.inl rfl) created) rfl full_wf.owns full_wf.readable ran
  refine ⟨full_wf, packed_absent full_wf, s', ran, fun correct => ?_⟩
  exact table_lost full_wf rfl (by decide) packed_unnamed
    ((created_hasName created).mpr (by decide)) either inserted inserted.object full_loses
    correct.2.1

end Packed

end UKernel.Fs
