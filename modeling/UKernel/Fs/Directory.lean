import UKernel.Fs.Blocks

/-! # Directories

`dir.c`: a directory is a sequence of blocks of 21 entries of 24 bytes. `UKernel.Fs.entries` is
what a directory says, as a partial map from positions to entries; `search_dir_entry` finds
the entry of a name in it (`UKernel.Fs.Readable.search_finds`).
-/

namespace UKernel.Fs

open UKernel.Library

variable {part : Partition}

/-! ## Entries -/

/-- `MAX_FILE_NAME_LEN`. -/
abbrev maxFileNameLen : Nat := 16

/-- `FT_UNKNOWN`. -/
def ftUnknown : Word := 0

/-- `FT_REGULAR`. -/
def ftRegular : Word := 1

/-- `FT_DIRECTORY`. -/
def ftDirectory : Word := 2

/-- `struct dir_entry`. -/
structure DirEntry where
  filename : Fin 16 → Byte
  iNo : Word
  fType : Word

namespace DirEntry

/-- The bytes of a `struct dir_entry`. -/
def image (entry : DirEntry) : Memory := fun k =>
  if small : k < 16 then entry.filename ⟨k, small⟩
  else if k < 20 then wordByte entry.iNo (k - 16)
  else wordByte entry.fType (k - 20)

/-- The `struct dir_entry` whose bytes are in memory. -/
def load (m : Memory) : DirEntry where
  filename i := m i
  iNo := getWord m 16
  fType := getWord m 20

/-- The entry that `memset` leaves. -/
def blank : DirEntry where
  filename _ := 0
  iNo := 0
  fType := 0

/-- The string that starts at the file name of an entry is the given one. -/
def HasName (entry : DirEntry) (name : List Byte) : Prop :=
  strEq entry.image name = true

/-- Loading reads the 24 bytes of the entry only. -/
theorem load_congr {m m' : Memory} (same : ∀ k < 24, m k = m' k) : load m = load m' := by
  unfold load
  congr 1
  · funext i
    exact same i (by omega)
  · exact getWord_congr fun k small => same _ (by omega)
  · exact getWord_congr fun k small => same _ (by omega)

/-- Loading the image of an entry gives the entry. -/
theorem load_image (entry : DirEntry) : load entry.image = entry := by
  have number : getWord entry.image 16 = entry.iNo := by
    apply getWord_of_bytes
    intro k small
    rw [image, dif_neg (by omega), if_pos (by omega), Nat.add_sub_cancel_left]
  have type : getWord entry.image 20 = entry.fType := by
    apply getWord_of_bytes
    intro k small
    rw [image, dif_neg (by omega), if_neg (by omega), Nat.add_sub_cancel_left]
  unfold load
  rw [number, type]
  congr 1
  funext i
  rw [image, dif_pos i.isLt]

/-- The image of a loaded entry has the bytes it was loaded from. -/
theorem image_load {m : Memory} {k : Nat} (small : k < 24) : (load m).image k = m k := by
  unfold image load
  by_cases name : k < 16
  · rw [dif_pos name]
  · rw [dif_neg name]
    by_cases number : k < 20
    · rw [if_pos number, wordByte_getWord (by omega)]
      congr 1
      omega
    · rw [if_neg number, wordByte_getWord (by omega)]
      congr 1
      omega

/-- The type of an entry is one that a file can have. -/
def Typed (entry : DirEntry) : Prop :=
  entry.fType = ftRegular ∨ entry.fType = ftDirectory

/-- The string that starts at the file name ends inside the entry. -/
theorem Typed.ends {entry : DirEntry} (typed : entry.Typed) : entry.image 23 = 0 := by
  rw [image, dif_neg (by omega), if_neg (by omega)]
  rcases typed with is | is
  · rw [is]
    rfl
  · rw [is]
    rfl

theorem Typed.ne_unknown {entry : DirEntry} (typed : entry.Typed) :
    entry.fType ≠ ftUnknown := by
  rcases typed with is | is
  · rw [is]
    decide
  · rw [is]
    decide

/-- An entry has one name. -/
theorem HasName.unique {entry : DirEntry} {name name' : List Byte} (clean : 0 ∉ name)
    (clean' : 0 ∉ name') (has : entry.HasName name) (has' : entry.HasName name') :
    name = name' :=
  strEq_unique clean clean' has has'

/-- A name of an entry whose first byte is not zero. -/
theorem Typed.exists_name {entry : DirEntry} (typed : entry.Typed)
    (nonempty : entry.filename 0 ≠ 0) : ∃ name, name ≠ [] ∧ 0 ∉ name ∧ entry.HasName name := by
  obtain ⟨name, clean, equal, first⟩ := exists_strEq 23 typed.ends
  exact ⟨name, first nonempty, clean, equal⟩

end DirEntry

/-- `create_dir_entry`. -/
def createDirEntry (filename : List Byte) (inodeNo : Word) (fileType : Word) (pDe : DirEntry) :
    Except Fault DirEntry := do
  require (filename.length ≤ maxFileNameLen)
  return {
    filename := fun i => if inside : i.val < filename.length then filename[i] else pDe.filename i
    iNo := inodeNo
    fType := fileType }

section Create

variable {name : List Byte} {inodeNo fileType : Word} {entry : DirEntry}

theorem createDirEntry_returns (ran : createDirEntry name inodeNo fileType .blank = .ok entry) :
    name.length ≤ 16 ∧ entry.iNo = inodeNo ∧ entry.fType = fileType ∧
      (∀ i (inside : i < name.length), entry.image i = name[i]) ∧
      ∀ i < 16, name.length ≤ i → entry.image i = 0 := by
  obtain ⟨done, holds, rest⟩ := except_bind_eq_ok.mp ran
  have short : name.length ≤ 16 := require_eq_ok.mp holds
  cases rest
  refine ⟨short, rfl, rfl, fun i inside => ?_, fun i small outside => ?_⟩
  · rw [DirEntry.image, dif_pos (by omega)]
    exact dif_pos inside
  · rw [DirEntry.image, dif_pos small]
    exact dif_neg (by simp only [not_lt]; exact outside)

/-- A new entry is found under its name, unless the name fills the field and the inode number
supplies no zero byte after it. -/
theorem created_hasName (ran : createDirEntry name inodeNo fileType .blank = .ok entry) :
    entry.HasName name ↔ (name.length = 16 → inodeNo.toNat % 256 = 0) := by
  obtain ⟨short, number, -, chars, zeros⟩ := createDirEntry_returns ran
  rw [DirEntry.HasName, strEq_iff]
  have after : entry.image name.length = 0 ↔ (name.length = 16 → inodeNo.toNat % 256 = 0) := by
    by_cases full : name.length = 16
    · rw [full, DirEntry.image, dif_neg (by omega), if_pos (by omega), number,
        ← BitVec.toNat_inj, wordByte_toNat]
      simp
    · have zero := zeros name.length (by omega) (Nat.le_refl _)
      simp [zero, full]
  rw [after]
  exact and_iff_right chars

end Create

/-! ## What a directory says -/

/-- The place of an entry: its block, and its place in the block. -/
abbrev Pos := Fin 140 × Fin 21

/-- The bytes at a position of a directory. -/
def slotBuf (disk : Memory) (inode : Inode) (pos : Pos) : Memory :=
  (ideRead disk (allBlocks disk inode pos.1).toNat).shift (24 * pos.2)

/-- The entries of a directory, by position. -/
def entries (disk : Memory) (inode : Inode) (pos : Pos) : Option DirEntry :=
  if allBlocks disk inode pos.1 = 0 then none
  else
    let entry := DirEntry.load (slotBuf disk inode pos)
    if entry.fType = ftUnknown then none else some entry

section Entries

variable {disk disk' : Memory} {inode inode' : Inode} {pos : Pos} {entry : DirEntry}
  {name : List Byte} {said : Pos → Option DirEntry}

theorem entries_absent (absent : allBlocks disk inode pos.1 = 0) : entries disk inode pos = none :=
  if_pos absent

theorem entries_present (present : allBlocks disk inode pos.1 ≠ 0) :
    entries disk inode pos = if (DirEntry.load (slotBuf disk inode pos)).fType = ftUnknown then none
      else some (DirEntry.load (slotBuf disk inode pos)) :=
  if_neg present

theorem entries_some (there : entries disk inode pos = some entry) :
    allBlocks disk inode pos.1 ≠ 0 ∧ entry = DirEntry.load (slotBuf disk inode pos) := by
  by_cases absent : allBlocks disk inode pos.1 = 0
  · rw [entries_absent absent] at there
    cases there
  · rw [entries_present absent] at there
    by_cases unknown : (DirEntry.load (slotBuf disk inode pos)).fType = ftUnknown
    · rw [if_pos unknown] at there
      cases there
    · rw [if_neg unknown] at there
      cases there
      exact ⟨absent, rfl⟩

/-- An entry depends on its block only. -/
theorem entries_congr (same : allBlocks disk' inode' pos.1 = allBlocks disk inode pos.1)
    (block : allBlocks disk inode pos.1 ≠ 0 →
      SameBlock disk disk' (allBlocks disk inode pos.1)) :
    entries disk' inode' pos = entries disk inode pos := by
  by_cases absent : allBlocks disk inode pos.1 = 0
  · rw [entries_absent absent, entries_absent (same.trans absent)]
  · have loaded : DirEntry.load (slotBuf disk' inode' pos) =
        DirEntry.load (slotBuf disk inode pos) := by
      apply DirEntry.load_congr
      intro k small
      rw [slotBuf, slotBuf, same]
      exact (block absent _ (by have := pos.2.isLt; omega)).symm
    rw [entries_present absent, entries_present (by rwa [same]), loaded]

end Entries

/-! ## Searching -/

/-- The loop of `search_dir_entry` over the entries of a sector. -/
def searchBlock (buf : Memory) (name : List Byte) : Option DirEntry :=
  (List.range 21).findSome? fun dirEntryIdx =>
    let pDe := buf.shift (24 * dirEntryIdx)
    if strEq pDe name then some (DirEntry.load pDe) else none

/-- The loop of `search_dir_entry` over the blocks. -/
def searchBlocks (disk : Memory) (inode : Inode) (name : List Byte) : Option DirEntry :=
  (List.range 140).findSome? fun blockIdx =>
    let block := allBlocks disk inode blockIdx
    if block = 0 then none else searchBlock (ideRead disk block.toNat) name

/-- `search_dir_entry`; the entry it finds is the value. -/
def searchDirEntry (dir : Ptr) (name : List Byte) : FsCall part (Option DirEntry) := do
  let inode ← deref dir
  let s ← get
  return searchBlocks s.disk inode name

section Search

variable {s s' : FsState part} {dir : Ptr} {disk : Memory} {inode : Inode} {pos : Pos}
  {entry : DirEntry} {name : List Byte}

@[simp] theorem searchDirEntry_returns {found : Option DirEntry} :
    (searchDirEntry dir name).run s = .ok (found, s') ↔
      ∃ inode, s.inodes dir = some inode ∧ searchBlocks s.disk inode name = found ∧ s = s' := by
  rw [searchDirEntry, call_bind_returns]
  constructor
  · intro ran
    obtain ⟨inode, middle, read, ran⟩ := ran
    obtain ⟨live, rfl⟩ := deref_returns.mp read
    rw [call_bind_of (call_get_returns.mpr ⟨rfl, rfl⟩), call_pure_returns] at ran
    exact ⟨inode, live, ran⟩
  · intro is
    obtain ⟨inode, live, found, rfl⟩ := is
    refine ⟨inode, s, deref_returns.mpr ⟨live, rfl⟩, ?_⟩
    rw [call_bind_of (call_get_returns.mpr ⟨rfl, rfl⟩), call_pure_returns]
    exact ⟨found, rfl⟩

/-- Every free slot of a directory is blank, and every entry is typed. -/
structure Readable (disk : Memory) (inode : Inode) : Prop where
  blank : ∀ pos : Pos, allBlocks disk inode pos.1 ≠ 0 → entries disk inode pos = none →
    slotBuf disk inode pos 0 = 0
  typed : ∀ pos entry, entries disk inode pos = some entry → entry.Typed

/-- Comparing the file name in a slot with a string is comparing the name of its entry. -/
theorem Readable.slot_matches (readable : Readable disk inode)
    (present : allBlocks disk inode pos.1 ≠ 0) (nonempty : name ≠ []) (clean : 0 ∉ name) :
    strEq (slotBuf disk inode pos) name = true ↔
      ∃ entry, entries disk inode pos = some entry ∧ entry.HasName name := by
  cases there : entries disk inode pos with
  | none =>
      have zero := readable.blank pos present there
      refine iff_of_false ?_ (by simp)
      intro equal
      obtain ⟨c, cs, rfl⟩ := List.exists_cons_of_ne_nil nonempty
      have char := (strEq_iff.mp equal).1 0 (by simp)
      rw [zero, List.getElem_cons_zero] at char
      exact clean (char ▸ List.mem_cons_self)
  | some entry =>
      obtain ⟨-, loaded⟩ := entries_some there
      have ends := (readable.typed pos entry there).ends
      have same : ∀ k ≤ 23, slotBuf disk inode pos k = entry.image k := by
        intro k small
        rw [loaded, DirEntry.image_load (by omega)]
      rw [strEq_stops clean same ((same 23 (Nat.le_refl _)).trans ends)]
      simp [DirEntry.HasName]

theorem searchBlock_eq_some {buf : Memory} (found : searchBlock buf name = some entry) :
    ∃ i < 21, strEq (buf.shift (24 * i)) name = true ∧
      entry = DirEntry.load (buf.shift (24 * i)) := by
  obtain ⟨i, listed, here⟩ := List.exists_of_findSome?_eq_some found
  by_cases equal : strEq (buf.shift (24 * i)) name = true
  · simp only [equal, if_true, Option.some.injEq] at here
    exact ⟨i, List.mem_range.mp listed, equal, here.symm⟩
  · simp [equal] at here

theorem searchBlock_eq_none {buf : Memory} :
    searchBlock buf name = none ↔ ∀ i < 21, strEq (buf.shift (24 * i)) name = false := by
  simp [searchBlock, List.findSome?_eq_none_iff]

/-- What the search finds is an entry with the name. -/
theorem Readable.search_sound (readable : Readable disk inode) (nonempty : name ≠ [])
    (clean : 0 ∉ name) (found : searchBlocks disk inode name = some entry) :
    ∃ pos, entries disk inode pos = some entry ∧ entry.HasName name := by
  obtain ⟨b, listed, here⟩ := List.exists_of_findSome?_eq_some found
  have small := List.mem_range.mp listed
  by_cases absent : allBlocks disk inode b = 0
  · simp [absent] at here
  · simp only [absent, if_false] at here
    obtain ⟨i, less, equal, loaded⟩ := searchBlock_eq_some here
    have agrees : strEq (slotBuf disk inode (⟨b, small⟩, ⟨i, less⟩)) name = true ↔ _ :=
      readable.slot_matches absent nonempty clean
    obtain ⟨entry', there, named⟩ := agrees.mp equal
    have same : entry = entry' := loaded.trans (entries_some there).2.symm
    exact ⟨_, same ▸ there, same ▸ named⟩

/-- The search finds nothing exactly when no entry has the name. -/
theorem Readable.search_none (readable : Readable disk inode) (nonempty : name ≠ [])
    (clean : 0 ∉ name) : searchBlocks disk inode name = none ↔
      ∀ pos entry, entries disk inode pos = some entry → ¬ entry.HasName name := by
  constructor
  · intro nothing pos entry there named
    obtain ⟨present, -⟩ := entries_some there
    have here := List.findSome?_eq_none_iff.mp nothing pos.1 (List.mem_range.mpr pos.1.isLt)
    simp only [present, if_false] at here
    have differs := searchBlock_eq_none.mp here pos.2 pos.2.isLt
    have equal := (readable.slot_matches present nonempty clean).mpr ⟨entry, there, named⟩
    rw [slotBuf, differs] at equal
    cases equal
  · intro unnamed
    cases found : searchBlocks disk inode name with
    | none => rfl
    | some entry =>
        obtain ⟨pos, there, named⟩ := readable.search_sound nonempty clean found
        exact absurd named (unnamed pos entry there)

/-- **Search.** In a directory whose entries have different names, the search for a name finds
the entry that has it. -/
theorem Readable.search_finds (readable : Readable disk inode) (pos : Pos)
    (unique : ∀ pos' entry', entries disk inode pos' = some entry' → entry'.HasName name →
      pos' = pos)
    (nonempty : name ≠ []) (clean : 0 ∉ name) (there : entries disk inode pos = some entry)
    (named : entry.HasName name) : searchBlocks disk inode name = some entry := by
  cases found : searchBlocks disk inode name with
  | none => exact absurd named ((readable.search_none nonempty clean).mp found pos entry there)
  | some entry' =>
      obtain ⟨pos', there', named'⟩ := readable.search_sound nonempty clean found
      rw [unique pos' entry' there' named', there] at there'
      exact there'.symm

end Search

end UKernel.Fs
