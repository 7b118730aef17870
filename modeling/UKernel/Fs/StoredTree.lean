import UKernel.Fs.DirectoryDelete
import UKernel.Fs.Release
import UKernel.Fs.Search

/-! # Files and directories with their blocks

A well-formed file system with the blocks of its files and directories
(`UKernel.Fs.WellStored`), and the inodes that are open in it (`UKernel.Fs.OpenFiles`). A search
keeps both (`UKernel.Fs.searchFile_stored`), and a file of the file table is found there
(`UKernel.Fs.inUse_run`).
-/

namespace UKernel.Fs

open UKernel.Library

variable {part : Partition} {s s₁ s₂ s' : FsState part} {held : Ptr → Nat} {disk disk' : Memory}
  {d f i n p type : Word} {name : List Byte} {names : List (List Byte)} {pathname : List Byte}
  {ptr : Ptr} {obj inode inode' : Inode} {pos : Pos} {entry : DirEntry}
  {btmp : Bitmap part.blockBitmapBytes}

/-! ## The tree on disk -/

/-- A regular file that a directory names. -/
def IsFile (part : Partition) (disk : Memory) (f : Word) : Prop :=
  ∃ d name, IsDir part disk d ∧ Names part disk d name (.file f)

/-- The number of a directory or a regular file. -/
def IsUsed (part : Partition) (disk : Memory) (n : Word) : Prop :=
  IsDir part disk n ∨ IsFile part disk n

/-- A well-formed file system in which every directory and every regular file has its slot and owns
its blocks, and the root directory has the first block of the data area. -/
structure WellStored (s : FsState part) : Prop extends WellFormed part s.disk where
  dirs : ∀ d, IsDir part s.disk d → DottedDir s.disk s.blockBitmap (slot part s.disk d.toNat)
  files : ∀ f, IsFile part s.disk f → ¬ IsDir part s.disk f ∧ (slot part s.disk f.toNat).iNo = f ∧
    OwnsBlocks s.disk s.blockBitmap (slot part s.disk f.toNat)
  disjoint : ∀ n n', IsUsed part s.disk n → IsUsed part s.disk n' → n ≠ n' → ∀ k ≤ 140, ∀ k' ≤ 140,
    ownBlock s.disk (slot part s.disk n.toNat) k ≠ 0 →
      ownBlock s.disk (slot part s.disk n.toNat) k ≠ ownBlock s.disk (slot part s.disk n'.toNat) k'
  rootBlock : (slot part s.disk 0).sector 0 = blockOfBit part 0

/-- The names of a path lead to the entry of a regular file at a position of a directory. -/
def LeadsTo (part : Partition) (disk : Memory) (names : List (List Byte)) (p : Word) (pos : Pos)
    (f : Word) : Prop :=
  ∃ front last entry, names = front ++ [last] ∧ Resolves (Names part disk) 0 front (.dir p) ∧
    last ≠ [] ∧ 0 ∉ last ∧ entries disk (slot part disk p.toNat) pos = some entry ∧
      entry.HasName last ∧ entry.target = .file f

section

/-- Names that stand for a regular file lead to its entry. -/
theorem leadsTo_of_resolves (resolves : Resolves (Names part disk) 0 names (.file f)) :
    ∃ p pos, LeadsTo part disk names p pos f := by
  rcases List.eq_nil_or_concat names with rfl | ⟨front, last, rfl⟩
  · cases resolves
  · rw [List.concat_eq_append] at resolves ⊢
    obtain ⟨p, first, second⟩ := resolves.split (List.cons_ne_nil last [])
    rcases Resolves.cons_iff.mp second with ⟨d, -, rest⟩ | ⟨f', named, -, same⟩
    · cases rest
    · cases same
      obtain ⟨nonempty, clean, pos, entry, there, has, target⟩ := named
      exact ⟨p, pos, front, last, entry, rfl, first, nonempty, clean, there, has, target⟩

theorem LeadsTo.resolves (leads : LeadsTo part disk names p pos f) :
    Resolves (Names part disk) 0 names (.file f) := by
  obtain ⟨front, last, entry, rfl, above, nonempty, clean, there, has, target⟩ := leads
  exact above.append (.file ⟨nonempty, clean, pos, entry, there, has, target⟩)

theorem LeadsTo.isDir (leads : LeadsTo part disk names p pos f) : IsDir part disk p := by
  obtain ⟨front, -, -, -, above, -⟩ := leads
  exact ⟨front, above⟩

theorem LeadsTo.isFile (leads : LeadsTo part disk names p pos f) : IsFile part disk f := by
  obtain ⟨front, last, entry, -, above, nonempty, clean, there, has, target⟩ := leads
  exact ⟨p, last, ⟨front, above⟩, nonempty, clean, pos, entry, there, has, target⟩

theorem LeadsTo.nonempty (leads : LeadsTo part disk names p pos f) : names ≠ [] := by
  obtain ⟨front, last, -, rfl, -⟩ := leads
  simp

theorem WellFormed.file_small (wellFormed : WellFormed part disk) (isFile : IsFile part disk f) :
    f.toNat < 4096 := by
  obtain ⟨d, name, isDir, named⟩ := isFile
  exact (wellFormed.directories d isDir).file_small name f named

/-- An entry of a regular file is neither `.` nor `..`. -/
theorem WellFormed.file_isOther (wellFormed : WellFormed part disk) (isDir : IsDir part disk p)
    (there : entries disk (slot part disk p.toNat) pos = some entry)
    (target : entry.target = .file f) : entry.IsOther := by
  have ok := wellFormed.directories p isDir
  constructor
  · intro isDot
    cases ok.names_unique (wellFormed.dot_of p isDir)
      ⟨by decide, by decide, pos, entry, there, isDot, target⟩
  · intro isDotdot
    obtain ⟨above, named⟩ := wellFormed.linked.up_exists isDir
    cases ok.names_unique named ⟨by decide, by decide, pos, entry, there, isDotdot, target⟩

theorem DirEntry.target_file (target : entry.target = .file f) : entry.iNo = f := by
  unfold DirEntry.target at target
  split at target
  case isTrue => cases target
  case isFalse => exact Library.Target.file.inj target

/-- The entry that names lead to is the one that `delete_dir_entry` looks for. -/
theorem LeadsTo.target (leads : LeadsTo part disk names p pos f)
    (wellFormed : WellFormed part disk) :
    ∃ entry, Fs.Target disk (slot part disk p.toNat) f pos entry ∧ entry.target = .file f := by
  have isDir := leads.isDir
  obtain ⟨front, last, entry, -, -, -, -, there, -, target⟩ := leads
  exact ⟨entry, ⟨there, wellFormed.file_isOther isDir there target, DirEntry.target_file target⟩,
    target⟩

theorem WellStored.file_ne_dir (stored : WellStored s) (isFile : IsFile part s.disk f)
    (isDir : IsDir part s.disk d) : f ≠ d := by
  rintro rfl
  exact (stored.files f isFile).1 isDir

theorem WellStored.file_ne_zero (stored : WellStored s) (isFile : IsFile part s.disk f) : f ≠ 0 :=
  stored.file_ne_dir isFile .start

/-- The file system on disk is as it was. -/
theorem WellStored.congr (stored : WellStored s) (same : SameTree s s₁) : WellStored s₁ where
  toWellFormed := same.disk ▸ stored.toWellFormed
  dirs := by
    rw [same.disk, same.blockBitmap]
    exact stored.dirs
  files := by
    rw [same.disk, same.blockBitmap]
    exact stored.files
  disjoint := by
    rw [same.disk]
    exact stored.disjoint
  rootBlock := by
    rw [same.disk]
    exact stored.rootBlock

end

/-! ## Directories of one block -/

/-- The number of the inode that a name stands for. -/
def numberOf : Library.Target Word Word → Word
  | .dir d => d
  | .file f => f

theorem numberOf_target : numberOf entry.target = entry.iNo := by
  unfold DirEntry.target
  split
  · rfl
  · rfl

section

variable {table : Table} (one : OneBlock part disk d table)
include one

/-- The directory has one block. -/
theorem OneBlock.ownBlock_first {k : Nat} (small : k ≤ 140)
    (present : ownBlock disk (slot part disk d.toNat) k ≠ 0) : k = 0 := by
  unfold ownBlock at present
  by_cases last : k = 140
  · rw [if_pos last, one.only 12 (by decide) (by decide)] at present
    exact absurd rfl present
  · rw [if_neg last] at present
    have place : (((⟨k, by omega⟩, 0) : Pos)).1 = 0 := one.block present
    exact congrArg Fin.val place

theorem OneBlock.owns (marked : Marked btmp ((slot part disk d.toNat).sector 0)) :
    OwnsBlocks disk btmp (slot part disk d.toNat) where
  apart k small k' small' present same := by
    rw [one.ownBlock_first small present, one.ownBlock_first small' (same ▸ present)]
  marked k small present := by
    obtain rfl := one.ownBlock_first small present
    exact marked

/-- There are as many entries as the table has. -/
theorem OneBlock.liveCount_eq :
    liveCount (entries disk (slot part disk d.toNat)) = table.length := by
  have places : (Finset.univ.filter fun pos =>
      (entries disk (slot part disk d.toNat) pos).isSome) =
      (table.map fun item => ((0, item.1) : Pos)).toFinset := by
    ext pos
    rw [Finset.mem_filter, and_iff_right (Finset.mem_univ pos), List.mem_toFinset, List.mem_map,
      Option.isSome_iff_exists]
    constructor
    · rintro ⟨entry, there⟩
      obtain ⟨item, member, place, -⟩ := one.item there
      exact ⟨item, member, place.symm⟩
    · rintro ⟨item, member, rfl⟩
      obtain ⟨entry, there, -⟩ := one.there member
      exact ⟨entry, there⟩
  have apart : (table.map fun item => ((0, item.1) : Pos)).Nodup := by
    have keys := one.keys.map (fun k k' (same : ((0, k) : Pos) = (0, k')) => congrArg Prod.snd same)
    rwa [List.map_map] at keys
  rw [liveCount, places, List.toFinset_card_of_nodup apart, List.length_map]

/-- A directory of one block with its `.`, in which no number stands twice but for `.` and `..`. -/
theorem OneBlock.dottedDir (marked : Marked btmp ((slot part disk d.toNat).sector 0))
    (size : (slot part disk d.toNat).iSize.toNat = 24 * table.length)
    (dotted : ∃ item ∈ table, item.2.1 = dot)
    (distinct : ∀ item ∈ table, ∀ item' ∈ table, item.2.1 ≠ dot → item.2.1 ≠ dotdot →
      item'.2.1 ≠ dot → item'.2.1 ≠ dotdot → numberOf item.2.2 = numberOf item'.2.2 →
        item = item') : DottedDir disk btmp (slot part disk d.toNat) where
  owns := one.owns marked
  readable := one.ok.readable
  nonempty pos entry there := by
    obtain ⟨item, -, -, nonempty, clean, named, -⟩ := one.item there
    have inside : 0 < item.2.1.length := List.length_pos_iff.mpr nonempty
    have first := (strEq_iff.mp named).1 0 inside
    rw [DirEntry.image, dif_pos (by omega)] at first
    intro zero
    exact clean (List.mem_iff_getElem.mpr ⟨0, inside, first.symm.trans zero⟩)
  unique pos pos' entry entry' name there there' _ clean named named' :=
    one.ok.unique pos pos' entry entry' name clean there there' named named'
  size := by
    rw [size, one.liveCount_eq]
  dotFirst := by
    obtain ⟨item, member, isDot⟩ := dotted
    obtain ⟨entry, there, -, -, named, -⟩ := one.there member
    exact ⟨item.1, entry, there, isDot ▸ named⟩
  dotdotFirst pos entry there _ := by
    obtain ⟨item, -, rfl, -⟩ := one.item there
    rfl
  distinct pos pos' entry entry' there there' other other' number := by
    obtain ⟨item, member, rfl, -, -, named, target, -⟩ := one.item there
    obtain ⟨item', member', rfl, -, -, named', target', -⟩ := one.item there'
    have same : item = item' := by
      refine distinct item member item' member' ?_ ?_ ?_ ?_ ?_
      · exact fun isDot => other.1 (isDot ▸ named)
      · exact fun isDotdot => other.2 (isDotdot ▸ named)
      · exact fun isDot => other'.1 (isDot ▸ named')
      · exact fun isDotdot => other'.2 (isDotdot ▸ named')
      · rw [← target, ← target', numberOf_target, numberOf_target, number]
    rw [same]

end

/-! ## Open inodes -/

/-- The object of a regular file agrees with its slot, and there is one object for a number. -/
structure FilesAgree (s : FsState part) : Prop where
  agrees : ∀ ptr ∈ s.openInodes, ∀ obj, s.inodes ptr = some obj → IsFile part s.disk obj.iNo →
    obj.SameFile (slot part s.disk obj.iNo.toNat)
  once : ∀ ptr ∈ s.openInodes, ∀ ptr' ∈ s.openInodes, ∀ obj obj', s.inodes ptr = some obj →
    s.inodes ptr' = some obj' → obj.iNo = obj'.iNo → ptr = ptr'

/-- The open inodes of a file system, among them those of the file table. -/
structure OpenFiles (held : Ptr → Nat) (s : FsState part) : Prop extends
    OpenInodes held s, FilesAgree s where
  table : ∀ fileIdx < maxFileOpen, ∀ ptr, (s.fileTable fileIdx).fdInode = some ptr → 0 < held ptr

/-- What a search keeps: the disk, the agreement of the objects, and the numbers of those that were
open before. -/
structure Searched (s s₁ : FsState part) : Prop extends FilesAgree s₁ where
  disk : s₁.disk = s.disk
  nextAddr : s.nextAddr ≤ s₁.nextAddr
  numbers : ∀ ptr ∈ s.openInodes, ∀ obj, s.inodes ptr = some obj → ∀ obj',
    s₁.inodes ptr = some obj' → obj'.iNo = obj.iNo

section

/-- Changing the count of an object. -/
theorem FilesAgree.recount (agree : FilesAgree s) (live : s.inodes ptr = some obj) (cnts : Nat) :
    FilesAgree { s with
      inodes := Function.update s.inodes ptr (some { obj with iOpenCnts := cnts }) } := by
  have old : ∀ ptr' obj', Function.update s.inodes ptr (some { obj with iOpenCnts := cnts }) ptr' =
      some obj' → ∃ obj'', s.inodes ptr' = some obj'' ∧ obj'.SameFile obj'' := by
    intro ptr' obj' live'
    by_cases same : ptr' = ptr
    · rw [same, Function.update_self, Option.some.injEq] at live'
      exact ⟨obj, same ▸ live, live' ▸ ⟨rfl, rfl, rfl⟩⟩
    · rw [Function.update_of_ne same] at live'
      exact ⟨obj', live', rfl, rfl, rfl⟩
  constructor
  · intro ptr' listed obj' live' isFile
    obtain ⟨obj'', live'', same⟩ := old ptr' obj' live'
    rw [same.1] at isFile ⊢
    exact same.trans (agree.agrees ptr' listed obj'' live'' isFile)
  · intro ptr₁ listed₁ ptr₂ listed₂ obj₁ obj₂ live₁ live₂ number
    obtain ⟨obj₁', live₁', same₁⟩ := old ptr₁ obj₁ live₁
    obtain ⟨obj₂', live₂', same₂⟩ := old ptr₂ obj₂ live₂
    exact agree.once ptr₁ listed₁ ptr₂ listed₂ obj₁' obj₂' live₁' live₂'
      (same₁.1.symm.trans (number.trans same₂.1))

/-- Dropping an object. -/
theorem FilesAgree.drop (agree : FilesAgree s) (ptr : Ptr) : FilesAgree { s with
    openInodes := s.openInodes.erase ptr
    inodes := Function.update s.inodes ptr none } := by
  have old : ∀ ptr' obj', Function.update s.inodes ptr none ptr' = some obj' →
      s.inodes ptr' = some obj' := by
    intro ptr' obj' live'
    by_cases same : ptr' = ptr
    · rw [same, Function.update_self] at live'
      cases live'
    · rwa [Function.update_of_ne same] at live'
  constructor
  · intro ptr' listed obj' live'
    exact agree.agrees ptr' (List.mem_of_mem_erase listed) obj' (old ptr' obj' live')
  · intro ptr₁ listed₁ ptr₂ listed₂ obj₁ obj₂ live₁ live₂
    exact agree.once ptr₁ (List.mem_of_mem_erase listed₁) ptr₂ (List.mem_of_mem_erase listed₂)
      obj₁ obj₂ (old ptr₁ obj₁ live₁) (old ptr₂ obj₂ live₂)

/-- Loading the inode of a directory that is not open. -/
theorem FilesAgree.load (agree : FilesAgree s) (number : (slot part s.disk d.toNat).iNo = d)
    (notFile : ¬ IsFile part s.disk d) (closed : NotOpen s d) :
    FilesAgree (s.loadSlot d.toNat) := by
  have cases_ : ∀ ptr' ∈ (s.loadSlot d.toNat).openInodes, ∀ obj',
      (s.loadSlot d.toNat).inodes ptr' = some obj' →
        (ptr' = .kernel s.nextAddr ∧ obj'.iNo = d) ∨
          (ptr' ∈ s.openInodes ∧ s.inodes ptr' = some obj' ∧ obj'.iNo ≠ d) := by
    intro ptr' listed obj' live'
    by_cases same : ptr' = .kernel s.nextAddr
    · rw [same] at live'
      have loaded := (Function.update_self ..).symm.trans live'
      exact .inl ⟨same, by rw [← Option.some.inj loaded]; exact number⟩
    · have older := (Function.update_of_ne same _ _).symm.trans live'
      have listed' := (List.mem_cons.mp listed).resolve_left same
      obtain ⟨obj'', live'', apart⟩ := closed ptr' listed'
      cases older.symm.trans live''
      exact .inr ⟨listed', older, apart⟩
  constructor
  · intro ptr' listed obj' live' isFile
    rcases cases_ ptr' listed obj' live' with ⟨-, is⟩ | ⟨listed', older, -⟩
    · rw [is] at isFile
      exact absurd isFile notFile
    · exact agree.agrees ptr' listed' obj' older isFile
  · intro ptr₁ listed₁ ptr₂ listed₂ obj₁ obj₂ live₁ live₂ same
    rcases cases_ ptr₁ listed₁ obj₁ live₁ with ⟨new₁, is₁⟩ | ⟨listed₁', older₁, apart₁⟩
    · rcases cases_ ptr₂ listed₂ obj₂ live₂ with ⟨new₂, -⟩ | ⟨-, -, apart₂⟩
      · exact new₁.trans new₂.symm
      · exact absurd (same.symm.trans is₁) apart₂
    · rcases cases_ ptr₂ listed₂ obj₂ live₂ with ⟨-, is₂⟩ | ⟨listed₂', older₂, -⟩
      · exact absurd (same.trans is₂) apart₁
      · exact agree.once ptr₁ listed₁' ptr₂ listed₂' obj₁ obj₂ older₁ older₂ same

theorem Searched.recount (searched : Searched s s₁) (live : s₁.inodes ptr = some obj) (cnts : Nat) :
    Searched s { s₁ with
      inodes := Function.update s₁.inodes ptr (some { obj with iOpenCnts := cnts }) } := by
  refine ⟨searched.toFilesAgree.recount live cnts, searched.disk, searched.nextAddr, ?_⟩
  intro ptr' listed' obj₀ live₀ obj' live'
  change Function.update s₁.inodes ptr _ ptr' = some obj' at live'
  by_cases same : ptr' = ptr
  · rw [same, Function.update_self, Option.some.injEq] at live'
    rw [← live']
    exact searched.numbers ptr' listed' obj₀ live₀ obj (same ▸ live)
  · rw [Function.update_of_ne same] at live'
    exact searched.numbers ptr' listed' obj₀ live₀ obj' live'

/-- Opening a directory and closing an inode keep what a search keeps. -/
theorem searched_keeps (stored : WellStored s) (opened : OpenInodes held s) :
    DirsKeep part s.disk (Searched s) where
  opens s₁ d ptr s₂ disk isDir ok before ran := by
    rcases inodeOpen_returns ran with ⟨listed, obj, live, -, rfl⟩ | ⟨closed, -, rfl, rfl⟩
    · exact before.recount live _
    · have notFile : ¬ IsFile part s₁.disk d := by
        rw [disk]
        exact fun isFile => (stored.files d isFile).1 isDir
      have number : (slot part s₁.disk d.toNat).iNo = d := by
        rw [disk]
        exact ok.number
      refine ⟨before.toFilesAgree.load number notFile closed, disk,
        Nat.le_succ_of_le before.nextAddr, ?_⟩
      intro ptr' listed' obj₀ live₀ obj' live'
      have old : ptr' ≠ .kernel s₁.nextAddr := by
        rintro rfl
        exact opened.fresh _ before.nextAddr listed'
      exact before.numbers ptr' listed' obj₀ live₀ obj'
        ((Function.update_of_ne old _ _).symm.trans live')
  closes s₁ ptr s₂ before ran := by
    obtain ⟨obj, live, -, rfl⟩ := inodeClose_returns ran
    unfold FsState.close
    split
    case isTrue =>
        refine ⟨before.toFilesAgree.drop ptr, before.disk, before.nextAddr, ?_⟩
        intro ptr' listed' obj₀ live₀ obj' live'
        change Function.update s₁.inodes ptr none ptr' = some obj' at live'
        by_cases same : ptr' = ptr
        · rw [same, Function.update_self] at live'
          cases live'
        · rw [Function.update_of_ne same] at live'
          exact before.numbers ptr' listed' obj₀ live₀ obj' live'
    case isFalse =>
        exact before.recount live _

/-- **Searching keeps the file system.** The search for a path that is not a root path, with what
it found, and what is open after it. -/
theorem searchFile_stored (stored : WellStored s) (opened : OpenFiles held s)
    (path : SearchPath pathname) (notRoot : pathname ∉ rootPaths) (junk : Word) :
    ∃ i record s₁ p, (searchFile junk pathname).run s = .ok ((i, record), s₁) ∧
      Found s s₁ held record p ∧ Searched s s₁ ∧
        Finds part s.disk 0 junk 0 (pathNames pathname) i record.fileType p := by
  have start : Searched s s :=
    { toFilesAgree := opened.toFilesAgree
      disk := rfl
      nextAddr := Nat.le_refl _
      numbers := fun ptr _ obj live obj' live' => by
        cases live.symm.trans live'
        rfl }
  obtain ⟨i, record, s₁, p, ran, found, finds, kept⟩ :=
    searchFile_keeps (searched_keeps stored opened.toOpenInodes) stored.toWellFormed
      opened.toOpenInodes path notRoot junk start
  exact ⟨i, record, s₁, p, ran, found, kept, finds⟩

/-- What a search for a name or more finds: nothing, the directory that the names stand for, or a
regular file that a front part of them stands for. -/
theorem Finds.cases {a b : Word} (finds : Finds part disk d a b names i type p)
    (nonempty : names ≠ []) : i = notFound ∨
      (type = ftDirectory ∧ Resolves (Names part disk) d names (.dir i)) ∨
      (type = ftRegular ∧ ∃ front rest, names = front ++ rest ∧
        Resolves (Names part disk) d front (.file i)) := by
  induction finds with
  | done => exact absurd rfl nonempty
  | miss => exact .inl rfl
  | @file _ _ _ f name names named =>
      exact .inr (.inr ⟨rfl, [name], names, rfl, .file named⟩)
  | @dir d d' _ _ i type p name names named rest ih =>
      by_cases last : names = []
      · subst last
        cases rest
        exact .inr (.inl ⟨rfl, .dir named .here⟩)
      · rcases ih last with missed | ⟨directory, resolves⟩ | ⟨regular, front, rest, is, resolves⟩
        · exact .inl missed
        · exact .inr (.inl ⟨directory, .dir named resolves⟩)
        · exact .inr (.inr ⟨regular, name :: front, rest, congrArg (name :: ·) is,
            .dir named resolves⟩)

end

/-! ## The file table -/

/-- An inode with the number is in the file table. -/
def InUse (s : FsState part) (f : Word) : Prop :=
  ∃ fileIdx < maxFileOpen, ∃ ptr obj, (s.fileTable fileIdx).fdInode = some ptr ∧
    s.inodes ptr = some obj ∧ obj.iNo = f

section

theorem inUse_some (fileIdxs : List Nat)
    (live : ∀ fileIdx ∈ fileIdxs, ∀ ptr, (s.fileTable fileIdx).fdInode = some ptr →
      ∃ obj, s.inodes ptr = some obj) :
    ∃ used, (inUse f fileIdxs).run s = .ok (used, s) ∧ (used = true ↔ ∃ fileIdx ∈ fileIdxs,
      ∃ ptr obj, (s.fileTable fileIdx).fdInode = some ptr ∧ s.inodes ptr = some obj ∧
        obj.iNo = f) := by
  induction fileIdxs with
  | nil => exact ⟨false, rfl, by simp⟩
  | cons fileIdx fileIdxs ih =>
      obtain ⟨here, others⟩ := List.forall_mem_cons.mp live
      obtain ⟨used, ran, is⟩ := ih others
      rw [inUse, call_bind_of (call_get_returns.mpr ⟨rfl, rfl⟩)]
      simp only [List.exists_mem_cons_iff]
      cases entry : (s.fileTable fileIdx).fdInode with
      | none =>
          refine ⟨used, ran, is.trans (or_iff_right ?_).symm⟩
          rintro ⟨ptr, obj, wrong, -⟩
          cases wrong
      | some ptr =>
          obtain ⟨obj, found⟩ := here ptr entry
          dsimp only
          rw [call_bind_of (deref_returns.mpr ⟨found, rfl⟩)]
          by_cases same : obj.iNo = f
          · rw [if_pos same]
            exact ⟨true, rfl, iff_of_true rfl (.inl ⟨ptr, obj, rfl, found, same⟩)⟩
          · rw [if_neg same]
            refine ⟨used, ran, is.trans (or_iff_right ?_).symm⟩
            rintro ⟨ptr', obj', isPtr, live', number⟩
            cases isPtr
            cases found.symm.trans live'
            exact same number

/-- After a search, the loop over the file table finds a file exactly if it was in use before. -/
theorem inUse_run (opened : OpenFiles held s) {more : Ptr → Nat}
    (opened₁ : OpenInodes (held + more) s₁) (same : SameTree s s₁) (searched : Searched s s₁)
    (f : Word) : ∃ used, (inUse f (List.range maxFileOpen)).run s₁ = .ok (used, s₁) ∧
      (used = true ↔ InUse s f) := by
  have listed : ∀ fileIdx < maxFileOpen, ∀ ptr, (s.fileTable fileIdx).fdInode = some ptr →
      ∃ obj obj', s.inodes ptr = some obj ∧ s₁.inodes ptr = some obj' ∧ obj'.iNo = obj.iNo := by
    intro fileIdx small ptr entry
    have holds := opened.table fileIdx small ptr entry
    have before := opened.held_listed ptr holds
    obtain ⟨obj, live, -⟩ := opened.listed ptr before
    obtain ⟨obj', live', -⟩ := opened₁.listed ptr
      (opened₁.held_listed ptr (Nat.lt_of_lt_of_le holds (Nat.le_add_right _ _)))
    exact ⟨obj, obj', live, live', searched.numbers ptr before obj live obj' live'⟩
  obtain ⟨used, ran, is⟩ := inUse_some (s := s₁) (f := f) (List.range maxFileOpen)
    fun fileIdx member ptr entry => by
      rw [same.fileTable] at entry
      obtain ⟨obj, obj', -, live', -⟩ := listed fileIdx (List.mem_range.mp member) ptr entry
      exact ⟨obj', live'⟩
  refine ⟨used, ran, is.trans ?_⟩
  rw [same.fileTable]
  constructor
  · rintro ⟨fileIdx, member, ptr, obj', entry, live', number⟩
    obtain ⟨obj, obj'', live, live'', numbers⟩ :=
      listed fileIdx (List.mem_range.mp member) ptr entry
    cases live'.symm.trans live''
    exact ⟨fileIdx, List.mem_range.mp member, ptr, obj, entry, live, numbers.symm.trans number⟩
  · rintro ⟨fileIdx, small, ptr, obj, entry, live, number⟩
    obtain ⟨obj₀, obj', live₀, live', numbers⟩ := listed fileIdx small ptr entry
    cases live.symm.trans live₀
    exact ⟨fileIdx, List.mem_range.mpr small, ptr, obj', entry, live', numbers.trans number⟩

end

end UKernel.Fs
