import UKernel.Fs.Tree
import UKernel.Fs.Calls
import UKernel.Fs.InodeTable

/-! # A small tree

A directory whose entries are in one block is described by a table: its names are those of the
table, and it is in order (`UKernel.Fs.OneBlock.names_iff`, `UKernel.Fs.OneBlock.ok`). This gives
a small file system that is well formed.
-/

namespace UKernel.Fs

open UKernel.Library

variable {part : Partition} {disk : Memory} {d : Word} {name : List Byte}
  {target : Library.Target Word Word}

/-! ## Directories of one block -/

/-- What the places of a block hold: a name, and what it stands for. -/
abbrev Table := List (Fin 21 × List Byte × Library.Target Word Word)

/-- A place of a block holds what a table says. -/
def PlaceOk (buf : Memory) (table : Table) (k : Fin 21) : Prop :=
  let entry := DirEntry.load (buf.shift (24 * k))
  (entry.fType = ftUnknown ∧ buf (24 * k) = 0 ∧ ∀ item ∈ table, item.1 ≠ k) ∨
    ∃ item ∈ table, item.1 = k ∧ item.2.1 ≠ [] ∧ 0 ∉ item.2.1 ∧
      strEq entry.image item.2.1 = true ∧ entry.target = item.2.2 ∧
        (entry.fType = ftRegular ∨ entry.fType = ftDirectory)

instance (buf : Memory) (table : Table) (k : Fin 21) : Decidable (PlaceOk buf table k) :=
  inferInstanceAs (Decidable ((_ ∧ _ ∧ ∀ item ∈ table, _) ∨ ∃ item ∈ table, _ ∧ _ ∧ _ ∧ _ ∧ _ ∧ _))

/-- A directory of one block that holds what a table says. -/
structure OneBlock (part : Partition) (disk : Memory) (d : Word) (table : Table) : Prop where
  number : (slot part disk d.toNat).iNo = d
  small : d.toNat < 4096
  first : (slot part disk d.toNat).sector 0 ≠ 0
  only : ∀ i < 13, 0 < i → (slot part disk d.toNat).sector i = 0
  places : ∀ k, PlaceOk (ideRead disk ((slot part disk d.toNat).sector 0).toNat) table k
  keys : (table.map Prod.fst).Nodup
  names : (table.map fun item => item.2.1).Nodup
  files : ∀ item ∈ table, ∀ f, item.2.2 = .file f → f.toNat < 4096

theorem OneBlock.block {table : Table} (one : OneBlock part disk d table) {pos : Pos}
    (present : allBlocks disk (slot part disk d.toNat) pos.1 ≠ 0) : pos.1 = 0 := by
  by_contra other
  apply present
  unfold allBlocks
  have positive : 0 < pos.1.val := Nat.pos_of_ne_zero fun zero => other (Fin.ext zero)
  by_cases direct : pos.1.val < 12
  · rw [if_pos direct, one.only _ (by omega) positive]
  · rw [if_neg direct, one.only 12 (by decide) (by decide), if_neg (by simp)]

theorem slotBuf_first (k : Fin 21) : slotBuf disk (slot part disk d.toNat) (0, k) =
    (ideRead disk ((slot part disk d.toNat).sector 0).toNat).shift (24 * k) := rfl

/-- An entry of the directory is one of the table. -/
theorem OneBlock.item {table : Table} (one : OneBlock part disk d table) {pos : Pos}
    {entry : DirEntry} (there : entries disk (slot part disk d.toNat) pos = some entry) :
    ∃ item ∈ table, pos = (0, item.1) ∧ item.2.1 ≠ [] ∧ 0 ∉ item.2.1 ∧ entry.HasName item.2.1 ∧
      entry.target = item.2.2 ∧ entry.Typed := by
  obtain ⟨present, loaded⟩ := entries_some there
  have isFirst := one.block present
  obtain ⟨b, k⟩ := pos
  dsimp only at isFirst
  subst isFirst
  rw [slotBuf_first] at loaded
  rcases one.places k with ⟨unknown, -, -⟩ | ⟨item, member, rfl, nonempty, clean, named, target,
    typed⟩
  · rw [entries_present present, slotBuf_first, if_pos unknown] at there
    cases there
  · rw [← loaded] at named target typed
    exact ⟨item, member, rfl, nonempty, clean, named, target, typed⟩

/-- What the table says is an entry of the directory. -/
theorem OneBlock.there {table : Table} (one : OneBlock part disk d table)
    {item : Fin 21 × List Byte × Library.Target Word Word} (member : item ∈ table) :
    ∃ entry, entries disk (slot part disk d.toNat) (0, item.1) = some entry ∧ item.2.1 ≠ [] ∧
      0 ∉ item.2.1 ∧ entry.HasName item.2.1 ∧ entry.target = item.2.2 := by
  rcases one.places item.1 with ⟨-, -, absent⟩ | ⟨item', member', isPlace, nonempty, clean, named,
    same, typed⟩
  · exact absurd rfl (absent _ member)
  · cases List.inj_on_of_nodup_map one.keys member member' isPlace.symm
    refine ⟨_, ?_, nonempty, clean, named, same⟩
    have present : allBlocks disk (slot part disk d.toNat) (0 : Fin 140) ≠ 0 := one.first
    rw [entries_present present, slotBuf_first, if_neg]
    rcases typed with is | is
    · rw [is]
      decide
    · rw [is]
      decide

/-- The names of the directory are those of the table. -/
theorem OneBlock.names_iff {table : Table} (one : OneBlock part disk d table) :
    Names part disk d name target ↔ ∃ k, (k, name, target) ∈ table := by
  constructor
  · rintro ⟨nonempty, clean, pos, entry, there, named, rfl⟩
    obtain ⟨⟨k, name', target⟩, member, -, -, clean', named', same, -⟩ := one.item there
    obtain rfl := named.unique clean clean' named'
    dsimp only at same
    rw [same]
    exact ⟨k, member⟩
  · rintro ⟨k, member⟩
    obtain ⟨entry, there, nonempty, clean, named, same⟩ := one.there member
    exact ⟨nonempty, clean, (0, k), entry, there, named, same⟩

theorem OneBlock.ok {table : Table} (one : OneBlock part disk d table) : DirOk part disk d where
  number := one.number
  small := one.small
  readable :=
    { blank := fun pos present absent => by
        have isFirst := one.block present
        obtain ⟨b, k⟩ := pos
        dsimp only at isFirst
        subst isFirst
        rcases one.places k with ⟨-, zero, -⟩ | ⟨item, -, -, -, -, -, -, typed⟩
        · exact zero
        · rw [entries_present present, slotBuf_first, if_neg] at absent
          · cases absent
          · rcases typed with is | is
            · rw [is]
              decide
            · rw [is]
              decide
      typed := fun pos entry there => by
        obtain ⟨_, _, _, _, _, _, _, typed⟩ := one.item there
        exact typed }
  unique pos pos' entry entry' name clean there there' named named' := by
    obtain ⟨item, member, rfl, -, clean₁, named₁, -⟩ := one.item there
    obtain ⟨item', member', rfl, -, clean₂, named₂, -⟩ := one.item there'
    have first := named₁.unique clean₁ clean named
    have second := named₂.unique clean₂ clean named'
    rw [List.inj_on_of_nodup_map one.names member member' (first.trans second.symm)]
  file_small name f named := by
    obtain ⟨k, member⟩ := one.names_iff.mp named
    exact one.files _ member f rfl

/-! ## A small tree -/

/-- The address of a block. -/
def blockAddr (part : Partition) (block : Nat) : Nat := 512 * (part.sb.dataStartLba + block)

/-- The inode of a directory of one block. -/
def dirInodeAt (part : Partition) (inodeNo block : Nat) (iSize : Word) : Inode :=
  { (inodeInit (BitVec.ofNat 32 inodeNo)).setSector 0
      (BitVec.ofNat 32 (part.sb.dataStartLba + block)) with iSize := iSize }

/-- A root directory with a directory `a` and a file `f`. -/
def smallDisk : Memory :=
  ((((Memory.zeros.splice (slotAddr somePartition 0) (dirInodeAt somePartition 0 0 96).image
    76).splice
    (slotAddr somePartition 1) (dirInodeAt somePartition 1 1 48).image 76).splice
    (blockAddr somePartition 0) (dirBlock 0 0) 48).splice
    (blockAddr somePartition 0 + 48) (directoryEntry [97] 1).image 24).splice
    (blockAddr somePartition 0 + 72) { directoryEntry [102] 2 with fType := ftRegular }.image 24
    |>.splice (blockAddr somePartition 1) (dirBlock 1 0) 48

/-- The entries of the root directory. -/
def smallRoot : Table :=
  [(0, dot, .dir 0), (1, dotdot, .dir 0), (2, [97], .dir 1), (3, [102], .file 2)]

/-- The entries of the directory `a`. -/
def smallA : Table :=
  [(0, dot, .dir 1), (1, dotdot, .dir 0)]

theorem smallDisk_root : OneBlock somePartition smallDisk 0 smallRoot where
  number := by decide +kernel
  small := by decide
  first := by decide +kernel
  only := by decide +kernel
  places := by decide +kernel
  keys := by decide
  names := by decide
  files := by
    intro item member f is
    simp only [smallRoot, List.mem_cons, List.not_mem_nil, or_false] at member
    rcases member with rfl | rfl | rfl | rfl
    all_goals cases is
    decide

theorem smallDisk_a : OneBlock somePartition smallDisk 1 smallA where
  number := by decide +kernel
  small := by decide
  first := by decide +kernel
  only := by decide +kernel
  places := by decide +kernel
  keys := by decide
  names := by decide
  files := by
    intro item member f is
    simp only [smallA, List.mem_cons, List.not_mem_nil, or_false] at member
    rcases member with rfl | rfl
    all_goals cases is

/-! The names and the shape of the tree depend on these two directories only. -/

section

variable (root : OneBlock somePartition disk 0 smallRoot) (a : OneBlock somePartition disk 1 smallA)
include root

theorem OneBlock.root_names : Names somePartition disk 0 name target ↔
    name = dot ∧ target = .dir 0 ∨ name = dotdot ∧ target = .dir 0 ∨
      name = [97] ∧ target = .dir 1 ∨ name = [102] ∧ target = .file 2 := by
  rw [root.names_iff]
  simp only [smallRoot, List.mem_cons, List.not_mem_nil, or_false, Prod.mk.injEq]
  constructor
  · rintro ⟨k, ⟨-, is⟩ | ⟨-, is⟩ | ⟨-, is⟩ | ⟨-, is⟩⟩
    · exact .inl is
    · exact .inr (.inl is)
    · exact .inr (.inr (.inl is))
    · exact .inr (.inr (.inr is))
  · rintro (is | is | is | is)
    · exact ⟨0, .inl ⟨rfl, is⟩⟩
    · exact ⟨1, .inr (.inl ⟨rfl, is⟩)⟩
    · exact ⟨2, .inr (.inr (.inl ⟨rfl, is⟩))⟩
    · exact ⟨3, .inr (.inr (.inr ⟨rfl, is⟩))⟩

omit root in
theorem OneBlock.a_names (a : OneBlock somePartition disk 1 smallA) :
    Names somePartition disk 1 name target ↔
      name = dot ∧ target = .dir 1 ∨ name = dotdot ∧ target = .dir 0 := by
  rw [a.names_iff]
  simp only [smallA, List.mem_cons, List.not_mem_nil, or_false, Prod.mk.injEq]
  constructor
  · rintro ⟨k, ⟨-, is⟩ | ⟨-, is⟩⟩
    · exact .inl is
    · exact .inr is
  · rintro (is | is)
    · exact ⟨0, .inl ⟨rfl, is⟩⟩
    · exact ⟨1, .inr ⟨rfl, is⟩⟩

include a

theorem small_dirs (isDir : IsDir somePartition disk d) : d = 0 ∨ d = 1 := by
  have step : ∀ d name d', d = 0 ∨ d = 1 →
      Names somePartition disk d name (.dir d') → d' = 0 ∨ d' = 1 := by
    rintro d name d' (rfl | rfl) named
    · rcases root.root_names.mp named with ⟨-, is⟩ | ⟨-, is⟩ | ⟨-, is⟩ | ⟨-, is⟩
      · exact .inl (Library.Target.dir.inj is)
      · exact .inl (Library.Target.dir.inj is)
      · exact .inr (Library.Target.dir.inj is)
      · cases is
    · rcases a.a_names.mp named with ⟨-, is⟩ | ⟨-, is⟩
      · exact .inr (Library.Target.dir.inj is)
      · exact .inl (Library.Target.dir.inj is)
  exact isDir.invariant (P := fun d => d = 0 ∨ d = 1) (.inl rfl) step

theorem small_wellFormed : WellFormed somePartition disk where
  directories d isDir := by
    rcases small_dirs root a isDir with rfl | rfl
    · exact root.ok
    · exact a.ok
  dot_of d isDir := by
    rcases small_dirs root a isDir with rfl | rfl
    · exact root.root_names.mpr (.inl ⟨rfl, rfl⟩)
    · exact a.a_names.mpr (.inl ⟨rfl, rfl⟩)
  dotdot_of d name d' isDir named notDot notDotdot := by
    rcases small_dirs root a isDir with rfl | rfl
    · rcases root.root_names.mp named with ⟨is, -⟩ | ⟨is, -⟩ | ⟨-, is⟩ | ⟨-, is⟩
      · exact absurd is notDot
      · exact absurd is notDotdot
      · cases is
        exact a.a_names.mpr (.inr ⟨rfl, rfl⟩)
      · cases is
    · rcases a.a_names.mp named with ⟨is, -⟩ | ⟨is, -⟩
      · exact absurd is notDot
      · exact absurd is notDotdot
  dotdot_root := root.root_names.mpr (.inr (.inl ⟨rfl, rfl⟩))

end

theorem smallRoot_names : Names somePartition smallDisk 0 name target ↔
    name = dot ∧ target = .dir 0 ∨ name = dotdot ∧ target = .dir 0 ∨
      name = [97] ∧ target = .dir 1 ∨ name = [102] ∧ target = .file 2 :=
  smallDisk_root.root_names

theorem smallA_names : Names somePartition smallDisk 1 name target ↔
    name = dot ∧ target = .dir 1 ∨ name = dotdot ∧ target = .dir 0 :=
  smallDisk_a.a_names

theorem smallDisk_wellFormed : WellFormed somePartition smallDisk :=
  small_wellFormed smallDisk_root smallDisk_a

/-- The inode of the root directory in memory. -/
def openRoot : Inode := { slot somePartition smallDisk 0 with iOpenCnts := 1 }

/-- The small tree after it was mounted: its root directory is open. -/
def smallTree : FsState somePartition :=
  { blankState with
    disk := smallDisk
    blockBitmap := ⟨Function.update Memory.zeros 0 3⟩
    inodeBitmap := ⟨Function.update Memory.zeros 0 7⟩
    inodes := Function.update (fun _ => none) (.kernel 0)
      (some openRoot)
    openInodes := [.kernel 0]
    nextAddr := 1 }

theorem smallTree_root : smallTree.inodes (.kernel 0) = some openRoot := by
  simp [smallTree]

theorem openRoot_number : openRoot.iNo = 0 := smallDisk_root.number

theorem openRoot_sameFile : openRoot.SameFile (slot somePartition smallDisk 0) :=
  ⟨rfl, rfl, rfl⟩

theorem smallTree_disk : smallTree.disk = smallDisk := by
  simp only [smallTree]

theorem smallTree_wellFormed : WellFormed somePartition smallTree.disk :=
  smallTree_disk ▸ smallDisk_wellFormed

/-- The root directory alone is open. -/
theorem onlyRoot_opened {s : FsState part} {obj : Inode}
    (live : s.inodes (.kernel 0) = some obj) (number : obj.iNo = 0) (count : obj.iOpenCnts = 1)
    (same : obj.SameFile (slot part s.disk 0)) (rootDir : s.rootDir = .kernel 0)
    (only : s.openInodes = [.kernel 0]) (next : s.nextAddr = 1) : OpenInodes 0 s where
  root := by
    rw [rootDir]
    exact ⟨obj, live, number, count ▸ Nat.one_pos⟩
  root_listed := by
    rw [rootDir, only]
    exact List.mem_singleton.mpr rfl
  listed ptr member := by
    rw [only] at member
    rw [List.mem_singleton.mp member]
    refine ⟨obj, live, count ▸ Nat.one_pos, Nat.zero_le _, fun _ => ⟨rfl, ?_⟩⟩
    rw [number]
    exact same
  held_listed ptr positive := absurd positive (Nat.lt_irrefl 0)
  nodup := by
    rw [only]
    exact List.nodup_singleton _
  fresh addr above member := by
    rw [next] at above
    rw [only] at member
    cases List.mem_singleton.mp member
    omega

theorem smallTree_opened : OpenInodes 0 smallTree :=
  onlyRoot_opened smallTree_root openRoot_number rfl (smallTree_disk ▸ openRoot_sameFile) rfl
    rfl rfl

end UKernel.Fs
