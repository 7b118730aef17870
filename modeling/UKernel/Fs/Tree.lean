import UKernel.Fs.Discipline
import UKernel.Library.Names

/-! # The directory tree

A file system as a tree of directories: what a name stands for in a directory
(`UKernel.Fs.Names`), and what holds of the directories of a well-formed file system
(`UKernel.Fs.WellFormed`) and of the inodes that are open (`UKernel.Fs.OpenInodes`). In such a state
`dir_open` and `dir_close` return, and leave such a state.
-/

namespace UKernel.Fs

open UKernel.Library

variable {part : Partition}

/-! ## Names -/

/-- What an entry stands for. -/
def DirEntry.target (entry : DirEntry) : Library.Target Word Word :=
  if entry.fType = ftDirectory then .dir entry.iNo else .file entry.iNo

/-- A name, which is a string with a character, stands for a file or a directory in the directory
with a number. -/
def Names (part : Partition) (disk : Memory) (d : Word) (name : List Byte)
    (target : Library.Target Word Word) : Prop :=
  name ≠ [] ∧ 0 ∉ name ∧ ∃ pos entry, entries disk (slot part disk d.toNat) pos = some entry ∧
    entry.HasName name ∧ entry.target = target

/-- A directory that a path leads to. -/
abbrev IsDir (part : Partition) (disk : Memory) (d : Word) : Prop :=
  Reached (Names part disk) 0 d

/-- The names of a path. -/
abbrev pathNames (pathname : List Byte) : List (List Byte) := components slash pathname

/-- A directory: its slot holds its number, its blocks can be read, and its entries have different
names. -/
structure DirOk (part : Partition) (disk : Memory) (d : Word) : Prop where
  number : (slot part disk d.toNat).iNo = d
  small : d.toNat < 4096
  readable : Readable disk (slot part disk d.toNat)
  unique : ∀ pos pos' entry entry' name, 0 ∉ name →
    entries disk (slot part disk d.toNat) pos = some entry →
    entries disk (slot part disk d.toNat) pos' = some entry' → entry.HasName name →
      entry'.HasName name → pos = pos'
  file_small : ∀ name f, Names part disk d name (.file f) → f.toNat < 4096

/-- A well-formed file system: each directory that a path leads to is one, its entry `.` leads to
itself, and its entry `..` to the directory that it lies in. -/
structure WellFormed (part : Partition) (disk : Memory) : Prop where
  directories : ∀ d, IsDir part disk d → DirOk part disk d
  dot_of : ∀ d, IsDir part disk d → Names part disk d dot (.dir d)
  dotdot_of : ∀ d name d', IsDir part disk d → Names part disk d name (.dir d') → name ≠ dot →
    name ≠ dotdot → Names part disk d' dotdot (.dir d)
  dotdot_root : Names part disk 0 dotdot (.dir 0)

section

variable {disk : Memory} {d : Word} {name : List Byte} {entry : DirEntry}
  {target target' : Library.Target Word Word}

/-- A name stands for one thing. -/
theorem DirOk.names_unique (ok : DirOk part disk d) (first : Names part disk d name target)
    (second : Names part disk d name target') : target = target' := by
  obtain ⟨-, clean, pos, entry, there, named, rfl⟩ := first
  obtain ⟨-, -, pos', entry', there', named', rfl⟩ := second
  cases ok.unique _ _ _ _ _ clean there there' named named'
  rw [there] at there'
  cases there'
  rfl

theorem WellFormed.linked (wellFormed : WellFormed part disk) :
    Linked (Names part disk) 0 dot dotdot where
  deterministic d _ _ _ reached first second :=
    (wellFormed.directories d reached).names_unique first second
  stay_of := wellFormed.dot_of
  up_of := wellFormed.dotdot_of
  up_root := wellFormed.dotdot_root

/-- `search_dir_entry` finds what the name stands for. -/
theorem DirOk.search_some (ok : DirOk part disk d) (nonempty : name ≠ []) (clean : 0 ∉ name)
    (found : searchBlocks disk (slot part disk d.toNat) name = some entry) :
    Names part disk d name entry.target ∧ entry.Typed := by
  obtain ⟨pos, there, named⟩ := ok.readable.search_sound nonempty clean found
  exact ⟨⟨nonempty, clean, pos, entry, there, named, rfl⟩, ok.readable.typed pos entry there⟩

/-- `search_dir_entry` finds nothing if the name stands for nothing. -/
theorem DirOk.search_none (ok : DirOk part disk d) (nonempty : name ≠ []) (clean : 0 ∉ name)
    (nothing : searchBlocks disk (slot part disk d.toNat) name = none) :
    ¬ Names part disk d name target := by
  rintro ⟨-, -, pos, entry, there, named, -⟩
  exact (ok.readable.search_none nonempty clean).mp nothing pos entry there named

end

/-! ## Open inodes -/

/-- What holds of the inodes that are open, where some references are held: the root directory is
open, and the object of an open directory agrees with its slot. -/
structure OpenInodes (held : Ptr → Nat) (s : FsState part) : Prop where
  root : ∃ obj, s.inodes s.rootDir = some obj ∧ obj.iNo = 0 ∧ held s.rootDir < obj.iOpenCnts
  root_listed : s.rootDir ∈ s.openInodes
  listed : ∀ ptr ∈ s.openInodes, ∃ obj, s.inodes ptr = some obj ∧ 0 < obj.iOpenCnts ∧
    held ptr ≤ obj.iOpenCnts ∧ (IsDir part s.disk obj.iNo →
      ptr.inKernel ∧ obj.SameFile (slot part s.disk obj.iNo.toNat))
  held_listed : ∀ ptr, 0 < held ptr → ptr ∈ s.openInodes
  nodup : s.openInodes.Nodup
  fresh : ∀ addr, s.nextAddr ≤ addr → Ptr.kernel addr ∉ s.openInodes

/-- A call changed the open inodes at most. -/
structure SameTree (s s' : FsState part) : Prop where
  disk : s'.disk = s.disk
  blockBitmap : s'.blockBitmap = s.blockBitmap
  inodeBitmap : s'.inodeBitmap = s.inodeBitmap
  rootDir : s'.rootDir = s.rootDir
  fileTable : s'.fileTable = s.fileTable
  fdTable : s'.fdTable = s.fdTable
  userProcess : s'.userProcess = s.userProcess

theorem SameTree.refl (s : FsState part) : SameTree s s :=
  ⟨rfl, rfl, rfl, rfl, rfl, rfl, rfl⟩

theorem SameTree.trans {s s' s'' : FsState part} (first : SameTree s s')
    (second : SameTree s' s'') :
    SameTree s s'' :=
  ⟨second.disk.trans first.disk, second.blockBitmap.trans first.blockBitmap,
    second.inodeBitmap.trans first.inodeBitmap, second.rootDir.trans first.rootDir,
    second.fileTable.trans first.fileTable, second.fdTable.trans first.fdTable,
    second.userProcess.trans first.userProcess⟩

/-- The directory with a number is the one that a `struct dir` stands for. -/
def Holds (s : FsState part) (dir : Dir) (d : Word) : Prop :=
  ∃ obj, s.inodes (s.dirInode dir) = some obj ∧ obj.iNo = d

section

variable {s s' : FsState part} {held : Ptr → Nat} {ptr : Ptr} {obj : Inode} {d : Word} {dir : Dir}
  {name : List Byte}

theorem OpenInodes.not_listed (opened : OpenInodes held s) : Ptr.kernel s.nextAddr ∉ s.openInodes :=
  opened.fresh s.nextAddr (Nat.le_refl _)

/-- Opening an open inode once more. -/
theorem OpenInodes.reopen (opened : OpenInodes held s) (member : ptr ∈ s.openInodes)
    (live : s.inodes ptr = some obj) : OpenInodes (held + Pi.single ptr 1) (s.reopen ptr obj) where
  root := by
    obtain ⟨root, found, number, counted⟩ := opened.root
    change ∃ obj', Function.update s.inodes ptr _ s.rootDir = some obj' ∧ _
    by_cases same : s.rootDir = ptr
    · rw [same] at found counted ⊢
      cases live.symm.trans found
      refine ⟨_, Function.update_self .., number, ?_⟩
      change (held + Pi.single ptr 1 : Ptr → Nat) s.rootDir < obj.iOpenCnts + 1
      rw [same, Pi.add_apply, Pi.single_eq_same]
      omega
    · refine ⟨root, by rw [Function.update_of_ne same, found], number, ?_⟩
      change (held + Pi.single ptr 1 : Ptr → Nat) s.rootDir < root.iOpenCnts
      rw [Pi.add_apply, Pi.single_eq_of_ne same, Nat.add_zero]
      exact counted
  root_listed := opened.root_listed
  listed other inside := by
    obtain ⟨obj', found, positive, most, agrees⟩ := opened.listed other inside
    change ∃ obj', Function.update s.inodes ptr _ other = some obj' ∧ _
    by_cases same : other = ptr
    · rw [same] at found most agrees ⊢
      cases live.symm.trans found
      refine ⟨_, Function.update_self .., Nat.succ_pos _, ?_, agrees⟩
      rw [Pi.add_apply, Pi.single_eq_same]
      exact Nat.succ_le_succ most
    · refine ⟨obj', by rw [Function.update_of_ne same, found], positive, ?_, agrees⟩
      rw [Pi.add_apply, Pi.single_eq_of_ne same, Nat.add_zero]
      exact most
  held_listed other positive := by
    by_cases same : other = ptr
    · exact same ▸ member
    · rw [Pi.add_apply, Pi.single_eq_of_ne same, Nat.add_zero] at positive
      exact opened.held_listed other positive
  nodup := opened.nodup
  fresh := opened.fresh

/-- Loading the inode of a directory. -/
theorem OpenInodes.loadSlot (opened : OpenInodes held s) (ok : DirOk part s.disk d) :
    OpenInodes (held + Pi.single (.kernel s.nextAddr) 1) (s.loadSlot d.toNat) := by
  have absent := opened.not_listed
  have unheld : held (.kernel s.nextAddr) = 0 := by
    by_contra some_
    exact absent (opened.held_listed _ (Nat.pos_of_ne_zero some_))
  have others : ∀ ptr ∈ s.openInodes, ptr ≠ .kernel s.nextAddr := fun ptr member same =>
    absent (same ▸ member)
  refine
    { root := ?_
      root_listed := List.mem_cons_of_mem _ opened.root_listed
      listed := ?_
      held_listed := ?_
      nodup := List.nodup_cons.mpr ⟨absent, opened.nodup⟩
      fresh := ?_ }
  · obtain ⟨root, found, number, counted⟩ := opened.root
    have apart := others _ opened.root_listed
    refine ⟨root, ?_, number, ?_⟩
    · exact (Function.update_of_ne apart _ _).trans found
    · rw [Pi.add_apply]
      change held s.rootDir + (Pi.single (.kernel s.nextAddr) 1 : Ptr → Nat) s.rootDir < _
      rw [Pi.single_eq_of_ne apart, Nat.add_zero]
      exact counted
  · intro ptr member
    rcases List.mem_cons.mp member with rfl | member
    · refine ⟨_, Function.update_self .., Nat.one_pos, ?_, fun _ => ⟨rfl, ?_⟩⟩
      · rw [Pi.add_apply, Pi.single_eq_same, unheld]
      · dsimp only
        rw [ok.number]
        exact ⟨ok.number.symm, rfl, rfl⟩
    · obtain ⟨obj, found, positive, most, agrees⟩ := opened.listed ptr member
      refine ⟨obj, (Function.update_of_ne (others ptr member) _ _).trans found, positive, ?_,
        agrees⟩
      rw [Pi.add_apply, Pi.single_eq_of_ne (others ptr member), Nat.add_zero]
      exact most
  · intro ptr positive
    by_cases same : ptr = .kernel s.nextAddr
    · exact same ▸ List.mem_cons_self
    · rw [Pi.add_apply, Pi.single_eq_of_ne same, Nat.add_zero] at positive
      exact List.mem_cons_of_mem _ (opened.held_listed ptr positive)
  · intro addr above member
    change s.nextAddr + 1 ≤ addr at above
    rcases List.mem_cons.mp member with same | member
    · cases same
      omega
    · exact opened.fresh addr (by omega) member

/-- `inode_open` of a directory returns. -/
theorem inodeOpen_opened (opened : OpenInodes held s) (ok : DirOk part s.disk d) :
    ∃ ptr s', (inodeOpen d).run s = .ok (ptr, s') ∧ OpenInodes (held + Pi.single ptr 1) s' ∧
      SameTree s s' ∧ ∃ obj, s'.inodes ptr = some obj ∧ obj.iNo = d := by
  have live : ∀ ptr ∈ s.openInodes, ∃ obj, s.inodes ptr = some obj := fun ptr member =>
    (opened.listed ptr member).imp fun _ is => is.1
  obtain ⟨found, searched⟩ := findOpen_total d live
  cases found with
  | none =>
      refine ⟨_, _, inodeOpen_of_notOpen ok.small (findOpen_none.mp searched).2,
        opened.loadSlot ok, ⟨rfl, rfl, rfl, rfl, rfl, rfl, rfl⟩, _, Function.update_self .., ?_⟩
      exact ok.number
  | some ptr =>
      obtain ⟨-, member, obj, found, number⟩ := findOpen_some searched
      refine ⟨ptr, s.reopen ptr obj, ?_, opened.reopen member found,
        ⟨rfl, rfl, rfl, rfl, rfl, rfl, rfl⟩, _, Function.update_self .., number⟩
      rw [inodeOpen, call_bind_of (call_get_returns.mpr ⟨rfl, rfl⟩), call_bind_of searched]
      dsimp only
      rw [call_bind_of (deref_returns.mpr ⟨found, rfl⟩)]
      rfl

/-- Closing an inode that is open more than once. -/
theorem OpenInodes.release (opened : OpenInodes (held + Pi.single ptr 1) s)
    (live : s.inodes ptr = some obj)
    (more : obj.iOpenCnts ≠ 1) : OpenInodes held { s with
      inodes := Function.update s.inodes ptr (some { obj with iOpenCnts := obj.iOpenCnts - 1 })
        } where
  root := by
    obtain ⟨root, found, number, counted⟩ := opened.root
    change ∃ obj', Function.update s.inodes ptr _ s.rootDir = some obj' ∧ _
    rw [Pi.add_apply] at counted
    by_cases same : s.rootDir = ptr
    · rw [same, Pi.single_eq_same] at counted
      rw [same] at found ⊢
      cases live.symm.trans found
      refine ⟨_, Function.update_self .., number, ?_⟩
      change held ptr < obj.iOpenCnts - 1
      omega
    · rw [Pi.single_eq_of_ne same, Nat.add_zero] at counted
      exact ⟨root, by rw [Function.update_of_ne same, found], number, counted⟩
  root_listed := opened.root_listed
  listed other inside := by
    obtain ⟨obj', found, positive, most, agrees⟩ := opened.listed other inside
    change ∃ obj', Function.update s.inodes ptr _ other = some obj' ∧ _
    rw [Pi.add_apply] at most
    by_cases same : other = ptr
    · rw [same, Pi.single_eq_same] at most
      rw [same] at found agrees ⊢
      cases live.symm.trans found
      refine ⟨_, Function.update_self .., ?_, ?_, agrees⟩
      · dsimp only
        omega
      · dsimp only
        omega
    · rw [Pi.single_eq_of_ne same, Nat.add_zero] at most
      exact ⟨obj', by rw [Function.update_of_ne same, found], positive, most, agrees⟩
  held_listed other positive :=
    opened.held_listed other (Nat.lt_of_lt_of_le positive (Nat.le_add_right _ _))
  nodup := opened.nodup
  fresh := opened.fresh

/-- Closing an inode that is open once. -/
theorem OpenInodes.discard (opened : OpenInodes (held + Pi.single ptr 1) s)
    (live : s.inodes ptr = some obj)
    (once : obj.iOpenCnts = 1) : OpenInodes held { s with
      openInodes := s.openInodes.erase ptr
      inodes := Function.update s.inodes ptr none } := by
  have member : ptr ∈ s.openInodes := opened.held_listed ptr (by simp)
  have unheld : held ptr = 0 := by
    obtain ⟨obj', found, -, most, -⟩ := opened.listed ptr member
    cases live.symm.trans found
    rw [Pi.add_apply, Pi.single_eq_same] at most
    omega
  have notRoot : s.rootDir ≠ ptr := by
    intro same
    obtain ⟨root, found, -, counted⟩ := opened.root
    rw [same] at found counted
    cases live.symm.trans found
    rw [Pi.add_apply, Pi.single_eq_same] at counted
    omega
  have kept : ∀ other, other ∈ s.openInodes.erase ptr ↔ other ≠ ptr ∧ other ∈ s.openInodes :=
    fun other => opened.nodup.mem_erase_iff
  refine
    { root := ?_
      root_listed := (kept _).mpr ⟨notRoot, opened.root_listed⟩
      listed := ?_
      held_listed := ?_
      nodup := opened.nodup.erase ptr
      fresh := fun addr above inside => opened.fresh addr above ((kept _).mp inside).2 }
  · obtain ⟨root, found, number, counted⟩ := opened.root
    rw [Pi.add_apply, Pi.single_eq_of_ne notRoot, Nat.add_zero] at counted
    exact ⟨root, (Function.update_of_ne notRoot _ _).trans found, number, counted⟩
  · intro other inside
    obtain ⟨apart, inside⟩ := (kept other).mp inside
    obtain ⟨obj', found, positive, most, agrees⟩ := opened.listed other inside
    rw [Pi.add_apply, Pi.single_eq_of_ne apart, Nat.add_zero] at most
    exact ⟨obj', (Function.update_of_ne apart _ _).trans found, positive, most, agrees⟩
  · intro other positive
    refine (kept other).mpr ⟨fun same => ?_, opened.held_listed other
      (Nat.lt_of_lt_of_le positive (Nat.le_add_right _ _))⟩
    rw [same, unheld] at positive
    exact Nat.lt_irrefl 0 positive

/-- `inode_close` of a directory returns. -/
theorem inodeClose_opened (opened : OpenInodes (held + Pi.single ptr 1) s)
    (live : s.inodes ptr = some obj) (isDir : IsDir part s.disk obj.iNo) :
    ∃ s', (inodeClose ptr).run s = .ok ((), s') ∧ OpenInodes held s' ∧ SameTree s s' := by
  have member : ptr ∈ s.openInodes := opened.held_listed ptr (by simp)
  obtain ⟨obj', found, positive, -, agrees⟩ := opened.listed ptr member
  cases live.symm.trans found
  rw [inodeClose, call_bind_of (deref_returns.mpr ⟨live, rfl⟩)]
  dsimp only
  rw [if_neg (show ¬ obj.iOpenCnts = 0 by omega)]
  by_cases once : obj.iOpenCnts = 1
  · have inKernel : assertKernelHeap ptr = .ok () := if_pos (agrees isDir).1
    refine ⟨_, ?_, opened.discard live once, ⟨rfl, rfl, rfl, rfl, rfl, rfl, rfl⟩⟩
    rw [if_pos (by omega), call_bind_of (call_modify_returns.mpr rfl),
      call_bind_of (call_lift_returns.mpr ⟨inKernel, rfl⟩)]
    rfl
  · refine ⟨_, ?_, opened.release live once, ⟨rfl, rfl, rfl, rfl, rfl, rfl, rfl⟩⟩
    rw [if_neg (by omega)]
    exact store_returns.mpr rfl

/-- `dir_open` of a directory returns. -/
theorem dirOpen_opened (opened : OpenInodes held s) (ok : DirOk part s.disk d) :
    ∃ dir s', (dirOpen d).run s = .ok (dir, s') ∧ OpenInodes (held + dir.refs) s' ∧ SameTree s s' ∧
      Holds s' dir d := by
  obtain ⟨ptr, s', ran, opened', same, holds⟩ := inodeOpen_opened opened ok
  refine ⟨.heap ptr, s', ?_, opened', same, holds⟩
  rw [dirOpen, call_bind_of ran]
  rfl

/-- `dir_close` of a directory returns. -/
theorem dirClose_opened (opened : OpenInodes (held + dir.refs) s) (holds : Holds s dir d)
    (isDir : IsDir part s.disk d) :
    ∃ s', (dirClose dir).run s = .ok ((), s') ∧ OpenInodes held s' ∧ SameTree s s' := by
  cases dir with
  | root => exact ⟨s, rfl, opened, SameTree.refl s⟩
  | heap ptr =>
      obtain ⟨obj, found, number⟩ := holds
      exact inodeClose_opened opened found (number ▸ isDir)

/-- The inode of an open directory is listed. -/
theorem OpenInodes.dir_listed (opened : OpenInodes (held + dir.refs) s) :
    s.dirInode dir ∈ s.openInodes := by
  cases dir with
  | root => exact opened.root_listed
  | heap ptr => exact opened.held_listed ptr (by simp [Dir.refs])

/-- The object of an open directory agrees with its slot. -/
theorem OpenInodes.agrees (opened : OpenInodes (held + dir.refs) s) (holds : Holds s dir d)
    (isDir : IsDir part s.disk d) : ∃ obj, s.inodes (s.dirInode dir) = some obj ∧ obj.iNo = d ∧
      obj.SameFile (slot part s.disk d.toNat) := by
  obtain ⟨obj, found, number⟩ := holds
  obtain ⟨obj', found', -, -, agrees⟩ := opened.listed _ opened.dir_listed
  cases found.symm.trans found'
  rw [number] at agrees
  exact ⟨obj, found, number, (agrees isDir).2⟩

/-- The search in a directory looks at its blocks only. -/
theorem searchBlocks_sameFile {disk : Memory} {inode inode' : Inode}
    (same : inode.SameFile inode') :
    searchBlocks disk inode name = searchBlocks disk inode' name := by
  unfold searchBlocks
  rw [same.allBlocks]

end

end UKernel.Fs
