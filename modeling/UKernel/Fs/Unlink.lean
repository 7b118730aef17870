import UKernel.Fs.StoredTree

/-! # Deleting a file

`sys_unlink` in a well-formed file system removes the entry that the path leads to and releases the
inode of the file, and changes nothing if the path leads to no file that can be deleted. There are
four exceptions: a path that is too long, a path that goes on behind a regular file, a directory
whose number does not fit a `uint8_t`, and the only entry of an indirect block. The main result is
`UKernel.Fs.unlink_correct_iff`.
-/

namespace UKernel.Fs

open UKernel.Library

variable {part : Partition} {s s₁ s₂ s₃ s' : FsState part} {held : Ptr → Nat} {disk disk' : Memory}
  {d f i n p type : Word} {name : List Byte} {names : List (List Byte)} {pathname : List Byte}
  {ptr dir : Ptr} {obj inode inode' : Inode} {pos : Pos} {entry : DirEntry}
  {btmp : Bitmap part.blockBitmapBytes}

/-! ## The directory's object and its slot -/

section

theorem Inode.SameFile.entries (same : inode.SameFile inode') :
    entries disk inode = entries disk inode' := by
  funext pos
  unfold Fs.entries slotBuf
  rw [same.allBlocks]

theorem Inode.SameFile.slotBuf (same : inode.SameFile inode') :
    slotBuf disk inode = slotBuf disk inode' := by
  funext pos
  unfold Fs.slotBuf
  rw [same.allBlocks]

/-- A well-formed directory may be described by its object instead of its slot. -/
theorem DottedDir.sameFile (wf : DottedDir disk btmp inode') (same : inode.SameFile inode') :
    DottedDir disk btmp inode where
  owns := by
    constructor
    · rw [same.ownBlock]
      exact wf.owns.apart
    · rw [same.ownBlock]
      exact wf.owns.marked
  readable := by
    constructor
    · rw [same.allBlocks, same.entries, same.slotBuf]
      exact wf.readable.blank
    · rw [same.entries]
      exact wf.readable.typed
  nonempty := by
    rw [same.entries]
    exact wf.nonempty
  unique := by
    rw [same.entries]
    exact wf.unique
  size := by
    rw [same.entries, same.2.1]
    exact wf.size
  dotFirst := by
    rw [same.entries]
    exact wf.dotFirst
  dotdotFirst := by
    rw [same.entries]
    exact wf.dotdotFirst
  distinct := by
    rw [same.entries]
    exact wf.distinct

/-- `shrinkDir` stores the directory. -/
theorem shrinkDir_stores (ran : (shrinkDir dir inode).run s = .ok ((), s')) :
    ∃ inode', s'.inodes dir = some inode' ∧
      (slot part s'.disk (inode.iNo.toNat % 256)).SameFile inode' := by
  have fits : 24 ≤ inode.iSize.toNat := by
    obtain ⟨_, _, lifted, -⟩ := call_bind_returns.mp ran
    exact require_eq_ok.mp (call_lift_returns.mp lifted).1
  rw [shrinkDir_run fits] at ran
  cases ran
  exact ⟨inode.shrunk, Function.update_self .., load_slot_splice⟩

theorem recycleBlock_number {b : Nat} {block : Word}
    (ran : (recycleBlock dir inode b block).run s = .ok (inode', s')) :
    inode'.iNo = inode.iNo := by
  obtain ⟨_, _, -, ran⟩ := call_bind_returns.mp ran
  obtain ⟨_, _, -, ran⟩ := call_bind_returns.mp ran
  split at ran
  case isTrue =>
      obtain ⟨_, _, -, ran⟩ := call_bind_returns.mp ran
      obtain ⟨rfl, -⟩ := call_pure_returns.mp ran
      rfl
  case isFalse => cases ran

/-- The removal of an entry stores the directory in the slot of its number modulo 256. -/
theorem removeTarget_stores {said : Pos → Option DirEntry} {block : Word} {done : Bool}
    (ran : (removeTarget dir inode said pos block).run s = .ok (done, s')) :
    ∃ inode', s'.inodes dir = some inode' ∧
      (slot part s'.disk (inode.iNo.toNat % 256)).SameFile inode' := by
  unfold removeTarget at ran
  split at ran
  case isTrue =>
      obtain ⟨inode₁, _, recycled, ran⟩ := call_bind_returns.mp ran
      obtain ⟨_, _, shrinks, ran⟩ := call_bind_returns.mp ran
      obtain ⟨-, rfl⟩ := call_pure_returns.mp ran
      rw [← recycleBlock_number recycled]
      exact shrinkDir_stores shrinks
  case isFalse =>
      obtain ⟨_, _, -, ran⟩ := call_bind_returns.mp ran
      obtain ⟨_, _, shrinks, ran⟩ := call_bind_returns.mp ran
      obtain ⟨-, rfl⟩ := call_pure_returns.mp ran
      exact shrinkDir_stores shrinks

end

/-! ## Removing the entry -/

/-- The entry of a file was deleted from a directory, whose object and slot are the same again if
its number fits a `uint8_t`. -/
structure Dropped (s s₂ : FsState part) (dir : Ptr) (p : Word) (pos : Pos) (obj inode' : Inode) :
    Prop where
  removed : Removed s s₂ dir obj inode' pos
  live : s.inodes dir = some obj
  agrees : obj.SameFile (slot part s.disk p.toNat)
  number : obj.iNo = p
  saved : (slot part s₂.disk (p.toNat % 256)).SameFile inode'
  counts : inode'.iOpenCnts = obj.iOpenCnts

section

theorem WellStored.owns (stored : WellStored s) (used : IsUsed part s.disk n) :
    OwnsBlocks s.disk s.blockBitmap (slot part s.disk n.toNat) := by
  rcases used with isDir | isFile
  · exact (stored.dirs n isDir).owns
  · exact (stored.files n isFile).2.2

theorem WellStored.small (stored : WellStored s) (used : IsUsed part s.disk n) :
    n.toNat < 4096 := by
  rcases used with isDir | isFile
  · exact (stored.directories n isDir).small
  · exact stored.file_small isFile

/-- `delete_dir_entry` of a file that is not the only entry of an indirect block. -/
theorem deleteDirEntry_drops (stored : WellStored s) (isDir : IsDir part s.disk p)
    (live : s.inodes dir = some obj) (agrees : obj.SameFile (slot part s.disk p.toNat))
    (target : Fs.Target s.disk (slot part s.disk p.toNat) f pos entry)
    (direct : Empties (entries s.disk (slot part s.disk p.toNat)) pos → pos.1.val < 12) :
    ∃ s₂ inode', (deleteDirEntry dir f).run s = .ok (true, s₂) ∧
      Dropped s s₂ dir p pos obj inode' := by
  have wf : DottedDir s.disk s.blockBitmap obj := (stored.dirs p isDir).sameFile agrees
  have number : obj.iNo = p := agrees.1.trans (stored.directories p isDir).number
  have target' : Fs.Target s.disk obj f pos entry := by
    rw [Fs.Target, agrees.entries]
    exact target
  rw [← agrees.entries] at direct
  obtain ⟨s₂, inode', ran, removed⟩ := wf.delete_removes live target' direct
  have whole := ran
  rw [wf.delete_found live target'] at ran
  obtain ⟨stored', here, saved⟩ := removeTarget_stores ran
  cases removed.object.symm.trans here
  have counts := (deleteDirEntry_quiet f dir _ _ _ whole).counts dir
  rw [live, removed.object, Option.map_some, Option.map_some, Option.some.injEq] at counts
  rw [number] at saved
  exact ⟨s₂, inode', whole, removed, live, agrees, number, saved, counts⟩

/-- The slot of another inode is left alone, if the number of the directory fits. -/
theorem Dropped.slot_same (dropped : Dropped s s₂ dir p pos obj inode') (fits : p.toNat < 256)
    (small : n.toNat < 4096) (apart : n ≠ p) :
    SameSlot part s.disk s₂.disk n.toNat := by
  apply dropped.removed.slots _ small
  rw [dropped.number, Nat.mod_eq_of_lt fits]
  exact fun same => apart (BitVec.eq_of_toNat_eq same)

variable (dropped : Dropped s s₂ dir p pos obj inode') (stored : WellStored s)
include dropped stored

/-- The blocks of another directory or file are left alone. -/
theorem Dropped.foreign (isDir : IsDir part s.disk p) (used : IsUsed part s.disk n) (apart : n ≠ p)
    {k : Nat} (small : k ≤ 140) (present : ownBlock s.disk (slot part s.disk n.toNat) k ≠ 0) :
    SameBlock s.disk s₂.disk (ownBlock s.disk (slot part s.disk n.toNat) k) := by
  apply dropped.removed.blocks
  · exact ((stored.owns used).marked k small present).in_data
  · intro k' small' same
    rw [dropped.agrees.ownBlock] at same
    exact stored.disjoint n p used (.inl isDir) apart k small k' small' present same.symm

/-- Another directory or file owns the blocks that it owned. -/
theorem Dropped.own_same (isDir : IsDir part s.disk p) (fits : p.toNat < 256)
    (used : IsUsed part s.disk n) (apart : n ≠ p) {k : Nat} (less : k ≤ 140) :
    ownBlock s₂.disk (slot part s₂.disk n.toNat) k =
      ownBlock s.disk (slot part s.disk n.toNat) k := by
  rw [← (dropped.slot_same fits (stored.small used) apart).slot_eq]
  apply ownBlock_congr less fun _ _ => rfl
  intro present
  rw [← ownBlock_table] at present ⊢
  exact dropped.foreign stored isDir used apart (Nat.le_refl _) present

/-- The inode of the file can be opened after the deletion. -/
theorem Dropped.openable (opened : OpenInodes held s) (agree : FilesAgree s)
    (isDir : IsDir part s.disk p) (isFile : IsFile part s.disk f) (fits : p.toNat < 256) :
    Openable s₂ f := by
  have small := stored.file_small isFile
  have apart := stored.file_ne_dir isFile isDir
  have same := dropped.slot_same fits small apart
  have listed : s₂.openInodes = s.openInodes := by rw [dropped.removed.state_eq]
  have next : s₂.nextAddr = s.nextAddr := by rw [dropped.removed.state_eq]
  have objects : s₂.inodes = Function.update s.inodes dir (some inode') :=
    congrArg FsState.inodes dropped.removed.state_eq
  refine ⟨small, ?_, ?_, ?_⟩
  · rw [← same.slot_eq]
    exact (stored.files f isFile).2.1
  · intro ptr member
    rw [listed] at member
    obtain ⟨obj', live, positive, -⟩ := opened.listed ptr member
    rw [objects, ← same.slot_eq]
    by_cases here : ptr = dir
    · rw [here] at live ⊢
      cases dropped.live.symm.trans live
      refine ⟨inode', Function.update_self .., dropped.counts ▸ positive, fun number => ?_⟩
      rw [dropped.removed.iNo_eq, dropped.number] at number
      exact absurd number.symm apart
    · refine ⟨obj', by rw [Function.update_of_ne here, live], positive, fun number => ?_⟩
      have agrees := agree.agrees ptr member obj' live (number ▸ isFile)
      rw [number] at agrees
      exact agrees
  · rw [listed, next]
    exact opened.not_listed

/-- The blocks of the file are not the first one of the data area. -/
theorem Dropped.releasable (isDir : IsDir part s.disk p) (isFile : IsFile part s.disk f)
    (fits : p.toNat < 256) : ∀ k ≤ 140, ownBlock s₂.disk (slot part s₂.disk f.toNat) k ≠ 0 →
      Releasable part (ownBlock s₂.disk (slot part s₂.disk f.toNat) k) := by
  intro k small present
  rw [dropped.own_same stored isDir fits (.inr isFile) (stored.file_ne_dir isFile isDir) small]
    at present ⊢
  obtain ⟨bitIdx, less, is, -⟩ := (stored.files f isFile).2.2.marked k small present
  refine ⟨bitIdx, Nat.pos_of_ne_zero fun zero => ?_, less, is⟩
  apply stored.disjoint f 0 (.inr isFile) (.inl .start) (stored.file_ne_zero isFile) k small 0
    (by decide) present
  rw [is, zero, ← stored.rootBlock]
  rfl

end

/-! ## What a deletion changes -/

/-- The entry at a position of a directory and the regular file that it stands for are gone: the
directory has one entry less, the blocks of the file, and those that the directory loses with the
entry, are no longer marked, the bit of the inode is cleared, and every other name, inode and block
is the same. -/
structure Unlinked (s s' : FsState part) (p f : Word) (pos : Pos) : Prop where
  entries_eq : entries s'.disk (slot part s'.disk p.toNat) =
    Function.update (entries s.disk (slot part s.disk p.toNat)) pos none
  size : (slot part s'.disk p.toNat).iSize = (slot part s.disk p.toNat).iSize - 24
  own_freed : ∀ k ≤ 140, Frees s.disk (slot part s.disk p.toNat) pos k →
    ownBlock s'.disk (slot part s'.disk p.toNat) k = 0
  own_kept : ∀ k ≤ 140, ¬ Frees s.disk (slot part s.disk p.toNat) pos k →
    ownBlock s'.disk (slot part s'.disk p.toNat) k = ownBlock s.disk (slot part s.disk p.toNat) k
  names : ∀ d, IsDir part s.disk d → ∀ name target, Names part s'.disk d name target ↔
    Names part s.disk d name target ∧ ¬ (d = p ∧ target = .file f)
  marks : ∀ block, Marked s'.blockBitmap block ↔ Marked s.blockBitmap block ∧
    (∀ k ≤ 140, ownBlock s.disk (slot part s.disk f.toNat) k ≠ block) ∧
    ∀ k ≤ 140, Frees s.disk (slot part s.disk p.toNat) pos k →
      ownBlock s.disk (slot part s.disk p.toNat) k ≠ block
  inodeBitmap : s'.inodeBitmap = s.inodeBitmap.set f.toNat false
  blocks : ∀ block, part.sb.dataStartLba ≤ block.toNat →
    (∀ k ≤ 140, ownBlock s.disk (slot part s.disk p.toNat) k ≠ block) →
      SameBlock s.disk s'.disk block
  slots : ∀ n < 4096, n ≠ p.toNat → n ≠ f.toNat → SameSlot part s.disk s'.disk n
  rootDir : s'.rootDir = s.rootDir
  fileTable : s'.fileTable = s.fileTable
  fdTable : s'.fdTable = s.fdTable
  userProcess : s'.userProcess = s.userProcess

section

/-- Without the entry, the names of its directory are the others. -/
theorem names_erased (wf : DottedDir disk btmp (slot part disk p.toNat))
    (wellFormed : WellFormed part disk) (isDir : IsDir part disk p)
    (there : entries disk (slot part disk p.toNat) pos = some entry)
    (isFile : entry.target = .file f)
    (erased : entries disk' (slot part disk' p.toNat) =
      Function.update (entries disk (slot part disk p.toNat)) pos none)
    {target : Library.Target Word Word} : Names part disk' p name target ↔
      Names part disk p name target ∧ target ≠ .file f := by
  unfold Names
  rw [erased]
  constructor
  · rintro ⟨nonempty, clean, pos', entry', there', has, is⟩
    by_cases here : pos' = pos
    · rw [here, Function.update_self] at there'
      cases there'
    · rw [Function.update_of_ne here] at there'
      refine ⟨⟨nonempty, clean, pos', entry', there', has, is⟩, fun same => here ?_⟩
      rw [same] at is
      exact wf.distinct pos' pos entry' entry there' there
        (wellFormed.file_isOther isDir there' is) (wellFormed.file_isOther isDir there isFile)
        ((DirEntry.target_file is).trans (DirEntry.target_file isFile).symm)
  · rintro ⟨⟨nonempty, clean, pos', entry', there', has, is⟩, other⟩
    refine ⟨nonempty, clean, pos', entry', ?_, has, is⟩
    rw [Function.update_of_ne, there']
    rintro rfl
    cases there.symm.trans there'
    exact other (is.symm.trans isFile)

variable (dropped : Dropped s s₂ dir p pos obj inode') (released : Released s₂ s₃ f)
  (stored : WellStored s) (isDir : IsDir part s.disk p) (isFile : IsFile part s.disk f)
  (fits : p.toNat < 256)
include dropped released stored isDir isFile fits

/-- The slot of the directory holds its object. -/
theorem Dropped.saved_after : (slot part s₃.disk p.toNat).SameFile inode' := by
  have apart : p.toNat ≠ f.toNat := fun same =>
    stored.file_ne_dir isFile isDir (BitVec.eq_of_toNat_eq same.symm)
  have saved := dropped.saved
  rw [Nat.mod_eq_of_lt fits] at saved
  rw [← (released.slots p.toNat (by omega) apart).slot_eq]
  exact saved

/-- The blocks of the directory after the release. -/
theorem Dropped.own_after {k : Nat} (small : k ≤ 140) :
    ownBlock s₃.disk (slot part s₃.disk p.toNat) k = ownBlock s₂.disk inode' k := by
  rw [(dropped.saved_after released stored isDir isFile fits).ownBlock]
  exact ownBlock_congr small (fun _ _ => rfl) fun present =>
    released.data.sameBlock (dropped.removed.owns.table_marked present).in_data

/-- The entries of the directory after the release. -/
theorem Dropped.entries_after : entries s₃.disk (slot part s₃.disk p.toNat) =
    Function.update (entries s.disk (slot part s.disk p.toNat)) pos none := by
  rw [(dropped.saved_after released stored isDir isFile fits).entries, ← dropped.agrees.entries,
    ← dropped.removed.entries_eq]
  funext pos'
  have owns := dropped.removed.owns
  have all : allBlocks s₃.disk inode' pos'.1 = allBlocks s₂.disk inode' pos'.1 :=
    allBlocks_congr pos'.1.isLt (fun _ _ => rfl) fun present =>
      released.data.sameBlock (owns.table_marked present).in_data
  exact entries_congr all fun present =>
    released.data.sameBlock (owns.block_marked pos'.1.isLt present).in_data

/-- The entries of another directory. -/
theorem Dropped.others_after (isDir' : IsDir part s.disk d) (apart : d ≠ p) :
    entries s₃.disk (slot part s₃.disk d.toNat) = entries s.disk (slot part s.disk d.toNat) := by
  have small := (stored.directories d isDir').small
  have notFile : d.toNat ≠ f.toNat := fun same =>
    stored.file_ne_dir isFile isDir' (BitVec.eq_of_toNat_eq same.symm)
  have same : slot part s₃.disk d.toNat = slot part s.disk d.toNat :=
    ((dropped.slot_same fits small apart).trans (released.slots _ small notFile)).slot_eq.symm
  have owns := stored.owns (.inl isDir')
  have kept : ∀ k ≤ 140, ownBlock s.disk (slot part s.disk d.toNat) k ≠ 0 →
      SameBlock s.disk s₃.disk (ownBlock s.disk (slot part s.disk d.toNat) k) := by
    intro k less present
    exact (dropped.foreign stored isDir (.inl isDir') apart less present).trans
      (released.data.sameBlock (owns.marked k less present).in_data)
  rw [same]
  funext pos'
  apply entries_congr
  · apply allBlocks_congr pos'.1.isLt fun _ _ => rfl
    intro present
    rw [← ownBlock_table] at present ⊢
    exact kept 140 (Nat.le_refl _) present
  · intro present
    rw [← ownBlock_of_lt pos'.1.isLt] at present ⊢
    exact kept pos'.1 (by omega) present

/-- **Removing an entry and releasing its file.** -/
theorem Dropped.unlinked (target : Fs.Target s.disk (slot part s.disk p.toNat) f pos entry)
    (is : entry.target = .file f) : Unlinked s s₃ p f pos := by
  have removed := dropped.removed
  have saved := dropped.saved_after released stored isDir isFile fits
  have erased := dropped.entries_after released stored isDir isFile fits
  have freed : ∀ k, Frees s.disk obj pos k ↔ Frees s.disk (slot part s.disk p.toNat) pos k := by
    intro k
    unfold Frees
    rw [dropped.agrees.entries, dropped.agrees.allBlocks]
  exact {
    entries_eq := erased
    size := by rw [saved.2.1, removed.iSize_eq, dropped.agrees.2.1]
    own_freed := fun k small gone => by
      rw [dropped.own_after released stored isDir isFile fits small]
      exact removed.own_freed k small ((freed k).mpr gone)
    own_kept := fun k small stays => by
      rw [dropped.own_after released stored isDir isFile fits small, ← dropped.agrees.ownBlock]
      exact removed.own_kept k small fun gone => stays ((freed k).mp gone)
    names := fun d isDir' name target' => by
      by_cases same : d = p
      · subst same
        rw [names_erased (stored.dirs d isDir') stored.toWellFormed
          isDir' target.1 is erased]
        simp
      · have others := dropped.others_after released stored isDir isFile fits isDir' same
        unfold Names
        rw [others]
        simp [same]
    marks := fun block => by
      rw [released.marks, removed.marks, and_assoc]
      refine and_congr_right fun _ => and_comm.trans (and_congr ?_ ?_)
      · refine forall₂_congr fun k small => ?_
        rw [dropped.own_same stored isDir fits (.inr isFile) (stored.file_ne_dir isFile isDir)
          small]
      · refine forall₂_congr fun k small => ?_
        rw [freed k, dropped.agrees.ownBlock]
    inodeBitmap := by
      rw [released.inodeBitmap, removed.state_eq]
    blocks := fun block far foreign => by
      rw [← dropped.agrees.ownBlock] at foreign
      exact (removed.blocks block far foreign).trans (released.data.sameBlock far)
    slots := fun n small apart apart' => by
      rw [← Nat.mod_eq_of_lt fits, ← dropped.number] at apart
      exact (removed.slots n small apart).trans (released.slots n small apart')
    rootDir := by rw [released.opened.rootDir, removed.state_eq]
    fileTable := by rw [released.opened.fileTable, removed.state_eq]
    fdTable := by rw [released.opened.fdTable, removed.state_eq]
    userProcess := by rw [released.opened.userProcess, removed.state_eq] }

end

/-- The directories are the same. -/
theorem Unlinked.isDir_iff (unlinked : Unlinked s s' p f pos) :
    IsDir part s'.disk d ↔ IsDir part s.disk d := by
  apply reached_congr
  intro d isDir name d'
  rw [unlinked.names d isDir]
  exact and_iff_left fun both => by cases both.2

/-- The directories of the tree, and their open objects, after other changes. -/
theorem OpenInodes.frame (opened : OpenInodes held s) (rootDir : s'.rootDir = s.rootDir)
    (listed : s'.openInodes = s.openInodes) (next : s.nextAddr ≤ s'.nextAddr)
    (objects : ∀ ptr ∈ s.openInodes, ∀ obj, s.inodes ptr = some obj →
      ∃ obj', s'.inodes ptr = some obj' ∧
      obj'.iNo = obj.iNo ∧ obj'.iOpenCnts = obj.iOpenCnts ∧ (IsDir part s'.disk obj.iNo →
        IsDir part s.disk obj.iNo ∧ (obj.SameFile (slot part s.disk obj.iNo.toNat) →
          obj'.SameFile (slot part s'.disk obj.iNo.toNat)))) : OpenInodes held s' where
  root := by
    obtain ⟨root, found, number, counted⟩ := opened.root
    obtain ⟨root', found', number', counts, -⟩ := objects _ opened.root_listed root found
    rw [rootDir]
    exact ⟨root', found', number'.trans number, counts ▸ counted⟩
  root_listed := by
    rw [rootDir, listed]
    exact opened.root_listed
  listed ptr member := by
    rw [listed] at member
    obtain ⟨obj, found, positive, most, agrees⟩ := opened.listed ptr member
    obtain ⟨obj', found', number, counts, after⟩ := objects ptr member obj found
    refine ⟨obj', found', counts ▸ positive, counts ▸ most, fun isDir => ?_⟩
    rw [number] at isDir ⊢
    obtain ⟨before, kept⟩ := after isDir
    exact ⟨(agrees before).1, kept (agrees before).2⟩
  held_listed ptr positive := by
    rw [listed]
    exact opened.held_listed ptr positive
  nodup := by
    rw [listed]
    exact opened.nodup
  fresh addr above := by
    rw [listed]
    exact opened.fresh addr (Nat.le_trans next above)

/-- The open inodes after an entry was removed and its file released. -/
theorem Dropped.opened_after (dropped : Dropped s s₂ dir p pos obj inode')
    (released : Released s₂ s₃ f) (unlinked : Unlinked s s₃ p f pos) (stored : WellStored s)
    (isFile : IsFile part s.disk f) (saved : (slot part s₃.disk p.toNat).SameFile inode')
    (member : dir ∈ s.openInodes) (opened : OpenInodes held s) (agree : FilesAgree s) :
    OpenInodes held s₃ := by
  have rootDir : s₂.rootDir = s.rootDir := by rw [dropped.removed.state_eq]
  have listed : s₂.openInodes = s.openInodes := by rw [dropped.removed.state_eq]
  have next : s₂.nextAddr = s.nextAddr := by rw [dropped.removed.state_eq]
  have objects : s₂.inodes = Function.update s.inodes dir (some inode') :=
    congrArg FsState.inodes dropped.removed.state_eq
  refine opened.frame (released.opened.rootDir.trans rootDir)
    (released.opened.openInodes.trans listed) (next ▸ released.opened.nextAddr)
    fun ptr inside obj₀ live => ?_
  have kept : s₃.inodes ptr = Function.update s.inodes dir (some inode') ptr := by
    rw [released.opened.objects ptr (listed ▸ inside), objects]
  rw [kept]
  by_cases here : ptr = dir
  · subst here
    cases dropped.live.symm.trans live
    refine ⟨inode', Function.update_self .., dropped.removed.iNo_eq, dropped.counts,
      fun isDir => ?_⟩
    refine ⟨unlinked.isDir_iff.mp isDir, fun _ => ?_⟩
    rw [dropped.number]
    exact ⟨saved.1.symm, saved.2.1.symm, saved.2.2.symm⟩
  · refine ⟨obj₀, by rw [Function.update_of_ne here, live], rfl, rfl, fun isDir => ?_⟩
    have before := unlinked.isDir_iff.mp isDir
    have apart : obj₀.iNo ≠ p := fun same =>
      here (agree.once ptr inside dir member obj₀ obj live dropped.live
        (same.trans dropped.number.symm))
    have notFile : obj₀.iNo ≠ f := (stored.file_ne_dir isFile before).symm
    have same := unlinked.slots obj₀.iNo.toNat (stored.directories _ before).small
      (fun is => apart (BitVec.eq_of_toNat_eq is)) fun is => notFile (BitVec.eq_of_toNat_eq is)
    exact ⟨before, fun agrees => same.slot_eq ▸ agrees⟩

/-- Opening and closing inodes before and after changes nothing. -/
theorem Unlinked.congr (unlinked : Unlinked s₁ s₂ p f pos) (before : SameTree s s₁)
    (after : SameTree s₂ s') : Unlinked s s' p f pos where
  entries_eq := by
    rw [after.disk, ← before.disk]
    exact unlinked.entries_eq
  size := by
    rw [after.disk, ← before.disk]
    exact unlinked.size
  own_freed := by
    rw [after.disk, ← before.disk]
    exact unlinked.own_freed
  own_kept := by
    rw [after.disk, ← before.disk]
    exact unlinked.own_kept
  names := by
    rw [after.disk, ← before.disk]
    exact unlinked.names
  marks := by
    rw [after.blockBitmap, ← before.blockBitmap, ← before.disk]
    exact unlinked.marks
  inodeBitmap := by
    rw [after.inodeBitmap, ← before.inodeBitmap]
    exact unlinked.inodeBitmap
  blocks := by
    rw [after.disk, ← before.disk]
    exact unlinked.blocks
  slots := by
    rw [after.disk, ← before.disk]
    exact unlinked.slots
  rootDir := after.rootDir.trans (unlinked.rootDir.trans before.rootDir)
  fileTable := after.fileTable.trans (unlinked.fileTable.trans before.fileTable)
  fdTable := after.fdTable.trans (unlinked.fdTable.trans before.fdTable)
  userProcess := after.userProcess.trans (unlinked.userProcess.trans before.userProcess)

/-! ## The call -/

/-- The last part of `sys_unlink`: the entry is deleted and the inode is released. -/
def removeFile (parentDir : Dir) (inodeNo : Word) : FsCall part Bool := do
  let s ← get
  let _ ← deleteDirEntry (s.dirInode parentDir) inodeNo
  inodeRelease inodeNo
  dirClose parentDir
  return true

/-- `sys_unlink` after the search. -/
def unlinkFound (inodeNo : Word) (record : PathSearchRecord) : FsCall part Bool := do
  if inodeNo = notFound ∨ record.fileType = ftDirectory then
    dirClose record.parentDir
    return false
  else if ← inUse inodeNo (List.range maxFileOpen) then
    dirClose record.parentDir
    return false
  else
    removeFile record.parentDir inodeNo

section

variable {record : PathSearchRecord} {junk : Word} {parentDir : Dir}

theorem sysUnlink_run (length : pathname.length < maxPathLen)
    (ran : (searchFile junk pathname).run s = .ok ((i, record), s₁)) (nonzero : i ≠ 0) :
    (sysUnlink junk pathname).run s = (unlinkFound i record).run s₁ := by
  rw [sysUnlink, call_bind_of (call_lift_returns.mpr ⟨require_of length, rfl⟩), call_bind_of ran]
  dsimp only
  rw [call_bind_of (call_lift_returns.mpr ⟨require_of nonzero, rfl⟩)]
  rfl

/-- The calls that give up close the directory. -/
theorem giveUp_run (opened : OpenInodes (held + parentDir.refs) s) (holds : Holds s parentDir p)
    (isDir : IsDir part s.disk p) :
    ∃ s', (do dirClose parentDir; return false : FsCall part Bool).run s =
      .ok (false, s') ∧ OpenInodes held s' ∧ SameTree s s' := by
  obtain ⟨s', closed, opened', same⟩ := dirClose_opened opened holds isDir
  refine ⟨s', ?_, opened', same⟩
  rw [call_bind_of closed]
  rfl

/-- Deleting the entry of a file that is not the only one of an indirect block, from a directory
whose number fits. -/
theorem removeFile_run (stored : WellStored s) (opened : OpenInodes (held + parentDir.refs) s)
    (agree : FilesAgree s) (holds : Holds s parentDir p) (isDir : IsDir part s.disk p)
    (isFile : IsFile part s.disk f) (fits : p.toNat < 256)
    (target : Fs.Target s.disk (slot part s.disk p.toNat) f pos entry)
    (is : entry.target = .file f)
    (direct : Empties (entries s.disk (slot part s.disk p.toNat)) pos → pos.1.val < 12) :
    ∃ s', (removeFile parentDir f).run s = .ok (true, s') ∧ Unlinked s s' p f pos ∧
      OpenInodes held s' := by
  obtain ⟨obj, live, -, agrees⟩ := opened.agrees holds isDir
  obtain ⟨s₂, inode', deletes, dropped⟩ :=
    deleteDirEntry_drops stored isDir live agrees target direct
  obtain ⟨s₃, releases, released⟩ := inodeRelease_run
    (dropped.openable stored opened agree isDir isFile fits)
    (dropped.releasable stored isDir isFile fits)
  have unlinked := dropped.unlinked released stored isDir isFile fits target is
  have saved := dropped.saved_after released stored isDir isFile fits
  have opened₃ := dropped.opened_after released unlinked stored isFile saved opened.dir_listed
    opened agree
  have same : s₃.dirInode parentDir = s.dirInode parentDir := by
    cases parentDir with
    | root => exact unlinked.rootDir
    | heap ptr => rfl
  have holds₃ : Holds s₃ parentDir p := by
    have listed : s₂.openInodes = s.openInodes := by rw [dropped.removed.state_eq]
    refine ⟨inode', ?_, dropped.removed.iNo_eq.trans dropped.number⟩
    rw [same, released.opened.objects _ (listed ▸ opened.dir_listed)]
    exact dropped.removed.object
  obtain ⟨s', closed, opened', after⟩ :=
    dirClose_opened opened₃ holds₃ (unlinked.isDir_iff.mpr isDir)
  refine ⟨s', ?_, unlinked.congr (SameTree.refl s) after, opened'⟩
  rw [removeFile, call_bind_of (call_get_returns.mpr ⟨rfl, rfl⟩), call_bind_of deletes,
    call_bind_of releases, call_bind_of closed]
  rfl

/-- `sys_unlink` for what is not a regular file, or is in use. -/
theorem unlinkFound_keeps (opened : OpenInodes (held + record.parentDir.refs) s)
    (holds : Holds s record.parentDir p) (isDir : IsDir part s.disk p)
    (kept : i = notFound ∨ record.fileType = ftDirectory ∨
      (inUse i (List.range maxFileOpen)).run s = .ok (true, s)) :
    ∃ s', (unlinkFound i record).run s = .ok (false, s') ∧ OpenInodes held s' ∧ SameTree s s' := by
  obtain ⟨s', gaveUp, opened', same⟩ := giveUp_run opened holds isDir
  refine ⟨s', ?_, opened', same⟩
  rw [unlinkFound]
  by_cases other : i = notFound ∨ record.fileType = ftDirectory
  · rw [if_pos other]
    exact gaveUp
  · obtain ⟨found, regular⟩ := not_or.mp other
    have used := (kept.resolve_left found).resolve_left regular
    rw [if_neg other, call_bind_of used]
    exact gaveUp

/-- `sys_unlink` for a regular file that is not in use. -/
theorem unlinkFound_removes (small : i.toNat < 4096) (regular : record.fileType = ftRegular)
    (unused : (inUse i (List.range maxFileOpen)).run s = .ok (false, s)) :
    (unlinkFound i record).run s = (removeFile record.parentDir i).run s := by
  have found : i ≠ notFound := by
    rintro rfl
    exact absurd small (by decide)
  have notDirectory : record.fileType ≠ ftDirectory := by
    rw [regular]
    decide
  rw [unlinkFound, if_neg (not_or.mpr ⟨found, notDirectory⟩), call_bind_of unused]
  rfl

theorem removeFile_true {done : Bool} (ran : (removeFile parentDir f).run s = .ok (done, s')) :
    done = true := by
  obtain ⟨_, _, -, ran⟩ := call_bind_returns.mp ran
  obtain ⟨_, _, -, ran⟩ := call_bind_returns.mp ran
  obtain ⟨_, _, -, ran⟩ := call_bind_returns.mp ran
  obtain ⟨_, _, -, ran⟩ := call_bind_returns.mp ran
  exact (call_pure_returns.mp ran).1.symm

/-- A deletion from a directory whose number does not fit a `uint8_t` leaves its slot alone. -/
theorem removeFile_stale (opened : OpenInodes (held + parentDir.refs) s) (stored : WellStored s)
    (holds : Holds s parentDir p) (isDir : IsDir part s.disk p) (isFile : IsFile part s.disk f)
    (large : 256 ≤ p.toNat) (target : Fs.Target s.disk (slot part s.disk p.toNat) f pos entry)
    (direct : Empties (entries s.disk (slot part s.disk p.toNat)) pos → pos.1.val < 12)
    {done : Bool}
    (ran : (removeFile parentDir f).run s = .ok (done, s')) :
    SameSlot part s.disk s'.disk p.toNat := by
  obtain ⟨obj, live, -, agrees⟩ := opened.agrees holds isDir
  obtain ⟨s₂, inode', deletes, dropped⟩ :=
    deleteDirEntry_drops stored isDir live agrees target direct
  have apart : p.toNat ≠ f.toNat := fun same =>
    stored.file_ne_dir isFile isDir (BitVec.eq_of_toNat_eq same.symm)
  have kept : SameSlot part s.disk s₂.disk p.toNat := by
    apply dropped.removed.slots _ (stored.small (.inl isDir))
    rw [dropped.number]
    omega
  rw [removeFile, call_bind_of (call_get_returns.mpr ⟨rfl, rfl⟩), call_bind_of deletes] at ran
  obtain ⟨_, s₃, releases, ran⟩ := call_bind_returns.mp ran
  obtain ⟨_, s₄, closes, ran⟩ := call_bind_returns.mp ran
  obtain ⟨-, rfl⟩ := call_pure_returns.mp ran
  rw [(dirClose_opens _ _ _ _ closes).disk]
  exact kept.trans (inodeRelease_slots releases apart)

end

/-! ## The main result -/

/-- `sys_unlink` returns. If the path leads to a regular file that is not in use, then the file is
deleted; if not, then nothing changes and the result is -1. -/
def UnlinkCorrect (s : FsState part) (held : Ptr → Nat) (pathname : List Byte) : Prop :=
  ∀ junk,
    (∀ p pos f, LeadsTo part s.disk (pathNames pathname) p pos f → ¬ InUse s f →
      ∃ s', (sysUnlink junk pathname).run s = .ok (true, s') ∧ Unlinked s s' p f pos ∧
        OpenInodes held s') ∧
    ((∀ p pos f, LeadsTo part s.disk (pathNames pathname) p pos f → InUse s f) →
      ∃ s', (sysUnlink junk pathname).run s = .ok (false, s') ∧ SameTree s s' ∧ OpenInodes held s')

/-- The path fits, and does not go on behind a regular file that is not in use; and the entry of a
regular file that it leads to, and that is not in use, is in a directory whose number fits a
`uint8_t`, and is not the only one of an indirect block. -/
structure UnlinkPlain (s : FsState part) (pathname : List Byte) : Prop where
  length : pathname.length < maxPathLen
  through : ∀ front rest f, pathNames pathname = front ++ rest → rest ≠ [] →
    Resolves (Names part s.disk) 0 front (.file f) → InUse s f
  fits : ∀ p pos f, LeadsTo part s.disk (pathNames pathname) p pos f → ¬ InUse s f → p.toNat < 256
  direct : ∀ p pos f, LeadsTo part s.disk (pathNames pathname) p pos f → ¬ InUse s f →
    12 ≤ pos.1.val → ¬ Alone (entries s.disk (slot part s.disk p.toNat)) pos

section

variable {junk : Word}

/-- A file that the names lead to is found in its directory. -/
theorem LeadsTo.finds (leads : LeadsTo part disk names p pos f) (wellFormed : WellFormed part disk)
    {a b p' : Word} (finds : Finds part disk 0 a b names i type p') :
    i = f ∧ type = ftRegular ∧ p' = p := by
  obtain ⟨number, regular, front, last, is, above⟩ :=
    finds.of_resolves wellFormed .start leads.nonempty leads.resolves
  obtain ⟨front', last', -, is', above', -⟩ := leads
  rw [is] at is'
  obtain ⟨rfl, -⟩ := List.append_inj' is' rfl
  cases above.unique wellFormed.linked.deterministic .start above'
  exact ⟨number, regular, rfl⟩

theorem rootPath_of_mem (wellFormed : WellFormed part disk)
    (notRoot : ¬ Resolves (Names part disk) 0 (pathNames pathname) (.dir 0)) :
    pathname ∉ rootPaths :=
  fun isRoot => notRoot (rootPath_resolves wellFormed isRoot).2

variable (stored : WellStored s) (opened : OpenFiles held s)
  (absolute : pathname.head? = some slash) (short : ShortNames (pathNames pathname))
  (notRoot : ¬ Resolves (Names part s.disk) 0 (pathNames pathname) (.dir 0))
include stored opened absolute short notRoot

/-- If the path is plain, the deletion is correct. -/
theorem unlinkCorrect_of_plain (plain : UnlinkPlain s pathname) :
    UnlinkCorrect s held pathname := by
  intro junk
  have nonempty : pathNames pathname ≠ [] := by
    intro empty
    rw [empty] at notRoot
    exact notRoot .here
  obtain ⟨i, record, s₁, p, ran, found, searched, finds⟩ := searchFile_stored stored opened
    ⟨absolute, plain.length, short⟩ (rootPath_of_mem stored.toWellFormed notRoot) junk
  have stored₁ := stored.congr found.same
  have isDir₁ : IsDir part s₁.disk p := found.same.disk ▸ found.isDir
  obtain ⟨used, uses, isUsed⟩ := inUse_run opened found.opened found.same searched i
  constructor
  · intro p' pos f leads unused
    obtain ⟨rfl, regular, rfl⟩ := leads.finds stored.toWellFormed finds
    have isFile := leads.isFile
    have notUsed : used = false := Bool.eq_false_iff.mpr fun is => unused (isUsed.mp is)
    rw [notUsed] at uses
    obtain ⟨entry, target, is⟩ := leads.target stored.toWellFormed
    have direct := plain.direct p pos i leads unused
    have fits := plain.fits p pos i leads unused
    rw [← found.same.disk] at isFile target direct
    obtain ⟨s', removes, unlinked, opened'⟩ := removeFile_run stored₁ found.opened
      searched.toFilesAgree found.holds isDir₁ isFile fits target is fun empties => by
        by_contra indirect
        exact direct (by omega) empties.2
    refine ⟨s', ?_, unlinked.congr found.same (SameTree.refl s'), opened'⟩
    rw [sysUnlink_run plain.length ran (stored.file_ne_zero leads.isFile),
      unlinkFound_removes (stored.file_small leads.isFile) regular uses]
    exact removes
  · intro others
    have cases_ : i ≠ 0 ∧ (i = notFound ∨ record.fileType = ftDirectory ∨ InUse s i) := by
      rcases finds.cases nonempty with missed | ⟨directory, resolves⟩ | ⟨-, front, rest, is,
        resolves⟩
      · rw [missed]
        exact ⟨by decide, .inl rfl⟩
      · refine ⟨?_, .inr (.inl directory)⟩
        rintro rfl
        exact notRoot resolves
      · obtain ⟨p', pos, leads⟩ := leadsTo_of_resolves resolves
        refine ⟨stored.file_ne_zero leads.isFile, .inr (.inr ?_)⟩
        by_cases last : rest = []
        · rw [last, List.append_nil] at is
          exact others p' pos i (is ▸ leads)
        · exact plain.through front rest i is last resolves
    obtain ⟨s', keeps, opened', same⟩ :=
      unlinkFound_keeps (i := i) found.opened found.holds isDir₁ <| by
      refine cases_.2.imp_right (Or.imp_right fun inUse => ?_)
      rw [isUsed.mpr inUse] at uses
      exact uses
    refine ⟨s', ?_, found.same.trans same, opened'⟩
    rw [sysUnlink_run plain.length ran cases_.1]
    exact keeps

/-- If the deletion is correct, the path is plain. -/
theorem UnlinkCorrect.plain (correct : UnlinkCorrect s held pathname) : UnlinkPlain s pathname := by
  have returns : ∃ done s', (sysUnlink 0 pathname).run s = .ok (done, s') := by
    by_cases leads : ∀ p pos f, LeadsTo part s.disk (pathNames pathname) p pos f → InUse s f
    · obtain ⟨s', ran, -⟩ := (correct 0).2 leads
      exact ⟨false, s', ran⟩
    · push Not at leads
      obtain ⟨p, pos, f, leads, unused⟩ := leads
      obtain ⟨s', ran, -⟩ := (correct 0).1 p pos f leads unused
      exact ⟨true, s', ran⟩
  have length : pathname.length < maxPathLen := by
    obtain ⟨done, s', ran⟩ := returns
    obtain ⟨_, _, lifted, -⟩ := call_bind_returns.mp ran
    exact require_eq_ok.mp (call_lift_returns.mp lifted).1
  obtain ⟨i, record, s₁, p, ran, found, searched, finds⟩ := searchFile_stored stored opened
    ⟨absolute, length, short⟩ (rootPath_of_mem stored.toWellFormed notRoot) 0
  have stored₁ := stored.congr found.same
  have isDir₁ : IsDir part s₁.disk p := found.same.disk ▸ found.isDir
  obtain ⟨used, uses, isUsed⟩ := inUse_run opened found.opened found.same searched i
  -- a regular file that is not in use is removed
  have removes : IsFile part s.disk i → record.fileType = ftRegular → ¬ InUse s i →
      (sysUnlink 0 pathname).run s = (removeFile record.parentDir i).run s₁ := by
    intro isFile regular unused
    rw [Bool.eq_false_iff.mpr fun is => unused (isUsed.mp is)] at uses
    rw [sysUnlink_run length ran (stored.file_ne_zero isFile),
      unlinkFound_removes (stored.file_small isFile) regular uses]
  have direct : ∀ p pos f, LeadsTo part s.disk (pathNames pathname) p pos f → ¬ InUse s f →
      12 ≤ pos.1.val → ¬ Alone (entries s.disk (slot part s.disk p.toNat)) pos := by
    intro p' pos f leads unused indirect alone
    obtain ⟨s', ran', -⟩ := (correct 0).1 p' pos f leads unused
    obtain ⟨rfl, regular, rfl⟩ := leads.finds stored.toWellFormed finds
    obtain ⟨entry, target, is⟩ := leads.target stored.toWellFormed
    rw [← found.same.disk] at target alone
    rw [removes leads.isFile regular unused, removeFile,
      call_bind_of (call_get_returns.mpr ⟨rfl, rfl⟩)] at ran'
    obtain ⟨_, _, deletes, -⟩ := call_bind_returns.mp ran'
    obtain ⟨obj, live, -, agrees⟩ := found.opened.agrees found.holds isDir₁
    have wf : DottedDir s₁.disk s₁.blockBitmap obj := (stored₁.dirs p isDir₁).sameFile agrees
    have later : pos.1 ≠ 0 := by
      intro first
      rw [first] at indirect
      exact absurd indirect (by decide)
    rw [Fs.Target, ← agrees.entries] at target
    rw [← agrees.entries] at alone
    rw [wf.delete_found live target,
      removeTarget_diverges wf.owns target.1 ⟨later, alone⟩ indirect] at deletes
    cases deletes
  refine ⟨length, ?_, ?_, direct⟩
  · intro front rest f is more resolves
    by_contra unused
    have nothing : ∀ p pos f, LeadsTo part s.disk (pathNames pathname) p pos f → InUse s f := by
      intro p' pos f' leads
      have whole := leads.resolves
      rw [is] at whole
      exact absurd whole (not_resolves_of_file stored.toWellFormed .start more resolves)
    obtain ⟨s', ran', -⟩ := (correct 0).2 nothing
    have number : i = f := by
      rw [is] at finds
      exact (finds.of_file stored.toWellFormed .start resolves).1
    subst number
    obtain ⟨p', pos, leads⟩ := leadsTo_of_resolves resolves
    have isFile := leads.isFile
    have regular : record.fileType = ftRegular := by
      have nonempty : pathNames pathname ≠ [] := by
        rw [is]
        exact fun empty => more (List.append_eq_nil_iff.mp empty).2
      rcases finds.cases nonempty with missed | ⟨-, whole⟩ | ⟨regular, -⟩
      · have small := stored.file_small isFile
        rw [missed] at small
        exact absurd small (by decide)
      · rw [is] at whole
        exact absurd whole (not_resolves_of_file stored.toWellFormed .start more resolves)
      · exact regular
    rw [removes isFile regular unused] at ran'
    exact Bool.false_ne_true (removeFile_true ran')
  · intro p' pos f leads unused
    by_contra large
    obtain ⟨s', ran', unlinked, -⟩ := (correct 0).1 p' pos f leads unused
    have isFile := leads.isFile
    obtain ⟨rfl, regular, rfl⟩ := leads.finds stored.toWellFormed finds
    obtain ⟨entry, target, is⟩ := leads.target stored.toWellFormed
    have direct' := direct p pos i leads unused
    rw [removes leads.isFile regular unused] at ran'
    rw [← found.same.disk] at isFile target direct'
    have kept := removeFile_stale found.opened stored₁ found.holds isDir₁ isFile (by omega) target
      (fun empties => by
        by_contra indirect
        exact direct' (by omega) empties.2) ran'
    have size := unlinked.size
    rw [← found.same.disk, ← kept.slot_eq] at size
    have zero : (24 : Word) = 0 := sub_eq_self.mp size.symm
    exact absurd zero (by decide)

/-- **Deleting a file.** In a well-formed file system, `sys_unlink` of an absolute path that does
not stand for the root is correct if and only if the path is plain. -/
theorem unlink_correct_iff : UnlinkCorrect s held pathname ↔ UnlinkPlain s pathname :=
  ⟨UnlinkCorrect.plain stored opened absolute short notRoot,
    unlinkCorrect_of_plain stored opened absolute short notRoot⟩

end

/-! ## A file in a small tree -/

/-- The small tree, with the inode of its file, which has no block. -/
def fileDisk : Memory :=
  smallDisk.splice (slotAddr somePartition 2) (inodeInit 2).image 76

/-- What the disk has at the places of the two directories and of the file. -/
theorem fileDisk_computed :
    ((slot somePartition fileDisk (0 : Word).toNat).iNo = 0 ∧
      (slot somePartition fileDisk (0 : Word).toNat).sector 0 ≠ 0 ∧
      (∀ i < 13, 0 < i → (slot somePartition fileDisk (0 : Word).toNat).sector i = 0) ∧
      ∀ k, PlaceOk
        (ideRead fileDisk ((slot somePartition fileDisk (0 : Word).toNat).sector 0).toNat)
        smallRoot k) ∧
    ((slot somePartition fileDisk (1 : Word).toNat).iNo = 1 ∧
      (slot somePartition fileDisk (1 : Word).toNat).sector 0 ≠ 0 ∧
      (∀ i < 13, 0 < i → (slot somePartition fileDisk (1 : Word).toNat).sector i = 0) ∧
      ∀ k, PlaceOk
        (ideRead fileDisk ((slot somePartition fileDisk (1 : Word).toNat).sector 0).toNat)
        smallA k) ∧
    ((slot somePartition fileDisk (0 : Word).toNat).iSize.toNat = 24 * smallRoot.length ∧
      (slot somePartition fileDisk (0 : Word).toNat).sector 0 = blockOfBit somePartition 0) ∧
    ((slot somePartition fileDisk (1 : Word).toNat).iSize.toNat = 24 * smallA.length ∧
      (slot somePartition fileDisk (1 : Word).toNat).sector 0 = blockOfBit somePartition 1) ∧
    (slot somePartition fileDisk (2 : Word).toNat).iNo = 2 ∧
      ∀ i < 13, (slot somePartition fileDisk 2).sector i = 0 := by
  decide +kernel

theorem fileDisk_root : OneBlock somePartition fileDisk 0 smallRoot where
  number := fileDisk_computed.1.1
  small := smallDisk_root.small
  first := fileDisk_computed.1.2.1
  only := fileDisk_computed.1.2.2.1
  places := fileDisk_computed.1.2.2.2
  keys := smallDisk_root.keys
  names := smallDisk_root.names
  files := smallDisk_root.files

theorem fileDisk_a : OneBlock somePartition fileDisk 1 smallA where
  number := fileDisk_computed.2.1.1
  small := smallDisk_a.small
  first := fileDisk_computed.2.1.2.1
  only := fileDisk_computed.2.1.2.2.1
  places := fileDisk_computed.2.1.2.2.2
  keys := smallDisk_a.keys
  names := smallDisk_a.names
  files := smallDisk_a.files

/-- The inode of its root directory in memory. -/
def fileRoot : Inode := { slot somePartition fileDisk 0 with iOpenCnts := 1 }

/-- That tree after it was mounted. -/
def fileTree : FsState somePartition :=
  { smallTree with
    disk := fileDisk
    inodes := Function.update (fun _ => none) (.kernel 0) (some fileRoot) }

theorem fileTree_disk : fileTree.disk = fileDisk := by
  simp only [fileTree]

theorem fileTree_file : IsFile somePartition fileDisk f ↔ f = 2 := by
  constructor
  · rintro ⟨d, name, isDir, named⟩
    rcases small_dirs fileDisk_root fileDisk_a isDir with rfl | rfl
    · rcases fileDisk_root.root_names.mp named with ⟨-, is⟩ | ⟨-, is⟩ | ⟨-, is⟩ | ⟨-, is⟩
      · cases is
      · cases is
      · cases is
      · exact Library.Target.file.inj is
    · rcases fileDisk_a.a_names.mp named with ⟨-, is⟩ | ⟨-, is⟩
      · cases is
      · cases is
  · rintro rfl
    exact ⟨0, [102], .start, fileDisk_root.root_names.mpr (.inr (.inr (.inr ⟨rfl, rfl⟩)))⟩

/-- An inode of the tree has the block of its number, if it has one. -/
theorem fileTree_block (used : IsUsed somePartition fileDisk n) {k : Nat} (small : k ≤ 140)
    (present : ownBlock fileDisk (slot somePartition fileDisk n.toNat) k ≠ 0) :
    n.toNat < 2 ∧ ownBlock fileDisk (slot somePartition fileDisk n.toNat) k =
      blockOfBit somePartition n.toNat := by
  rcases used with isDir | isFile
  · rcases small_dirs fileDisk_root fileDisk_a isDir with rfl | rfl
    · obtain rfl := fileDisk_root.ownBlock_first small present
      exact ⟨by decide, by decide +kernel⟩
    · obtain rfl := fileDisk_a.ownBlock_first small present
      exact ⟨by decide, by decide +kernel⟩
  · obtain rfl := fileTree_file.mp isFile
    refine absurd ?_ present
    have sectors := fileDisk_computed.2.2.2.2.2
    have none_ : ∀ k < 140, allBlocks fileDisk (slot somePartition fileDisk 2) k = 0 := by
      intro k less
      by_cases direct : k < 12
      · rw [allBlocks_direct direct]
        exact sectors k (by omega)
      · exact allBlocks_noTable (by omega) (sectors 12 (by decide))
    change ownBlock fileDisk (slot somePartition fileDisk 2) k = 0
    unfold ownBlock
    by_cases last : k = 140
    · rw [if_pos last]
      exact sectors 12 (by decide)
    · rw [if_neg last]
      exact none_ k (by omega)

theorem fileTree_marked {bitIdx : Nat} (small : bitIdx < 2) :
    Marked fileTree.blockBitmap (blockOfBit somePartition bitIdx) := by
  have set : ∀ bitIdx < 2, fileTree.blockBitmap.test bitIdx = true := by decide
  refine ⟨bitIdx, ?_, rfl, set bitIdx small⟩
  rw [somePartition_sects]
  omega

theorem fileTree_stored : WellStored fileTree where
  toWellFormed := fileTree_disk ▸ small_wellFormed fileDisk_root fileDisk_a
  dirs d isDir := by
    rw [fileTree_disk] at isDir ⊢
    rcases small_dirs fileDisk_root fileDisk_a isDir with rfl | rfl
    · obtain ⟨size, block⟩ := fileDisk_computed.2.2.1
      refine fileDisk_root.dottedDir ?_ size ⟨_, List.mem_cons_self, rfl⟩ (by decide)
      rw [block]
      exact fileTree_marked (by decide)
    · obtain ⟨size, block⟩ := fileDisk_computed.2.2.2.1
      refine fileDisk_a.dottedDir ?_ size ⟨_, List.mem_cons_self, rfl⟩ (by decide)
      rw [block]
      exact fileTree_marked (by decide)
  files f isFile := by
    rw [fileTree_disk] at isFile ⊢
    have noBlock : ∀ k ≤ 140,
        ownBlock fileDisk (slot somePartition fileDisk f.toNat) k = 0 := by
      intro k small
      by_contra present
      have number := (fileTree_block (.inr isFile) small present).1
      obtain rfl := fileTree_file.mp isFile
      exact absurd number (by decide)
    obtain rfl := fileTree_file.mp isFile
    refine ⟨fun isDir => ?_, fileDisk_computed.2.2.2.2.1, fun k small _ _ present => ?_,
      fun k small present => ?_⟩
    · rcases small_dirs fileDisk_root fileDisk_a isDir with is | is
      · exact absurd is (by decide)
      · exact absurd is (by decide)
    · exact absurd (noBlock k small) present
    · exact absurd (noBlock k small) present
  disjoint n n' used used' apart k small k' small' present same := by
    rw [fileTree_disk] at used used' present same
    obtain ⟨low, block⟩ := fileTree_block used small present
    obtain ⟨low', block'⟩ := fileTree_block used' small' (same ▸ present)
    rw [block, block'] at same
    have number : n.toNat = n'.toNat := by
      refine (blockOfBit_inj ?_ ?_).mp same
      · rw [somePartition_sects]
        omega
      · rw [somePartition_sects]
        omega
    exact apart (BitVec.eq_of_toNat_eq number)
  rootBlock := by
    rw [fileTree_disk]
    decide +kernel

theorem fileTree_opened : OpenFiles 0 fileTree := by
  have live : fileTree.inodes (.kernel 0) = some fileRoot := by
    simp [fileTree]
  have number : fileRoot.iNo = 0 := fileDisk_root.number
  have only : ∀ ptr obj, ptr ∈ fileTree.openInodes → fileTree.inodes ptr = some obj →
      ptr = .kernel 0 ∧ obj = fileRoot := by
    intro ptr obj listed live'
    obtain rfl := List.mem_singleton.mp listed
    cases live.symm.trans live'
    exact ⟨rfl, rfl⟩
  refine { toOpenInodes := onlyRoot_opened live number rfl ?_ rfl rfl rfl, agrees := ?_, once := ?_,
           table := ?_ }
  · rw [fileTree_disk]
    exact ⟨rfl, rfl, rfl⟩
  · intro ptr listed obj live' isFile
    obtain ⟨-, rfl⟩ := only ptr obj listed live'
    rw [fileTree_disk, fileTree_file, number] at isFile
    exact absurd isFile (by decide)
  · intro ptr listed ptr' listed' obj obj' live₁ live₂ _
    rw [(only ptr obj listed live₁).1, (only ptr' obj' listed' live₂).1]
  · intro fileIdx _ ptr is
    cases is

/-- No file of the tree is in use. -/
theorem fileTree_unused : ¬ InUse fileTree f := by
  rintro ⟨fileIdx, -, ptr, obj, is, -⟩
  cases is

/-- `/f` is deleted. -/
theorem unlink_correct_file : UnlinkCorrect fileTree 0 [slash, 102] := by
  have names : pathNames [slash, 102] = [[102]] := by decide +kernel
  have above : ∀ front rest : List (List Byte), [[102]] = front ++ rest → rest ≠ [] →
      front = [] := by
    intro front rest is more
    rcases List.append_eq_singleton_iff.mp is.symm with ⟨none_, -⟩ | ⟨-, none_⟩
    · exact none_
    · exact absurd none_ more
  have inRoot : ∀ p pos f, LeadsTo somePartition fileTree.disk (pathNames [slash, 102]) p pos f →
      p = 0 ∧ pos.1 = 0 := by
    intro p pos f leads
    obtain ⟨front, last, entry, is, resolves, -, -, there, -⟩ := leads
    rw [names] at is
    obtain rfl := above front [last] is (List.cons_ne_nil _ _)
    cases resolves
    rw [fileTree_disk] at there
    obtain ⟨item, -, rfl, -⟩ := fileDisk_root.item there
    exact ⟨rfl, rfl⟩
  refine (unlink_correct_iff fileTree_stored fileTree_opened rfl ?_ ?_).mpr ⟨?_, ?_, ?_, ?_⟩
  · rw [names]
    unfold ShortNames
    decide +kernel
  · rw [names, fileTree_disk]
    intro isRoot
    cases isRoot with
    | dir named rest =>
        cases rest
        rcases fileDisk_root.root_names.mp named with ⟨is, -⟩ | ⟨is, -⟩ | ⟨is, -⟩ | ⟨-, is⟩
        · exact absurd is (by decide)
        · exact absurd is (by decide)
        · exact absurd is (by decide)
        · cases is
  · decide
  · intro front rest f is more resolves
    rw [names] at is
    obtain rfl := above front rest is more
    cases resolves
  · intro p pos f leads _
    rw [(inRoot p pos f leads).1]
    decide
  · intro p pos f leads _ indirect
    rw [(inRoot p pos f leads).2] at indirect
    exact absurd indirect (by decide)

/-- The path `/f/x` goes on behind the file `f`. It leads to no file, but `f` is deleted. -/
theorem unlink_through_file : WellStored fileTree ∧ OpenFiles 0 fileTree ∧
    ShortNames (pathNames [slash, 102, slash, 120]) ∧
    (∀ target, ¬ Resolves (Names somePartition fileTree.disk) 0
      (pathNames [slash, 102, slash, 120]) target) ∧
    ¬ UnlinkCorrect fileTree 0 [slash, 102, slash, 120] := by
  have names : pathNames [slash, 102, slash, 120] = [[102], [120]] := by decide +kernel
  have short : ShortNames (pathNames [slash, 102, slash, 120]) := by
    rw [names]
    unfold ShortNames
    decide +kernel
  have file : Resolves (Names somePartition fileTree.disk) 0 [[102]] (.file 2) := by
    rw [fileTree_disk]
    exact .file (fileDisk_root.root_names.mpr (.inr (.inr (.inr ⟨rfl, rfl⟩))))
  have nothing : ∀ target, ¬ Resolves (Names somePartition fileTree.disk) 0
      (pathNames [slash, 102, slash, 120]) target := by
    rw [names]
    exact fun target => not_resolves_of_file fileTree_stored.toWellFormed .start
      (List.cons_ne_nil [120] []) file
  refine ⟨fileTree_stored, fileTree_opened, short, nothing, fun correct => ?_⟩
  have plain := correct.plain fileTree_stored fileTree_opened rfl short (nothing _)
  refine fileTree_unused (plain.through [[102]] [[120]] 2 names (List.cons_ne_nil _ _) file)

end UKernel.Fs
