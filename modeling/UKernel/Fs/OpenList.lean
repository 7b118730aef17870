import UKernel.Fs.Discipline

/-! # The list of open inodes

The list has no duplicates, and an inode on it was opened at least once
(`UKernel.Fs.ListSound`). A search opens and closes inodes and changes nothing else
(`UKernel.Fs.OpensOnly`), and the calls that do not open a file leave the file table and the
descriptors alone (`UKernel.Fs.SameFiles`).
-/

namespace UKernel.Fs

open UKernel.Library

variable {part : Partition} {α β : Type}

/-- The address in a pointer. -/
def Ptr.addr : Ptr → Nat
  | kernel addr => addr
  | user addr => addr

/-- The older pointers of a list are in the order of an older list, and so on. -/
theorem older_trans {ptrs ptrs' ptrs'' : List Ptr} {n n' : Nat} (low : n ≤ n')
    (first : (ptrs'.filter fun p => p.addr < n).Sublist ptrs)
    (second : (ptrs''.filter fun p => p.addr < n').Sublist ptrs') :
    (ptrs''.filter fun p => p.addr < n).Sublist ptrs := by
  have older : (ptrs''.filter fun p => p.addr < n) =
      (ptrs''.filter fun p => p.addr < n').filter fun p => p.addr < n := by
    rw [List.filter_filter]
    apply List.filter_congr
    intro p _
    by_cases old : p.addr < n
    · simp [old, Nat.lt_of_lt_of_le old low]
    · simp [old]
  rw [older]
  exact (second.filter _).trans first

/-- The list of open inodes has no duplicates, an inode on it was opened at least once, and no
object is at an address that was not allocated. -/
structure ListSound (s : FsState part) : Prop where
  nodup : s.openInodes.Nodup
  old : ∀ ptr ∈ s.openInodes, ptr.addr < s.nextAddr
  fresh : ∀ ptr, s.nextAddr ≤ ptr.addr → s.inodes ptr = none
  positive : ∀ ptr ∈ s.openInodes, ∀ obj, s.inodes ptr = some obj → 0 < obj.iOpenCnts

/-- The open inodes are objects in the kernel's heap. -/
structure KernelInodes (s : FsState part) : Prop where
  sound : ListSound s
  kernel : ∀ ptr ∈ s.openInodes, ptr.inKernel = true
  live : ∀ ptr ∈ s.openInodes, ∃ obj, s.inodes ptr = some obj

/-- A call left the file table and the descriptors alone, what it opened was open before or was
allocated by it, the older inodes are listed in the same order, and the list stays sound. -/
structure SameFiles (s s' : FsState part) : Prop where
  fileTable : s'.fileTable = s.fileTable
  fdTable : s'.fdTable = s.fdTable
  userProcess : s'.userProcess = s.userProcess
  rootDir : s'.rootDir = s.rootDir
  nextAddr : s.nextAddr ≤ s'.nextAddr
  opened : ∀ p ∈ s'.openInodes,
    p ∈ s.openInodes ∨ s.nextAddr ≤ p.addr ∧ p.addr < s'.nextAddr
  order : (s'.openInodes.filter fun p => p.addr < s.nextAddr).Sublist s.openInodes
  sound : ListSound s → ListSound s'
  kernel : KernelInodes s → KernelInodes s'

theorem SameFiles.trans {s s' s'' : FsState part} (first : SameFiles s s')
    (second : SameFiles s' s'') : SameFiles s s'' where
  fileTable := second.fileTable.trans first.fileTable
  fdTable := second.fdTable.trans first.fdTable
  userProcess := second.userProcess.trans first.userProcess
  rootDir := second.rootDir.trans first.rootDir
  nextAddr := Nat.le_trans first.nextAddr second.nextAddr
  opened p listed := by
    have low := first.nextAddr
    have high := second.nextAddr
    rcases second.opened p listed with before | new
    · rcases first.opened p before with before | new
      · exact .inl before
      · exact .inr ⟨new.1, by omega⟩
    · exact .inr ⟨by omega, new.2⟩
  order := older_trans first.nextAddr first.order second.order
  sound before := second.sound (first.sound before)
  kernel before := second.kernel (first.kernel before)

theorem SameCounts.listSound {s s' : FsState part} (same : SameCounts s s')
    (sound : ListSound s) : ListSound s' where
  nodup := same.openInodes ▸ sound.nodup
  old ptr listed := by
    rw [same.nextAddr]
    exact sound.old ptr (same.openInodes ▸ listed)
  fresh ptr new := by
    have count := same.counts ptr
    rw [same.nextAddr] at new
    rwa [sound.fresh ptr new, Option.map_none, Option.map_eq_none_iff] at count
  positive ptr listed obj live := by
    have count := same.counts ptr
    rw [live, Option.map_some] at count
    obtain ⟨obj', live', is⟩ := Option.map_eq_some_iff.mp count.symm
    rw [← is]
    exact sound.positive ptr (same.openInodes ▸ listed) obj' live'

theorem SameCounts.kernelInodes {s s' : FsState part} (same : SameCounts s s')
    (inodes : KernelInodes s) : KernelInodes s' where
  sound := same.listSound inodes.sound
  kernel ptr listed := inodes.kernel ptr (same.openInodes ▸ listed)
  live ptr listed := by
    obtain ⟨obj, live⟩ := inodes.live ptr (same.openInodes ▸ listed)
    have count := same.counts ptr
    rw [live, Option.map_some, Option.map_eq_some_iff] at count
    obtain ⟨obj', live', _⟩ := count
    exact ⟨obj', live'⟩

theorem SameCounts.sameFiles {s s' : FsState part} (same : SameCounts s s') : SameFiles s s' where
  fileTable := same.fileTable
  fdTable := same.fdTable
  userProcess := same.userProcess
  rootDir := same.rootDir
  nextAddr := Nat.le_of_eq same.nextAddr.symm
  opened _ listed := .inl (same.openInodes ▸ listed)
  order := same.openInodes ▸ List.filter_sublist
  sound := same.listSound
  kernel := same.kernelInodes

instance : Std.Refl (@SameFiles part) := ⟨fun s => (SameCounts.refl s).sameFiles⟩

instance : IsTrans (FsState part) SameFiles := ⟨fun _ _ _ => SameFiles.trans⟩

/-- A call opened and closed inodes at most: the disk and the bitmaps are the same, and an object
differs in its open count. -/
structure OpensOnly (s s' : FsState part) : Prop where
  files : SameFiles s s'
  disk : s'.disk = s.disk
  blockBitmap : s'.blockBitmap = s.blockBitmap
  inodeBitmap : s'.inodeBitmap = s.inodeBitmap
  objects : ∀ ptr, ptr.addr < s.nextAddr → ∀ obj', s'.inodes ptr = some obj' →
    ∃ obj, s.inodes ptr = some obj ∧ obj' = { obj with iOpenCnts := obj'.iOpenCnts }

theorem OpensOnly.refl (s : FsState part) : OpensOnly s s :=
  ⟨Std.Refl.refl s, rfl, rfl, rfl, fun _ _ obj' live => ⟨obj', live, rfl⟩⟩

instance : Std.Refl (@OpensOnly part) := ⟨OpensOnly.refl⟩

instance : IsTrans (FsState part) OpensOnly := ⟨fun s s' s'' first second => by
  refine ⟨first.files.trans second.files, second.disk.trans first.disk,
    second.blockBitmap.trans first.blockBitmap, second.inodeBitmap.trans first.inodeBitmap, ?_⟩
  intro ptr old obj'' live
  obtain ⟨obj', live', is'⟩ := second.objects ptr
    (Nat.lt_of_lt_of_le old first.files.nextAddr) obj'' live
  obtain ⟨obj, live, is⟩ := first.objects ptr old obj' live'
  refine ⟨obj, live, ?_⟩
  rw [is', is]⟩

/-! ### Opening and closing inodes -/

/-- The state after an inode was closed: its object is one opening less, or gone. -/
def FsState.close (s : FsState part) (ptr : Ptr) (inode : Inode) : FsState part :=
  if inode.iOpenCnts = 1 then
    { s with
      openInodes := s.openInodes.erase ptr
      inodes := Function.update s.inodes ptr none }
  else
    { s with
      inodes := Function.update s.inodes ptr (some { inode with
        iOpenCnts := if inode.iOpenCnts = 0 then 2 ^ 32 - 1 else inode.iOpenCnts - 1 }) }

theorem inodeClose_returns {s s' : FsState part} {ptr : Ptr}
    (ran : (inodeClose ptr).run s = .ok ((), s')) :
    ∃ inode, s.inodes ptr = some inode ∧ (inode.iOpenCnts = 1 → ptr.inKernel = true) ∧
      s' = s.close ptr inode := by
  obtain ⟨inode, middle, found, ran⟩ := call_bind_returns.mp ran
  obtain ⟨live, rfl⟩ := deref_returns.mp found
  refine ⟨inode, live, ?_⟩
  dsimp only at ran
  by_cases last : inode.iOpenCnts = 1
  · have zero : (if inode.iOpenCnts = 0 then 2 ^ 32 - 1 else inode.iOpenCnts - 1) = 0 := by
      rw [last]
      rfl
    rw [if_pos zero] at ran
    obtain ⟨_, _, erased, ran⟩ := call_bind_returns.mp ran
    obtain ⟨_, _, checked, freed⟩ := call_bind_returns.mp ran
    cases call_modify_returns.mp erased
    obtain ⟨kernel, rfl⟩ := call_lift_returns.mp checked
    cases call_modify_returns.mp freed
    have inside : ptr.inKernel = true := by
      unfold assertKernelHeap at kernel
      by_contra outside
      rw [if_neg outside] at kernel
      cases kernel
    exact ⟨fun _ => inside, (if_pos last).symm⟩
  · have more : (if inode.iOpenCnts = 0 then 2 ^ 32 - 1 else inode.iOpenCnts - 1) ≠ 0 := by
      split
      · decide
      · omega
    rw [if_neg more] at ran
    cases store_returns.mp ran
    exact ⟨fun is => absurd is last, (if_neg last).symm⟩

/-- An object that is there is there after another was written. -/
theorem live_update {inodes : Ptr → Option Inode} {ptr p : Ptr} {inode : Inode}
    (live : ∃ obj, inodes p = some obj) :
    ∃ obj, Function.update inodes ptr (some inode) p = some obj := by
  by_cases here : p = ptr
  · rw [here, Function.update_self]
    exact ⟨inode, rfl⟩
  · rwa [Function.update_of_ne here]

/-- An inode that is open is opened once more. -/
theorem reopen_opensOnly {s : FsState part} {ptr : Ptr} {obj : Inode}
    (live : s.inodes ptr = some obj) :
    OpensOnly s (s.reopen ptr obj) := by
  have sound : ListSound s → ListSound (s.reopen ptr obj) := by
    intro sound
    refine ⟨sound.nodup, sound.old, ?_, ?_⟩
    · intro p new
      have other : p ≠ ptr := by
        rintro rfl
        rw [sound.fresh p new] at live
        cases live
      exact (Function.update_of_ne other _ _).trans (sound.fresh p new)
    intro p listed obj' live'
    by_cases here : p = ptr
    · rw [here] at live'
      cases (Function.update_self ptr _ s.inodes).symm.trans live'
      exact Nat.succ_pos _
    · exact sound.positive p listed obj' ((Function.update_of_ne here _ _).symm.trans live')
  refine ⟨⟨rfl, rfl, rfl, rfl, Nat.le_refl _, fun p listed => .inl listed,
    List.filter_sublist, sound, fun inodes => ⟨sound inodes.sound, inodes.kernel, ?_⟩⟩,
    rfl, rfl, rfl, ?_⟩
  · exact fun p listed => live_update (inodes.live p listed)
  · intro p _ obj' live'
    by_cases here : p = ptr
    · rw [here] at live' ⊢
      cases (Function.update_self ptr _ s.inodes).symm.trans live'
      exact ⟨obj, live, rfl⟩
    · exact ⟨obj', (Function.update_of_ne here _ _).symm.trans live', rfl⟩

/-- An inode is loaded at an address that was not allocated. -/
theorem loadSlot_opensOnly (s : FsState part) (n : Nat) : OpensOnly s (s.loadSlot n) := by
  have other : ∀ p : Ptr, p.addr < s.nextAddr → p ≠ .kernel s.nextAddr := by
    rintro p old rfl
    exact Nat.lt_irrefl _ old
  have inodes : ∀ p : Ptr, p.addr < s.nextAddr → (s.loadSlot n).inodes p = s.inodes p :=
    fun p old => Function.update_of_ne (other p old) _ _
  have sound : ListSound s → ListSound (s.loadSlot n) := by
    intro sound
    refine ⟨List.nodup_cons.mpr ⟨fun listed => other _ (sound.old _ listed) rfl, sound.nodup⟩,
      ?_, ?_, ?_⟩
    · intro p listed
      rcases List.mem_cons.mp listed with rfl | before
      · exact Nat.lt_succ_self _
      · exact Nat.lt_succ_of_lt (sound.old p before)
    · intro p new
      have apart : p ≠ .kernel s.nextAddr := by
        rintro rfl
        exact Nat.not_succ_le_self _ new
      exact (Function.update_of_ne apart _ _).trans (sound.fresh p (Nat.le_of_succ_le new))
    · intro p listed obj live
      rcases List.mem_cons.mp listed with rfl | before
      · cases (Function.update_self (Ptr.kernel s.nextAddr) _ s.inodes).symm.trans live
        exact Nat.one_pos
      · rw [inodes p (sound.old p before)] at live
        exact sound.positive p before obj live
  refine ⟨⟨rfl, rfl, rfl, rfl, Nat.le_succ _, ?_, ?_, sound,
    fun before => ⟨sound before.sound, ?_, ?_⟩⟩, rfl, rfl, rfl, ?_⟩
  · intro p listed
    rcases List.mem_cons.mp listed with rfl | before
    · exact .inr ⟨Nat.le_refl _, Nat.lt_succ_self _⟩
    · exact .inl before
  · have new : ¬ (Ptr.kernel s.nextAddr).addr < s.nextAddr := Nat.lt_irrefl s.nextAddr
    change (List.filter _ (Ptr.kernel s.nextAddr :: s.openInodes)).Sublist s.openInodes
    rw [List.filter_cons_of_neg (by simpa using new)]
    exact List.filter_sublist
  · intro p listed
    rcases List.mem_cons.mp listed with rfl | earlier
    · rfl
    · exact before.kernel p earlier
  · intro p listed
    rcases List.mem_cons.mp listed with rfl | earlier
    · exact ⟨_, Function.update_self ..⟩
    · rw [inodes p (before.sound.old p earlier)]
      exact before.live p earlier
  · intro p old obj live
    rw [inodes p old] at live
    exact ⟨obj, live, rfl⟩

/-- An inode is closed. -/
theorem close_opensOnly {s : FsState part} {ptr : Ptr} {inode : Inode}
    (live : s.inodes ptr = some inode) : OpensOnly s (s.close ptr inode) := by
  unfold FsState.close
  by_cases last : inode.iOpenCnts = 1
  · rw [if_pos last]
    have gone : ∀ p obj, Function.update s.inodes ptr none p = some obj →
        s.inodes p = some obj := by
      intro p obj found
      by_cases here : p = ptr
      · rw [here, Function.update_self] at found
        cases found
      · rwa [Function.update_of_ne here] at found
    have sound : ListSound s → ListSound { s with
        openInodes := s.openInodes.erase ptr
        inodes := Function.update s.inodes ptr none } := by
      intro sound
      refine ⟨sound.nodup.erase ptr, fun p listed => sound.old p (List.mem_of_mem_erase listed),
        ?_, fun p listed obj found =>
          sound.positive p (List.mem_of_mem_erase listed) obj (gone p obj found)⟩
      intro p new
      by_contra there
      obtain ⟨obj, found⟩ := Option.ne_none_iff_exists'.mp there
      have before := gone p obj found
      rw [sound.fresh p new] at before
      cases before
    refine ⟨⟨rfl, rfl, rfl, rfl, Nat.le_refl _, fun p listed => .inl (List.mem_of_mem_erase listed),
      List.filter_sublist.trans List.erase_sublist, sound, fun inodes => ⟨sound inodes.sound,
        fun p listed => inodes.kernel p (List.mem_of_mem_erase listed), ?_⟩⟩,
      rfl, rfl, rfl, fun p _ obj found => ⟨obj, gone p obj found, rfl⟩⟩
    intro p listed
    obtain ⟨other, member⟩ := inodes.sound.nodup.mem_erase_iff.mp listed
    obtain ⟨obj, found⟩ := inodes.live p member
    exact ⟨obj, (Function.update_of_ne other _ _).trans found⟩
  · rw [if_neg last]
    have sound : ListSound s → ListSound { s with
        inodes := Function.update s.inodes ptr (some { inode with
          iOpenCnts := if inode.iOpenCnts = 0 then 2 ^ 32 - 1 else inode.iOpenCnts - 1 }) } := by
      intro sound
      refine ⟨sound.nodup, sound.old, ?_, ?_⟩
      · intro p new
        have other : p ≠ ptr := by
          rintro rfl
          rw [sound.fresh p new] at live
          cases live
        exact (Function.update_of_ne other _ _).trans (sound.fresh p new)
      intro p listed obj found
      dsimp only at found
      by_cases here : p = ptr
      · rw [here, Function.update_self] at found
        cases found
        dsimp only
        split
        · decide
        · omega
      · rw [Function.update_of_ne here] at found
        exact sound.positive p listed obj found
    refine ⟨⟨rfl, rfl, rfl, rfl, Nat.le_refl _, fun p listed => .inl listed,
      List.filter_sublist, sound, fun inodes => ⟨sound inodes.sound, inodes.kernel, ?_⟩⟩,
      rfl, rfl, rfl, ?_⟩
    · exact fun p listed => live_update (inodes.live p listed)
    · intro p _ obj found
      dsimp only at found
      by_cases here : p = ptr
      · rw [here, Function.update_self] at found
        cases found
        exact ⟨inode, here ▸ live, rfl⟩
      · rw [Function.update_of_ne here] at found
        exact ⟨obj, found, rfl⟩

/-- A call that opens and closes inodes at most. -/
abbrev Opens (call : FsCall part α) : Prop := Keeps OpensOnly call

theorem inodeOpen_opens (inodeNo : Word) : Opens (inodeOpen inodeNo : FsCall part Ptr) := by
  intro s ptr s' ran
  rcases inodeOpen_returns ran with ⟨_, obj, live, _, rfl⟩ | ⟨_, _, _, rfl⟩
  · exact reopen_opensOnly live
  · exact loadSlot_opensOnly s _

theorem inodeClose_opens (ptr : Ptr) : Opens (inodeClose ptr : FsCall part Unit) := by
  intro s done s' ran
  obtain ⟨inode, live, _, rfl⟩ := inodeClose_returns ran
  exact close_opensOnly live

theorem dirClose_opens (dir : Dir) : Opens (dirClose dir : FsCall part Unit) := by
  cases dir with
  | root => exact .pure ()
  | heap inode => exact inodeClose_opens inode

/-- Opening and closing inodes at most, as a property that no reference matters to. -/
theorem opensOnly_discipline (s : FsState part) : Discipline fun _ => OpensOnly s where
  inodeOpen _ inodeNo := (inodeOpen_opens inodeNo).triple fun _ _ => IsTrans.trans s _ _
  inodeClose _ ptr := (inodeClose_opens ptr).triple fun _ _ => IsTrans.trans s _ _

/-- Searching for a path opens and closes inodes at most. -/
theorem searchFile_opens (junk : Word) (pathname : List Byte) :
    Opens (searchFile junk pathname : FsCall part (Word × PathSearchRecord)) :=
  fun s found s' ran => @Discipline.searchFile part _ 0 (opensOnly_discipline s) junk pathname
    s found s' (OpensOnly.refl s) ran

/-! ### The file table -/

/-- A call that leaves the file table and the descriptors alone. -/
abbrev KeepsFiles (call : FsCall part α) : Prop := Keeps SameFiles call

theorem KeepsFiles.bind {first : FsCall part α} {second : α → FsCall part β}
    (one : KeepsFiles first) (two : ∀ a, KeepsFiles (second a)) : KeepsFiles (first >>= second) :=
  Keeps.bind one two

theorem Opens.keepsFiles {call : FsCall part α} (opens : Opens call) : KeepsFiles call :=
  opens.mono fun _ _ => OpensOnly.files

theorem inodeOpen_keepsFiles (inodeNo : Word) : KeepsFiles (inodeOpen inodeNo : FsCall part Ptr) :=
  (inodeOpen_opens inodeNo).keepsFiles

theorem inodeClose_keepsFiles (ptr : Ptr) : KeepsFiles (inodeClose ptr : FsCall part Unit) :=
  (inodeClose_opens ptr).keepsFiles

theorem dirClose_keepsFiles (dir : Dir) : KeepsFiles (dirClose dir : FsCall part Unit) :=
  (dirClose_opens dir).keepsFiles

theorem searchFile_keepsFiles (junk : Word) (pathname : List Byte) :
    KeepsFiles (searchFile junk pathname : FsCall part (Word × PathSearchRecord)) :=
  (searchFile_opens junk pathname).keepsFiles

/-- Leaving the file table alone, as a property that no reference matters to. -/
theorem sameFiles_discipline (s : FsState part) : QuietDiscipline fun _ => SameFiles s where
  inodeOpen _ inodeNo := (inodeOpen_keepsFiles inodeNo).triple fun _ _ => SameFiles.trans
  inodeClose _ ptr := (inodeClose_keepsFiles ptr).triple fun _ _ => SameFiles.trans
  quiet _ _ _ before same := before.trans same.sameFiles

end UKernel.Fs
