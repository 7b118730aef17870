import UKernel.Fs.ListRuns
import UKernel.Fs.References

/-! # A `sys_open` that failed

`file_open` and `file_create` fill a slot of the file table before the last checks, and do not
empty it when these fail; and `sys_open` of a file that exists does not close the directory in
which it found the file. A call that returned `-1` left everything as it was exactly when it did not
get that far (`UKernel.Fs.failed_open_untouched_iff`).
-/

namespace UKernel.Fs

open UKernel.Library

variable {part : Partition} {s s' searched : FsState part} {junk : Word} {pathname : List Byte}
  {flags : Byte} {fd : Option Nat}

/-- The file table, the descriptors, the open inodes and their objects, the disk and the inode
bitmap are the same. -/
structure Untouched (s s' : FsState part) : Prop where
  fileTable : s'.fileTable = s.fileTable
  fdTable : s'.fdTable = s.fdTable
  openInodes : s'.openInodes = s.openInodes
  objects : ∀ ptr ∈ s.openInodes, s'.inodes ptr = s.inodes ptr
  disk : s'.disk = s.disk
  inodeBitmap : s'.inodeBitmap = s.inodeBitmap

/-- A file that the call goes on to open is in the root directory and there is no free slot, and
neither is there one for a file that it goes on to make. -/
structure StopsEarly (s : FsState part) (junk : Word) (pathname : List Byte) (flags : Byte) :
    Prop where
  existing : ∀ inodeNo record searched,
    OpensExisting s junk pathname flags inodeNo record searched →
    s.freeSlot = none ∧ record.parentDir = .root
  created : ∀ filename record searched, CreatesFile s junk pathname flags filename record searched →
    s.freeSlot = none

/-! ## Opening and closing inodes -/

/-- The openings of the listed inodes; an inode that the task does not see counts as one. -/
def FsState.openings (s : FsState part) (ptr : Ptr) : Nat :=
  if ptr ∈ s.openInodes then ((s.inodes ptr).map Inode.iOpenCnts).getD 1 else 0

/-- The openings of the listed inodes that the task does not see. -/
def FsState.unseen (s : FsState part) (ptr : Ptr) : Option Nat :=
  if ptr ∈ s.openInodes ∧ s.inodes ptr = none then some 1 else none

theorem ListSound.opened (sound : ListSound s) : Opened s s.openings s.unseen := by
  refine ⟨sound.nodup, ?_, ?_, ?_, ?_⟩
  · intro ptr new
    have unlisted : ptr ∉ s.openInodes := fun listed =>
      absurd (sound.old ptr listed) (Nat.not_lt.mpr new)
    rw [FsState.cnts, sound.fresh ptr new, FsState.unseen, if_neg fun both => unlisted both.1]
    rfl
  · intro ptr known
    by_contra sees
    exact known (if_neg fun both => sees both.2)
  · intro ptr
    unfold FsState.openings
    by_cases listed : ptr ∈ s.openInodes
    · rw [if_pos listed]
      refine iff_of_true listed ?_
      cases live : s.inodes ptr with
      | none => exact Nat.one_pos
      | some obj => exact sound.positive ptr listed obj live
    · rw [if_neg listed]
      exact iff_of_false listed (Nat.lt_irrefl 0)
  · intro ptr listed
    rw [FsState.cnts, FsState.openings, FsState.unseen, if_pos listed]
    cases live : s.inodes ptr with
    | none => exact if_pos ⟨listed, rfl⟩
    | some obj => rfl

/-- Inodes were opened and closed so that the references are the same again. -/
theorem OpensOnly.untouched (opens : OpensOnly s s') (sound : ListSound s)
    (opened : Opened s' s.openings s.unseen) : Untouched s s' := by
  have before := sound.opened
  have members : ∀ p, p ∈ s'.openInodes ↔ p ∈ s.openInodes := fun p => by
    rw [opened.opened, before.opened]
  have order := opens.files.order
  have old : (s'.openInodes.filter fun p => p.addr < s.nextAddr) = s'.openInodes := by
    rw [List.filter_eq_self]
    exact fun p listed => decide_eq_true (sound.old p ((members p).mp listed))
  rw [old] at order
  have perm : s'.openInodes.Perm s.openInodes :=
    (List.perm_ext_iff_of_nodup opened.nodup sound.nodup).mpr members
  refine ⟨opens.files.fileTable, opens.files.fdTable, order.eq_of_length perm.length_eq, ?_,
    opens.disk, opens.inodeBitmap⟩
  intro ptr listed
  have count : s'.cnts s.unseen ptr = s.cnts s.unseen ptr := by
    rw [opened.counts ptr ((members ptr).mpr listed), before.counts ptr listed]
  cases live : s.inodes ptr with
  | none =>
      exact opened.secret ptr (by rw [FsState.unseen, if_pos ⟨listed, live⟩]; simp)
  | some obj =>
      rw [(before.visible live).1, FsState.cnts, (before.visible live).2, Option.or_none,
        Option.map_eq_some_iff] at count
      obtain ⟨obj', live', same⟩ := count
      obtain ⟨obj₀, live₀, is⟩ := opens.objects ptr (sound.old ptr listed) obj' live'
      cases live.symm.trans live₀
      rw [live', is, same]

/-- An inode that was opened once more is noticed. -/
theorem Opened.not_untouched {ptr : Ptr} (sound : ListSound s)
    (opened : Opened s' (s.openings + Pi.single ptr 1) s.unseen) : ¬ Untouched s s' := by
  intro same
  have listed : ptr ∈ s'.openInodes :=
    (opened.opened ptr).mpr (by rw [add_single, if_pos rfl]; omega)
  have count := opened.counts ptr listed
  rw [same.openInodes] at listed
  have before := sound.opened.counts ptr listed
  rw [FsState.cnts, same.objects ptr listed, ← FsState.cnts, before, add_single,
    if_pos rfl] at count
  have equal := Option.some.inj count
  omega

/-! ## Making a file -/

section

variable {dir : Ptr} {inode : Inode} {pDe : DirEntry} {filename : List Byte} {g : Nat}

/-- A block is always found, or the machine stops. -/
theorem addBlock_returns_true {blockIdx : Nat} {done : Bool}
    (ran : (addBlock dir inode pDe blockIdx).run s = .ok (done, s')) : done = true := by
  obtain ⟨found, after, allocates, ran⟩ := call_bind_returns.mp ran
  obtain ⟨bitIdx, disk, rfl, -⟩ := newDirBlock_returns allocates
  dsimp only at ran
  split at ran
  · exact (startBlock_returns.mp ran).1.symm
  · split at ran
    · obtain ⟨second, _, allocates, ran⟩ := call_bind_returns.mp ran
      obtain ⟨bitIdx, disk, rfl, -⟩ := newDirBlock_returns allocates
      obtain ⟨_, _, _, ran⟩ := call_bind_returns.mp ran
      exact (startBlock_returns.mp ran).1.symm
    · obtain ⟨_, _, _, ran⟩ := call_bind_returns.mp ran
      exact (startBlock_returns.mp ran).1.symm

/-- The loop does not get past the index of the table of indirect blocks, which it takes for
free. -/
theorem syncBlocks_returns_true {left blockIdx : Nat} {done : Bool} (low : blockIdx ≤ 12)
    (high : 12 < blockIdx + left)
    (ran : (syncBlocks dir inode pDe left blockIdx).run s = .ok (done, s')) : done = true := by
  induction left generalizing blockIdx with
  | zero => omega
  | succ left ih =>
      unfold syncBlocks at ran
      dsimp only at ran
      by_cases missing : directBlocks inode blockIdx = 0
      · rw [if_pos missing] at ran
        exact addBlock_returns_true ran
      · have less : blockIdx < 12 := by
          by_contra high
          exact missing (if_neg high)
        rw [if_neg missing, call_bind_of (call_get_returns.mpr ⟨rfl, rfl⟩)] at ran
        split at ran
        · obtain ⟨_, _, _, ran⟩ := call_bind_returns.mp ran
          obtain ⟨_, _, _, ran⟩ := call_bind_returns.mp ran
          exact (call_pure_returns.mp ran).1.symm
        · exact ih (by omega) (by omega) ran

/-- `sync_dir_entry` never returns false. -/
theorem syncDirEntry_returns_true {done : Bool}
    (ran : (syncDirEntry dir pDe).run s = .ok (done, s')) : done = true := by
  obtain ⟨_, _, _, ran⟩ := call_bind_returns.mp ran
  obtain ⟨_, _, _, ran⟩ := call_bind_returns.mp ran
  exact syncBlocks_returns_true (by decide) (by decide) ran

/-- Without a free slot `file_create` gives back what it took. -/
theorem fileCreate_full (full : s.freeSlot = none)
    (ran : (fileCreate dir filename flags).run s = .ok (fd, s')) :
    s' = s.discard s.fileTable := by
  obtain ⟨found, _, allocates, ran⟩ := call_bind_returns.mp ran
  obtain ⟨k, rfl, -, free, -, rfl⟩ := inodeBitmapAlloc_returns allocates
  rw [call_bind_of (call_get_returns.mpr ⟨rfl, rfl⟩), call_bind_of mallocInode_newPtr,
    call_bind_of (store_returns.mpr rfl)] at ran
  have slot : FsState.freeSlot { s with inodeBitmap := s.inodeBitmap.set k true } = none := full
  dsimp only at ran
  rw [slot] at ran
  dsimp only at ran
  obtain ⟨_, _, frees, ran⟩ := call_bind_returns.mp ran
  cases call_modify_returns.mp frees
  obtain ⟨_, _, clears, ran⟩ := call_bind_returns.mp ran
  obtain ⟨-, rfl⟩ := call_pure_returns.mp ran
  obtain ⟨-, rfl⟩ := setInodeBit_returns.mp clears
  dsimp only
  rw [Bitmap.set_set free, Function.update_idem]
  rfl

/-- `file_create` leaves a free slot filled. -/
theorem fileCreate_fills (free : s.freeSlot = some g)
    (ran : (fileCreate dir filename flags).run s = .ok (fd, s')) :
    (s'.fileTable g).fdInode = some s.newPtr := by
  obtain ⟨found, _, allocates, ran⟩ := call_bind_returns.mp ran
  obtain ⟨k, rfl, -, -, -, rfl⟩ := inodeBitmapAlloc_returns allocates
  rw [call_bind_of (call_get_returns.mpr ⟨rfl, rfl⟩), call_bind_of mallocInode_newPtr,
    call_bind_of (store_returns.mpr rfl)] at ran
  have slot : FsState.freeSlot { s with inodeBitmap := s.inodeBitmap.set k true } = some g := free
  dsimp only at ran
  rw [slot] at ran
  dsimp only at ran
  obtain ⟨_, filled, fills, ran⟩ := call_bind_returns.mp ran
  cases call_modify_returns.mp fills
  obtain ⟨entry, _, makes, ran⟩ := call_bind_returns.mp ran
  obtain ⟨-, rfl⟩ := call_lift_returns.mp makes
  obtain ⟨done, synced, syncs, ran⟩ := call_bind_returns.mp ran
  have table := (syncDirEntry_quiet entry dir _ _ _ syncs).fileTable
  rw [syncDirEntry_returns_true syncs, if_pos rfl] at ran
  obtain ⟨-, published, inode, same, -, rest⟩ := publishFile_returns ran
  rw [rest]
  dsimp only
  rw [same.fileTable, table]
  dsimp only
  rw [Function.update_self]
  rfl

end

/-! ## The call -/

/-- A file that exists is opened. -/
theorem sysOpen_existing {inodeNo : Word} {record : PathSearchRecord} (some_ : pathname ≠ [])
    (opens : OpensExisting s junk pathname flags inodeNo record searched) :
    (sysOpen junk pathname flags).run s = (fileOpen inodeNo flags).run searched := by
  obtain ⟨depth, whole, searchedWhole⟩ := opens.whole
  have ends := List.getLast?_eq_some_getLast some_
  have noSlash : pathname.getLast some_ ≠ slash := fun is => opens.noSlash (by rw [ends, is])
  unfold sysOpen
  rw [ends]
  dsimp only
  rw [if_neg noSlash, call_bind_of (call_lift_returns.mpr ⟨require_of opens.small, rfl⟩),
    call_bind_of (call_lift_returns.mpr ⟨whole, rfl⟩), call_bind_of opens.search]
  dsimp only
  rw [openFound, if_neg opens.noDirectory,
    call_bind_of (call_lift_returns.mpr ⟨searchedWhole, rfl⟩), if_neg (not_not.mpr rfl),
    if_neg fun missing => opens.found missing.1, if_neg fun twice => twice.2 opens.noCreat,
    if_pos opens.noCreat]

/-- A file that does not exist is made. -/
theorem sysOpen_creates {filename : List Byte} {record : PathSearchRecord} (some_ : pathname ≠ [])
    (new : CreatesFile s junk pathname flags filename record searched) :
    (sysOpen junk pathname flags).run s = (do
      let fd ← fileCreate (searched.dirInode record.parentDir) filename flags
      dirClose record.parentDir
      return fd : FsCall part (Option Nat)).run searched := by
  obtain ⟨depth, whole, searchedWhole⟩ := new.whole
  have ends := List.getLast?_eq_some_getLast some_
  have noSlash : pathname.getLast some_ ≠ slash := fun is => new.noSlash (by rw [ends, is])
  unfold sysOpen
  rw [ends]
  dsimp only
  rw [if_neg noSlash, call_bind_of (call_lift_returns.mpr ⟨require_of new.small, rfl⟩),
    call_bind_of (call_lift_returns.mpr ⟨whole, rfl⟩), call_bind_of new.search]
  dsimp only
  rw [openFound, if_neg new.noDirectory,
    call_bind_of (call_lift_returns.mpr ⟨searchedWhole, rfl⟩), if_neg (not_not.mpr rfl),
    if_neg fun missing => new.creat missing.2, if_neg fun twice => twice.1 rfl,
    if_neg new.creat, call_bind_of (call_lift_returns.mpr ⟨new.named, rfl⟩),
    call_bind_of (call_get_returns.mpr ⟨rfl, rfl⟩)]

/-- The empty path stops the machine. -/
theorem sysOpen_returns_path (ran : (sysOpen junk pathname flags).run s = .ok (fd, s')) :
    pathname ≠ [] := by
  rintro rfl
  exact call_throw_returns ran

/-- A slot that is filled is noticed. -/
theorem not_untouched_of_filled {g : Nat} {ptr : Ptr} (free : s.freeSlot = some g)
    (filled : (s'.fileTable g).fdInode = some ptr) : ¬ Untouched s s' := by
  intro same
  have empty := Option.isNone_iff_eq_none.mp (getFreeSlotInGlobal_some free).2.2
  rw [same.fileTable, empty] at filled
  cases filled

theorem freeSlot_congr (same : s'.fileTable = s.fileTable) : s'.freeSlot = s.freeSlot := by
  unfold FsState.freeSlot
  rw [same]

/-- What the search left when it opened and closed inodes, and what is counted then. -/
theorem search_opened {found : Word × PathSearchRecord} (sound : ListSound s)
    (search : (searchFile junk pathname).run s = .ok (found, searched)) :
    OpensOnly s searched ∧
      Opened searched (s.openings + found.2.parentDir.refs) s.unseen :=
  ⟨searchFile_opens _ _ _ _ _ search,
    (opened_discipline s.unseen).toDiscipline.searchFile _ _ _ _ _ sound.opened search⟩

/-- The directory that the search left open is closed. -/
theorem closed_untouched {found : Word × PathSearchRecord} {middle : FsState part}
    (sound : ListSound s) (opens : OpensOnly s middle)
    (opened : Opened middle (s.openings + found.2.parentDir.refs) s.unseen)
    (closes : (dirClose found.2.parentDir).run middle = .ok ((), s')) : Untouched s s' :=
  OpensOnly.untouched (IsTrans.trans _ _ _ opens (dirClose_opens _ _ _ _ closes)) sound
    ((opened_discipline s.unseen).toDiscipline.dirClose _ _ _ _ opened closes)

/-- A file that exists and could not be opened. -/
theorem existing_untouched_iff {inodeNo : Word} {record : PathSearchRecord} (sound : ListSound s)
    (opens : OpensExisting s junk pathname flags inodeNo record searched)
    (ran : (fileOpen inodeNo flags).run searched = .ok (none, s')) :
    Untouched s s' ↔ s.freeSlot = none ∧ record.parentDir = .root := by
  obtain ⟨only, opened⟩ := search_opened sound opens.search
  have slot := freeSlot_congr only.files.fileTable
  rcases fileOpen_returns ran with ⟨full, _, rfl⟩ | ⟨g, ptr, loaded, free, _, _, same⟩
  · rw [slot] at full
    cases parent : record.parentDir with
    | root =>
        rw [show Dir.refs record.parentDir = 0 by rw [parent]; rfl, add_zero] at opened
        exact iff_of_true (only.untouched sound opened) ⟨full, rfl⟩
    | heap ptr =>
        rw [show Dir.refs record.parentDir = Pi.single ptr 1 by rw [parent]; rfl] at opened
        exact iff_of_false (opened.not_untouched sound) fun both => by cases both.2
  · rw [slot] at free
    have filled : (s'.fileTable g).fdInode = some ptr := by
      rw [same.fileTable, fileTable_fill, Function.update_self]
    refine iff_of_false (not_untouched_of_filled free filled) fun both => ?_
    rw [free] at both
    cases both.1

/-- A file that could not be made. -/
theorem creates_untouched_iff {filename : List Byte} {record : PathSearchRecord}
    {made : FsState part} (sound : ListSound s)
    (new : CreatesFile s junk pathname flags filename record searched)
    (creates : (fileCreate (searched.dirInode record.parentDir) filename flags).run searched =
      .ok (none, made))
    (closes : (dirClose record.parentDir).run made = .ok ((), s')) :
    Untouched s s' ↔ s.freeSlot = none := by
  obtain ⟨only, opened⟩ := search_opened sound new.search
  have slot := freeSlot_congr only.files.fileTable
  cases free : s.freeSlot with
  | none =>
      have is := fileCreate_full (slot.trans free) creates
      refine iff_of_true ?_ rfl
      have opens := IsTrans.trans _ _ _ only (discard_opensOnly searched)
      rw [← is] at opens
      have opened := opened.discard searched.fileTable
      rw [← is] at opened
      exact closed_untouched sound opens opened closes
  | some g =>
      have filled := fileCreate_fills (slot.trans free) creates
      rw [← (dirClose_keepsFiles _ _ _ _ closes).fileTable] at filled
      refine iff_of_false (not_untouched_of_filled free filled) ?_
      simp

/-- **A `sys_open` that failed.** A call that returned `-1` left everything as it was exactly when
it did not go on to open a file in another directory than the root, and did not go on to open or
make a file while there was a free slot. -/
theorem failed_open_untouched_iff (sound : ListSound s)
    (ran : (sysOpen junk pathname flags).run s = .ok (none, s')) :
    Untouched s s' ↔ StopsEarly s junk pathname flags := by
  have some_ := sysOpen_returns_path ran
  by_cases existing : ∃ inodeNo record searched,
      OpensExisting s junk pathname flags inodeNo record searched
  · obtain ⟨inodeNo, record, searched, opens⟩ := existing
    have opened := ran
    rw [sysOpen_existing some_ opens] at opened
    rw [existing_untouched_iff sound opens opened]
    constructor
    · intro both
      refine ⟨fun inodeNo' record' searched' opens' => ?_, fun _ _ _ new =>
        absurd opens.noCreat new.creat⟩
      cases opens.search.symm.trans opens'.search
      exact both
    · exact fun stops => stops.existing _ _ _ opens
  · by_cases created : ∃ filename record searched,
        CreatesFile s junk pathname flags filename record searched
    · obtain ⟨filename, record, searched, new⟩ := created
      have opened := ran
      rw [sysOpen_creates some_ new] at opened
      obtain ⟨fd, made, creates, opened⟩ := call_bind_returns.mp opened
      obtain ⟨_, _, closes, opened⟩ := call_bind_returns.mp opened
      obtain ⟨rfl, rfl⟩ := call_pure_returns.mp opened
      rw [creates_untouched_iff sound new creates closes]
      exact ⟨fun full => ⟨fun _ _ _ opens => absurd opens.noCreat new.creat, fun _ _ _ _ => full⟩,
        fun stops => stops.created _ _ _ new⟩
    · have stops : StopsEarly s junk pathname flags :=
        ⟨fun inodeNo record searched opens =>
            absurd ⟨inodeNo, record, searched, opens⟩ existing,
          fun filename record searched new => absurd ⟨filename, record, searched, new⟩ created⟩
      refine iff_of_true ?_ stops
      cases sysOpen_returns ran with
      | slash => exact ⟨rfl, rfl, rfl, fun _ _ => rfl, rfl, rfl⟩
      | refused search closes =>
          obtain ⟨only, opened⟩ := search_opened sound search
          exact closed_untouched sound only opened closes
      | existing opens _ => exact absurd ⟨_, _, _, opens⟩ existing
      | created new _ _ => exact absurd ⟨_, _, _, new⟩ created

/-- Thread 0 makes a file, and opens it for writing. -/
def makeAndOpen : List FsLabel :=
  [⟨0, 0, .openFile pathA (oCreat ||| oRdwr)⟩, ⟨0, 0, .openFile pathA oRdwr⟩]

/-- It cannot open the file for writing once more, and a slot of the file table is filled. -/
theorem open_denied_fills : ∃ (tasks : Tasks somePartition) (s' : FsState somePartition),
    (tasksUsing somePartition fun _ => True).Reachable tasks ∧
      (sysOpen 0 pathA.chars oRdwr).run (tasks.view 0) = .ok (none, s') ∧
      (tasks.fs.fileTable 5).fdInode = none ∧ (s'.fileTable 5).fdInode ≠ none := by
  have found : (runFrom {0} (fun _ => false) makeAndOpen).any
      (fun (tasks : Tasks somePartition) => decide ((tasks.fs.fileTable 5).fdInode = none) &&
        ((sysOpen 0 pathA.chars oRdwr).run (tasks.view 0)).toOption.any fun r =>
          decide (r.1 = none ∧ (r.2.fileTable 5).fdInode ≠ none)) = true := by
    decide +kernel
  obtain ⟨tasks, reached, facts⟩ := Option.any_eq_true _ _ |>.mp found
  obtain ⟨free, fact⟩ := Bool.and_eq_true_iff.mp facts
  obtain ⟨⟨fd, s'⟩, ran, fact⟩ := Option.any_eq_true _ _ |>.mp fact
  obtain ⟨failed, filled⟩ := of_decide_eq_true fact
  cases failed
  exact ⟨tasks, s', reachable_runFrom (fun _ _ => trivial) reached, returned_of_toOption ran,
    of_decide_eq_true free, filled⟩

/-- The file cannot be opened for writing, and the call did not stop early. -/
theorem failed_open_untouched_iff_denied : ∃ (tasks : Tasks somePartition)
    (s' : FsState somePartition), (s'.fileTable 5).fdInode ≠ none ∧
      (Untouched (tasks.view 0) s' ↔ StopsEarly (tasks.view 0) 0 pathA.chars oRdwr) := by
  obtain ⟨tasks, s', reachable, ran, -, filled⟩ := open_denied_fills
  exact ⟨tasks, s', filled, failed_open_untouched_iff (reachable_listSound reachable 0) ran⟩

/-- A call that failed changes the file table. -/
theorem failed_open_fills_slot : ¬ ∀ (tasks : Tasks somePartition) (pid : Pid) (junk : Word)
    (pathname : CString) (flags : Byte) (s' : FsState somePartition),
    (tasksUsing somePartition fun _ => True).Reachable tasks →
    (sysOpen junk pathname.chars flags).run (tasks.view pid) = .ok (none, s') →
    Untouched (tasks.view pid) s' := by
  intro all
  obtain ⟨tasks, s', reachable, ran, free, filled⟩ := open_denied_fills
  have same := all tasks 0 0 pathA oRdwr s' reachable ran
  rw [same.fileTable] at filled
  exact filled free

end UKernel.Fs
