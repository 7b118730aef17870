import UKernel.Fs.OpenList

/-! # What `sys_open` does

The outcomes of `sys_open` (`UKernel.Fs.sysOpen_returns`): it does nothing, it gives up after the
search and closes the directory that the search left open, it opens a file that exists, or it
makes one. `file_open` and `file_create` fill a free slot of the file table, or none.
-/

namespace UKernel.Fs

open UKernel.Library

variable {part : Partition} {s s' : FsState part}

theorem SameMemory.eq_with (same : SameMemory s s') : s' = { s with
    disk := s'.disk
    blockBitmap := s'.blockBitmap
    inodeBitmap := s'.inodeBitmap } := by
  obtain ⟨inodes, nextAddr, openInodes, rootDir, fileTable, fdTable, userProcess⟩ := same
  cases s'
  simp_all

/-- Fill a slot of the file table for an inode that was opened, and replace the descriptors. -/
def FsState.fill (s : FsState part) (g : Nat) (flag : Byte) (ptr : Ptr)
    (fdTable : Nat → Option Nat) : FsState part :=
  { s with
    fileTable := Function.update s.fileTable g
      { fdPos := 0, fdFlag := flag.setWidth 32, fdInode := some ptr }
    fdTable := fdTable }

/-- The address of the next inode object that the running task allocates. -/
def FsState.newPtr (s : FsState part) : Ptr :=
  if s.userProcess then .user s.nextAddr else .kernel s.nextAddr

/-- Allocate an inode object that is opened once. -/
def FsState.create (s : FsState part) : FsState part :=
  { s with
    nextAddr := s.nextAddr + 1
    inodes := Function.update s.inodes s.newPtr (some { inodeInit 0 with iOpenCnts := 1 })
    openInodes := s.newPtr :: s.openInodes }

/-- Two file tables have the same slots in use. -/
def SameUsed (fileTable fileTable' : Nat → File) : Prop :=
  ∀ g, fileTable' g = fileTable g ∨ (fileTable' g).fdInode = none ∧ (fileTable g).fdInode = none

/-- Allocate an inode object and free it again; slots that were free may be cleared. -/
def FsState.discard (s : FsState part) (fileTable : Nat → File) : FsState part :=
  { s with
    nextAddr := s.nextAddr + 1
    inodes := Function.update s.inodes s.newPtr none
    fileTable := fileTable }

section

variable {g : Nat} {flag : Byte} {ptr : Ptr} {fdTable : Nat → Option Nat} {table : Nat → File}

@[simp] theorem fileTable_fill :
    (s.fill g flag ptr fdTable).fileTable = Function.update s.fileTable g
    { fdPos := 0, fdFlag := flag.setWidth 32, fdInode := some ptr } := rfl

@[simp] theorem fdTable_fill : (s.fill g flag ptr fdTable).fdTable = fdTable := rfl

@[simp] theorem nextAddr_fill : (s.fill g flag ptr fdTable).nextAddr = s.nextAddr := rfl

@[simp] theorem openInodes_fill : (s.fill g flag ptr fdTable).openInodes = s.openInodes := rfl

@[simp] theorem inodes_fill : (s.fill g flag ptr fdTable).inodes = s.inodes := rfl

@[simp] theorem rootDir_fill : (s.fill g flag ptr fdTable).rootDir = s.rootDir := rfl

@[simp] theorem fileTable_discard : (s.discard table).fileTable = table := rfl

@[simp] theorem nextAddr_discard : (s.discard table).nextAddr = s.nextAddr + 1 := rfl

@[simp] theorem openInodes_discard : (s.discard table).openInodes = s.openInodes := rfl

end

theorem newPtr_addr (s : FsState part) : s.newPtr.addr = s.nextAddr := by
  unfold FsState.newPtr
  split
  · rfl
  · rfl

/-- How a descriptor is installed. -/
def Installed (s s' : FsState part) (g : Nat) (fd : Option Nat) : Prop :=
  fd = none ∧ s'.fdTable = s.fdTable ∨ (fd, s'.fdTable) = pcbFdInstall s.fdTable g

theorem installFd_returns {g : Nat} {fd : Option Nat} (ran : (installFd g).run s = .ok (fd, s')) :
    s' = { s with fdTable := s'.fdTable } ∧ (fd, s'.fdTable) = pcbFdInstall s.fdTable g := by
  rw [installFd, call_bind_of (call_get_returns.mpr ⟨rfl, rfl⟩)] at ran
  cases ran
  exact ⟨rfl, rfl⟩

/-- The descriptor is refused, or put into a free entry. -/
theorem Installed.cases {g : Nat} {fd : Option Nat} (installed : Installed s s' g fd) :
    fd = none ∧ s'.fdTable = s.fdTable ∨ ∃ localFd, fd = some localFd ∧ 3 ≤ localFd ∧
      s'.fdTable = Function.update s.fdTable localFd (some g) := by
  rcases installed with refused | given
  · exact .inl refused
  · unfold pcbFdInstall at given
    cases free : freeLocalFd s.fdTable with
    | none =>
        rw [free] at given
        exact .inl (Prod.ext_iff.mp given)
    | some localFd =>
        rw [free] at given
        obtain ⟨value, table⟩ := Prod.ext_iff.mp given
        exact .inr ⟨localFd, value, (freeLocalFd_some free).1, table⟩

theorem denyWrite_quiet (ptr : Ptr) : Quiet (denyWrite ptr : FsCall part Bool) := by
  apply Counting.quiet
  intro inode
  split
  · exact .of_onDisk (.pure _)
  · exact .bind (.store rfl) fun _ => .of_onDisk (.pure _)

theorem SameCounts.install (same : SameCounts s s') (fdTable : Nat → Option Nat) :
    SameCounts { s with fdTable := fdTable } { s' with fdTable := fdTable } :=
  ⟨same.counts, same.nextAddr, same.openInodes, same.rootDir, same.fileTable, rfl,
    same.userProcess⟩

/-- Two states in which an object was replaced by one with the same count, or dropped. -/
theorem SameCounts.replace (same : SameCounts s s') (ptr : Ptr) (object object' : Option Inode)
    (count : object'.map Inode.iOpenCnts = object.map Inode.iOpenCnts) :
    SameCounts { s with inodes := Function.update s.inodes ptr object }
      { s' with inodes := Function.update s'.inodes ptr object' } := by
  refine ⟨fun other => ?_, same.nextAddr, same.openInodes, same.rootDir, same.fileTable,
    same.fdTable, same.userProcess⟩
  dsimp only
  by_cases here : other = ptr
  · rw [here, Function.update_self, Function.update_self, count]
  · rw [Function.update_of_ne here, Function.update_of_ne here, same.counts]

theorem SameCounts.push (same : SameCounts s s') (ptr : Ptr) :
    SameCounts { s with openInodes := ptr :: s.openInodes }
      { s' with openInodes := ptr :: s'.openInodes } :=
  ⟨same.counts, same.nextAddr, congrArg (ptr :: ·) same.openInodes, same.rootDir,
    same.fileTable, same.fdTable, same.userProcess⟩

theorem SameCounts.refill (same : SameCounts s s') (g : Nat) (file : File) :
    SameCounts { s with fileTable := Function.update s.fileTable g file }
      { s' with fileTable := Function.update s'.fileTable g file } :=
  ⟨same.counts, same.nextAddr, same.openInodes, same.rootDir,
    congrArg (Function.update · g file) same.fileTable, same.fdTable, same.userProcess⟩

/-- The end of `file_open` and `file_create`: a descriptor is installed. -/
theorem installFd_filled {opened filled : FsState part} {g : Nat} {flag : Byte} {ptr : Ptr}
    {fd : Option Nat} (files : opened.fdTable = s.fdTable)
    (same : SameCounts (opened.fill g flag ptr opened.fdTable) filled)
    (ran : (installFd g).run filled = .ok (fd, s')) :
    Installed s s' g fd ∧ SameCounts (opened.fill g flag ptr s'.fdTable) s' := by
  obtain ⟨rest, installed⟩ := installFd_returns ran
  constructor
  · rw [same.fdTable] at installed
    exact .inr (files ▸ installed)
  · rw [rest]
    exact same.install s'.fdTable

/-- `file_open`: without a free slot nothing happens. Otherwise the slot is filled, also when
the descriptor is refused. -/
theorem fileOpen_returns {inodeNo : Word} {flag : Byte} {fd : Option Nat}
    (ran : (fileOpen inodeNo flag).run s = .ok (fd, s')) :
    s.freeSlot = none ∧ fd = none ∧ s' = s ∨
    ∃ g ptr opened, s.freeSlot = some g ∧ (inodeOpen inodeNo).run s = .ok (ptr, opened) ∧
      Installed s s' g fd ∧ SameCounts (opened.fill g flag ptr s'.fdTable) s' := by
  rw [fileOpen, call_bind_of (call_get_returns.mpr ⟨rfl, rfl⟩)] at ran
  cases slot : s.freeSlot with
  | none =>
      simp only [slot] at ran
      obtain ⟨rfl, rfl⟩ := call_pure_returns.mp ran
      exact .inl ⟨rfl, rfl, rfl⟩
  | some g =>
      simp only [slot] at ran
      obtain ⟨ptr, opened, opens, ran⟩ := call_bind_returns.mp ran
      obtain ⟨_, filled, fills, ran⟩ := call_bind_returns.mp ran
      cases call_modify_returns.mp fills
      have files := (inodeOpen_keepsFiles inodeNo s ptr opened opens).fdTable
      refine .inr ⟨g, ptr, opened, rfl, opens, ?_⟩
      by_cases writes : flag = oWronly ∨ flag = oRdwr
      · rw [if_pos writes] at ran
        obtain ⟨allowed, denied, checks, ran⟩ := call_bind_returns.mp ran
        have quiet := denyWrite_quiet ptr _ _ _ checks
        cases allowed with
        | true => exact installFd_filled files quiet ran
        | false =>
            obtain ⟨rfl, rfl⟩ := call_pure_returns.mp ran
            have fds := quiet.fdTable
            exact ⟨.inl ⟨rfl, fds.trans files⟩, by rw [fds]; exact quiet⟩
      · rw [if_neg writes] at ran
        exact installFd_filled files (SameCounts.refl _) ran

theorem listPush_returns {ptr : Ptr} (ran : (listPush ptr).run s = .ok ((), s')) :
    s' = { s with openInodes := ptr :: s.openInodes } := by
  rw [listPush, call_bind_of (call_get_returns.mpr ⟨rfl, rfl⟩)] at ran
  cases listed : s.openInodes with
  | nil =>
      simp only [listed] at ran
      exact (call_modify_returns.mp ran).symm
  | cons first rest =>
      simp only [listed] at ran
      obtain ⟨_, _, found, ran⟩ := call_bind_returns.mp ran
      obtain ⟨_, rfl⟩ := deref_returns.mp found
      exact (call_modify_returns.mp ran).symm

theorem mallocInode_returns {inKernel : Bool} {ptr : Ptr} :
    (mallocInode inKernel).run s = .ok (ptr, s') ↔
      (if inKernel then Ptr.kernel s.nextAddr else .user s.nextAddr) = ptr ∧
        { s with nextAddr := s.nextAddr + 1 } = s' := by
  rw [mallocInode, call_bind_of (call_get_returns.mpr ⟨rfl, rfl⟩),
    call_bind_of (call_modify_returns.mpr rfl), call_pure_returns]

/-- The object that `file_create` allocates. -/
theorem mallocInode_newPtr :
    (mallocInode (!s.userProcess)).run s =
      .ok (s.newPtr, { s with nextAddr := s.nextAddr + 1 }) := by
  rw [mallocInode_returns]
  unfold FsState.newPtr
  cases s.userProcess with
  | false => exact ⟨rfl, rfl⟩
  | true => exact ⟨rfl, rfl⟩

/-- The part of `file_create` after the slot was filled and the entry was put into the parent
directory. -/
theorem publishFile_returns {parentDir ptr : Ptr} {inodeNo g : Nat} {fd : Option Nat}
    (ran : (publishFile parentDir ptr inodeNo g).run s = .ok (fd, s')) :
    (fd, s'.fdTable) = pcbFdInstall s.fdTable g ∧
    ∃ (s₁ : FsState part) (inode : Inode), SameMemory s s₁ ∧ s.inodes ptr = some inode ∧
      s' = { s₁ with
        openInodes := ptr :: s₁.openInodes
        inodes := Function.update s₁.inodes ptr (some { inode with iOpenCnts := 1 })
        fdTable := s'.fdTable } := by
  obtain ⟨parent, s₁, reads, ran⟩ := call_bind_returns.mp ran
  obtain ⟨_, s₂, syncs, ran⟩ := call_bind_returns.mp ran
  obtain ⟨object, s₃, reads', ran⟩ := call_bind_returns.mp ran
  obtain ⟨_, s₄, syncs', ran⟩ := call_bind_returns.mp ran
  obtain ⟨_, s₅, marks, ran⟩ := call_bind_returns.mp ran
  have same : SameMemory s s₅ :=
    IsTrans.trans _ _ _ (deref_onDisk _ _ _ _ reads) <|
    IsTrans.trans _ _ _ (inodeSync_onDisk _ _ _ _ syncs) <|
    IsTrans.trans _ _ _ (deref_onDisk _ _ _ _ reads') <|
    IsTrans.trans _ _ _ (inodeSync_onDisk _ _ _ _ syncs') (bitmapSync_onDisk _ _ _ _ _ marks)
  obtain ⟨_, s₆, pushes, ran⟩ := call_bind_returns.mp ran
  cases listPush_returns pushes
  obtain ⟨inode, s₇, reads'', ran⟩ := call_bind_returns.mp ran
  obtain ⟨live, rfl⟩ := deref_returns.mp reads''
  obtain ⟨_, s₈, stores, ran⟩ := call_bind_returns.mp ran
  cases store_returns.mp stores
  obtain ⟨rest, installed⟩ := installFd_returns ran
  exact ⟨same.fdTable ▸ installed, s₅, inode, same, same.inodes ▸ live, rest⟩

/-- `file_create`: either it makes no file, or the new inode is open and fills a slot. -/
theorem fileCreate_returns {parentDir : Ptr} {filename : List Byte} {flag : Byte} {fd : Option Nat}
    (ran : (fileCreate parentDir filename flag).run s = .ok (fd, s')) :
    fd = none ∧ (SameCounts s s' ∨
      ∃ table, SameUsed s.fileTable table ∧ SameCounts (s.discard table) s') ∨
    ∃ g, s.freeSlot = some g ∧ Installed s s' g fd ∧
      SameCounts (s.create.fill g flag s.newPtr s'.fdTable) s' := by
  obtain ⟨found, allocated, allocates, ran⟩ := call_bind_returns.mp ran
  have same := inodeBitmapAlloc_onDisk s _ _ allocates
  cases found with
  | none =>
      obtain ⟨rfl, rfl⟩ := call_pure_returns.mp ran
      exact .inl ⟨rfl, .inl same.sameCounts⟩
  | some inodeNo =>
      have ptr : allocated.newPtr = s.newPtr := by
        unfold FsState.newPtr
        rw [same.userProcess, same.nextAddr]
      have slot : allocated.freeSlot = s.freeSlot := by
        unfold FsState.freeSlot
        rw [same.fileTable]
      rw [call_bind_of (call_get_returns.mpr ⟨rfl, rfl⟩), call_bind_of mallocInode_newPtr,
        call_bind_of (store_returns.mpr rfl)] at ran
      rw [slot, ptr] at ran
      cases free : s.freeSlot with
      | none =>
          simp only [free] at ran
          obtain ⟨_, freed, frees, ran⟩ := call_bind_returns.mp ran
          cases call_modify_returns.mp frees
          obtain ⟨_, cleared, clears, ran⟩ := call_bind_returns.mp ran
          obtain ⟨rfl, rfl⟩ := call_pure_returns.mp ran
          have rest := (setInodeBit_onDisk _ _ _ _ _ clears).sameCounts
          refine .inl ⟨rfl, .inr ⟨s.fileTable, fun g => .inl rfl, SameCounts.trans ?_ rest⟩⟩
          dsimp only
          rw [same.eq_with, Function.update_idem]
          exact ⟨fun _ => rfl, rfl, rfl, rfl, rfl, rfl, rfl⟩
      | some g =>
          simp only [free] at ran
          obtain ⟨_, filled, fills, ran⟩ := call_bind_returns.mp ran
          cases call_modify_returns.mp fills
          obtain ⟨entry, _, makes, ran⟩ := call_bind_returns.mp ran
          obtain ⟨-, rfl⟩ := call_lift_returns.mp makes
          obtain ⟨done, synced, syncs, ran⟩ := call_bind_returns.mp ran
          have quiet := syncDirEntry_quiet entry parentDir _ _ _ syncs
          cases done with
          | true =>
              obtain ⟨installed, s₁, inode, kept, -, rest⟩ := publishFile_returns ran
              have fds : synced.fdTable = s.fdTable := quiet.fdTable.trans same.fdTable
              rw [fds] at installed
              refine .inr ⟨g, rfl, .inr installed, ?_⟩
              have step := (((quiet.trans kept.sameCounts).replace s.newPtr
                (some { inodeInit 0 with iOpenCnts := 1 })
                (some { inode with iOpenCnts := 1 }) rfl).push s.newPtr).install
                s'.fdTable
              rw [rest]
              refine SameCounts.trans ?_ step
              dsimp only
              rw [same.eq_with, Function.update_idem]
              exact ⟨fun _ => rfl, rfl, rfl, rfl, rfl, rfl, rfl⟩
          | false =>
              obtain ⟨_, _, empties, ran⟩ := call_bind_returns.mp ran
              cases call_modify_returns.mp empties
              obtain ⟨_, _, frees, ran⟩ := call_bind_returns.mp ran
              cases call_modify_returns.mp frees
              obtain ⟨_, cleared, clears, ran⟩ := call_bind_returns.mp ran
              obtain ⟨rfl, rfl⟩ := call_pure_returns.mp ran
              have rest := (setInodeBit_onDisk _ _ _ _ _ clears).sameCounts
              have empty : (s.fileTable g).fdInode = none :=
                Option.isNone_iff_eq_none.mp (getFreeSlotInGlobal_some free).2.2
              have step := ((quiet.refill g { fdPos := 0, fdFlag := 0, fdInode := none }).replace
                s.newPtr none none rfl).trans rest
              refine .inl ⟨rfl, .inr ⟨Function.update s.fileTable g ⟨0, 0, none⟩, ?_,
                SameCounts.trans ?_ step⟩⟩
              · intro other
                by_cases here : other = g
                · rw [here, Function.update_self]
                  exact .inr ⟨rfl, empty⟩
                · rw [Function.update_of_ne here]
                  exact .inl rfl
              · dsimp only
                rw [same.eq_with, Function.update_idem, Function.update_idem]
                exact ⟨fun _ => rfl, rfl, rfl, rfl, rfl, rfl, rfl⟩

/-! ## The outcomes of `sys_open` -/

/-- `sys_open` of a path goes on to open a file that the search found. -/
structure OpensExisting (s : FsState part) (junk : Word) (pathname : List Byte) (flags : Byte)
    (inodeNo : Word) (record : PathSearchRecord) (searched : FsState part) : Prop where
  search : (searchFile junk pathname).run s = .ok ((inodeNo, record), searched)
  noSlash : pathname.getLast? ≠ some slash
  small : flags.toNat ≤ 7
  noCreat : flags &&& oCreat = 0
  found : inodeNo ≠ notFound
  noDirectory : record.fileType ≠ ftDirectory
  whole : ∃ depth, pathDepthCnt pathname = .ok depth ∧
    pathDepthCnt record.searchedPath = .ok depth

/-- `sys_open` of a path goes on to make a file that the search did not find. -/
structure CreatesFile (s : FsState part) (junk : Word) (pathname : List Byte) (flags : Byte)
    (filename : List Byte) (record : PathSearchRecord) (searched : FsState part) : Prop where
  search : (searchFile junk pathname).run s = .ok ((notFound, record), searched)
  noSlash : pathname.getLast? ≠ some slash
  small : flags.toNat ≤ 7
  creat : flags &&& oCreat ≠ 0
  noDirectory : record.fileType ≠ ftDirectory
  whole : ∃ depth, pathDepthCnt pathname = .ok depth ∧
    pathDepthCnt record.searchedPath = .ok depth
  named : afterLastSlash pathname = .ok filename

/-- What `sys_open` did, and the state it left. -/
inductive OpenOutcome (s : FsState part) (junk : Word) (pathname : List Byte) (flags : Byte) :
    Option Nat → FsState part → Prop
  | slash : OpenOutcome s junk pathname flags none s
  | refused {inodeNo : Word} {record : PathSearchRecord} {searched s' : FsState part} :
      (searchFile junk pathname).run s = .ok ((inodeNo, record), searched) →
      (dirClose record.parentDir).run searched = .ok ((), s') →
      OpenOutcome s junk pathname flags none s'
  | existing {inodeNo : Word} {record : PathSearchRecord} {searched s' : FsState part}
      {fd : Option Nat} :
      OpensExisting s junk pathname flags inodeNo record searched →
      (fileOpen inodeNo flags).run searched = .ok (fd, s') →
      OpenOutcome s junk pathname flags fd s'
  | created {record : PathSearchRecord} {searched made s' : FsState part}
      {filename : List Byte} {fd : Option Nat} :
      CreatesFile s junk pathname flags filename record searched →
      (fileCreate (searched.dirInode record.parentDir) filename flags).run searched =
        .ok (fd, made) →
      (dirClose record.parentDir).run made = .ok ((), s') →
      OpenOutcome s junk pathname flags fd s'

/-- The directory is closed and `-1` is returned. -/
theorem refused_returns {dir : Dir} {fd : Option Nat}
    (ran : (do dirClose dir; return none : FsCall part (Option Nat)).run s = .ok (fd, s')) :
    fd = none ∧ (dirClose dir).run s = .ok ((), s') := by
  obtain ⟨_, _, closes, ran⟩ := call_bind_returns.mp ran
  obtain ⟨rfl, rfl⟩ := call_pure_returns.mp ran
  exact ⟨rfl, closes⟩

theorem sysOpen_returns {junk : Word} {pathname : List Byte} {flags : Byte} {fd : Option Nat}
    (ran : (sysOpen junk pathname flags).run s = .ok (fd, s')) :
    OpenOutcome s junk pathname flags fd s' := by
  unfold sysOpen at ran
  cases ends : pathname.getLast? with
  | none =>
      simp only [ends] at ran
      exact (call_throw_returns ran).elim
  | some last =>
      simp only [ends] at ran
      by_cases noSlash : last = slash
      · rw [if_pos noSlash] at ran
        obtain ⟨rfl, rfl⟩ := call_pure_returns.mp ran
        exact .slash
      · rw [if_neg noSlash] at ran
        obtain ⟨_, _, checks, ran⟩ := call_bind_returns.mp ran
        obtain ⟨small, rfl⟩ := call_lift_returns.mp checks
        obtain ⟨depth, _, counts, ran⟩ := call_bind_returns.mp ran
        obtain ⟨depthOf, rfl⟩ := call_lift_returns.mp counts
        obtain ⟨⟨inodeNo, record⟩, searched, search, ran⟩ := call_bind_returns.mp ran
        dsimp only at ran
        unfold openFound at ran
        by_cases directory : record.fileType = ftDirectory
        · rw [if_pos directory] at ran
          obtain ⟨rfl, closes⟩ := refused_returns ran
          exact .refused search closes
        · rw [if_neg directory] at ran
          obtain ⟨searchedDepth, _, counts, ran⟩ := call_bind_returns.mp ran
          obtain ⟨searchedOf, rfl⟩ := call_lift_returns.mp counts
          by_cases whole : depth = searchedDepth
          · rw [if_neg (not_not.mpr whole)] at ran
            by_cases missing : inodeNo = notFound ∧ flags &&& oCreat = 0
            · rw [if_pos missing] at ran
              obtain ⟨rfl, closes⟩ := refused_returns ran
              exact .refused search closes
            · rw [if_neg missing] at ran
              by_cases twice : inodeNo ≠ notFound ∧ flags &&& oCreat ≠ 0
              · rw [if_pos twice] at ran
                obtain ⟨rfl, closes⟩ := refused_returns ran
                exact .refused search closes
              · rw [if_neg twice] at ran
                have last' : pathname.getLast? ≠ some slash := by
                  rw [ends]
                  exact fun is => noSlash (Option.some.inj is)
                by_cases noCreat : flags &&& oCreat = 0
                · rw [if_pos noCreat] at ran
                  exact .existing ⟨search, last', require_eq_ok.mp small, noCreat,
                    fun is => missing ⟨is, noCreat⟩, directory, depth, depthOf,
                    whole ▸ searchedOf⟩ ran
                · rw [if_neg noCreat] at ran
                  obtain ⟨filename, _, names, ran⟩ := call_bind_returns.mp ran
                  obtain ⟨named, rfl⟩ := call_lift_returns.mp names
                  rw [call_bind_of (call_get_returns.mpr ⟨rfl, rfl⟩)] at ran
                  obtain ⟨made, after, creates, ran⟩ := call_bind_returns.mp ran
                  obtain ⟨_, _, closes, ran⟩ := call_bind_returns.mp ran
                  obtain ⟨rfl, rfl⟩ := call_pure_returns.mp ran
                  have absent : inodeNo = notFound := by
                    by_contra there
                    exact twice ⟨there, noCreat⟩
                  subst absent
                  exact .created ⟨search, last', require_eq_ok.mp small, noCreat, directory,
                    ⟨depth, depthOf, whole ▸ searchedOf⟩, named⟩ creates closes
          · rw [if_pos whole] at ran
            obtain ⟨rfl, closes⟩ := refused_returns ran
            exact .refused search closes

/-- `sys_open` does not change what kind of task runs. -/
theorem sysOpen_userProcess {junk : Word} {pathname : List Byte} {flags : Byte} {fd : Option Nat}
    (ran : (sysOpen junk pathname flags).run s = .ok (fd, s')) :
    s'.userProcess = s.userProcess := by
  cases sysOpen_returns ran with
  | slash => rfl
  | refused search closes =>
      exact (dirClose_keepsFiles _ _ _ _ closes).userProcess.trans
        (searchFile_keepsFiles _ _ _ _ _ search).userProcess
  | existing opens ran =>
      have search := searchFile_keepsFiles _ _ _ _ _ opens.search
      rcases fileOpen_returns ran with ⟨_, _, rfl⟩ | ⟨g, ptr, opened, _, loads, _, same⟩
      · exact search.userProcess
      · exact same.userProcess.trans
          ((inodeOpen_keepsFiles _ _ _ _ loads).userProcess.trans search.userProcess)
  | created new creates closes =>
      have search := searchFile_keepsFiles _ _ _ _ _ new.search
      have close := dirClose_keepsFiles _ _ _ _ closes
      rcases fileCreate_returns creates with ⟨_, same | ⟨table, _, same⟩⟩ | ⟨g, _, _, same⟩
      · exact close.userProcess.trans (same.userProcess.trans search.userProcess)
      · exact close.userProcess.trans (same.userProcess.trans search.userProcess)
      · exact close.userProcess.trans (same.userProcess.trans search.userProcess)

/-! ## The outcome of `sys_close` -/

theorem fdLocal2global_returns {localFd g : Nat}
    (ran : (fdLocal2global localFd).run s = .ok (g, s')) :
    localFd < maxFilesOpenPerProc ∧ s.fdTable localFd = some g ∧ g < maxFileOpen ∧ s = s' := by
  unfold fdLocal2global at ran
  by_cases small : localFd < maxFilesOpenPerProc
  · rw [if_pos small, call_bind_of (call_get_returns.mpr ⟨rfl, rfl⟩)] at ran
    cases entry : s.fdTable localFd with
    | none =>
        simp only [entry] at ran
        exact (call_throw_returns ran).elim
    | some globalFd =>
        simp only [entry] at ran
        obtain ⟨_, _, checks, ran⟩ := call_bind_returns.mp ran
        obtain ⟨inside, rfl⟩ := call_lift_returns.mp checks
        obtain ⟨rfl, rfl⟩ := call_pure_returns.mp ran
        exact ⟨small, rfl, require_eq_ok.mp inside, rfl⟩
  · rw [if_neg small] at ran
    exact (call_throw_returns ran).elim

/-- `file_close`: the inode of a slot is closed, and the slot is free. -/
theorem fileClose_returns {g : Nat} (ran : (fileClose g).run s = .ok ((), s')) :
    ∃ ptr inode closed, (s.fileTable g).fdInode = some ptr ∧ s.inodes ptr = some inode ∧
      (inodeClose ptr).run { s with
        inodes := Function.update s.inodes ptr (some { inode with writeDeny := false }) } =
          .ok ((), closed) ∧
      s' = { closed with
        fileTable := Function.update s.fileTable g { s.fileTable g with fdInode := none } } := by
  unfold fileClose at ran
  rw [call_bind_of (call_get_returns.mpr ⟨rfl, rfl⟩)] at ran
  cases used : (s.fileTable g).fdInode with
  | none =>
      simp only [used] at ran
      exact (call_throw_returns ran).elim
  | some ptr =>
      simp only [used] at ran
      obtain ⟨inode, _, found, ran⟩ := call_bind_returns.mp ran
      obtain ⟨live, rfl⟩ := deref_returns.mp found
      rw [call_bind_of (store_returns.mpr rfl)] at ran
      obtain ⟨_, closed, drops, ran⟩ := call_bind_returns.mp ran
      cases call_modify_returns.mp ran
      have same : closed.fileTable = s.fileTable :=
        (inodeClose_keepsFiles ptr _ _ _ drops).fileTable
      refine ⟨ptr, inode, closed, rfl, live, drops, ?_⟩
      rw [same]

/-- `sys_close`: the slot of a descriptor is closed, and the descriptor is free. -/
theorem sysClose_returns {fd : Int} {done : Bool} (ran : (sysClose fd).run s = .ok (done, s')) :
    fd ≤ 2 ∧ s' = s ∨ ∃ g closed, 2 < fd ∧ fd.toNat < maxFilesOpenPerProc ∧
      s.fdTable fd.toNat = some g ∧ g < maxFileOpen ∧ (fileClose g).run s = .ok ((), closed) ∧
      s' = { closed with fdTable := Function.update s.fdTable fd.toNat none } := by
  unfold sysClose at ran
  by_cases above : 2 < fd
  · rw [if_pos above] at ran
    obtain ⟨g, _, reads, ran⟩ := call_bind_returns.mp ran
    obtain ⟨small, entry, inside, rfl⟩ := fdLocal2global_returns reads
    obtain ⟨_, closed, closes, ran⟩ := call_bind_returns.mp ran
    obtain ⟨_, _, clears, ran⟩ := call_bind_returns.mp ran
    cases call_modify_returns.mp clears
    obtain ⟨-, rfl⟩ := call_pure_returns.mp ran
    have same : closed.fdTable = s.fdTable := by
      obtain ⟨ptr, inode, after, _, _, drops, rfl⟩ := fileClose_returns closes
      exact (inodeClose_keepsFiles ptr _ _ _ drops).fdTable
    exact .inr ⟨g, closed, above, small, entry, inside, closes, by rw [same]⟩
  · rw [if_neg above] at ran
    exact .inl ⟨Int.not_lt.mp above, (call_pure_returns.mp ran).2.symm⟩

end UKernel.Fs
