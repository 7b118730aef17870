import UKernel.Fs.OpenOutcome
import UKernel.Library.Count

/-! # References to inodes

The open inodes are those with references, and the open count of each is the number of its
references (`UKernel.Fs.Opened`). Opening and closing an inode makes and takes one reference, and
the search of a path makes one to the directory that it leaves open. An inode is referred to by
slots of the file table and by directories that are open (`UKernel.Fs.Counted`).
-/

namespace UKernel.Fs

open UKernel.Library

variable {part : Partition} {s s' : FsState part} {refs held : Ptr → Nat}
  {hidden : Ptr → Option Nat} {ptr : Ptr}

/-! ## Open counts -/

/-- The open count of an inode; `hidden` has those of the objects in other address spaces. -/
def FsState.cnts (s : FsState part) (hidden : Ptr → Option Nat) (ptr : Ptr) : Option Nat :=
  ((s.inodes ptr).map Inode.iOpenCnts).or (hidden ptr)

/-- The open counts after an object was written. -/
theorem cnts_store {inode : Inode} {n : Nat}
    (inodes : s'.inodes = Function.update s.inodes ptr (some inode)) (count : inode.iOpenCnts = n)
    (p : Ptr) : s'.cnts hidden p = if p = ptr then some n else s.cnts hidden p := by
  rw [FsState.cnts, inodes]
  by_cases here : p = ptr
  · rw [here, Function.update_self, if_pos rfl, Option.map_some, count]
    rfl
  · rw [Function.update_of_ne here, if_neg here, FsState.cnts]

/-- The open counts after an object was freed. -/
theorem cnts_free (inodes : s'.inodes = Function.update s.inodes ptr none)
    (unknown : hidden ptr = none) (p : Ptr) : s'.cnts hidden p =
      if p = ptr then none else s.cnts hidden p := by
  rw [FsState.cnts, inodes]
  by_cases here : p = ptr
  · rw [here, Function.update_self, if_pos rfl, unknown]
    rfl
  · rw [Function.update_of_ne here, if_neg here, FsState.cnts]

/-- The open inodes are those with references, and their open counts are the numbers of these. -/
structure Opened (s : FsState part) (refs : Ptr → Nat) (hidden : Ptr → Option Nat) : Prop where
  nodup : s.openInodes.Nodup
  fresh : ∀ ptr, s.nextAddr ≤ ptr.addr → s.cnts hidden ptr = none
  secret : ∀ ptr, hidden ptr ≠ none → s.inodes ptr = none
  opened : ∀ ptr, ptr ∈ s.openInodes ↔ 0 < refs ptr
  counts : ∀ ptr ∈ s.openInodes, s.cnts hidden ptr = some (refs ptr)

theorem add_single (p : Ptr) :
    (refs + (Pi.single ptr 1 : Ptr → Nat)) p = refs p + if p = ptr then 1 else 0 := by
  rw [Pi.add_apply, Pi.single_apply]

namespace Opened

theorem visible (opened : Opened s refs hidden) {inode : Inode}
    (live : s.inodes ptr = some inode) : s.cnts hidden ptr = some inode.iOpenCnts ∧
      hidden ptr = none := by
  constructor
  · rw [FsState.cnts, live]
    rfl
  · by_contra known
    rw [opened.secret ptr known] at live
    cases live

/-- An object of which there are references has that many openings. -/
theorem iOpenCnts_eq (opened : Opened s refs hidden) {inode : Inode}
    (live : s.inodes ptr = some inode) (some_ : 0 < refs ptr) : inode.iOpenCnts = refs ptr := by
  have count := opened.counts ptr ((opened.opened ptr).mpr some_)
  rw [(opened.visible live).1] at count
  exact Option.some.inj count

/-- The open counts are the same. -/
theorem transfer (opened : Opened s refs hidden)
    (counts : ∀ ptr, (s'.inodes ptr).map Inode.iOpenCnts = (s.inodes ptr).map Inode.iOpenCnts)
    (nextAddr : s'.nextAddr = s.nextAddr) (openInodes : s'.openInodes = s.openInodes) :
    Opened s' refs hidden := by
  have cnts : ∀ p, s'.cnts hidden p = s.cnts hidden p := fun p => by
    rw [FsState.cnts, counts, FsState.cnts]
  constructor
  · rw [openInodes]
    exact opened.nodup
  · intro p
    rw [nextAddr, cnts]
    exact opened.fresh p
  · intro p known
    have count := counts p
    rw [opened.secret p known, Option.map_none, Option.map_eq_none_iff] at count
    exact count
  · intro p
    rw [openInodes]
    exact opened.opened p
  · intro p
    rw [openInodes, cnts]
    exact opened.counts p

theorem of_sameCounts (opened : Opened s refs hidden) (same : SameCounts s s') :
    Opened s' refs hidden :=
  opened.transfer same.counts same.nextAddr same.openInodes

/-- An address that was not allocated has no open inode. -/
theorem not_opened (opened : Opened s refs hidden) (new : s.nextAddr ≤ ptr.addr) :
    ptr ∉ s.openInodes := by
  intro listed
  have count := opened.counts ptr listed
  rw [opened.fresh ptr new] at count
  cases count

/-- One more opening of an inode that is open. -/
theorem reopen (opened : Opened s refs hidden) {inode : Inode} (live : s.inodes ptr = some inode)
    (listed : ptr ∈ s.openInodes) : Opened (s.reopen ptr inode)
    (refs + Pi.single ptr 1) hidden := by
  have some_ := (opened.opened ptr).mp listed
  have old := opened.iOpenCnts_eq live some_
  have cnts : ∀ p, (s.reopen ptr inode).cnts hidden p =
      if p = ptr then some (inode.iOpenCnts + 1) else s.cnts hidden p := cnts_store rfl rfl
  constructor
  · exact opened.nodup
  · intro p new
    have other : p ≠ ptr := fun same => opened.not_opened new (same ▸ listed)
    rw [cnts, if_neg other]
    exact opened.fresh p new
  · intro p known
    have other : p ≠ ptr := fun same => known (same ▸ (opened.visible live).2)
    exact (Function.update_of_ne other _ _).trans (opened.secret p known)
  · intro p
    rw [add_single]
    by_cases here : p = ptr
    · rw [if_pos here, here]
      exact iff_of_true listed (Nat.succ_pos _)
    · rw [if_neg here]
      exact opened.opened p
  · intro p member
    rw [add_single, cnts]
    by_cases here : p = ptr
    · rw [if_pos here, if_pos here, old, here]
    · rw [if_neg here, if_neg here]
      exact opened.counts p member

/-- An object is made at an address that was not allocated, with one reference. -/
theorem allocate (opened : Opened s refs hidden) {inode : Inode} (new : ptr.addr = s.nextAddr)
    (once : inode.iOpenCnts = 1) : Opened { s with
      nextAddr := s.nextAddr + 1
      inodes := Function.update s.inodes ptr (some inode)
      openInodes := ptr :: s.openInodes } (refs + Pi.single ptr 1) hidden := by
  have unlisted := opened.not_opened (Nat.le_of_eq new.symm)
  have none_ : refs ptr = 0 :=
    Nat.eq_zero_of_not_pos fun some_ => unlisted ((opened.opened ptr).mpr some_)
  have cnts : ∀ p, FsState.cnts { s with
      nextAddr := s.nextAddr + 1
      inodes := Function.update s.inodes ptr (some inode)
      openInodes := ptr :: s.openInodes } hidden p =
      if p = ptr then some inode.iOpenCnts else s.cnts hidden p := cnts_store rfl rfl
  constructor
  · exact List.nodup_cons.mpr ⟨unlisted, opened.nodup⟩
  · intro p above
    have other : p ≠ ptr := by
      intro same
      rw [same, new] at above
      exact absurd above (Nat.not_succ_le_self _)
    rw [cnts, if_neg other]
    exact opened.fresh p (Nat.le_of_succ_le above)
  · intro p known
    have other : p ≠ ptr := by
      intro same
      have count := opened.fresh ptr (Nat.le_of_eq new.symm)
      rw [FsState.cnts, Option.or_eq_none_iff] at count
      exact known (same ▸ count.2)
    exact (Function.update_of_ne other _ _).trans (opened.secret p known)
  · intro p
    rw [add_single, List.mem_cons]
    by_cases here : p = ptr
    · rw [if_pos here]
      exact iff_of_true (.inl here) (Nat.succ_pos _)
    · rw [if_neg here, or_iff_right here]
      exact opened.opened p
  · intro p member
    rw [add_single, cnts]
    by_cases here : p = ptr
    · rw [if_pos here, if_pos here, once, here, none_]
    · rw [if_neg here, if_neg here]
      exact opened.counts p ((List.mem_cons.mp member).resolve_left here)

theorem inodeOpen (opened : Opened s refs hidden) {inodeNo : Word}
    (ran : (inodeOpen inodeNo).run s = .ok (ptr, s')) :
    Opened s' (refs + Pi.single ptr 1) hidden := by
  rcases inodeOpen_returns ran with ⟨listed, inode, live, -, rfl⟩ | ⟨-, -, rfl, rfl⟩
  · exact opened.reopen live listed
  · exact opened.allocate rfl rfl

theorem close (opened : Opened s (refs + Pi.single ptr 1) hidden) {inode : Inode}
    (live : s.inodes ptr = some inode) : Opened (s.close ptr inode) refs hidden := by
  have before : ∀ p, (refs + (Pi.single ptr 1 : Ptr → Nat)) p = refs p + if p = ptr then 1 else 0 :=
    add_single
  have old := opened.iOpenCnts_eq live (by rw [before, if_pos rfl]; exact Nat.succ_pos _)
  rw [before, if_pos rfl] at old
  have listed : ptr ∈ s.openInodes := (opened.opened ptr).mpr (by rw [before, if_pos rfl]; omega)
  have elsewhere : ∀ p, p ≠ ptr → (p ∈ s.openInodes ↔ 0 < refs p) := by
    intro p other
    have iff := opened.opened p
    rwa [before, if_neg other] at iff
  unfold FsState.close
  by_cases last : inode.iOpenCnts = 1
  · rw [if_pos last]
    have unknown := (opened.visible live).2
    have gone : refs ptr = 0 := by omega
    have cnts : ∀ p, FsState.cnts { s with
        openInodes := s.openInodes.erase ptr
        inodes := Function.update s.inodes ptr none } hidden p =
        if p = ptr then none else s.cnts hidden p := cnts_free rfl unknown
    constructor
    · exact opened.nodup.erase ptr
    · intro p new
      rw [cnts]
      split
      · rfl
      · exact opened.fresh p new
    · intro p known
      have other : p ≠ ptr := fun same => known (same ▸ unknown)
      exact (Function.update_of_ne other _ _).trans (opened.secret p known)
    · intro p
      rw [opened.nodup.mem_erase_iff]
      by_cases here : p = ptr
      · rw [here]
        exact iff_of_false (fun both => both.1 rfl) (Nat.not_lt.mpr (Nat.le_of_eq gone))
      · exact (and_iff_right here).trans (elsewhere p here)
    · intro p member
      obtain ⟨other, member⟩ := opened.nodup.mem_erase_iff.mp member
      have count := opened.counts p member
      rw [before, if_neg other] at count
      rw [cnts, if_neg other]
      exact count
  · rw [if_neg last]
    have more : 0 < refs ptr := by omega
    have cnts : ∀ p, FsState.cnts { s with
        inodes := Function.update s.inodes ptr (some { inode with
          iOpenCnts := if inode.iOpenCnts = 0 then 2 ^ 32 - 1
            else inode.iOpenCnts - 1 }) } hidden p =
        if p = ptr then
          some (if inode.iOpenCnts = 0 then 2 ^ 32 - 1 else inode.iOpenCnts - 1)
        else s.cnts hidden p := cnts_store rfl rfl
    constructor
    · exact opened.nodup
    · intro p new
      have other : p ≠ ptr := fun same => opened.not_opened new (same ▸ listed)
      rw [cnts, if_neg other]
      exact opened.fresh p new
    · intro p known
      have other : p ≠ ptr := fun same => known (same ▸ (opened.visible live).2)
      exact (Function.update_of_ne other _ _).trans (opened.secret p known)
    · intro p
      by_cases here : p = ptr
      · rw [here]
        exact iff_of_true listed more
      · exact elsewhere p here
    · intro p member
      rw [cnts]
      by_cases here : p = ptr
      · rw [if_pos here, if_neg (by omega), here]
        exact congrArg some (by omega)
      · have count := opened.counts p member
        rw [before, if_neg here] at count
        rw [if_neg here]
        exact count

theorem inodeClose (opened : Opened s (refs + Pi.single ptr 1) hidden)
    (ran : (inodeClose ptr).run s = .ok ((), s')) : Opened s' refs hidden := by
  obtain ⟨inode, live, -, rfl⟩ := inodeClose_returns ran
  exact opened.close live

/-- The object that is freed was not there. -/
theorem discard (opened : Opened s refs hidden) (table : Nat → File) :
    Opened (s.discard table) refs hidden := by
  have new := opened.fresh s.newPtr (Nat.le_of_eq (newPtr_addr s).symm)
  rw [FsState.cnts, Option.or_eq_none_iff, Option.map_eq_none_iff] at new
  have bumped : Opened { s with nextAddr := s.nextAddr + 1 } refs hidden :=
    ⟨opened.nodup, fun p above => opened.fresh p (Nat.le_of_succ_le above), opened.secret,
      opened.opened, opened.counts⟩
  refine bumped.transfer (fun p => ?_) rfl rfl
  by_cases here : p = s.newPtr
  · rw [here, new.1]
    exact congrArg _ (Function.update_self ..)
  · exact congrArg _ (Function.update_of_ne here ..)

end Opened

/-- Counting references is a property of the held references. -/
theorem opened_discipline (hidden : Ptr → Option Nat) :
    QuietDiscipline fun refs (s : FsState part) => Opened s refs hidden where
  inodeOpen _ _ _ _ _ opened ran := opened.inodeOpen ran
  inodeClose _ _ _ _ _ opened ran := opened.inodeClose ran
  quiet _ _ _ opened same := opened.of_sameCounts same

/-! ## References -/

/-- The references to an inode: the slots of the file table, `root_dir`, and `held` from the
other directories that are open. -/
def FsState.references (s : FsState part) (held : Ptr → Nat) (ptr : Ptr) : Nat :=
  countOf (Finset.range maxFileOpen) (fun g => (s.fileTable g).fdInode) (some ptr) +
    (if s.rootDir = ptr then 1 else 0) + held ptr

theorem references_congr (same : s'.fileTable = s.fileTable) (root : s'.rootDir = s.rootDir) :
    s'.references held = s.references held := by
  funext p
  rw [FsState.references, same, root, FsState.references]

theorem references_add (more : Ptr → Nat) :
    s.references (held + more) = s.references held + more := by
  funext p
  rw [FsState.references, Pi.add_apply, Pi.add_apply, FsState.references, ← Nat.add_assoc]

/-- A slot of the file table is rewritten. -/
theorem references_setFile (s s' : FsState part) (held : Ptr → Nat) {g : Nat} {file : File}
    (small : g < maxFileOpen)
    (table : s'.fileTable = Function.update s.fileTable g file) (root : s'.rootDir = s.rootDir)
    (p : Ptr) :
    s'.references held p + (if (s.fileTable g).fdInode = some p then 1 else 0) =
      s.references held p + if file.fdInode = some p then 1 else 0 := by
  have inodes : (fun g' => (s'.fileTable g').fdInode) =
      Function.update (fun g' => (s.fileTable g').fdInode) g file.fdInode := by
    rw [table]
    exact Function.comp_update File.fdInode s.fileTable g file
  have count := count_update (f := fun g' => (s.fileTable g').fdInode)
    (Finset.mem_range.mpr small) file.fdInode (some p)
  rw [FsState.references, inodes, root, FsState.references]
  omega

/-- The open count of each inode is the number of references to it. -/
abbrev Counted (s : FsState part) (held : Ptr → Nat) (hidden : Ptr → Option Nat) : Prop :=
  Opened s (s.references held) hidden

namespace Counted

/-- The open counts and the numbers of references are the same. -/
theorem transfer (counted : Counted s held hidden) {held' : Ptr → Nat}
    (counts : ∀ ptr, (s'.inodes ptr).map Inode.iOpenCnts = (s.inodes ptr).map Inode.iOpenCnts)
    (nextAddr : s'.nextAddr = s.nextAddr) (openInodes : s'.openInodes = s.openInodes)
    (references : ∀ p, s'.references held' p = s.references held p) :
    Counted s' held' hidden := by
  have same : s'.references held' = s.references held := funext references
  unfold Counted
  rw [same]
  exact Opened.transfer counted counts nextAddr openInodes

theorem of_sameCounts (counted : Counted s held hidden) (same : SameCounts s s') :
    Counted s' held hidden :=
  counted.transfer same.counts same.nextAddr same.openInodes
    (congrFun (references_congr same.fileTable same.rootDir))

/-- One more reference is held from elsewhere. -/
theorem opened_add {more : Ptr → Nat} :
    Counted s (held + more) hidden ↔ Opened s (s.references held + more) hidden := by
  unfold Counted
  rw [references_add]

/-- A call that opened or closed inodes left the references in the file table alone. -/
theorem of_opened (same : SameFiles s s') {more : Ptr → Nat}
    (opened : Opened s' (s.references held + more) hidden) : Counted s' (held + more) hidden := by
  rw [opened_add, references_congr same.fileTable same.rootDir]
  exact opened

theorem inodeOpen (counted : Counted s held hidden) {inodeNo : Word}
    (ran : (inodeOpen inodeNo).run s = .ok (ptr, s')) :
    Counted s' (held + Pi.single ptr 1) hidden :=
  of_opened (inodeOpen_keepsFiles _ _ _ _ ran) (Opened.inodeOpen counted ran)

theorem close (counted : Counted s (held + Pi.single ptr 1) hidden) {inode : Inode}
    (live : s.inodes ptr = some inode) : Counted (s.close ptr inode) held hidden := by
  have same := (close_opensOnly live).files
  unfold Counted
  rw [references_congr same.fileTable same.rootDir]
  exact (opened_add.mp counted).close live

theorem inodeClose (counted : Counted s (held + Pi.single ptr 1) hidden)
    (ran : (inodeClose ptr).run s = .ok ((), s')) : Counted s' held hidden := by
  obtain ⟨inode, live, -, rfl⟩ := inodeClose_returns ran
  exact counted.close live

/-- A new inode object, with one reference. -/
theorem create (counted : Counted s held hidden) :
    Counted s.create (held + Pi.single s.newPtr 1) hidden := by
  rw [opened_add]
  exact counted.allocate (newPtr_addr s) rfl

/-! ### Slots of the file table -/

/-- A slot is filled with a reference that was held. -/
theorem fill {g : Nat} {flag : Byte} {fdTable : Nat → Option Nat}
    (counted : Counted s (held + Pi.single ptr 1) hidden) (small : g < maxFileOpen)
    (free : (s.fileTable g).fdInode = none) : Counted (s.fill g flag ptr fdTable) held hidden := by
  apply counted.transfer
  · exact fun _ => rfl
  · rfl
  · rfl
  · intro p
    have moved := references_setFile s (s.fill g flag ptr fdTable) held small rfl rfl p
    rw [free, if_neg (Option.some_ne_none p).symm, Nat.add_zero] at moved
    rw [moved, references_add]
    congr 1
    by_cases here : p = ptr
    · rw [here]
      simp
    · simp [here, Ne.symm here]

/-- A slot is emptied, and its reference is held. -/
theorem empty {g : Nat} (file : File) (counted : Counted s held hidden) (small : g < maxFileOpen)
    (used : (s.fileTable g).fdInode = some ptr) (none_ : file.fdInode = none) :
    Counted { s with fileTable := Function.update s.fileTable g file }
      (held + Pi.single ptr 1) hidden := by
  apply counted.transfer
  · exact fun _ => rfl
  · rfl
  · rfl
  · intro p
    have moved := references_setFile s
      { s with fileTable := Function.update s.fileTable g file } held small rfl rfl p
    rw [none_, if_neg (Option.some_ne_none p).symm, Nat.add_zero, used] at moved
    rw [references_add, ← moved]
    by_cases here : p = ptr
    · rw [here]
      simp
    · simp [here, Ne.symm here]

theorem close_setFiles {table : Nat → File} {inode : Inode} :
    { s.close ptr inode with fileTable := table } =
      { s with fileTable := table }.close ptr inode := by
  unfold FsState.close
  split
  · rfl
  · rfl

theorem fileClose {g : Nat} (counted : Counted s held hidden) (small : g < maxFileOpen)
    (ran : (fileClose g).run s = .ok ((), s')) : Counted s' held hidden := by
  obtain ⟨ptr, inode, closed, used, live, closes, rfl⟩ := fileClose_returns ran
  have stored : SameCounts s { s with
      inodes := Function.update s.inodes ptr (some { inode with writeDeny := false }) } := by
    have stores : Counting ptr inode.iOpenCnts
      (store ptr { inode with writeDeny := false } : FsCall part Unit) := .store rfl
    apply stores s () _ (store_returns.mpr rfl)
    rw [live, Option.map_some]
  have emptied := (counted.of_sameCounts stored).empty
    { s.fileTable g with fdInode := none } small used rfl
  obtain ⟨object, found, -, rfl⟩ := inodeClose_returns closes
  rw [close_setFiles]
  exact emptied.close found

/-- The slots that are cleared were free. -/
theorem discard (counted : Counted s held hidden) {table : Nat → File}
    (used : SameUsed s.fileTable table) : Counted (s.discard table) held hidden := by
  have same : (s.discard table).references held = s.references held := by
    funext p
    change countOf _ (fun g => (table g).fdInode) _ + _ + _ = countOf _ _ _ + _ + _
    congr 2
    apply countOf_congr
    intro g _
    rcases used g with same | ⟨free, free'⟩
    · rw [same]
    · rw [free, free']
  unfold Counted
  rw [same]
  exact Opened.discard counted table

end Counted

/-- Counting references from the file table is a property of the references held elsewhere. -/
theorem counted_discipline (hidden : Ptr → Option Nat) :
    QuietDiscipline fun held (s : FsState part) => Counted s held hidden where
  inodeOpen _ _ _ _ _ counted ran := counted.inodeOpen ran
  inodeClose _ _ _ _ _ counted ran := counted.inodeClose ran
  quiet _ _ _ counted same := counted.of_sameCounts same

end UKernel.Fs
