import UKernel.Fs.OpenOutcome

/-! # One writer at a time

`write_deny` is set by `file_open` for a writer only, cleared by every closing, and not looked at
by `file_create` or for the flags `O_WRONLY | O_RDWR`; a refused writer keeps its slot. So an
inode has at most one slot that is open for writing in every run in which no file is opened for
writing while a slot is (`UKernel.Fs.at_most_one_writer`), and two otherwise.
-/

namespace UKernel.Fs

open UKernel.Library

variable {part : Partition} {s s' : FsState part} {tasks : Tasks part}

/-! ## Writers -/

/-- `fd_flag` contains `O_WRONLY` or `O_RDWR`. -/
def Writes (fdFlag : Word) : Prop :=
  fdFlag &&& 3 ≠ 0

instance (fdFlag : Word) : Decidable (Writes fdFlag) :=
  inferInstanceAs (Decidable (fdFlag &&& 3 ≠ 0))

/-- A slot refers to an inode and is open for writing. -/
def IsWriter (fileTable : Nat → File) (ptr : Ptr) (g : Nat) : Prop :=
  g < maxFileOpen ∧ (fileTable g).fdInode = some ptr ∧ Writes (fileTable g).fdFlag

instance (fileTable : Nat → File) (ptr : Ptr) (g : Nat) : Decidable (IsWriter fileTable ptr g) :=
  inferInstanceAs (Decidable (_ ∧ _))

/-- For every inode at most one slot is open for writing. -/
def OneWriter (fileTable : Nat → File) : Prop :=
  ∀ ptr g g', IsWriter fileTable ptr g → IsWriter fileTable ptr g' → g = g'

/-- The open inode that `inode_open` finds for a number. -/
def FsState.findInode (s : FsState part) (inodeNo : Word) : Option Ptr :=
  s.openInodes.find? fun ptr => (s.inodes ptr).map Inode.iNo = some inodeNo

/-- `sys_open` opens for writing a file that exists, while a slot of the file is open for
writing and another slot is free. -/
def SecondWriter (s : FsState part) (junk : Word) (pathname : List Byte) (flags : Byte) : Prop :=
  ∃ inodeNo record searched ptr g,
    OpensExisting s junk pathname flags inodeNo record searched ∧
    Writes (flags.setWidth 32) ∧ s.freeSlot ≠ none ∧
    searched.findInode inodeNo = some ptr ∧ IsWriter s.fileTable ptr g

/-- The calls of the exclusion of writers. -/
def OpensOrCloses : FsOp → Prop
  | .openFile _ _ => True
  | .close _ => True
  | _ => False

/-- The call does not open for writing a file that is open for writing. -/
def NoSecondWriter (tasks : Tasks part) (label : FsLabel) : Prop :=
  ∀ pathname flags, label.op = .openFile pathname flags →
    ¬ SecondWriter (tasks.view label.pid) label.junk pathname.chars flags

/-! ## The invariant -/

/-- At most one writer, and no slot refers to an address that was not allocated yet. -/
structure Exclusive (s : FsState part) : Prop where
  one : OneWriter s.fileTable
  slots : ∀ g < maxFileOpen, ∀ ptr, (s.fileTable g).fdInode = some ptr → ptr.addr < s.nextAddr
  listed : ∀ ptr ∈ s.openInodes, ptr.addr < s.nextAddr

theorem Exclusive.of_sameFiles (exclusive : Exclusive s) (same : SameFiles s s') :
    Exclusive s' where
  one := same.fileTable ▸ exclusive.one
  slots g small ptr used := by
    rw [same.fileTable] at used
    exact Nat.lt_of_lt_of_le (exclusive.slots g small ptr used) same.nextAddr
  listed ptr member := by
    rcases same.opened ptr member with before | new
    · exact Nat.lt_of_lt_of_le (exclusive.listed ptr before) same.nextAddr
    · exact new.2

theorem IsWriter.of_sameUsed {table table' : Nat → File} {ptr : Ptr} {g : Nat}
    (used : SameUsed table table') (writer : IsWriter table' ptr g) : IsWriter table ptr g := by
  obtain ⟨small, refers, writes⟩ := writer
  rcases used g with same | ⟨free, -⟩
  · rw [same] at refers writes
    exact ⟨small, refers, writes⟩
  · rw [free] at refers
    cases refers

/-- Clearing free slots makes no writer. -/
theorem Exclusive.discard (exclusive : Exclusive s) {table : Nat → File}
    (used : SameUsed s.fileTable table) : Exclusive (s.discard table) where
  one ptr g g' writer writer' :=
    exclusive.one ptr g g' (writer.of_sameUsed used) (writer'.of_sameUsed used)
  slots g small ptr refers := by
    rcases used g with same | ⟨free, -⟩
    · rw [fileTable_discard, same] at refers
      exact Nat.lt_succ_of_lt (exclusive.slots g small ptr refers)
    · rw [fileTable_discard, free] at refers
      cases refers
  listed ptr member := Nat.lt_succ_of_lt (exclusive.listed ptr member)

/-- A new inode is referred to by no slot. -/
theorem Exclusive.create (exclusive : Exclusive s) : Exclusive s.create where
  one := exclusive.one
  slots g small ptr refers := Nat.lt_succ_of_lt (exclusive.slots g small ptr refers)
  listed ptr member := by
    rcases List.mem_cons.mp member with rfl | before
    · rw [newPtr_addr]
      exact Nat.lt_succ_self _
    · exact Nat.lt_succ_of_lt (exclusive.listed ptr before)

/-- A slot is filled for an inode that has no writer. -/
theorem Exclusive.fill {g : Nat} {flag : Byte} {ptr : Ptr} {fdTable : Nat → Option Nat}
    (exclusive : Exclusive s) (old : ptr.addr < s.nextAddr)
    (alone : Writes (flag.setWidth 32) → ∀ g', ¬ IsWriter s.fileTable ptr g') :
    Exclusive (s.fill g flag ptr fdTable) := by
  have elsewhere : ∀ p g', g' ≠ g → IsWriter (s.fill g flag ptr fdTable).fileTable p g' →
      IsWriter s.fileTable p g' := by
    intro p g' apart writer
    rw [IsWriter, fileTable_fill, Function.update_of_ne apart] at writer
    exact writer
  have here : ∀ p, IsWriter (s.fill g flag ptr fdTable).fileTable p g →
      p = ptr ∧ Writes (flag.setWidth 32) := by
    intro p writer
    rw [IsWriter, fileTable_fill, Function.update_self] at writer
    exact ⟨(Option.some.inj writer.2.1).symm, writer.2.2⟩
  constructor
  · intro p g₁ g₂ first second
    by_cases at₁ : g₁ = g
    · by_cases at₂ : g₂ = g
      · rw [at₁, at₂]
      · obtain ⟨rfl, writes⟩ := here p (at₁ ▸ first)
        exact absurd (elsewhere p g₂ at₂ second) (alone writes g₂)
    · by_cases at₂ : g₂ = g
      · obtain ⟨rfl, writes⟩ := here p (at₂ ▸ second)
        exact absurd (elsewhere p g₁ at₁ first) (alone writes g₁)
      · exact exclusive.one p g₁ g₂ (elsewhere p g₁ at₁ first) (elsewhere p g₂ at₂ second)
  · intro g' small p refers
    by_cases at_g : g' = g
    · rw [at_g, fileTable_fill, Function.update_self] at refers
      cases refers
      exact old
    · rw [fileTable_fill, Function.update_of_ne at_g] at refers
      exact exclusive.slots g' small p refers
  · exact exclusive.listed

/-! ## Opening and closing -/

theorem findOpen_find {inodeNo : Word} {elems : List Ptr} {found : Option Ptr}
    (ran : (findOpen inodeNo elems).run s = .ok (found, s')) :
    found = elems.find? fun ptr => (s.inodes ptr).map Inode.iNo = some inodeNo := by
  induction elems with
  | nil => exact (call_pure_returns.mp ran).1.symm
  | cons elem elems ih =>
      obtain ⟨obj, middle, reads, ran⟩ := call_bind_returns.mp ran
      obtain ⟨live, rfl⟩ := deref_returns.mp reads
      by_cases same : obj.iNo = inodeNo
      · rw [if_pos same] at ran
        rw [List.find?_cons_of_pos (by simp [live, same])]
        exact (call_pure_returns.mp ran).1.symm
      · rw [if_neg same] at ran
        rw [List.find?_cons_of_neg (by simp [live, same])]
        exact ih ran

/-- `inode_open` returns the open inode with the number, or a new one. -/
theorem inodeOpen_find {inodeNo : Word} {ptr : Ptr}
    (ran : (inodeOpen inodeNo).run s = .ok (ptr, s')) :
    s.findInode inodeNo = some ptr ∨ ptr.addr = s.nextAddr ∧ s'.nextAddr = s.nextAddr + 1 := by
  have whole := ran
  rw [inodeOpen, call_bind_of (call_get_returns.mpr ⟨rfl, rfl⟩)] at ran
  obtain ⟨found, middle, searched, ran⟩ := call_bind_returns.mp ran
  have first := findOpen_find searched
  cases found with
  | none =>
      obtain ⟨rfl, closed⟩ := findOpen_none.mp searched
      obtain ⟨_, _, lifted, -⟩ := call_bind_returns.mp ran
      obtain ⟨small, -⟩ := inodeLocate_returns (call_lift_returns.mp lifted).1
      rw [inodeOpen_of_notOpen small closed] at whole
      cases whole
      exact .inr ⟨rfl, rfl⟩
  | some elem =>
      obtain ⟨_, _, _, ran⟩ := call_bind_returns.mp ran
      obtain ⟨_, _, _, ran⟩ := call_bind_returns.mp ran
      obtain ⟨rfl, -⟩ := call_pure_returns.mp ran
      exact .inl first.symm

theorem Exclusive.dirClose (exclusive : Exclusive s) {dir : Dir}
    (ran : (dirClose dir).run s = .ok ((), s')) : Exclusive s' :=
  exclusive.of_sameFiles (dirClose_keepsFiles dir _ _ _ ran)

/-- **Opening.** `sys_open` makes no second writer, unless it opens a file that has one. -/
theorem Exclusive.sysOpen (exclusive : Exclusive s) {junk : Word} {pathname : List Byte}
    {flags : Byte} {fd : Option Nat} (alone : ¬ SecondWriter s junk pathname flags)
    (ran : (sysOpen junk pathname flags).run s = .ok (fd, s')) : Exclusive s' := by
  cases sysOpen_returns ran with
  | slash => exact exclusive
  | refused search closes =>
      exact (exclusive.of_sameFiles (searchFile_keepsFiles _ _ _ _ _ search)).dirClose closes
  | existing opens ran =>
      have same := searchFile_keepsFiles _ _ _ _ _ opens.search
      have searched := exclusive.of_sameFiles same
      rcases fileOpen_returns ran with ⟨_, _, rfl⟩ | ⟨g, ptr, opened, free, found, _, counts⟩
      · exact searched
      · have files := inodeOpen_keepsFiles _ _ _ _ found
        refine Exclusive.of_sameFiles ?_ counts.sameFiles
        have free' : s.freeSlot ≠ none := by
          rw [FsState.freeSlot, same.fileTable] at free
          rw [FsState.freeSlot, free]
          exact Option.some_ne_none g
        rcases inodeOpen_find found with first | ⟨new, next⟩
        · apply (searched.of_sameFiles files).fill
          · have listed := searched.listed ptr (List.mem_of_find?_eq_some first)
            exact Nat.lt_of_lt_of_le listed files.nextAddr
          · intro writes g' writer
            rw [files.fileTable, same.fileTable] at writer
            exact alone ⟨_, _, _, ptr, g', opens, writes, free', first, writer⟩
        · apply (searched.of_sameFiles files).fill
          · omega
          · intro _ g' writer
            rw [files.fileTable] at writer
            have old := searched.slots g' writer.1 ptr writer.2.1
            omega
  | created new creates closes =>
      have searched := exclusive.of_sameFiles (searchFile_keepsFiles _ _ _ _ _ new.search)
      refine Exclusive.dirClose ?_ closes
      rcases fileCreate_returns creates with ⟨_, same | ⟨table, used, same⟩⟩ | ⟨g, _, _, same⟩
      · exact searched.of_sameFiles same.sameFiles
      · exact (searched.discard used).of_sameFiles same.sameFiles
      · refine Exclusive.of_sameFiles ?_ same.sameFiles
        apply searched.create.fill
        · rw [newPtr_addr]
          exact Nat.lt_succ_self _
        · intro _ g' writer
          have old := searched.slots g' writer.1 _ writer.2.1
          rw [newPtr_addr] at old
          exact Nat.lt_irrefl _ old

/-- `sys_close` makes no writer. -/
theorem Exclusive.sysClose (exclusive : Exclusive s) {fd : Int} {done : Bool}
    (ran : (sysClose fd).run s = .ok (done, s')) : Exclusive s' := by
  rcases sysClose_returns ran with ⟨_, rfl⟩ | ⟨g, closed, _, _, _, _, closes, rfl⟩
  · exact exclusive
  · obtain ⟨ptr, inode, after, _, _, drops, rfl⟩ := fileClose_returns closes
    have files := inodeClose_keepsFiles ptr _ _ _ drops
    have emptied : ∀ g' p, ((Function.update s.fileTable g
        { s.fileTable g with fdInode := none }) g').fdInode = some p →
        g' ≠ g ∧ (s.fileTable g').fdInode = some p := by
      intro g' p refers
      by_cases here : g' = g
      · rw [here, Function.update_self] at refers
        cases refers
      · rw [Function.update_of_ne here] at refers
        exact ⟨here, refers⟩
    have writers : ∀ p g', IsWriter (Function.update s.fileTable g
        { s.fileTable g with fdInode := none }) p g' → IsWriter s.fileTable p g' := by
      intro p g' writer
      obtain ⟨apart, refers⟩ := emptied g' p writer.2.1
      refine ⟨writer.1, refers, ?_⟩
      have writes := writer.2.2
      rwa [Function.update_of_ne apart] at writes
    constructor
    · intro p g₁ g₂ first second
      exact exclusive.one p g₁ g₂ (writers p g₁ first) (writers p g₂ second)
    · intro g' small p refers
      exact Nat.lt_of_lt_of_le (exclusive.slots g' small p (emptied g' p refers).2)
        files.nextAddr
    · intro p member
      rcases files.opened p member with before | new
      · exact Nat.lt_of_lt_of_le (exclusive.listed p before) files.nextAddr
      · exact new.2

/-! ## Runs -/

theorem Mounted.exclusive (mounted : Mounted tasks) : Exclusive tasks.fs where
  one ptr g g' writer _ := by
    have free := mounted.noFile g writer.1
    rw [writer.2.1] at free
    cases free
  slots g small ptr refers := by
    rw [mounted.noFile g small] at refers
    cases refers
  listed ptr member := by
    obtain ⟨addr, obj, root, below, -⟩ := mounted.root
    rw [mounted.openInodes, List.mem_singleton] at member
    rw [member, root]
    exact below

/-- A step that makes no second writer keeps the invariant. -/
theorem exclusive_step {label : FsLabel} {next : Tasks part} (exclusive : Exclusive tasks.fs)
    (alone : NoSecondWriter tasks label) (admitted : OpensOrCloses label.op)
    (stepped : exec tasks label = some next) : Exclusive next.fs := by
  obtain ⟨pid, junk, op⟩ := label
  have seen : Exclusive (tasks.view pid) := ⟨exclusive.one, exclusive.slots, exclusive.listed⟩
  cases op with
  | openFile pathname flags =>
      obtain ⟨-, fd, s, ran, rfl⟩ := exec_openFile stepped
      have after := seen.sysOpen (alone pathname flags rfl) ran
      cases fd with
      | none => exact after
      | some fd => exact after
  | close fd =>
      obtain ⟨-, done, s, ran, rfl⟩ := exec_close stepped
      exact seen.sysClose ran
  | _ => exact admitted.elim

/-- **One writer.** In every run of `sys_open` and `sys_close` in which no file that is open for
writing is opened for writing, at most one slot of an inode is open for writing. -/
theorem at_most_one_writer
    (reachable : ((tasksUsing part OpensOrCloses).under NoSecondWriter).Reachable tasks) :
    OneWriter tasks.fs.fileTable := by
  have inv : Exclusive tasks.fs := by
    induction reachable with
    | initial mounted => exact Mounted.exclusive mounted
    | step label _ taken ih => exact exclusive_step ih taken.1 taken.2.1 taken.2.2
  exact inv.one

/-- A file is made, and a slot is open for writing. -/
theorem at_most_one_writer_created : ∃ tasks : Tasks somePartition,
    IsWriter tasks.fs.fileTable (.kernel 1) 3 ∧ OneWriter tasks.fs.fileTable := by
  have found : ((boot {0} fun _ => false).bind fun tasks =>
      exec tasks ⟨0, 0, .openFile pathA (oCreat ||| oRdwr)⟩).any
        (fun (tasks : Tasks somePartition) => decide (IsWriter tasks.fs.fileTable (.kernel 1) 3)) =
          true := by
    decide +kernel
  obtain ⟨tasks, ran, writer⟩ := Option.any_eq_true _ _ |>.mp found
  obtain ⟨booted, boots, stepped⟩ := Option.bind_eq_some_iff.mp ran
  have mounted := boot_mounted boots
  have start : ((tasksUsing somePartition OpensOrCloses).under NoSecondWriter).Reachable booted :=
    .initial mounted
  refine ⟨tasks, of_decide_eq_true writer, at_most_one_writer (start.step
    ⟨0, 0, .openFile pathA (oCreat ||| oRdwr)⟩ ⟨?_, trivial, stepped⟩)⟩
  intro pathname flags _ second
  obtain ⟨_, _, _, ptr, g, _, _, _, _, small, refers, _⟩ := second
  have free := mounted.noFile g small
  rw [show (booted.view 0).fileTable = booted.fs.fileTable from rfl, free] at refers
  cases refers

/-- A file is made and opened, with `O_CREAT | O_RDWR`, and then opened with `O_RDWR`. -/
def openTwice : List FsLabel :=
  [⟨0, 0, .openFile pathA (oCreat ||| oRdwr)⟩, ⟨0, 0, .openFile pathA oRdwr⟩]

/-- The file has two slots that are open for writing: the slot that `file_create` filled did not
set `write_deny`. -/
theorem two_writers : ¬ ∀ tasks : Tasks somePartition,
    (tasksUsing somePartition OpensOrCloses).Reachable tasks → OneWriter tasks.fs.fileTable := by
  intro all
  have found : (runFrom {0} (fun _ => false) openTwice).any (fun (tasks : Tasks somePartition) =>
      decide (IsWriter tasks.fs.fileTable (.kernel 1) 3 ∧
        IsWriter tasks.fs.fileTable (.kernel 1) 4)) = true := by
    decide +kernel
  obtain ⟨tasks, ran, writers⟩ := Option.any_eq_true _ _ |>.mp found
  have reachable : (tasksUsing somePartition OpensOrCloses).Reachable tasks := by
    apply reachable_runFrom _ ran
    intro label member
    simp only [openTwice, List.mem_cons, List.not_mem_nil, or_false] at member
    rcases member with rfl | rfl
    · exact trivial
    · exact trivial
  obtain ⟨first, second⟩ := of_decide_eq_true writers
  have same := all tasks reachable _ 3 4 first second
  cases same

end UKernel.Fs
