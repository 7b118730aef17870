import UKernel.Fs.WriteExclusion

/-! # Descriptors that share a slot

`sys_fork` copies the descriptors of a process, so that several descriptors refer to one slot of
the file table, and `sys_close` and `sys_exit` empty the slot whoever else uses it. A descriptor
keeps the inode that was opened for it in every run in which no slot is closed that another
descriptor refers to (`UKernel.Fs.descriptors_keep_inodes`).
-/

namespace UKernel.Fs

open UKernel.Library

variable {part : Partition} {s s' : FsState part} {tasks next : Tasks part} {pid : Pid}

/-! ## Descriptors -/

/-- A live process has a descriptor of a slot of the file table. -/
def Refers (tasks : Tasks part) (pid : Pid) (fd g : Nat) : Prop :=
  pid ∈ tasks.live ∧ 3 ≤ fd ∧ (tasks.task pid).fdTable fd = some g

instance (tasks : Tasks part) (pid : Pid) (fd g : Nat) : Decidable (Refers tasks pid fd g) :=
  inferInstanceAs (Decidable (_ ∧ _))

/-- The slot of every descriptor holds the inode that was opened for the descriptor. -/
def KeepInodes (tasks : Tasks part) : Prop :=
  ∀ pid fd g, Refers tasks pid fd g →
    ∃ ptr, (tasks.fs.fileTable g).fdInode = some ptr ∧ tasks.opened pid fd = some ptr

/-- The calls that open, close and copy descriptors. -/
def MovesFds : FsOp → Prop
  | .openFile _ _ => True
  | .close _ => True
  | .fork _ => True
  | .exit => True
  | _ => False

/-- The call closes no slot to which a descriptor refers that stays. -/
def Unshared (tasks : Tasks part) (label : FsLabel) : Prop :=
  (∀ fd : Nat, label.op = .close fd → ∀ g, Refers tasks label.pid fd g →
    ∀ pid' fd', Refers tasks pid' fd' g → pid' = label.pid ∧ fd' = fd) ∧
  (label.op = .exit → ∀ fd g, Refers tasks label.pid fd g →
    ∀ pid' fd', Refers tasks pid' fd' g → pid' = label.pid)

/-! ## What the calls do to the two tables -/

/-- `sys_open` fills a free slot and installs it, or leaves the slots in use and the descriptors
as they are. -/
theorem sysOpen_tables {junk : Word} {pathname : List Byte} {flags : Byte} {fd : Option Nat}
    (ran : (sysOpen junk pathname flags).run s = .ok (fd, s')) :
    fd = none ∧ SameUsed s.fileTable s'.fileTable ∧ s'.fdTable = s.fdTable ∨
    ∃ g file ptr, s.freeSlot = some g ∧ Installed s s' g fd ∧
      s'.fileTable = Function.update s.fileTable g file ∧ file.fdInode = some ptr := by
  cases sysOpen_returns ran with
  | slash => exact .inl ⟨rfl, fun g => .inl rfl, rfl⟩
  | refused search closes =>
      have same := (searchFile_keepsFiles _ _ _ _ _ search).trans
        (dirClose_keepsFiles _ _ _ _ closes)
      exact .inl ⟨rfl, fun g => .inl (by rw [same.fileTable]), same.fdTable⟩
  | existing opens ran =>
      have same := searchFile_keepsFiles _ _ _ _ _ opens.search
      rcases fileOpen_returns ran with ⟨_, rfl, rfl⟩ | ⟨g, ptr, opened, free, found, fds, counts⟩
      · exact .inl ⟨rfl, fun g => .inl (by rw [same.fileTable]), same.fdTable⟩
      · have files := same.trans (inodeOpen_keepsFiles _ _ _ _ found)
        rw [FsState.freeSlot, same.fileTable] at free
        rw [Installed, same.fdTable] at fds
        refine .inr ⟨g, { fdPos := 0, fdFlag := flags.setWidth 32, fdInode := some ptr }, ptr, free,
          fds, ?_, rfl⟩
        rw [counts.fileTable, fileTable_fill, files.fileTable]
  | @created _ searched _ _ _ _ new creates closes =>
      have same := searchFile_keepsFiles _ _ _ _ _ new.search
      have after := dirClose_keepsFiles _ _ _ _ closes
      rcases fileCreate_returns creates with
        ⟨rfl, counts | ⟨table, used, counts⟩⟩ | ⟨g, free, fds, counts⟩
      · have files := (same.trans counts.sameFiles).trans after
        exact .inl ⟨rfl, fun g => .inl (by rw [files.fileTable]), files.fdTable⟩
      · refine .inl ⟨rfl, ?_, after.fdTable.trans (counts.fdTable.trans same.fdTable)⟩
        rw [after.fileTable, counts.fileTable, fileTable_discard, ← same.fileTable]
        exact used
      · rw [FsState.freeSlot, same.fileTable] at free
        rw [Installed, same.fdTable, ← after.fdTable] at fds
        refine .inr ⟨g,
          { fdPos := 0, fdFlag := flags.setWidth 32, fdInode := some searched.newPtr }, _,
          free, fds, ?_, rfl⟩
        rw [after.fileTable, counts.fileTable, fileTable_fill, ← same.fileTable]
        rfl

/-- `sys_close` empties the slot of the descriptor. -/
theorem sysClose_tables {fd : Int} {done : Bool} (ran : (sysClose fd).run s = .ok (done, s')) :
    s' = s ∨ ∃ g, 2 < fd ∧ s.fdTable fd.toNat = some g ∧
      s'.fileTable = Function.update s.fileTable g { s.fileTable g with fdInode := none } ∧
      s'.fdTable = Function.update s.fdTable fd.toNat none := by
  rcases sysClose_returns ran with ⟨_, rfl⟩ | ⟨g, closed, above, _, entry, _, closes, rfl⟩
  · exact .inl rfl
  · obtain ⟨ptr, inode, after, _, _, _, rfl⟩ := fileClose_returns closes
    exact .inr ⟨g, above, entry, rfl, rfl⟩

/-- `release_prog_resource` empties no slot but those of the process. -/
theorem closeFds_slots {fds : List Nat} {g : Nat} (ran : (closeFds fds).run s = .ok ((), s'))
    (apart : ∀ fd ∈ fds, 3 ≤ fd → s.fdTable fd ≠ some g) : s'.fileTable g = s.fileTable g := by
  induction fds generalizing s with
  | nil =>
      obtain ⟨-, rfl⟩ := call_pure_returns.mp ran
      rfl
  | cons fd fds ih =>
      obtain ⟨first, rest⟩ := List.forall_mem_cons.mp apart
      rw [closeFds, call_bind_of (call_get_returns.mpr ⟨rfl, rfl⟩)] at ran
      cases entry : s.fdTable fd with
      | none =>
          simp only [entry] at ran
          exact ih ran rest
      | some globalFd =>
          simp only [entry] at ran
          obtain ⟨_, closed, closes, later⟩ := call_bind_returns.mp ran
          rcases sysClose_tables closes with rfl | ⟨g', above, entry', files, fdTable⟩
          · exact ih later rest
          · rw [Int.toNat_natCast] at entry' fdTable
            have other : g ≠ g' := fun same => first (by omega) (same ▸ entry')
            rw [ih later, files, Function.update_of_ne other]
            intro fd' member low
            rw [fdTable]
            by_cases here : fd' = fd
            · rw [here, Function.update_self]
              exact Option.some_ne_none g |>.symm
            · rw [Function.update_of_ne here]
              exact rest fd' member low

theorem updateInodeOpenCnts_keepsFiles (fds : List Nat) :
    KeepsFiles (updateInodeOpenCnts fds : FsCall part Unit) := by
  induction fds with
  | nil => exact .pure ()
  | cons fd fds ih =>
      unfold updateInodeOpenCnts
      refine .bind .get fun s => ?_
      split
      · exact ih
      · refine .bind (.lift _) fun _ => ?_
        split
        · exact .throw _
        · intro s done s' ran
          obtain ⟨inode, _, found, ran⟩ := call_bind_returns.mp ran
          obtain ⟨live, rfl⟩ := deref_returns.mp found
          obtain ⟨_, _, stores, ran⟩ := call_bind_returns.mp ran
          cases store_returns.mp stores
          exact (reopen_opensOnly live).files.trans (ih _ _ _ ran)

/-! ## Steps -/

section Steps

variable {s : FsState part} {fd g : Nat} {pid' : Pid}

/-- A call that leaves the descriptors of its task alone. -/
theorem Refers.of_same {s : FsState part} (same : s.fdTable = (tasks.task pid).fdTable)
    (refers : Refers (tasks.commit pid s) pid' fd g) : Refers tasks pid' fd g := by
  obtain ⟨alive, low, entry⟩ := refers
  rw [fdTable_commit, same] at entry
  refine ⟨alive, low, ?_⟩
  by_cases here : pid' = pid
  · rw [if_pos here] at entry
    rwa [here]
  · rwa [if_neg here] at entry

/-- The inodes that were opened, after one more descriptor was. -/
theorem opened_recordOpen : (tasks.recordOpen pid (some fd)).opened pid' g =
    if pid' = pid ∧ g = fd then
      ((tasks.task pid).fdTable fd).bind fun globalFd => (tasks.fs.fileTable globalFd).fdInode
    else tasks.opened pid' g := by
  by_cases samePid : pid' = pid
  · by_cases sameFd : g = fd
    · simp [Tasks.recordOpen, samePid, sameFd]
    · simp [Tasks.recordOpen, samePid, sameFd]
  · simp [Tasks.recordOpen, samePid]

/-- A free slot has no descriptor. -/
theorem KeepInodes.not_free (keep : KeepInodes tasks) {g' : Nat}
    (free : (tasks.fs.fileTable g').fdInode = none) (refers : Refers tasks pid' fd g) : g ≠ g' := by
  obtain ⟨ptr, used, -⟩ := keep pid' fd g refers
  intro same
  rw [same, free] at used
  cases used

theorem keepInodes_open {junk : Word} {pathname : CString} {flags : Byte}
    (keep : KeepInodes tasks)
    (stepped : exec tasks ⟨pid, junk, .openFile pathname flags⟩ = some next) :
    KeepInodes next := by
  obtain ⟨alive, fd, s, ran, rfl⟩ := exec_openFile stepped
  rcases sysOpen_tables ran with ⟨rfl, used, fds⟩ | ⟨g, file, ptr, free, installed, files, fills⟩
  · intro pid' fd' g' refers
    obtain ⟨ptr, slot, opened⟩ := keep pid' fd' g' (refers.of_same fds)
    refine ⟨ptr, ?_, opened⟩
    rcases used g' with same | ⟨-, empty⟩
    · exact (congrArg File.fdInode same).trans slot
    · rw [show (tasks.view pid).fileTable = tasks.fs.fileTable from rfl, slot] at empty
      cases empty
  · have empty : (tasks.fs.fileTable g).fdInode = none :=
      Option.isNone_iff_eq_none.mp (getFreeSlotInGlobal_some free).2.2
    have old : ∀ {pid' fd' g'}, Refers tasks pid' fd' g' →
        ∃ ptr, (s.fileTable g').fdInode = some ptr ∧ tasks.opened pid' fd' = some ptr := by
      intro pid' fd' g' refers
      obtain ⟨ptr, slot, opened⟩ := keep pid' fd' g' refers
      refine ⟨ptr, ?_, opened⟩
      rw [files, Function.update_of_ne (keep.not_free empty refers)]
      exact slot
    rcases installed.cases with ⟨rfl, fds⟩ | ⟨localFd, rfl, low, fds⟩
    · exact fun pid' fd' g' refers => old (refers.of_same fds)
    · intro pid' fd' g' refers
      obtain ⟨lives, low', entry⟩ := refers
      change ((tasks.commit pid s).task pid').fdTable fd' = some g' at entry
      rw [fdTable_commit, fds] at entry
      rw [opened_recordOpen, fdTable_commit, if_pos rfl, fds, Function.update_self]
      change ∃ ptr, (s.fileTable g').fdInode = some ptr ∧ _
      by_cases new : pid' = pid ∧ fd' = localFd
      · obtain ⟨rfl, rfl⟩ := new
        rw [if_pos rfl, Function.update_self] at entry
        cases entry
        rw [if_pos ⟨rfl, rfl⟩]
        have slot : (s.fileTable g).fdInode = some ptr := by
          rw [files, Function.update_self, fills]
        exact ⟨ptr, slot, slot⟩
      · rw [if_neg new]
        apply old ⟨lives, low', _⟩
        by_cases here : pid' = pid
        · rw [if_pos here, Function.update_of_ne fun same => new ⟨here, same⟩] at entry
          rw [here]
          exact entry
        · rwa [if_neg here] at entry

/-- A slot is emptied that only one descriptor refers to. -/
theorem keepInodes_close {junk : Word} {fd : Int} (keep : KeepInodes tasks)
    (alone : Unshared tasks ⟨pid, junk, .close fd⟩)
    (stepped : exec tasks ⟨pid, junk, .close fd⟩ = some next) : KeepInodes next := by
  obtain ⟨alive, done, s, ran, rfl⟩ := exec_close stepped
  rcases sysClose_tables ran with rfl | ⟨g, above, entry, files, fds⟩
  · intro pid' fd' g' refers
    exact keep pid' fd' g' (refers.of_same rfl)
  · have here : Refers tasks pid fd.toNat g := ⟨alive, by omega, entry⟩
    have only := alone.1 fd.toNat (congrArg FsOp.close (Int.toNat_of_nonneg (by omega)).symm) g here
    intro pid' fd' g' refers
    obtain ⟨lives, low, entry'⟩ := refers
    rw [fdTable_commit, fds] at entry'
    have old : Refers tasks pid' fd' g' ∧ ¬ (pid' = pid ∧ fd' = fd.toNat) := by
      by_cases samePid : pid' = pid
      · rw [if_pos samePid] at entry'
        have other : fd' ≠ fd.toNat := by
          intro same
          rw [same, Function.update_self] at entry'
          cases entry'
        rw [Function.update_of_ne other] at entry'
        exact ⟨⟨lives, low, samePid ▸ entry'⟩, fun same => other same.2⟩
      · rw [if_neg samePid] at entry'
        exact ⟨⟨lives, low, entry'⟩, fun same => samePid same.1⟩
    obtain ⟨ptr, slot, opened⟩ := keep pid' fd' g' old.1
    refine ⟨ptr, ?_, opened⟩
    have apart : g' ≠ g := fun same => old.2 (only pid' fd' (same ▸ old.1))
    change (s.fileTable g').fdInode = some ptr
    rw [files, Function.update_of_ne apart]
    exact slot

/-- The child has the descriptors of its parent. -/
theorem keepInodes_fork {junk : Word} {child : Pid} (keep : KeepInodes tasks)
    (stepped : exec tasks ⟨pid, junk, .fork child⟩ = some next) : KeepInodes next := by
  obtain ⟨alive, fresh, s, ran, rfl⟩ := exec_fork stepped
  have same := updateInodeOpenCnts_keepsFiles _ _ _ _ ran
  intro pid' fd' g' refers
  obtain ⟨lives, low, entry⟩ := refers
  change ∃ ptr, (s.fileTable g').fdInode = some ptr ∧
    Function.update tasks.opened child (tasks.opened pid) pid' fd' = some ptr
  change (Function.update (tasks.commit pid s).task child (tasks.task pid) pid').fdTable fd' =
    some g' at entry
  rw [same.fileTable]
  by_cases born : pid' = child
  · rw [born, Function.update_self] at entry
    rw [born, Function.update_self]
    exact keep pid fd' g' ⟨alive, low, entry⟩
  · rw [Function.update_of_ne born] at entry
    rw [Function.update_of_ne born]
    have lives' : pid' ∈ tasks.live := Finset.mem_of_mem_insert_of_ne lives born
    exact keep pid' fd' g' (Refers.of_same same.fdTable ⟨lives', low, entry⟩)

/-- The slots of a process are emptied, to which nobody else refers. -/
theorem keepInodes_exit {junk : Word} (keep : KeepInodes tasks)
    (alone : Unshared tasks ⟨pid, junk, .exit⟩)
    (stepped : exec tasks ⟨pid, junk, .exit⟩ = some next) : KeepInodes next := by
  obtain ⟨alive, s, ran, rfl⟩ := exec_exit stepped
  intro pid' fd' g' refers
  obtain ⟨lives, low, entry⟩ := refers
  obtain ⟨other, lives⟩ := Finset.mem_erase.mp lives
  change ((tasks.commit pid s).task pid').fdTable fd' = some g' at entry
  rw [fdTable_commit, if_neg other] at entry
  have old : Refers tasks pid' fd' g' := ⟨lives, low, entry⟩
  obtain ⟨ptr, slot, opened⟩ := keep pid' fd' g' old
  refine ⟨ptr, ?_, opened⟩
  have kept : s.fileTable g' = tasks.fs.fileTable g' := by
    apply closeFds_slots ran
    intro fd _ low' entry'
    exact other (alone.2 rfl fd g' ⟨alive, low', entry'⟩ pid' fd' old)
  change (s.fileTable g').fdInode = some ptr
  rw [kept]
  exact slot

end Steps

/-! ## Runs -/

theorem Mounted.keepInodes (mounted : Mounted tasks) : KeepInodes tasks := by
  intro pid fd g refers
  obtain ⟨-, low, entry⟩ := refers
  rw [mounted.noFd pid fd low] at entry
  cases entry

/-- **Descriptors.** In every run of `sys_open`, `sys_close`, `sys_fork` and `sys_exit`, with
descriptors below 8, in which no slot is closed that another descriptor refers to, the slot of every
descriptor of a live process holds the inode that was opened for the descriptor. -/
theorem descriptors_keep_inodes
    (reachable : ((tasksUsing part MovesFds).under Unshared).Reachable tasks) :
    KeepInodes tasks := by
  induction reachable with
  | initial mounted => exact Mounted.keepInodes mounted
  | step label _ taken ih =>
      obtain ⟨alone, admitted, stepped⟩ := taken
      obtain ⟨pid, junk, op⟩ := label
      cases op with
      | openFile pathname flags => exact keepInodes_open ih stepped
      | close fd => exact keepInodes_close ih alone stepped
      | fork child => exact keepInodes_fork ih stepped
      | exit => exact keepInodes_exit ih alone stepped
      | _ => exact admitted.elim

/-- A process opens a file and forks, and the child has the descriptor. -/
theorem descriptors_keep_inodes_forked : ∃ tasks : Tasks somePartition,
    Refers tasks 2 3 3 ∧ KeepInodes tasks := by
  have found : ((boot {1} fun _ => true).bind fun tasks =>
      (exec tasks ⟨1, 0, .openFile pathA (oCreat ||| oRdwr)⟩).bind fun tasks =>
        exec tasks ⟨1, 0, .fork 2⟩).any (fun (tasks : Tasks somePartition) =>
          decide (Refers tasks 2 3 3)) = true := by
    decide +kernel
  obtain ⟨tasks, ran, refers⟩ := Option.any_eq_true _ _ |>.mp found
  obtain ⟨booted, boots, ran⟩ := Option.bind_eq_some_iff.mp ran
  obtain ⟨opened, opens, forks⟩ := Option.bind_eq_some_iff.mp ran
  have start : ((tasksUsing somePartition MovesFds).under Unshared).Reachable booted :=
    .initial (boot_mounted boots)
  have keeps : ∀ (tasks : Tasks somePartition) (op : FsOp), (∀ fd, op ≠ .close fd) → op ≠ .exit →
      Unshared tasks ⟨1, 0, op⟩ := fun _ _ noClose noExit =>
    ⟨fun fd closes => absurd closes (noClose fd), fun exits => absurd exits noExit⟩
  have first := start.step ⟨1, 0, .openFile pathA (oCreat ||| oRdwr)⟩
    ⟨keeps booted _ (by simp) (by simp), by trivial, opens⟩
  exact ⟨tasks, of_decide_eq_true refers, descriptors_keep_inodes (first.step ⟨1, 0, .fork 2⟩
    ⟨keeps opened _ (by simp) (by simp), by trivial, forks⟩)⟩

/-- Kernel thread 0 makes a file and closes it, and process 1 opens the file and forks. -/
def openAndFork : List FsLabel :=
  [⟨0, 0, .openFile pathA (oCreat ||| oRdwr)⟩, ⟨0, 0, .close 3⟩, ⟨1, 0, .openFile pathA 0⟩,
    ⟨1, 0, .fork 2⟩]

theorem movesFds_openAndFork : ∀ label ∈ openAndFork ++ [⟨2, 0, .close 3⟩], MovesFds label.op := by
  intro label member
  simp only [openAndFork, List.cons_append, List.nil_append, List.mem_cons, List.not_mem_nil,
    or_false] at member
  rcases member with rfl | rfl | rfl | rfl | rfl <;> exact trivial

/-- The child closes the descriptor, and the parent's descriptor refers to an empty slot. -/
theorem child_closes_slot_of_parent : ¬ ∀ tasks : Tasks somePartition,
    (tasksUsing somePartition MovesFds).Reachable tasks → KeepInodes tasks := by
  intro all
  have found : (runFrom {0, 1} (fun pid => pid == 1) (openAndFork ++ [⟨2, 0, .close 3⟩])).any
      (fun (tasks : Tasks somePartition) => decide (1 ∈ tasks.live ∧
        (tasks.task 1).fdTable 3 = some 3 ∧ (tasks.fs.fileTable 3).fdInode = none)) = true := by
    decide +kernel
  obtain ⟨tasks, ran, facts⟩ := Option.any_eq_true _ _ |>.mp found
  obtain ⟨alive, entry, empty⟩ := of_decide_eq_true facts
  obtain ⟨ptr, slot, -⟩ := all tasks (reachable_runFrom movesFds_openAndFork ran) 1 3 3
    ⟨alive, Nat.le_refl 3, entry⟩
  rw [empty] at slot
  cases slot

end UKernel.Fs
