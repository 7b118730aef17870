import UKernel.Fs.SharedSlots
import UKernel.Library.Refinement
import UKernel.Pipe.References
import UKernel.Process.ExecFailure

/-! # The descriptors of files

`UKernel.Fs` embeds the calls on descriptors of files, with the inodes, and `UKernel.Pipe` those on
descriptors of files and of pipes, without the inodes. Where no slot of the file table is one of a
pipe, `sys_close`, `sys_fork` and `sys_exit` of the first are the calls of the second: each step of
the tasks that makes one of them changes the file table, the descriptors and the live processes as
the call does (`UKernel.Pipe.exec_shown`). The `sys_close` of `load` in `UKernel.Exec` clears the
same descriptor (`UKernel.Pipe.sysClose_clears`).
-/

namespace UKernel.Pipe

open UKernel.Library UKernel.Fs PipeState

variable {part : Partition} {cur : Pid} {start p : PipeState} {s s' : FsState part}

/-! ## The calls of one process -/

/-- The descriptors of the running process are those of the state, the same slots of the file table
are in use, and none of them by a pipe. The other processes are as they were at the start. -/
structure ShowsFiles (cur : Pid) (start : PipeState) (s : FsState part) (p : PipeState) :
    Prop where
  fdTable : p.fdTable cur = s.fdTable
  used : ∀ g, (p.fileTable g).fdInode = none ↔ (s.fileTable g).fdInode = none
  files : ∀ g, ¬ p.IsPipeSlot g
  live : p.live = start.live
  others : ∀ pid, pid ≠ cur → p.fdTable pid = start.fdTable pid

/-- A call that leaves the file table and the descriptors alone. -/
theorem ShowsFiles.same (shows : ShowsFiles cur start s p) (table : s'.fileTable = s.fileTable)
    (fds : s'.fdTable = s.fdTable) : ShowsFiles cur start s' p where
  fdTable := shows.fdTable.trans fds.symm
  used g := by
    rw [table]
    exact shows.used g
  files := shows.files
  live := shows.live
  others := shows.others

/-- A slot that is emptied. -/
theorem ShowsFiles.empty (shows : ShowsFiles cur start s p) (globalFd : Nat) :
    ShowsFiles cur start
      { s with
        fileTable := Function.update s.fileTable globalFd
          { s.fileTable globalFd with fdInode := none } }
      (p.setSlot globalFd { p.fileTable globalFd with fdInode := none }) where
  fdTable := shows.fdTable
  used g := by
    rw [fileTable_setSlot]
    dsimp only
    by_cases here : g = globalFd
    · rw [here, if_pos rfl, Function.update_self]
      exact iff_of_true rfl rfl
    · rw [if_neg here, Function.update_of_ne here]
      exact shows.used g
  files g isPipe := by
    rw [IsPipeSlot, fileTable_setSlot] at isPipe
    by_cases here : g = globalFd
    · rw [if_pos here] at isPipe
      exact shows.files globalFd isPipe
    · rw [if_neg here] at isPipe
      exact shows.files g isPipe
  live := shows.live
  others := shows.others

/-- A descriptor that is cleared. -/
theorem ShowsFiles.clear (shows : ShowsFiles cur start s p) (localFd : Nat) :
    ShowsFiles cur start { s with fdTable := Function.update s.fdTable localFd none }
      (p.setFd cur localFd none) where
  fdTable := by
    rw [PipeState.setFd]
    dsimp only
    rw [Function.update_self, shows.fdTable]
  used := shows.used
  files := shows.files
  live := shows.live
  others pid other := by
    rw [PipeState.setFd]
    dsimp only
    rw [Function.update_of_ne other]
    exact shows.others pid other

/-- `fd_local2global`. -/
theorem fdLocal2global_shown (localFd : Nat) : Refines (ShowsFiles cur start)
    (Fs.fdLocal2global localFd : FsCall part Nat) (fdLocal2global cur localFd)
    (SameValue (ShowsFiles cur start)) := by
  intro s p g s' shows ran
  obtain ⟨small, entry, inside, rfl⟩ := Fs.fdLocal2global_returns ran
  rw [← shows.fdTable] at entry
  exact ⟨g, p, fdLocal2global_run entry small inside, rfl, shows⟩

/-- `is_pipe` is false for a descriptor of a file. -/
theorem ShowsFiles.isPipe (shows : ShowsFiles cur start s p) {localFd g : Nat}
    (entry : s.fdTable localFd = some g) (small : localFd < maxFilesOpenPerProc)
    (inside : g < maxFileOpen) : (isPipe cur localFd).run p = .ok (false, p) := by
  rw [← shows.fdTable] at entry
  have file : ¬ (p.fileTable g).fdFlag = pipeFlag := shows.files g
  rw [isPipe_run entry small inside, decide_eq_false file]

/-- `file_close` empties the slot. -/
theorem fileClose_shown (globalFd : Nat) : Refines (ShowsFiles cur start)
    (Fs.fileClose globalFd : FsCall part Unit) (fileClose globalFd)
    (SameValue (ShowsFiles cur start)) := by
  intro s p _ s' shows ran
  obtain ⟨ptr, inode, closed, used, -, drops, rfl⟩ := Fs.fileClose_returns ran
  have inUse : (p.fileTable globalFd).fdInode ≠ none := by
    rw [ne_eq, shows.used, used]
    exact Option.some_ne_none ptr
  refine ⟨(), p.setSlot globalFd { p.fileTable globalFd with fdInode := none }, ?_, rfl, ?_⟩
  · rw [fileClose, call_bind_of (call_get_returns.mpr ⟨rfl, rfl⟩), if_neg inUse]
    rfl
  · exact (shows.empty globalFd).same rfl (inodeClose_keepsFiles ptr _ _ _ drops).fdTable

/-- `sys_close`; the results are 0 or -1. -/
theorem sysClose_shown (fd : Int) : Refines (ShowsFiles cur start)
    (Fs.sysClose fd : FsCall part Bool) (sysClose cur fd)
    fun done result s p => result = (if done then 0 else -1) ∧ ShowsFiles cur start s p := by
  intro s p done s' shows ran
  by_cases opened : 2 < fd
  · rw [Fs.sysClose, if_pos opened] at ran
    obtain ⟨g, _, found, ran⟩ := call_bind_returns.mp ran
    obtain ⟨_, p, found', rfl, shows⟩ := fdLocal2global_shown fd.toNat _ _ _ _ shows found
    obtain ⟨small, entry, inside, rfl⟩ := Fs.fdLocal2global_returns found
    have file := shows.isPipe entry small inside
    obtain ⟨_, _, closes, ran⟩ := call_bind_returns.mp ran
    obtain ⟨_, closed, closes', -, shows⟩ := fileClose_shown g _ _ _ _ shows closes
    obtain ⟨_, _, cleared, ran⟩ := call_bind_returns.mp ran
    cases call_modify_returns.mp cleared
    obtain ⟨rfl, rfl⟩ := call_pure_returns.mp ran
    refine ⟨0, closed.setFd cur fd.toNat none, ?_, rfl, shows.clear fd.toNat⟩
    rw [sysClose, if_pos opened, call_bind_of found', call_bind_of file,
      if_neg Bool.false_ne_true, call_bind_of closes']
    rfl
  · rw [Fs.sysClose, if_neg opened] at ran
    obtain ⟨rfl, rfl⟩ := call_pure_returns.mp ran
    refine ⟨-1, p, ?_, rfl, shows⟩
    rw [sysClose, if_neg opened]
    rfl

/-- The loop of `update_inode_open_cnts` changes no descriptor of a file. -/
theorem updateInodeOpenCnts_shown {fds : List Nat}
    (small : ∀ fd ∈ fds, fd < maxFilesOpenPerProc) : Refines (ShowsFiles cur start)
    (Fs.updateInodeOpenCnts fds : FsCall part Unit) (updateInodeOpenCnts cur fds)
    (SameValue (ShowsFiles cur start)) := by
  induction fds with
  | nil => exact .pure fun s p shows => ⟨rfl, shows⟩
  | cons fd rest ih =>
      have ih := ih fun fd' member => small fd' (List.mem_cons_of_mem fd member)
      intro s p _ s' shows ran
      rw [Fs.updateInodeOpenCnts, call_bind_of (call_get_returns.mpr ⟨rfl, rfl⟩)] at ran
      rw [updateInodeOpenCnts, call_bind_of (call_get_returns.mpr ⟨rfl, rfl⟩), shows.fdTable]
      cases entry : s.fdTable fd with
      | none =>
          simp only [entry] at ran
          exact ih s p _ s' shows ran
      | some g =>
          simp only [entry] at ran
          obtain ⟨_, _, checked, ran⟩ := call_bind_returns.mp ran
          obtain ⟨inside, rfl⟩ := call_lift_returns.mp checked
          cases used : (s.fileTable g).fdInode with
          | none =>
              simp only [used] at ran
              exact (call_throw_returns ran).elim
          | some ptr =>
              simp only [used] at ran
              obtain ⟨inode, _, found, ran⟩ := call_bind_returns.mp ran
              obtain ⟨live, rfl⟩ := deref_returns.mp found
              obtain ⟨_, _, stores, ran⟩ := call_bind_returns.mp ran
              cases store_returns.mp stores
              have kept : ShowsFiles cur start { s with
                  inodes := Function.update s.inodes ptr
                    (some { inode with iOpenCnts := inode.iOpenCnts + 1 }) } p :=
                shows.same rfl rfl
              obtain ⟨_, p', counts, same, after⟩ := ih _ _ _ _ kept ran
              have file := shows.isPipe entry (small fd List.mem_cons_self)
                (require_eq_ok.mp inside)
              have inUse : (p.fileTable g).fdInode ≠ none := by
                rw [ne_eq, shows.used, used]
                exact Option.some_ne_none ptr
              refine ⟨(), p', ?_, same, after⟩
              dsimp only
              rw [call_bind_of (call_lift_returns.mpr ⟨inside, rfl⟩),
                call_bind_of (call_get_returns.mpr ⟨rfl, rfl⟩), call_bind_of file,
                if_neg Bool.false_ne_true, if_neg inUse]
              exact counts

/-- The loop of `release_prog_resource` over the descriptors. -/
theorem closeFds_shown {fds : List Nat} (opened : ∀ fd ∈ fds, 2 < fd) :
    Refines (ShowsFiles cur start) (closeFds fds : FsCall part Unit) (releaseFds cur fds)
      (SameValue (ShowsFiles cur start)) := by
  induction fds with
  | nil => exact .pure fun s p shows => ⟨rfl, shows⟩
  | cons fd rest ih =>
      have ih := ih fun fd' member => opened fd' (List.mem_cons_of_mem fd member)
      have high := opened fd List.mem_cons_self
      intro s p _ s' shows ran
      rw [closeFds, call_bind_of (call_get_returns.mpr ⟨rfl, rfl⟩)] at ran
      rw [releaseFds, call_bind_of (call_get_returns.mpr ⟨rfl, rfl⟩), shows.fdTable]
      cases entry : s.fdTable fd with
      | none =>
          simp only [entry] at ran
          exact ih s p _ s' shows ran
      | some g =>
          simp only [entry] at ran
          obtain ⟨done, _, closes, ran⟩ := call_bind_returns.mp ran
          obtain ⟨result, middle, closes', -, shows'⟩ := sysClose_shown _ _ _ _ _ shows closes
          obtain ⟨_, p', releases, same, after⟩ := ih _ middle _ s' shows' ran
          rcases Fs.sysClose_returns closes with
            ⟨standard, -⟩ | ⟨g', _, -, small, isG, inside, -, -⟩
          · omega
          · rw [Int.toNat_natCast] at small isG
            have file := shows.isPipe isG small inside
            refine ⟨(), p', ?_, same, after⟩
            rw [if_pos (Option.some_ne_none g), call_bind_of file, if_neg Bool.false_ne_true,
              call_bind_of closes']
            exact releases

/-! ## The steps of the tasks -/

variable {tasks next : Tasks part} {pid : Pid}

/-- The descriptors of all tasks, and the slots of the file table that are in use. -/
structure ShowsTasks (tasks : Tasks part) (p : PipeState) : Prop where
  live : p.live = tasks.live
  fdTable : ∀ pid, p.fdTable pid = (tasks.task pid).fdTable
  used : ∀ g, (p.fileTable g).fdInode = none ↔ (tasks.fs.fileTable g).fdInode = none
  files : ∀ g, ¬ p.IsPipeSlot g

/-- What the running task sees. -/
theorem ShowsTasks.view (shows : ShowsTasks tasks p) (pid : Pid) :
    ShowsFiles pid p (tasks.view pid) p :=
  ⟨shows.fdTable pid, shows.used, shows.files, rfl, fun _ _ => rfl⟩

/-- A call of the running task. -/
theorem ShowsTasks.commit {p' : PipeState} (shows : ShowsTasks tasks p)
    (after : ShowsFiles pid p s p') : ShowsTasks (tasks.commit pid s) p' where
  live := after.live.trans shows.live
  fdTable pid' := by
    rw [fdTable_commit]
    by_cases here : pid' = pid
    · rw [if_pos here, here, after.fdTable]
    · rw [if_neg here, after.others pid' here, shows.fdTable]
  used := after.used
  files := after.files

/-- The calls that both models have. -/
def descriptorOp (pid : Pid) : FsOp → Option PipeOp
  | .close fd => some (.close pid fd)
  | .fork child => some (.fork pid (some child))
  | .exit => some (.exit pid)
  | _ => none

/-- **A step of the tasks that closes, forks or exits is the call on the descriptors.** -/
theorem exec_shown {junk : Word} {op : FsOp} {call : PipeOp} (shows : ShowsTasks tasks p)
    (both : descriptorOp pid op = some call)
    (stepped : exec tasks ⟨pid, junk, op⟩ = some next) :
    ∃ p', call.caller ∈ p.live ∧ (pipeExec call).run p = .ok ((), p') ∧ ShowsTasks next p' := by
  have small : ∀ fd ∈ localFds, fd < maxFilesOpenPerProc := by decide
  have opened : ∀ fd ∈ localFds, 2 < fd := by decide
  cases op with
  | close fd =>
      cases both
      obtain ⟨alive, done, s, ran, rfl⟩ := exec_close stepped
      obtain ⟨_, p', closes, -, after⟩ := sysClose_shown fd _ _ _ _ (shows.view pid) ran
      exact ⟨p', shows.live ▸ alive, call_bind_of closes, shows.commit after⟩
  | fork child =>
      cases both
      obtain ⟨alive, -, s, ran, rfl⟩ := exec_fork stepped
      obtain ⟨_, p', counts, -, after⟩ :=
        updateInodeOpenCnts_shown small _ _ _ _ (shows.view pid) ran
      have shows' := shows.commit after
      have same : s.fdTable = (tasks.task pid).fdTable :=
        (updateInodeOpenCnts_keepsFiles localFds _ _ _ ran).fdTable
      refine ⟨{ p' with
        live := insert child p'.live
        fdTable := Function.update p'.fdTable child (p'.fdTable pid) }, shows.live ▸ alive,
        call_bind_of counts, ?_, fun pid' => ?_, shows'.used, shows'.files⟩
      · rw [shows'.live]
        rfl
      · dsimp only [Tasks.addChild]
        by_cases here : pid' = child
        · rw [here, Function.update_self, Function.update_self, after.fdTable, same]
        · rw [Function.update_of_ne here, Function.update_of_ne here, shows'.fdTable]
  | exit =>
      cases both
      obtain ⟨alive, s, ran, rfl⟩ := exec_exit stepped
      obtain ⟨_, p', closes, -, after⟩ := closeFds_shown opened _ _ _ _ (shows.view pid) ran
      have shows' := shows.commit after
      refine ⟨{ p' with live := p'.live.erase pid }, shows.live ▸ alive, call_bind_of closes,
        ?_, shows'.fdTable, shows'.used, shows'.files⟩
      rw [shows'.live]
      rfl
  | _ => cases both

/-! ## The close of a program's file -/

/-- `sys_close` of `load` clears the descriptor that `sys_close` of a file clears. -/
theorem sysClose_clears {pools : Paging.Pools} {fd : Int} {t : Exec.Task pools}
    (same : t.fdTable = s.fdTable) (ran : (Fs.sysClose fd).run s = .ok (true, s')) :
    (after (Exec.sysClose fd.toNat) t).fdTable = s'.fdTable := by
  have cleared : (after (Exec.sysClose fd.toNat) t).fdTable =
      Function.update t.fdTable fd.toNat none := rfl
  rw [cleared, same]
  by_cases opened : 2 < fd
  · rcases Fs.sysClose_returns ran with ⟨standard, -⟩ | ⟨g, closed, -, -, -, -, -, rfl⟩
    · omega
    · rfl
  · rw [Fs.sysClose, if_neg opened] at ran
    obtain ⟨same, -⟩ := call_pure_returns.mp ran
    cases same

end UKernel.Pipe
