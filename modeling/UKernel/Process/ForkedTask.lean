import UKernel.Process.Family
import UKernel.Process.ForkFailure

/-! # The task that a fork makes

`UKernel.SysFork` embeds `sys_fork` with its pages, and `UKernel.Process` with the scheduler and the
relatives of the processes, where the pages that are there are an argument. Every call of the first
that returns is one of the second, for some pages (`UKernel.SysFork.sysFork_shown`): the same number
is taken and returned, and the same task is put on the lists.
-/

namespace UKernel.SysFork

open UKernel.Library UKernel.Fs UKernel.Memory UKernel.Paging UKernel.Fork UKernel.Thread

variable {pools : Pools} {sys sys' : System pools} {f : Process.Family}

/-- The numbers and lists of the processes are those of the system. -/
structure Shows (sys : System pools) (f : Process.Family) : Prop where
  pidBitmap : f.pidBitmap = sys.pidBitmap
  ready : f.sched.threadReadyList = sys.threadReadyList
  all : f.sched.threadAllList = sys.threadAllList

/-- The same numbers and lists. -/
def SameTasks (sys sys' : System pools) : Prop :=
  sys'.pidBitmap = sys.pidBitmap ∧ sys'.threadReadyList = sys.threadReadyList ∧
    sys'.threadAllList = sys.threadAllList

/-- What is shown depends on the tasks and their lists only. -/
theorem SameTasks.shows (same : SameTasks sys sys') (shows : Shows sys f) : Shows sys' f :=
  ⟨shows.pidBitmap.trans same.1.symm, shows.ready.trans same.2.1.symm,
    shows.all.trans same.2.2.symm⟩

/-- A call on the pages takes no number and changes no list. -/
theorem onMachine_same {α : Type} (call : MachineCall pools α) :
    Keeps SameTasks (onMachine call) := by
  intro sys a sys' ran
  obtain ⟨m, -, rfl⟩ := onPart_returns.mp ran
  exact ⟨rfl, rfl, rfl⟩

/-- `fork_pid` takes the same number. -/
theorem allocatePid_shown {pid : Nat} (shows : Shows sys f)
    (ran : allocatePid.run sys = .ok (pid, sys')) :
    ∃ f', Process.forkPid f = .ok (pid, f') ∧ Shows sys' f' ∧ f'.sched = f.sched ∧
      f'.proc = f.proc := by
  obtain ⟨_, _, read, ran⟩ := call_bind_returns.mp ran
  obtain ⟨rfl, rfl⟩ := call_get_returns.mp read
  obtain ⟨scanned, _, lifted, ran⟩ := call_bind_returns.mp ran
  obtain ⟨scan, rfl⟩ := call_lift_returns.mp lifted
  cases scanned with
  | none => exact (call_throw_returns ran).elim
  | some bitIdx =>
      obtain ⟨_, _, marked, ran⟩ := call_bind_returns.mp ran
      cases call_modify_returns.mp marked
      obtain ⟨rfl, rfl⟩ := call_pure_returns.mp ran
      rw [← shows.pidBitmap] at scan
      refine ⟨{ f with pidBitmap := f.pidBitmap.set bitIdx true }, ?_, ⟨?_, shows.ready, shows.all⟩,
        rfl, rfl⟩
      · rw [Process.forkPid, Process.allocatePid, scan]
        rfl
      · rw [← shows.pidBitmap]

/-- `copy_process` takes no number, takes one and fails, or takes the one that it returns. -/
theorem copyProcess_shown {parent pcb : Nat} {found : Option Nat} (shows : Shows sys f)
    (ran : (copyProcess parent pcb).run sys = .ok (found, sys')) :
    found = none ∧ Shows sys' f ∨
    ∃ pid f', Process.forkPid f = .ok (pid, f') ∧ Shows sys' f' ∧ f'.sched = f.sched ∧
      f'.proc = f.proc ∧ (found = none ∨ ∃ child : Nat, found = some child ∧ pid = child) := by
  obtain ⟨parentSpace, sys₁, read, ran⟩ := call_bind_returns.mp ran
  have shows₁ := (onMachine_same _ _ _ _ read).shows shows
  obtain ⟨buf, sys₂, taken, ran⟩ := call_bind_returns.mp ran
  have shows₂ := (onMachine_same _ _ _ _ taken).shows shows₁
  cases buf with
  | none =>
      obtain ⟨rfl, rfl⟩ := call_pure_returns.mp ran
      exact .inl ⟨rfl, shows₂⟩
  | some bufPage =>
      obtain ⟨copied, sys₃, copies, ran⟩ := call_bind_returns.mp ran
      obtain ⟨pid, sys₄, numbered, copies⟩ := call_bind_returns.mp copies
      obtain ⟨f', forked, shows₄, sched, proc⟩ := allocatePid_shown shows₂ numbered
      obtain ⟨bits, sys₅, requested, copies⟩ := call_bind_returns.mp copies
      have shows₅ := (onMachine_same _ _ _ _ requested).shows shows₄
      cases bits with
      | none =>
          obtain ⟨rfl, rfl⟩ := call_pure_returns.mp copies
          obtain ⟨rfl, rfl⟩ := call_pure_returns.mp ran
          exact .inr ⟨pid, f', forked, shows₅, sched, proc, .inl rfl⟩
      | some vaddrBtmp =>
          obtain ⟨rfl, rfl⟩ := call_pure_returns.mp copies
          obtain ⟨pgdir, sys₆, created, ran⟩ := call_bind_returns.mp ran
          have shows₆ := (onMachine_same _ _ _ _ created).shows shows₅
          cases pgdir with
          | none =>
              obtain ⟨rfl, rfl⟩ := call_pure_returns.mp ran
              exact .inr ⟨pid, f', forked, shows₆, sched, proc, .inl rfl⟩
          | some pgdir =>
              obtain ⟨_, sys₇, entered, ran⟩ := call_bind_returns.mp ran
              have shows₇ := (onMachine_same _ _ _ _ entered).shows shows₆
              obtain ⟨rfl, rfl⟩ := call_pure_returns.mp ran
              exact .inr ⟨pid, f', forked, shows₇, sched, proc, .inr ⟨pid, rfl, rfl⟩⟩

/-- A task is appended to a list that does not have it. -/
theorem appendTask_returns {list list' : List Nat} {pcb : Nat}
    (ran : appendTask list pcb = .ok list') : pcb ∉ list ∧ list ++ [pcb] = list' := by
  obtain ⟨_, required, ran⟩ := except_bind_eq_ok.mp ran
  exact ⟨require_eq_ok.mp required, Except.ok.inj ran⟩

/-- `thread_start` puts the task on the same lists. -/
theorem threadStart_shown {s : Sched} {pcb : Nat} (prio : Nat) (unready : pcb ∉ s.threadReadyList)
    (unlisted : pcb ∉ s.threadAllList) :
    ∃ next, threadStart s pcb prio = .ok next ∧
      next.threadReadyList = s.threadReadyList ++ [pcb] ∧
      next.threadAllList = s.threadAllList ++ [pcb] := by
  rw [threadStart]
  dsimp only
  rw [require_of (show pcb ∉ (s.put pcb _).threadReadyList from unready), except_ok_bind,
    require_of (show pcb ∉ (s.put pcb _).threadAllList from unlisted), except_ok_bind]
  exact ⟨_, rfl, rfl, rfl⟩

/-- **A fork and its task.** Where `sys_fork` returns, it takes the number, returns the value and
puts the task on the lists that the model of the processes says, for some pages that were there. -/
theorem sysFork_shown {found : Option Nat} {parentThread : Thread.Task} (shows : Shows sys f)
    (current : f.sched.get f.current = .ok parentThread)
    (ran : sysFork.run sys = .ok (found, sys')) :
    ∃ childThread pages pid f', Process.sysFork f childThread pages = .ok (pid, f') ∧
      Shows sys' f' ∧ pid = (found.map Int.ofNat).getD (-1) := by
  obtain ⟨_, _, read, ran⟩ := call_bind_returns.mp ran
  obtain ⟨rfl, rfl⟩ := call_get_returns.mp read
  obtain ⟨block, sys₁, requested, ran⟩ := call_bind_returns.mp ran
  have shows₁ := (onMachine_same _ _ _ _ requested).shows shows
  cases block with
  | none =>
      obtain ⟨rfl, rfl⟩ := call_pure_returns.mp ran
      exact ⟨0, .noPages, -1, f, rfl, shows₁, rfl⟩
  | some pcb =>
      obtain ⟨_, _, read, ran⟩ := call_bind_returns.mp ran
      obtain ⟨rfl, rfl⟩ := call_get_returns.mp read
      obtain ⟨_, _, required, ran⟩ := call_bind_returns.mp ran
      obtain ⟨-, rfl⟩ := call_lift_returns.mp required
      obtain ⟨copied, sys₂, copies, ran⟩ := call_bind_returns.mp ran
      rcases copyProcess_shown shows₁ copies with
        ⟨rfl, shows₂⟩ | ⟨pid, f', forked, shows₂, sched, proc, rfl | ⟨child, rfl, rfl⟩⟩
      · obtain ⟨rfl, rfl⟩ := call_pure_returns.mp ran
        exact ⟨pcb, .noPages, -1, f, rfl, shows₂, rfl⟩
      · obtain ⟨rfl, rfl⟩ := call_pure_returns.mp ran
        refine ⟨pcb, .noBitmap, -1, f', ?_, shows₂, rfl⟩
        rw [Process.sysFork, forked]
        rfl
      · obtain ⟨_, _, read, ran⟩ := call_bind_returns.mp ran
        obtain ⟨rfl, rfl⟩ := call_get_returns.mp read
        obtain ⟨ready, _, appended, ran⟩ := call_bind_returns.mp ran
        obtain ⟨readied, rfl⟩ := call_lift_returns.mp appended
        obtain ⟨unready, rfl⟩ := appendTask_returns readied
        obtain ⟨_, _, stored, ran⟩ := call_bind_returns.mp ran
        cases call_modify_returns.mp stored
        obtain ⟨_, _, read, ran⟩ := call_bind_returns.mp ran
        obtain ⟨rfl, rfl⟩ := call_get_returns.mp read
        obtain ⟨all, _, appended, ran⟩ := call_bind_returns.mp ran
        obtain ⟨listed, rfl⟩ := call_lift_returns.mp appended
        obtain ⟨unlisted, rfl⟩ := appendTask_returns listed
        obtain ⟨_, _, stored, ran⟩ := call_bind_returns.mp ran
        cases call_modify_returns.mp stored
        obtain ⟨rfl, rfl⟩ := call_pure_returns.mp ran
        rw [← shows₂.ready] at unready
        change pcb ∉ sys₂.threadAllList at unlisted
        rw [← shows₂.all] at unlisted
        obtain ⟨next, started, nextReady, nextAll⟩ :=
          threadStart_shown parentThread.priority unready unlisted
        have forks : Process.sysFork f pcb .enough = .ok ((child : Int),
            { f' with sched := next }.setProc pcb { f'.proc f'.current with
              pid := child, parentPid := (f'.proc f'.current).pid }) := by
          rw [Process.sysFork, current, except_ok_bind, forked, except_ok_bind]
          dsimp only
          rw [started, except_ok_bind]
          rfl
        exact ⟨pcb, .enough, child, _, forks, ⟨shows₂.pidBitmap,
          nextReady.trans (congrArg (· ++ [pcb]) shows₂.ready),
          nextAll.trans (congrArg (· ++ [pcb]) shows₂.all)⟩, rfl⟩

end UKernel.SysFork
