import UKernel.Fs.Calls
import UKernel.Library.Transition

/-! # Tasks that use the file system

Any number of tasks, and the file-system calls they make one after the other
(`UKernel.Fs.exec`). The mounted partition, the file table and the kernel's heap are shared;
a task has its own descriptors and, if it is a user process, its own heap, where the inodes of
the files it creates lie. `sys_fork` copies both.
-/

namespace UKernel.Fs

open UKernel.Library

variable {part : Partition}

/-- A process or a kernel thread. -/
abbrev Pid := Nat

/-- What the calls use of `struct task_struct`; `heap` holds the inode objects in the task's own
address space. -/
structure Task where
  fdTable : Nat → Option Nat
  cwdInodeNr : Word
  userProcess : Bool
  heap : Nat → Option Inode

/-- All tasks. `fs` is the state that the last call left, `dirs` are the directories that a task
opened and did not close, and `opened` is, for the specification, the inode that `sys_open`
opened for a descriptor. -/
structure Tasks (part : Partition) where
  fs : FsState part
  live : Finset Pid
  task : Pid → Task
  dirs : Pid → List Dir
  opened : Pid → Nat → Option Ptr

namespace Tasks

/-- The inode objects that a task sees. The address of an inode in another task's heap is one that
the task has no object at: the code reads there what the task's own page tables map, and a call that
comes to it ends the run. -/
def objects (tasks : Tasks part) (pid : Pid) : Ptr → Option Inode
  | .kernel addr => tasks.fs.inodes (.kernel addr)
  | .user addr => (tasks.task pid).heap addr

/-- The state as a task sees it. -/
def view (tasks : Tasks part) (pid : Pid) : FsState part :=
  { tasks.fs with
    inodes := tasks.objects pid
    fdTable := (tasks.task pid).fdTable
    userProcess := (tasks.task pid).userProcess }

/-- The tasks after a call of one of them. -/
def commit (tasks : Tasks part) (pid : Pid) (s : FsState part) : Tasks part :=
  { tasks with
    fs := s
    task := Function.update tasks.task pid
      { tasks.task pid with
        fdTable := s.fdTable
        heap := fun addr => s.inodes (.user addr) } }

/-- Make a call; there is no result if it stops the machine. -/
def call {α : Type} (tasks : Tasks part) (pid : Pid) (body : FsCall part α) :
    Option (α × Tasks part) :=
  match body.run (tasks.view pid) with
  | .ok (a, s) => some (a, tasks.commit pid s)
  | .error _ => none

/-- Note which inode was opened for a descriptor. -/
def recordOpen (tasks : Tasks part) (pid : Pid) : Option Nat → Tasks part
  | none => tasks
  | some fd =>
      { tasks with
        opened := Function.update tasks.opened pid (Function.update (tasks.opened pid) fd
          (((tasks.task pid).fdTable fd).bind fun g => (tasks.fs.fileTable g).fdInode)) }

/-- Add a directory to those a task has open. -/
def addDir (tasks : Tasks part) (pid : Pid) : Option Dir → Tasks part
  | none => tasks
  | some dir => { tasks with dirs := Function.update tasks.dirs pid (dir :: tasks.dirs pid) }

/-- Take a directory from those a task has open. -/
def dropDir (tasks : Tasks part) (pid : Pid) (dir : Dir) : Tasks part :=
  { tasks with dirs := Function.update tasks.dirs pid ((tasks.dirs pid).erase dir) }

/-- Change the working directory of a task. -/
def setCwd (tasks : Tasks part) (pid : Pid) : Option Word → Tasks part
  | none => tasks
  | some inodeNo =>
      { tasks with
        task := Function.update tasks.task pid
          { tasks.task pid with cwdInodeNr := inodeNo } }

/-- Add a child that has the memory and the descriptors its parent had. -/
def addChild (tasks : Tasks part) (parent child : Pid) (task : Task) : Tasks part :=
  { tasks with
    live := insert child tasks.live
    task := Function.update tasks.task child task
    dirs := Function.update tasks.dirs child (tasks.dirs parent)
    opened := Function.update tasks.opened child (tasks.opened parent) }

end Tasks

/-! ## Fork and exit -/

/-- The descriptors above the standard ones. -/
def localFds : List Nat := List.range' 3 (maxFilesOpenPerProc - 3)

/-- The loop of `update_inode_open_cnts`, over descriptors none of which is one of a pipe. -/
def updateInodeOpenCnts : List Nat → FsCall part Unit
  | [] => return ()
  | localFd :: rest => do
      let s ← get
      match s.fdTable localFd with
      | none => updateInodeOpenCnts rest
      | some globalFd =>
          require (globalFd < maxFileOpen)
          match (s.fileTable globalFd).fdInode with
          | none => throw .badPointer
          | some ptr => do
              let inode ← deref ptr
              store ptr { inode with iOpenCnts := inode.iOpenCnts + 1 }
              updateInodeOpenCnts rest

/-- The loop of `release_prog_resource` over the descriptors. -/
def closeFds : List Nat → FsCall part Unit
  | [] => return ()
  | localFd :: rest => do
      let s ← get
      match s.fdTable localFd with
      | none => closeFds rest
      | some _ => do
          let _ ← sysClose localFd
          closeFds rest

/-! ## Steps -/

/-- A call, and what its arguments are. -/
inductive FsOp where
  | openFile (pathname : CString) (flags : Byte)
  | close (fd : Int)
  | unlink (pathname : CString)
  | mkdir (pathname : CString)
  | rmdir (pathname : CString)
  | opendir (name : CString)
  | closedir (dir : Dir)
  | chdir (path : CString)
  | stat (path : CString)
  | fork (child : Pid)
  | exit

/-- The task that makes a call, and what the call finds in uninitialised memory. -/
structure FsLabel where
  pid : Pid
  junk : Word
  op : FsOp

/-- One call of a live task. A `sys_fork` that fails changes nothing here. -/
def exec (tasks : Tasks part) (label : FsLabel) : Option (Tasks part) :=
  let pid := label.pid
  if pid ∈ tasks.live then
    match label.op with
    | .openFile pathname flags =>
        (tasks.call pid (sysOpen label.junk pathname.chars flags)).map fun r =>
          r.2.recordOpen pid r.1
    | .close fd => (tasks.call pid (sysClose fd)).map fun r => r.2
    | .unlink pathname => (tasks.call pid (sysUnlink label.junk pathname.chars)).map fun r => r.2
    | .mkdir pathname => (tasks.call pid (sysMkdir label.junk pathname.chars)).map fun r => r.2
    | .rmdir pathname => (tasks.call pid (sysRmdir label.junk pathname.chars)).map fun r => r.2
    | .opendir name =>
        (tasks.call pid (sysOpendir label.junk name.chars)).map fun r => r.2.addDir pid r.1
    | .closedir dir =>
        if dir ∈ tasks.dirs pid then
          (tasks.call pid (sysClosedir dir)).map fun r => r.2.dropDir pid dir
        else none
    | .chdir path =>
        (tasks.call pid (sysChdir label.junk path.chars)).map fun r => r.2.setCwd pid r.1
    | .stat path => (tasks.call pid (sysStat label.junk path.chars)).map fun r => r.2
    | .fork child =>
        if (tasks.task pid).userProcess ∧ child ∉ tasks.live then
          (tasks.call pid (updateInodeOpenCnts localFds)).map fun r =>
            r.2.addChild pid child (tasks.task pid)
        else none
    | .exit =>
        (tasks.call pid (closeFds localFds)).map fun r =>
          { r.2 with live := r.2.live.erase pid }
  else none

section Exec

variable {tasks next : Tasks part} {pid : Pid}

/-- A call that returned, and the state that it left. -/
theorem Tasks.call_eq_some {α : Type} {body : FsCall part α} {r : α × Tasks part}
    (called : tasks.call pid body = some r) :
    ∃ s, body.run (tasks.view pid) = .ok (r.1, s) ∧ r.2 = tasks.commit pid s := by
  unfold Tasks.call at called
  cases ran : body.run (tasks.view pid) with
  | error fault =>
      rw [ran] at called
      cases called
  | ok result =>
      rw [ran] at called
      cases called
      exact ⟨result.2, rfl, rfl⟩

/-- A call that may be made, and the tasks after it. -/
theorem Tasks.call_map {α : Type} {body : FsCall part α} {after : α × Tasks part → Tasks part}
    (stepped : (if pid ∈ tasks.live then (tasks.call pid body).map after else none) = some next) :
    pid ∈ tasks.live ∧ ∃ a s, body.run (tasks.view pid) = .ok (a, s) ∧
      next = after (a, tasks.commit pid s) := by
  by_cases alive : pid ∈ tasks.live
  · rw [if_pos alive, Option.map_eq_some_iff] at stepped
    obtain ⟨r, called, rfl⟩ := stepped
    obtain ⟨s, ran, made⟩ := Tasks.call_eq_some called
    exact ⟨alive, r.1, s, ran, by rw [← made]⟩
  · rw [if_neg alive] at stepped
    cases stepped

theorem exec_openFile {junk : Word} {pathname : CString} {flags : Byte}
    (stepped : exec tasks ⟨pid, junk, .openFile pathname flags⟩ = some next) :
    pid ∈ tasks.live ∧ ∃ fd s, (sysOpen junk pathname.chars flags).run (tasks.view pid) =
      .ok (fd, s) ∧ next = (tasks.commit pid s).recordOpen pid fd :=
  Tasks.call_map stepped

theorem exec_close {junk : Word} {fd : Int}
    (stepped : exec tasks ⟨pid, junk, .close fd⟩ = some next) :
    pid ∈ tasks.live ∧ ∃ done s, (sysClose fd).run (tasks.view pid) = .ok (done, s) ∧
      next = tasks.commit pid s :=
  Tasks.call_map stepped

theorem exec_unlink {junk : Word} {pathname : CString}
    (stepped : exec tasks ⟨pid, junk, .unlink pathname⟩ = some next) :
    pid ∈ tasks.live ∧ ∃ done s, (sysUnlink junk pathname.chars).run (tasks.view pid) =
      .ok (done, s) ∧ next = tasks.commit pid s :=
  Tasks.call_map stepped

theorem exec_mkdir {junk : Word} {pathname : CString}
    (stepped : exec tasks ⟨pid, junk, .mkdir pathname⟩ = some next) :
    pid ∈ tasks.live ∧ ∃ done s, (sysMkdir junk pathname.chars).run (tasks.view pid) =
      .ok (done, s) ∧ next = tasks.commit pid s :=
  Tasks.call_map stepped

theorem exec_rmdir {junk : Word} {pathname : CString}
    (stepped : exec tasks ⟨pid, junk, .rmdir pathname⟩ = some next) :
    pid ∈ tasks.live ∧ ∃ done s, (sysRmdir junk pathname.chars).run (tasks.view pid) =
      .ok (done, s) ∧ next = tasks.commit pid s :=
  Tasks.call_map stepped

theorem exec_opendir {junk : Word} {name : CString}
    (stepped : exec tasks ⟨pid, junk, .opendir name⟩ = some next) :
    pid ∈ tasks.live ∧ ∃ dir s, (sysOpendir junk name.chars).run (tasks.view pid) =
      .ok (dir, s) ∧ next = (tasks.commit pid s).addDir pid dir :=
  Tasks.call_map stepped

theorem exec_closedir {junk : Word} {dir : Dir}
    (stepped : exec tasks ⟨pid, junk, .closedir dir⟩ = some next) :
    pid ∈ tasks.live ∧ dir ∈ tasks.dirs pid ∧ ∃ s,
      (sysClosedir dir).run (tasks.view pid) = .ok ((), s) ∧
      next = (tasks.commit pid s).dropDir pid dir := by
  by_cases known : dir ∈ tasks.dirs pid
  · simp only [exec, if_pos known] at stepped
    obtain ⟨alive, done, s, ran, made⟩ := Tasks.call_map stepped
    exact ⟨alive, known, s, ran, made⟩
  · simp [exec, known] at stepped

theorem exec_chdir {junk : Word} {path : CString}
    (stepped : exec tasks ⟨pid, junk, .chdir path⟩ = some next) :
    pid ∈ tasks.live ∧ ∃ inodeNo s, (sysChdir junk path.chars).run (tasks.view pid) =
      .ok (inodeNo, s) ∧ next = (tasks.commit pid s).setCwd pid inodeNo :=
  Tasks.call_map stepped

theorem exec_stat {junk : Word} {path : CString}
    (stepped : exec tasks ⟨pid, junk, .stat path⟩ = some next) :
    pid ∈ tasks.live ∧ ∃ stat s, (sysStat junk path.chars).run (tasks.view pid) =
      .ok (stat, s) ∧ next = tasks.commit pid s :=
  Tasks.call_map stepped

theorem exec_fork {junk : Word} {child : Pid}
    (stepped : exec tasks ⟨pid, junk, .fork child⟩ = some next) :
    pid ∈ tasks.live ∧ child ∉ tasks.live ∧ ∃ s,
      (updateInodeOpenCnts localFds).run (tasks.view pid) = .ok ((), s) ∧
      next = (tasks.commit pid s).addChild pid child (tasks.task pid) := by
  by_cases may : (tasks.task pid).userProcess = true ∧ child ∉ tasks.live
  · simp only [exec, if_pos may] at stepped
    obtain ⟨alive, _, s, ran, made⟩ := Tasks.call_map stepped
    exact ⟨alive, may.2, s, ran, made⟩
  · simp [exec, may] at stepped

theorem exec_exit {junk : Word} (stepped : exec tasks ⟨pid, junk, .exit⟩ = some next) :
    pid ∈ tasks.live ∧ ∃ s, (closeFds localFds).run (tasks.view pid) = .ok ((), s) ∧
      next = { tasks.commit pid s with live := tasks.live.erase pid } := by
  obtain ⟨alive, _, s, ran, made⟩ := Tasks.call_map stepped
  exact ⟨alive, s, ran, made⟩

/-- The descriptors after a call of a task. -/
theorem fdTable_commit {s : FsState part} {pid' : Pid} :
    ((tasks.commit pid s).task pid').fdTable =
      if pid' = pid then s.fdTable else (tasks.task pid').fdTable := by
  by_cases here : pid' = pid
  · simp [Tasks.commit, here]
  · simp [Tasks.commit, here]

end Exec

/-! ## After mounting -/

/-- The state that `filesys_init` leaves for the tasks: `root_dir` is the only open inode, and
nobody has a descriptor. -/
structure Mounted (tasks : Tasks part) : Prop where
  root : ∃ addr obj, tasks.fs.rootDir = .kernel addr ∧ addr < tasks.fs.nextAddr ∧
    tasks.fs.inodes (.kernel addr) = some obj ∧ obj.iOpenCnts = 1 ∧
    ∀ other ≠ addr, tasks.fs.inodes (.kernel other) = none
  openInodes : tasks.fs.openInodes = [tasks.fs.rootDir]
  heaps : ∀ pid addr, (tasks.task pid).heap addr = none
  noFile : ∀ g < maxFileOpen, (tasks.fs.fileTable g).fdInode = none
  noFd : ∀ pid fd, 3 ≤ fd → (tasks.task pid).fdTable fd = none
  noDir : ∀ pid, tasks.dirs pid = []

/-- The tasks on a mounted partition before their first call. -/
def bootTasks (s : FsState part) (live : Finset Pid) (user : Pid → Bool) : Tasks part where
  fs := s
  live := live
  task pid :=
    { fdTable := fun _ => none
      cwdInodeNr := 0
      userProcess := user pid
      heap := fun _ => none }
  dirs _ := []
  opened _ _ := none

/-- `mount_partition` opens no inode and allocates no object. -/
theorem mountPartition_memory {s s' : FsState part} {sb : SuperBlock}
    (ran : (mountPartition : FsCall part SuperBlock).run s = .ok (sb, s')) :
    s'.inodes = s.inodes ∧ s'.openInodes = [] := by
  obtain ⟨_, _, read, ran⟩ := call_bind_returns.mp ran
  obtain ⟨rfl, rfl⟩ := readSectors_returns read
  obtain ⟨_, _, read, ran⟩ := call_bind_returns.mp ran
  obtain ⟨rfl, rfl⟩ := readSectors_returns read
  obtain ⟨_, _, loads, ran⟩ := call_bind_returns.mp ran
  cases call_modify_returns.mp loads
  obtain ⟨_, _, read, ran⟩ := call_bind_returns.mp ran
  obtain ⟨rfl, rfl⟩ := readSectors_returns read
  obtain ⟨_, _, loads, ran⟩ := call_bind_returns.mp ran
  cases call_modify_returns.mp loads
  obtain ⟨_, _, clears, ran⟩ := call_bind_returns.mp ran
  cases call_modify_returns.mp clears
  obtain ⟨-, rfl⟩ := call_pure_returns.mp ran
  exact ⟨rfl, rfl⟩

/-- Mounting a partition, when no inode object exists, leaves the state described. -/
theorem filesysInit_mounted {s s' : FsState part} {sb : SuperBlock} {live : Finset Pid}
    {user : Pid → Bool} (blank : ∀ ptr, s.inodes ptr = none)
    (ran : (filesysInit : FsCall part SuperBlock).run s = .ok (sb, s')) :
    Mounted (bootTasks s' live user) := by
  obtain ⟨_, mounted, mounts, ran⟩ := call_bind_returns.mp ran
  obtain ⟨objects, closed⟩ := mountPartition_memory mounts
  obtain ⟨_, rooted, opens, ran⟩ := call_bind_returns.mp ran
  obtain ⟨ptr, opened, finds, opens⟩ := call_bind_returns.mp opens
  cases call_modify_returns.mp opens
  obtain ⟨_, _, clears, ran⟩ := call_bind_returns.mp ran
  cases call_modify_returns.mp clears
  obtain ⟨-, rfl⟩ := call_pure_returns.mp ran
  rcases inodeOpen_returns finds with ⟨listed, _⟩ | ⟨_, _, rfl, rfl⟩
  · rw [closed] at listed
    cases listed
  · constructor
    · refine ⟨mounted.nextAddr, _, rfl, Nat.lt_succ_self _, Function.update_self .., rfl, ?_⟩
      intro other apart
      have elsewhere : Ptr.kernel other ≠ .kernel mounted.nextAddr :=
        fun same => apart (Ptr.kernel.inj same)
      change Function.update mounted.inodes _ _ _ = none
      rw [Function.update_of_ne elsewhere, objects]
      exact blank _
    · exact congrArg (Ptr.kernel mounted.nextAddr :: ·) closed
    · exact fun _ _ => rfl
    · intro g small
      change (if g < maxFileOpen then _ else _ : File).fdInode = none
      rw [if_pos small]
    · exact fun _ _ _ => rfl
    · exact fun _ => rfl

/-- The calls of the tasks, from a mounted partition on, that a predicate admits. -/
def tasksUsing (part : Partition) (admits : FsOp → Prop) :
    TransitionSystem (Tasks part) FsLabel where
  initial := Mounted
  step tasks label next := admits label.op ∧ exec tasks label = some next

/-- Format a partition of ten megabytes, mount it, and start tasks. -/
def boot (live : Finset Pid) (user : Pid → Bool) : Option (Tasks somePartition) :=
  match (do partitionFormat; filesysInit : FsCall somePartition SuperBlock).run
      (rawState somePartition) with
  | .ok (_, s) => some (bootTasks s live user)
  | .error _ => none

theorem partitionFormat_inodes {s s' : FsState part}
    (ran : (partitionFormat : FsCall part Unit).run s = .ok ((), s')) : s'.inodes = s.inodes := by
  obtain ⟨_, s₁, written, ran⟩ := call_bind_returns.mp ran
  obtain ⟨-, rfl⟩ := writeSectors_returns written
  obtain ⟨_, s₂, written, ran⟩ := call_bind_returns.mp ran
  obtain ⟨-, rfl⟩ := writeSectors_returns written
  obtain ⟨_, s₃, written, ran⟩ := call_bind_returns.mp ran
  obtain ⟨-, rfl⟩ := writeSectors_returns written
  obtain ⟨_, s₄, written, ran⟩ := call_bind_returns.mp ran
  obtain ⟨-, rfl⟩ := writeSectors_returns written
  obtain ⟨-, rfl⟩ := writeSectors_returns ran
  rfl

theorem boot_mounted {live : Finset Pid} {user : Pid → Bool} {tasks : Tasks somePartition}
    (booted : boot live user = some tasks) : Mounted tasks := by
  unfold boot at booted
  split at booted
  · rename_i sb s ran
    cases booted
    obtain ⟨_, formatted, formats, mounts⟩ := call_bind_returns.mp ran
    apply filesysInit_mounted _ mounts
    intro ptr
    rw [partitionFormat_inodes formats]
    rfl
  · cases booted

/-- What a list of admitted calls reaches is reachable. -/
theorem reachable_of_run {admits : FsOp → Prop} {labels : List FsLabel} {tasks last : Tasks part}
    (reachable : (tasksUsing part admits).Reachable tasks)
    (admitted : ∀ label ∈ labels, admits label.op)
    (ran : TransitionSystem.run exec tasks labels = some last) :
    (tasksUsing part admits).Reachable last := by
  induction labels generalizing tasks with
  | nil =>
      cases ran
      exact reachable
  | cons label labels ih =>
      obtain ⟨next, stepped, ran⟩ := Option.bind_eq_some_iff.mp ran
      obtain ⟨first, rest⟩ := List.forall_mem_cons.mp admitted
      exact ih (reachable.step label ⟨first, stepped⟩) rest ran

/-- The path `/a`. -/
def pathA : CString := ⟨[slash, 0x61], by decide⟩

/-- Boot, and make the calls of a list. -/
def runFrom (live : Finset Pid) (user : Pid → Bool) (labels : List FsLabel) :
    Option (Tasks somePartition) :=
  (boot live user).bind fun tasks => TransitionSystem.run exec tasks labels

theorem reachable_runFrom {live : Finset Pid} {user : Pid → Bool} {labels : List FsLabel}
    {tasks : Tasks somePartition} {admits : FsOp → Prop}
    (admitted : ∀ label ∈ labels, admits label.op) (ran : runFrom live user labels = some tasks) :
    (tasksUsing somePartition admits).Reachable tasks := by
  obtain ⟨booted, boots, ran⟩ := Option.bind_eq_some_iff.mp ran
  exact reachable_of_run (.initial (boot_mounted boots)) admitted ran

end UKernel.Fs
