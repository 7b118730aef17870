import UKernel.Fs.References

/-! # Open counts

Every call but one keeps the open count of each inode equal to the number of references to it.
`sys_open` of a file that exists does not close the directory in which the search found it, and
when this is not the root directory it stays open for good. In every run without such a call the
counts are exact, and opening and closing a file leaves them as they were
(`UKernel.Fs.open_counts_exact`).
-/

namespace UKernel.Fs

open UKernel.Library

variable {part : Partition} {s s' : FsState part} {ptr : Ptr}

/-! ## Calls -/

/-- `sys_open` opens a file that exists, in a directory other than the root. -/
def LeavesDirOpen (s : FsState part) (junk : Word) (pathname : List Byte) (flags : Byte) : Prop :=
  ∃ inodeNo record searched,
    OpensExisting s junk pathname flags inodeNo record searched ∧ record.parentDir ≠ .root

section Calls

variable {α : Type} {held : Ptr → Nat} {hidden : Ptr → Option Nat}

theorem Counted.setFds (counted : Counted s held hidden) (fdTable : Nat → Option Nat) :
    Counted { s with fdTable := fdTable } held hidden :=
  counted.transfer (fun _ => rfl) rfl rfl fun _ => rfl

theorem sysClose_counted (fd : Int) : Triple (Counted · held hidden)
    (sysClose fd : FsCall part Bool) fun _ s => Counted s held hidden := by
  intro s done s' counted ran
  rcases sysClose_returns ran with ⟨_, rfl⟩ | ⟨g, closed, _, _, _, small, closes, rfl⟩
  · exact counted
  · exact (counted.fileClose small closes).setFds _

/-- A free slot is one of the file table, and empty. -/
theorem freeSlot_some {g : Nat} (free : s.freeSlot = some g) :
    g < maxFileOpen ∧ (s.fileTable g).fdInode = none := by
  have slot := getFreeSlotInGlobal_some free
  exact ⟨slot.2.1, Option.isNone_iff_eq_none.mp slot.2.2⟩

theorem fileOpen_counted (inodeNo : Word) (flag : Byte) : Triple (Counted · held hidden)
    (fileOpen inodeNo flag : FsCall part (Option Nat)) fun _ s => Counted s held hidden := by
  intro s fd s' counted ran
  rcases fileOpen_returns ran with ⟨_, _, rfl⟩ | ⟨g, ptr, opened, free, opens, _, same⟩
  · exact counted
  · have files := inodeOpen_keepsFiles _ _ _ _ opens
    obtain ⟨small, empty⟩ := freeSlot_some free
    rw [← files.fileTable] at empty
    exact ((counted.inodeOpen opens).fill small empty).of_sameCounts same

theorem fileCreate_counted (parentDir : Ptr) (filename : List Byte) (flag : Byte) :
    Triple (Counted · held hidden)
      (fileCreate parentDir filename flag : FsCall part (Option Nat)) fun _ s =>
        Counted s held hidden := by
  intro s fd s' counted ran
  rcases fileCreate_returns ran with ⟨_, same | ⟨table, used, same⟩⟩ | ⟨g, free, _, same⟩
  · exact counted.of_sameCounts same
  · exact (counted.discard used).of_sameCounts same
  · obtain ⟨small, empty⟩ := freeSlot_some free
    exact (counted.create.fill small empty).of_sameCounts same

/-- **Opening.** `sys_open` keeps the counts, unless it opens a file that exists in a directory
other than the root. -/
theorem Counted.sysOpen (counted : Counted s held hidden) {junk : Word} {pathname : List Byte}
    {flags : Byte} {fd : Option Nat} (closes : ¬ LeavesDirOpen s junk pathname flags)
    (ran : (sysOpen junk pathname flags).run s = .ok (fd, s')) : Counted s' held hidden := by
  cases sysOpen_returns ran with
  | slash => exact counted
  | refused search closed =>
      have after := (counted_discipline hidden).searchFile _ _ _ _ _ counted search
      exact (counted_discipline hidden).dirClose _ _ _ _ after closed
  | @existing inodeNo record searched fd s' opens ran =>
      have root : record.parentDir = .root := by
        by_contra other
        exact closes ⟨inodeNo, record, searched, opens, other⟩
      have after : Counted searched (held + record.parentDir.refs) hidden :=
        (counted_discipline hidden).searchFile _ _ _ _ _ counted opens.search
      rw [root] at after
      exact fileOpen_counted _ _ _ _ _ after ran
  | created new creates closed =>
      have after := (counted_discipline hidden).searchFile _ _ _ _ _ counted new.search
      have made := fileCreate_counted _ _ _ _ _ _ after creates
      exact (counted_discipline hidden).dirClose _ _ _ _ made closed

/-! ### Opening and closing again -/

/-- Two calls that opened and closed inodes so that the references are the same again left the
list of open inodes and the counts as they were. -/
theorem Counted.same (counted : Counted s held hidden) (counted' : Counted s' held hidden)
    (references : ∀ p, s'.references held p = s.references held p)
    (order : (s'.openInodes.filter fun p => p.addr < s.nextAddr).Sublist s.openInodes) :
    s'.openInodes = s.openInodes ∧
      ∀ p ∈ s.openInodes, s'.cnts hidden p = s.cnts hidden p := by
  have members : ∀ p, p ∈ s'.openInodes ↔ p ∈ s.openInodes := by
    intro p
    rw [counted'.opened, counted.opened, references]
  have old : (s'.openInodes.filter fun p => p.addr < s.nextAddr) = s'.openInodes := by
    rw [List.filter_eq_self]
    intro p listed
    by_contra new
    exact counted.not_opened (by simpa using new) ((members p).mp listed)
  have perm : s'.openInodes.Perm s.openInodes :=
    (List.perm_ext_iff_of_nodup counted'.nodup counted.nodup).mpr members
  rw [old] at order
  refine ⟨order.eq_of_length perm.length_eq, ?_⟩
  intro p listed
  rw [counted.counts p listed, counted'.counts p ((members p).mpr listed), references]

/-- Opening a file that exists in the root directory, and closing it again. -/
theorem sysOpen_sysClose (counted : Counted s held hidden) {junk : Word} {pathname : List Byte}
    {flags : Byte} {fd : Nat} {done : Bool} {opened : FsState part}
    (closes : ¬ LeavesDirOpen s junk pathname flags) (noCreat : flags &&& oCreat = 0)
    (opens : (sysOpen junk pathname flags).run s = .ok (some fd, opened))
    (drops : (sysClose fd).run opened = .ok (done, s')) :
    s'.openInodes = s.openInodes ∧ ∀ p ∈ s.openInodes, s'.cnts hidden p = s.cnts hidden p := by
  have middle := counted.sysOpen closes opens
  have after := sysClose_counted _ _ _ _ middle drops
  have outcome := sysOpen_returns opens
  generalize given : some fd = fd' at outcome
  cases outcome with
  | slash => cases given
  | refused search closed => cases given
  | created new creates closed => exact absurd noCreat new.creat
  | @existing inodeNo record searched fd' opened found ran =>
      have search := searchFile_keepsFiles _ _ _ _ _ found.search
      rcases fileOpen_returns ran with ⟨_, is, _⟩ | ⟨g, ptr, loaded, free, loads, installed, same⟩
      · rw [← given] at is
        cases is
      · have files := SameFiles.trans search (inodeOpen_keepsFiles _ _ _ _ loads)
        obtain ⟨small, empty⟩ := freeSlot_some free
        rw [search.fileTable] at empty
        have table : opened.fileTable = Function.update s.fileTable g
            { fdPos := 0, fdFlag := flags.setWidth 32, fdInode := some ptr } := by
          rw [same.fileTable, fileTable_fill, files.fileTable]
        have root : opened.rootDir = s.rootDir := same.rootDir.trans files.rootDir
        rcases installed.cases with ⟨is, _⟩ | ⟨localFd, is, low, fds⟩
        · rw [← given] at is
          cases is
        · rw [← given] at is
          cases is
          rcases sysClose_returns drops with ⟨standard, _⟩ | ⟨g', _, _, _, entry, _, empties, rfl⟩
          · omega
          · rw [fds, Int.toNat_natCast, Function.update_self] at entry
            cases entry
            obtain ⟨ptr', inode, dropped, used, live, closesInode, rfl⟩ :=
              fileClose_returns empties
            have closed := inodeClose_keepsFiles _ _ _ _ closesInode
            have filled : (opened.fileTable g).fdInode = some ptr := by
              rw [table, Function.update_self]
            apply counted.same after
            · intro p
              have fill := references_setFile s opened held small table root p
              rw [empty, if_neg (Option.some_ne_none p).symm, Nat.add_zero] at fill
              have clear := references_setFile opened { dropped with
                fileTable := Function.update opened.fileTable g
                  { opened.fileTable g with fdInode := none }
                fdTable := Function.update opened.fdTable (fd : Int).toNat none } held small rfl
                closed.rootDir p
              rw [filled, if_neg (Option.some_ne_none p).symm, Nat.add_zero, fill] at clear
              exact Nat.add_right_cancel clear
            · have first := files.order
              rw [← openInodes_fill (s := loaded), ← same.openInodes] at first
              exact older_trans (Nat.le_trans files.nextAddr (Nat.le_of_eq same.nextAddr.symm))
                first closed.order

end Calls

/-! ## All tasks -/

section Tasks

variable {tasks next : Tasks part} {cnts : Ptr → Option Nat} {pid : Pid}

/-- The references from the directories that the tasks have open. -/
def Tasks.held (tasks : Tasks part) (ptr : Ptr) : Nat :=
  ∑ pid ∈ tasks.live, (tasks.dirs pid).count (.heap ptr)

/-- The references to an inode. -/
def Tasks.references (tasks : Tasks part) (ptr : Ptr) : Nat :=
  tasks.fs.references tasks.held ptr

/-- Every open inode has an object, and its open count is the number of references to it. -/
def CountsExact (tasks : Tasks part) : Prop :=
  ∀ ptr ∈ tasks.fs.openInodes, (∃ pid obj, tasks.objects pid ptr = some obj) ∧
    ∀ pid obj, tasks.objects pid ptr = some obj → obj.iOpenCnts = tasks.references ptr

/-- The open counts of all objects are known, an object in the heap of a task is seen by no other
task, and the open counts are the numbers of references. -/
structure Balanced (tasks : Tasks part) (cnts : Ptr → Option Nat) : Prop where
  seen : ∀ pid ptr obj, tasks.objects pid ptr = some obj → cnts ptr = some obj.iOpenCnts
  known : ∀ ptr, cnts ptr ≠ none → ∃ pid obj, tasks.objects pid ptr = some obj
  owner : ∀ pid pid' addr obj obj', (tasks.task pid).heap addr = some obj →
    (tasks.task pid').heap addr = some obj' → pid = pid'
  nodup : tasks.fs.openInodes.Nodup
  fresh : ∀ ptr, tasks.fs.nextAddr ≤ ptr.addr → cnts ptr = none
  opened : ∀ ptr, ptr ∈ tasks.fs.openInodes ↔ 0 < tasks.references ptr
  counts : ∀ ptr ∈ tasks.fs.openInodes, cnts ptr = some (tasks.references ptr)

theorem Balanced.countsExact (balanced : Balanced tasks cnts) : CountsExact tasks := by
  intro ptr listed
  have count := balanced.counts ptr listed
  refine ⟨balanced.known ptr (by rw [count]; exact Option.some_ne_none _), ?_⟩
  intro pid obj live
  rw [balanced.seen pid ptr obj live] at count
  exact Option.some.inj count

/-- The open counts of the objects that a task does not see. -/
def Tasks.hidden (tasks : Tasks part) (cnts : Ptr → Option Nat) (pid : Pid) (ptr : Ptr) :
    Option Nat :=
  if (tasks.objects pid ptr).isSome then none else cnts ptr

theorem Balanced.cnts_view (balanced : Balanced tasks cnts) (pid : Pid) (ptr : Ptr) :
    (tasks.view pid).cnts (tasks.hidden cnts pid) ptr = cnts ptr := by
  change ((tasks.objects pid ptr).map Inode.iOpenCnts).or (tasks.hidden cnts pid ptr) = cnts ptr
  unfold Tasks.hidden
  cases live : tasks.objects pid ptr with
  | none => rfl
  | some obj => exact (balanced.seen pid ptr obj live).symm

/-- What a task sees is counted. -/
theorem Balanced.view (balanced : Balanced tasks cnts) (pid : Pid) :
    Counted (tasks.view pid) tasks.held (tasks.hidden cnts pid) := by
  constructor
  · exact balanced.nodup
  · intro ptr new
    rw [balanced.cnts_view]
    exact balanced.fresh ptr new
  · intro ptr known
    unfold Tasks.hidden at known
    by_cases sees : (tasks.objects pid ptr).isSome = true
    · rw [if_pos sees] at known
      exact absurd rfl known
    · exact Option.not_isSome_iff_eq_none.mp sees
  · exact balanced.opened
  · intro ptr listed
    rw [balanced.cnts_view]
    exact balanced.counts ptr listed

/-- The objects after a call of a task. -/
theorem objects_commit {pid' : Pid} : (tasks.commit pid s).objects pid' ptr =
    if pid' = pid ∨ ptr.inKernel then s.inodes ptr else tasks.objects pid' ptr := by
  cases ptr with
  | kernel addr => exact (if_pos (.inr rfl)).symm
  | user addr =>
      by_cases here : pid' = pid
      · rw [if_pos (.inl here), here]
        change (Function.update tasks.task pid _ pid).heap addr = _
        rw [Function.update_self]
      · have outside : ¬ (pid' = pid ∨ (Ptr.user addr).inKernel = true) := by
          intro either
          exact either.elim here Bool.false_ne_true
        rw [if_neg outside]
        change (Function.update tasks.task pid _ pid').heap addr = _
        rw [Function.update_of_ne here]
        rfl

/-- A call of a task that keeps what it sees counted keeps everything counted. -/
theorem Balanced.step (balanced : Balanced tasks cnts) {held : Ptr → Nat}
    (counted : Counted s held (tasks.hidden cnts pid)) (fs : next.fs = s)
    (objects : ∀ pid' ptr, next.objects pid' ptr = (tasks.commit pid s).objects pid' ptr)
    (dirs : next.held = held) : Balanced next (s.cnts (tasks.hidden cnts pid)) := by
  -- An object in the heap of another task is hidden before and after the call.
  have apart : ∀ pid' addr obj, pid' ≠ pid → tasks.objects pid' (.user addr) = some obj →
      s.inodes (.user addr) = none ∧
        tasks.hidden cnts pid (.user addr) = some obj.iOpenCnts := by
    intro pid' addr obj other live
    have unseen : tasks.objects pid (.user addr) = none := by
      by_contra sees
      obtain ⟨obj', live'⟩ := Option.ne_none_iff_exists'.mp sees
      exact other (balanced.owner pid' pid addr obj obj' live live')
    have count : tasks.hidden cnts pid (.user addr) = some obj.iOpenCnts := by
      rw [Tasks.hidden, unseen]
      exact balanced.seen pid' _ obj live
    refine ⟨counted.secret _ ?_, count⟩
    rw [count]
    exact Option.some_ne_none _
  have own : ∀ ptr obj, s.inodes ptr = some obj →
      s.cnts (tasks.hidden cnts pid) ptr = some obj.iOpenCnts :=
    fun ptr obj live => (counted.visible live).1
  constructor
  · intro pid' ptr obj live
    rw [objects, objects_commit] at live
    by_cases sees : pid' = pid ∨ ptr.inKernel = true
    · rw [if_pos sees] at live
      exact own ptr obj live
    · rw [if_neg sees] at live
      cases ptr with
      | kernel addr => exact absurd (.inr rfl) sees
      | user addr =>
          obtain ⟨gone, count⟩ := apart pid' addr obj (fun same => sees (.inl same)) live
          rw [FsState.cnts, gone]
          exact count
  · intro ptr count
    cases live : s.inodes ptr with
    | some obj => exact ⟨pid, obj, by rw [objects, objects_commit, if_pos (.inl rfl), live]⟩
    | none =>
        rw [FsState.cnts, live] at count
        have unseen : ¬ (tasks.objects pid ptr).isSome = true := by
          intro sees
          rw [Tasks.hidden, if_pos sees] at count
          exact count rfl
        have known : cnts ptr ≠ none := by
          rw [Tasks.hidden, if_neg unseen] at count
          exact count
        obtain ⟨pid', obj, live'⟩ := balanced.known ptr known
        have other : ¬ (pid' = pid ∨ ptr.inKernel = true) := by
          intro either
          apply unseen
          rcases either with rfl | kernel
          · rw [live']
            rfl
          · cases ptr with
            | kernel addr => exact Option.isSome_iff_exists.mpr ⟨obj, live'⟩
            | user addr => cases kernel
        exact ⟨pid', obj, by rw [objects, objects_commit, if_neg other, live']⟩
  · intro first second addr obj obj' live live'
    have live : next.objects first (.user addr) = some obj := live
    have live' : next.objects second (.user addr) = some obj' := live'
    rw [objects, objects_commit] at live live'
    have cases_ : ∀ pid', (pid' = pid ∨ (Ptr.user addr).inKernel = true) ↔ pid' = pid :=
      fun pid' => or_iff_left Bool.false_ne_true
    simp only [cases_] at live live'
    by_cases one : first = pid
    · by_cases two : second = pid
      · rw [one, two]
      · rw [if_pos one] at live
        rw [if_neg two] at live'
        rw [(apart second addr obj' two live').1] at live
        cases live
    · by_cases two : second = pid
      · rw [if_neg one] at live
        rw [if_pos two] at live'
        rw [(apart first addr obj one live).1] at live'
        cases live'
      · rw [if_neg one] at live
        rw [if_neg two] at live'
        exact balanced.owner first second addr obj obj' live live'
  · rw [fs]
    exact counted.nodup
  · rw [fs]
    exact counted.fresh
  · unfold Tasks.references
    rw [fs, dirs]
    exact counted.opened
  · unfold Tasks.references
    rw [fs, dirs]
    exact counted.counts

/-! ### The directories of the tasks -/

/-- One task's directories change. -/
theorem held_update (next : Tasks part) (alive : pid ∈ tasks.live) {dirs : List Dir}
    (live : next.live = tasks.live)
    (changed : next.dirs = Function.update tasks.dirs pid dirs) (ptr : Ptr) :
    next.held ptr + (tasks.dirs pid).count (.heap ptr) =
      tasks.held ptr + dirs.count (.heap ptr) := by
  have others : ∑ p ∈ tasks.live.erase pid, (next.dirs p).count (.heap ptr) =
      ∑ p ∈ tasks.live.erase pid, (tasks.dirs p).count (.heap ptr) := by
    apply Finset.sum_congr rfl
    intro p member
    rw [changed, Function.update_of_ne (Finset.ne_of_mem_erase member)]
  have here : next.dirs pid = dirs := by
    rw [changed, Function.update_self]
  unfold Tasks.held
  rw [live, ← Finset.sum_erase_add _ _ alive, ← Finset.sum_erase_add _ _ alive, others, here]
  omega

theorem count_cons_dir (dir : Dir) (dirs : List Dir) (ptr : Ptr) :
    (dir :: dirs).count (.heap ptr) = dirs.count (.heap ptr) + dir.refs ptr := by
  cases dir with
  | root => exact List.count_cons_of_ne (by simp)
  | heap inode =>
      rw [List.count_cons, Dir.refs, Pi.single_apply]
      by_cases same : ptr = inode
      · simp [same]
      · simp [same, Ne.symm same]

/-- A directory is added. -/
theorem held_addDir (tasks : Tasks part) (alive : pid ∈ tasks.live) (dir : Dir) :
    (tasks.addDir pid (some dir)).held = tasks.held + dir.refs := by
  funext ptr
  have moved := held_update (tasks.addDir pid (some dir)) alive rfl rfl ptr
  rw [count_cons_dir] at moved
  rw [Pi.add_apply]
  omega

/-- A directory is taken away. -/
theorem held_dropDir (alive : pid ∈ tasks.live) {dir : Dir} (known : dir ∈ tasks.dirs pid) :
    tasks.held = (tasks.dropDir pid dir).held + dir.refs := by
  funext ptr
  have moved := held_update (tasks.dropDir pid dir) alive rfl rfl ptr
  rw [(List.perm_cons_erase known).count_eq, count_cons_dir] at moved
  rw [Pi.add_apply]
  omega

/-! ### Steps -/

/-- The calls of the specification: all but `sys_fork` and `sys_exit`. -/
def OpensFiles : FsOp → Prop
  | .fork _ => False
  | .exit => False
  | _ => True

/-- The call is not a `sys_open` that leaves a directory open. -/
def ClosesDirs (tasks : Tasks part) (label : FsLabel) : Prop :=
  ∀ pathname flags, label.op = .openFile pathname flags →
    ¬ LeavesDirOpen (tasks.view label.pid) label.junk pathname.chars flags

theorem Mounted.balanced (mounted : Mounted tasks) :
    Balanced tasks fun ptr => if ptr = tasks.fs.rootDir then some 1 else none := by
  obtain ⟨addr, root, is, below, live, once, alone⟩ := mounted.root
  have references : ∀ ptr, tasks.references ptr = if tasks.fs.rootDir = ptr then 1 else 0 := by
    intro ptr
    have slots : countOf (Finset.range maxFileOpen) (fun g => (tasks.fs.fileTable g).fdInode)
        (some ptr) = 0 := by
      rw [countOf_eq_zero]
      intro g small
      rw [mounted.noFile g (Finset.mem_range.mp small)]
      exact (Option.some_ne_none ptr).symm
    have dirs : tasks.held ptr = 0 := by
      apply Finset.sum_eq_zero
      intro pid _
      rw [mounted.noDir pid, List.count_nil]
    rw [Tasks.references, FsState.references, slots, dirs, Nat.zero_add, Nat.add_zero]
  constructor
  · intro pid ptr obj sees
    cases ptr with
    | user other =>
        change (tasks.task pid).heap other = some obj at sees
        rw [mounted.heaps] at sees
        cases sees
    | kernel other =>
        change tasks.fs.inodes (.kernel other) = some obj at sees
        by_cases same : other = addr
        · rw [same, live] at sees
          cases sees
          rw [same, is, if_pos rfl, once]
        · rw [alone other same] at sees
          cases sees
  · intro ptr known
    by_cases same : ptr = tasks.fs.rootDir
    · refine ⟨0, root, ?_⟩
      rw [same, is]
      exact live
    · rw [if_neg same] at known
      exact absurd rfl known
  · intro pid pid' other obj obj' sees
    rw [mounted.heaps] at sees
    cases sees
  · rw [mounted.openInodes]
    exact List.nodup_singleton _
  · intro ptr new
    have other : ptr ≠ tasks.fs.rootDir := by
      intro same
      rw [same, is] at new
      exact absurd below (Nat.not_lt.mpr new)
    exact if_neg other
  · intro ptr
    rw [references, mounted.openInodes, List.mem_singleton, eq_comm]
    by_cases same : tasks.fs.rootDir = ptr
    · simp [same]
    · simp [same]
  · intro ptr listed
    rw [mounted.openInodes, List.mem_singleton] at listed
    rw [references, listed, if_pos rfl, if_pos rfl]

/-- A step that leaves no directory open keeps everything counted. -/
theorem balanced_step {label : FsLabel} (balanced : Balanced tasks cnts)
    (closes : ClosesDirs tasks label) (admitted : OpensFiles label.op)
    (stepped : exec tasks label = some next) : ∃ cnts', Balanced next cnts' := by
  obtain ⟨pid, junk, op⟩ := label
  have seen := balanced.view pid
  have discipline := @counted_discipline part (tasks.hidden cnts pid)
  cases op with
  | openFile pathname flags =>
      obtain ⟨-, fd, s, ran, rfl⟩ := exec_openFile stepped
      have after := seen.sysOpen (closes pathname flags rfl) ran
      cases fd with
      | none => exact ⟨_, balanced.step after rfl (fun _ _ => rfl) rfl⟩
      | some fd =>
          refine ⟨_, balanced.step after rfl (fun pid' ptr => ?_) rfl⟩
          cases ptr <;> rfl
  | close fd =>
      obtain ⟨-, done, s, ran, rfl⟩ := exec_close stepped
      exact ⟨_, balanced.step (sysClose_counted _ _ _ _ seen ran) rfl (fun _ _ => rfl) rfl⟩
  | unlink pathname =>
      obtain ⟨-, done, s, ran, rfl⟩ := exec_unlink stepped
      exact ⟨_, balanced.step (discipline.sysUnlink _ _ _ _ _ seen ran) rfl (fun _ _ => rfl) rfl⟩
  | mkdir pathname =>
      obtain ⟨-, done, s, ran, rfl⟩ := exec_mkdir stepped
      exact ⟨_, balanced.step (discipline.sysMkdir _ _ _ _ _ seen ran) rfl (fun _ _ => rfl) rfl⟩
  | rmdir pathname =>
      obtain ⟨-, done, s, ran, rfl⟩ := exec_rmdir stepped
      exact ⟨_, balanced.step (discipline.sysRmdir _ _ _ _ _ seen ran) rfl (fun _ _ => rfl) rfl⟩
  | opendir name =>
      obtain ⟨alive, dir, s, ran, rfl⟩ := exec_opendir stepped
      have after := discipline.sysOpendir _ _ _ _ _ seen ran
      cases dir with
      | none => exact ⟨_, balanced.step after rfl (fun _ _ => rfl) rfl⟩
      | some dir =>
          refine ⟨_, balanced.step after rfl (fun pid' ptr => ?_) ?_⟩
          · cases ptr <;> rfl
          · exact held_addDir (tasks.commit pid s) alive dir
  | closedir dir =>
      obtain ⟨alive, known, s, ran, rfl⟩ := exec_closedir stepped
      have before := seen
      rw [show tasks.held = (tasks.dropDir pid dir).held + dir.refs from
        held_dropDir alive known] at before
      refine ⟨_, balanced.step (discipline.dirClose _ _ _ _ before ran) rfl (fun pid' ptr =>
        ?_) rfl⟩
      cases ptr <;> rfl
  | chdir path =>
      obtain ⟨-, inodeNo, s, ran, rfl⟩ := exec_chdir stepped
      have after := discipline.sysChdir _ _ _ _ _ seen ran
      cases inodeNo with
      | none => exact ⟨_, balanced.step after rfl (fun _ _ => rfl) rfl⟩
      | some inodeNo =>
          refine ⟨_, balanced.step after rfl (fun pid' ptr => ?_) rfl⟩
          cases ptr with
          | kernel addr => rfl
          | user addr =>
              change (Function.update (tasks.commit pid s).task pid _ pid').heap addr =
                ((tasks.commit pid s).task pid').heap addr
              by_cases here : pid' = pid
              · rw [here, Function.update_self]
              · rw [Function.update_of_ne here]
  | stat path =>
      obtain ⟨-, stat, s, ran, rfl⟩ := exec_stat stepped
      exact ⟨_, balanced.step (discipline.sysStat _ _ _ _ _ seen ran) rfl (fun _ _ => rfl) rfl⟩
  | fork child => exact admitted.elim
  | exit => exact admitted.elim

/-- In every run without a call that leaves a directory open, everything is counted. -/
theorem reachable_balanced
    (reachable : ((tasksUsing part OpensFiles).under ClosesDirs).Reachable tasks) :
    ∃ cnts, Balanced tasks cnts := by
  induction reachable with
  | initial mounted => exact ⟨_, Mounted.balanced mounted⟩
  | step label _ taken ih =>
      obtain ⟨cnts, balanced⟩ := ih
      exact balanced_step balanced taken.1 taken.2.1 taken.2.2

/-- Opening a file that exists and closing it again leaves the list of open inodes and their open
counts as they were, if the opening leaves no directory open. -/
def ReopensExactly (tasks : Tasks part) : Prop :=
  ∀ pid junk junk' pathname flags fd s opened closed,
    ClosesDirs tasks ⟨pid, junk, .openFile pathname flags⟩ → flags &&& oCreat = 0 →
    (sysOpen junk pathname.chars flags).run (tasks.view pid) = .ok (some fd, s) →
    exec tasks ⟨pid, junk, .openFile pathname flags⟩ = some opened →
    exec opened ⟨pid, junk', .close fd⟩ = some closed →
    closed.fs.openInodes = tasks.fs.openInodes ∧ ∀ ptr ∈ tasks.fs.openInodes, ∀ pid',
      (closed.objects pid' ptr).map Inode.iOpenCnts = (tasks.objects pid' ptr).map Inode.iOpenCnts

/-- What a task sees after its own call is what the call left. -/
theorem view_commit (same : s.userProcess = (tasks.task pid).userProcess) :
    (tasks.commit pid s).view pid = s := by
  have inodes : (tasks.commit pid s).objects pid = s.inodes := by
    funext ptr
    rw [objects_commit, if_pos (.inl rfl)]
  have task : (tasks.commit pid s).task pid = { tasks.task pid with
      fdTable := s.fdTable
      heap := fun addr => s.inodes (.user addr) } := Function.update_self ..
  unfold Tasks.view
  rw [inodes, task]
  dsimp only
  rw [← same]
  rfl

theorem Balanced.reopensExactly (balanced : Balanced tasks cnts) : ReopensExactly tasks := by
  intro pid junk junk' pathname flags fd s opened closed closes noCreat ran opens drops
  obtain ⟨-, fd', s₁, ran', rfl⟩ := exec_openFile opens
  rw [ran] at ran'
  cases ran'
  obtain ⟨-, done, s₂, ran', rfl⟩ := exec_close drops
  have seen := balanced.view pid
  have user := sysOpen_userProcess ran
  have view : ((tasks.commit pid s).recordOpen pid (some fd)).view pid = s := view_commit user
  rw [view] at ran'
  obtain ⟨listed, counts⟩ := sysOpen_sysClose seen (closes pathname flags rfl) noCreat ran ran'
  have after := sysClose_counted _ _ _ _ (seen.sysOpen (closes pathname flags rfl) ran) ran'
  refine ⟨listed, ?_⟩
  intro ptr member pid'
  have counts := counts ptr member
  rw [objects_commit]
  by_cases sees : pid' = pid ∨ ptr.inKernel = true
  · rw [if_pos sees]
    have same : tasks.objects pid' ptr = tasks.objects pid ptr := by
      rcases sees with rfl | kernel
      · rfl
      · cases ptr with
        | kernel addr => rfl
        | user addr => cases kernel
    rw [same]
    cases live : tasks.objects pid ptr with
    | some obj =>
        have hidden : tasks.hidden cnts pid ptr = none := by
          rw [Tasks.hidden, live]
          rfl
        rw [FsState.cnts, FsState.cnts, hidden, Option.or_none, Option.or_none] at counts
        rw [counts, ← live]
        rfl
    | none =>
        have hidden : tasks.hidden cnts pid ptr = some (tasks.references ptr) := by
          rw [Tasks.hidden, live]
          exact balanced.counts ptr member
        rw [after.secret ptr (by rw [hidden]; exact Option.some_ne_none _)]
  · rw [if_neg sees]
    have before : ((tasks.commit pid s).recordOpen pid (some fd)).objects pid' ptr =
        (tasks.commit pid s).objects pid' ptr := by
      cases ptr <;> rfl
    rw [before, objects_commit, if_neg sees]

/-- **Open counts.** In every run in which `sys_open` of a file that exists finds it in the root
directory, the open count of each open inode is the number of references to it, and opening a file
that exists and closing it again leaves the open inodes and their counts as they were. -/
theorem open_counts_exact
    (reachable : ((tasksUsing part OpensFiles).under ClosesDirs).Reachable tasks) :
    CountsExact tasks ∧ ReopensExactly tasks := by
  obtain ⟨cnts, balanced⟩ := reachable_balanced reachable
  exact ⟨balanced.countsExact, balanced.reopensExactly⟩

end Tasks

/-- Thread 0 makes a file. -/
theorem open_counts_exact_created : ∃ tasks : Tasks somePartition,
    tasks.fs.openInodes = [.kernel 1, .kernel 0] ∧ CountsExact tasks ∧ ReopensExactly tasks := by
  have found : ((boot {0} fun _ => false).bind fun tasks =>
      exec tasks ⟨0, 0, .openFile pathA (oCreat ||| oRdwr)⟩).any
        (fun (tasks : Tasks somePartition) =>
          decide (tasks.fs.openInodes = [.kernel 1, .kernel 0])) = true := by
    decide +kernel
  obtain ⟨tasks, ran, listed⟩ := Option.any_eq_true _ _ |>.mp found
  obtain ⟨booted, boots, stepped⟩ := Option.bind_eq_some_iff.mp ran
  have start : ((tasksUsing somePartition OpensFiles).under ClosesDirs).Reachable booted :=
    .initial (boot_mounted boots)
  refine ⟨tasks, of_decide_eq_true listed, open_counts_exact (start.step
    ⟨0, 0, .openFile pathA (oCreat ||| oRdwr)⟩ ⟨?_, trivial, stepped⟩)⟩
  intro pathname flags is leaves
  cases is
  obtain ⟨_, _, _, opens, _⟩ := leaves
  exact absurd opens.noCreat (by decide)

/-- The path `/a/f`. -/
def pathAF : CString := ⟨[slash, 0x61, slash, 0x66], by decide⟩

/-- Thread 0 makes a file in a directory, closes it, and opens it. -/
def openInDirectory : List FsLabel :=
  [⟨0, 0, .mkdir pathA⟩, ⟨0, 0, .openFile pathAF (oCreat ||| oRdwr)⟩, ⟨0, 0, .close 3⟩,
    ⟨0, 0, .openFile pathAF 0⟩]

theorem opensFiles_openInDirectory : ∀ label ∈ openInDirectory, OpensFiles label.op := by
  intro label member
  simp only [openInDirectory, List.mem_cons, List.not_mem_nil, or_false] at member
  rcases member with rfl | rfl | rfl | rfl <;> exact trivial

/-- The directory stays open without a reference to it. -/
theorem directory_stays_open : ¬ ∀ tasks : Tasks somePartition,
    (tasksUsing somePartition OpensFiles).Reachable tasks → CountsExact tasks := by
  intro all
  have found : (runFrom {0} (fun _ => false) openInDirectory).any
      (fun (tasks : Tasks somePartition) => tasks.fs.openInodes.any fun ptr =>
        (tasks.objects 0 ptr).any fun obj => decide (obj.iOpenCnts ≠ tasks.references ptr)) =
          true := by
    decide +kernel
  obtain ⟨tasks, ran, facts⟩ := Option.any_eq_true _ _ |>.mp found
  obtain ⟨ptr, listed, fact⟩ := List.any_eq_true.mp facts
  obtain ⟨obj, sees, differ⟩ := Option.any_eq_true _ _ |>.mp fact
  have reachable := reachable_runFrom opensFiles_openInDirectory ran
  exact of_decide_eq_true differ ((all tasks reachable ptr listed).2 0 obj sees)

end UKernel.Fs
