import UKernel.Fs.SharedSlots

/-! # The list of open inodes in runs

Every call of every task keeps the list of open inodes sound: it has no duplicates, and each task
sees a positive open count in every open inode that it sees (`UKernel.Fs.reachable_listSound`).
-/

namespace UKernel.Fs

open UKernel.Library

variable {part : Partition} {α β : Type}

/-! ## Calls -/

/-- A call allocated what it opened, unless it was open before, and kept the list sound. -/
structure ListGrows (s s' : FsState part) : Prop where
  nextAddr : s.nextAddr ≤ s'.nextAddr
  opened : ∀ p ∈ s'.openInodes, p ∈ s.openInodes ∨ s.nextAddr ≤ p.addr
  sound : ListSound s → ListSound s'

section

variable {s s' s'' : FsState part}

theorem ListGrows.trans (first : ListGrows s s') (second : ListGrows s' s'') :
    ListGrows s s'' where
  nextAddr := Nat.le_trans first.nextAddr second.nextAddr
  opened p listed := by
    rcases second.opened p listed with before | new
    · exact first.opened p before
    · exact .inr (Nat.le_trans first.nextAddr new)
  sound before := second.sound (first.sound before)

theorem SameFiles.grows (same : SameFiles s s') : ListGrows s s' where
  nextAddr := same.nextAddr
  opened p listed := (same.opened p listed).imp id And.left
  sound := same.sound

theorem SameCounts.grows (same : SameCounts s s') : ListGrows s s' :=
  same.sameFiles.grows

instance : Std.Refl (@ListGrows part) := ⟨fun s => (SameCounts.refl s).grows⟩

instance : IsTrans (FsState part) ListGrows := ⟨fun _ _ _ => ListGrows.trans⟩

/-- The list does not depend on the file table and the descriptors. -/
theorem ListGrows.tables (grows : ListGrows s s') (fileTable : Nat → File)
    (fdTable : Nat → Option Nat) :
    ListGrows s { s' with fileTable := fileTable, fdTable := fdTable } where
  nextAddr := grows.nextAddr
  opened := grows.opened
  sound before :=
    have after := grows.sound before
    ⟨after.nodup, after.old, after.fresh, after.positive⟩

theorem ListGrows.fill (grows : ListGrows s s') (g : Nat) (flag : Byte) (ptr : Ptr)
    (fdTable : Nat → Option Nat) : ListGrows s (s'.fill g flag ptr fdTable) :=
  grows.tables _ _

/-- An inode object is allocated. -/
theorem create_grows (s : FsState part) : ListGrows s s.create where
  nextAddr := Nat.le_succ _
  opened p listed := by
    rcases List.mem_cons.mp listed with rfl | before
    · exact .inr (Nat.le_of_eq (newPtr_addr s).symm)
    · exact .inl before
  sound before := by
    have apart : ∀ p : Ptr, p.addr ≠ s.nextAddr → p ≠ s.newPtr := by
      rintro p other rfl
      exact other (newPtr_addr s)
    have other : ∀ p ∈ s.openInodes, p ≠ s.newPtr :=
      fun p listed => apart p (Nat.ne_of_lt (before.old p listed))
    refine ⟨List.nodup_cons.mpr ⟨fun listed => other _ listed rfl, before.nodup⟩, ?_, ?_, ?_⟩
    · intro p listed
      rcases List.mem_cons.mp listed with rfl | earlier
      · exact (newPtr_addr s).trans_lt (Nat.lt_succ_self _)
      · exact Nat.lt_succ_of_lt (before.old p earlier)
    · intro p new
      have new' : s.nextAddr < p.addr := new
      exact (Function.update_of_ne (apart p (Nat.ne_of_gt new')) _ _).trans
        (before.fresh p (Nat.le_of_lt new'))
    · intro p listed obj live
      rcases List.mem_cons.mp listed with rfl | earlier
      · cases (Function.update_self s.newPtr _ s.inodes).symm.trans live
        exact Nat.one_pos
      · exact before.positive p earlier obj
          ((Function.update_of_ne (other p earlier) _ _).symm.trans live)

/-- An inode object is allocated and freed. -/
theorem discard_grows (s : FsState part) (table : Nat → File) : ListGrows s (s.discard table) where
  nextAddr := Nat.le_succ _
  opened _ listed := .inl listed
  sound before := by
    have gone : ∀ p obj, (s.discard table).inodes p = some obj → s.inodes p = some obj := by
      intro p obj live
      by_cases here : p = s.newPtr
      · rw [here] at live
        cases (Function.update_self s.newPtr _ s.inodes).symm.trans live
      · exact (Function.update_of_ne here _ _).symm.trans live
    refine ⟨before.nodup, fun p listed => Nat.lt_succ_of_lt (before.old p listed), ?_,
      fun p listed obj live => before.positive p listed obj (gone p obj live)⟩
    intro p new
    by_contra there
    obtain ⟨obj, live⟩ := Option.ne_none_iff_exists'.mp there
    have old := gone p obj live
    rw [before.fresh p (Nat.le_of_succ_le new)] at old
    cases old

theorem discard_opensOnly (s : FsState part) : OpensOnly s (s.discard s.fileTable) := by
  have same : ∀ p : Ptr, p.addr < s.nextAddr →
      (s.discard s.fileTable).inodes p = s.inodes p := by
    intro p old
    have other : p ≠ s.newPtr := by
      rintro rfl
      rw [newPtr_addr] at old
      exact Nat.lt_irrefl _ old
    exact Function.update_of_ne other _ _
  have grows := discard_grows s s.fileTable
  refine ⟨⟨rfl, rfl, rfl, rfl, grows.nextAddr, fun _ listed => .inl listed, List.filter_sublist,
    grows.sound, fun before => ⟨grows.sound before.sound, before.kernel, ?_⟩⟩, rfl, rfl, rfl, ?_⟩
  · intro p listed
    rw [same p (before.sound.old p listed)]
    exact before.live p listed
  · intro p old obj live
    exact ⟨obj, (same p old).symm.trans live, rfl⟩

theorem fileOpen_grows (inodeNo : Word) (flag : Byte) :
    Keeps ListGrows (fileOpen inodeNo flag : FsCall part (Option Nat)) := by
  intro s fd s' ran
  rcases fileOpen_returns ran with ⟨_, _, rfl⟩ | ⟨g, ptr, opened, _, opens, _, same⟩
  · exact Std.Refl.refl _
  · exact ((inodeOpen_keepsFiles _ _ _ _ opens).grows.fill _ _ _ _).trans same.grows

theorem fileCreate_grows (dir : Ptr) (filename : List Byte) (flag : Byte) :
    Keeps ListGrows (fileCreate dir filename flag : FsCall part (Option Nat)) := by
  intro s fd s' ran
  rcases fileCreate_returns ran with ⟨_, same | ⟨table, _, same⟩⟩ | ⟨g, _, _, same⟩
  · exact same.grows
  · exact (discard_grows s table).trans same.grows
  · exact ((create_grows s).fill _ _ _ _).trans same.grows

theorem sysOpen_grows (junk : Word) (pathname : List Byte) (flags : Byte) :
    Keeps ListGrows (sysOpen junk pathname flags : FsCall part (Option Nat)) := by
  intro s fd s' ran
  cases sysOpen_returns ran with
  | slash => exact Std.Refl.refl _
  | refused search closes =>
      exact (searchFile_keepsFiles _ _ _ _ _ search).grows.trans
        (dirClose_keepsFiles _ _ _ _ closes).grows
  | existing opens ran =>
      exact (searchFile_keepsFiles _ _ _ _ _ opens.search).grows.trans
        (fileOpen_grows _ _ _ _ _ ran)
  | created new creates closes =>
      exact ((searchFile_keepsFiles _ _ _ _ _ new.search).grows.trans
        (fileCreate_grows _ _ _ _ _ _ creates)).trans (dirClose_keepsFiles _ _ _ _ closes).grows

theorem fileClose_grows (g : Nat) : Keeps ListGrows (fileClose g : FsCall part Unit) := by
  intro s done s' ran
  obtain ⟨ptr, inode, closed, _, live, closes, rfl⟩ := fileClose_returns ran
  have stores : Counting ptr inode.iOpenCnts
    (store ptr { inode with writeDeny := false } : FsCall part Unit) := .store rfl
  have stored := stores s () _ (store_returns.mpr rfl) (by rw [live, Option.map_some])
  exact (stored.grows.trans (inodeClose_keepsFiles _ _ _ _ closes).grows).tables _ _

theorem sysClose_grows (fd : Int) : Keeps ListGrows (sysClose fd : FsCall part Bool) := by
  intro s done s' ran
  rcases sysClose_returns ran with ⟨_, rfl⟩ | ⟨g, closed, _, _, _, _, closes, rfl⟩
  · exact Std.Refl.refl _
  · exact (fileClose_grows _ _ _ _ closes).tables _ _

theorem closeFds_grows (fds : List Nat) : Keeps ListGrows (closeFds fds : FsCall part Unit) := by
  induction fds with
  | nil => exact .pure ()
  | cons fd fds ih =>
      unfold closeFds
      refine .bind .get fun s => ?_
      split
      · exact ih
      · exact .bind (sysClose_grows _) fun _ => ih

end

/-! ## Runs -/

section Tasks

variable {tasks next : Tasks part} {pid pid' : Pid} {s : FsState part}

/-- The list of open inodes is sound for every task. -/
def ListsSound (tasks : Tasks part) : Prop :=
  ∀ pid, ListSound (tasks.view pid)

/-- After a call of one task, a task sees a sound list if it has a heap from before the call. -/
theorem ListGrows.view (owner : Pid) (grows : ListGrows (tasks.view pid) s)
    (before : ListsSound tasks)
    (fs : next.fs = s) (heap : (next.task pid').heap = (tasks.task owner).heap) :
    ListSound (next.view pid') := by
  have after := grows.sound (before pid)
  refine ⟨?_, ?_, ?_, ?_⟩
  · change next.fs.openInodes.Nodup
    rw [fs]
    exact after.nodup
  · change ∀ ptr ∈ next.fs.openInodes, ptr.addr < next.fs.nextAddr
    rw [fs]
    exact after.old
  · intro ptr new
    have new : next.fs.nextAddr ≤ ptr.addr := new
    rw [fs] at new
    cases ptr with
    | kernel addr =>
        change next.fs.inodes (.kernel addr) = none
        rw [fs]
        exact after.fresh _ new
    | user addr =>
        change (next.task pid').heap addr = none
        rw [heap]
        exact (before owner).fresh (.user addr) (Nat.le_trans grows.nextAddr new)
  · intro ptr listed obj live
    have listed : ptr ∈ next.fs.openInodes := listed
    rw [fs] at listed
    cases ptr with
    | kernel addr =>
        have live : next.fs.inodes (.kernel addr) = some obj := live
        rw [fs] at live
        exact after.positive _ listed obj live
    | user addr =>
        have live : (next.task pid').heap addr = some obj := live
        rw [heap] at live
        rcases grows.opened _ listed with old | new
        · exact (before owner).positive _ old obj live
        · cases ((before owner).fresh (.user addr) new).symm.trans live

/-- The objects that the running task sees after its call. -/
theorem ListSound.commit (sound : ListSound s) : ListSound ((tasks.commit pid s).view pid) := by
  have objects : (tasks.commit pid s).objects pid = s.inodes := by
    funext ptr
    cases ptr with
    | kernel addr => rfl
    | user addr => simp [Tasks.objects, Tasks.commit]
  refine ⟨sound.nodup, sound.old, ?_, ?_⟩
  · change ∀ ptr, _ → (tasks.commit pid s).objects pid ptr = none
    rw [objects]
    exact sound.fresh
  · change ∀ ptr ∈ _, ∀ obj, (tasks.commit pid s).objects pid ptr = some obj → _
    rw [objects]
    exact sound.positive

/-- A call keeps the lists of all tasks sound. -/
theorem ListGrows.lists (grows : ListGrows (tasks.view pid) s) (before : ListsSound tasks) :
    ListsSound (tasks.commit pid s) := by
  intro pid'
  by_cases here : pid' = pid
  · rw [here]
    exact (grows.sound (before pid)).commit
  · refine grows.view pid' before rfl ?_
    change (Function.update tasks.task pid _ pid').heap = _
    rw [Function.update_of_ne here]

/-- What a task sees of the list depends on the shared state and its heap. -/
theorem ListSound.view_congr (sound : ListSound (tasks.view pid)) (fs : next.fs = tasks.fs)
    (heap : (next.task pid).heap = (tasks.task pid).heap) : ListSound (next.view pid) := by
  have objects : next.objects pid = tasks.objects pid := by
    funext ptr
    cases ptr with
    | kernel addr => exact congrArg (fun fs : FsState part => fs.inodes (.kernel addr)) fs
    | user addr => exact congrFun heap addr
  refine ⟨?_, ?_, ?_, ?_⟩
  · change next.fs.openInodes.Nodup
    rw [fs]
    exact sound.nodup
  · change ∀ ptr ∈ next.fs.openInodes, ptr.addr < next.fs.nextAddr
    rw [fs]
    exact sound.old
  · change ∀ ptr, next.fs.nextAddr ≤ _ → next.objects pid ptr = none
    rw [fs, objects]
    exact sound.fresh
  · change ∀ ptr ∈ next.fs.openInodes, ∀ obj, next.objects pid ptr = some obj → _
    rw [fs, objects]
    exact sound.positive

theorem ListsSound.of_same (lists : ListsSound tasks) (fs : next.fs = tasks.fs)
    (heap : ∀ pid, (next.task pid).heap = (tasks.task pid).heap) : ListsSound next :=
  fun pid => (lists pid).view_congr fs (heap pid)

/-- A step keeps the lists of all tasks sound. -/
theorem listsSound_step {label : FsLabel} (before : ListsSound tasks)
    (stepped : exec tasks label = some next) : ListsSound next := by
  obtain ⟨pid, junk, op⟩ := label
  have discipline := sameFiles_discipline (tasks.view pid)
  have refl : SameFiles (tasks.view pid) (tasks.view pid) := Std.Refl.refl _
  cases op with
  | openFile pathname flags =>
      obtain ⟨-, fd, s, ran, rfl⟩ := exec_openFile stepped
      have after := (sysOpen_grows _ _ _ _ _ _ ran).lists before
      cases fd with
      | none => exact after
      | some fd => exact after.of_same rfl fun _ => rfl
  | close fd =>
      obtain ⟨-, done, s, ran, rfl⟩ := exec_close stepped
      exact (sysClose_grows _ _ _ _ ran).lists before
  | unlink pathname =>
      obtain ⟨-, done, s, ran, rfl⟩ := exec_unlink stepped
      exact (@QuietDiscipline.sysUnlink _ _ 0 discipline _ _ _ _ _ refl ran).grows.lists before
  | mkdir pathname =>
      obtain ⟨-, done, s, ran, rfl⟩ := exec_mkdir stepped
      exact (@QuietDiscipline.sysMkdir _ _ 0 discipline _ _ _ _ _ refl ran).grows.lists before
  | rmdir pathname =>
      obtain ⟨-, done, s, ran, rfl⟩ := exec_rmdir stepped
      exact (@QuietDiscipline.sysRmdir _ _ 0 discipline _ _ _ _ _ refl ran).grows.lists before
  | opendir name =>
      obtain ⟨-, dir, s, ran, rfl⟩ := exec_opendir stepped
      have same := @Discipline.sysOpendir _ _ 0 discipline.toDiscipline _ _ _ _ _ refl ran
      have after := (show SameFiles _ _ from same).grows.lists before
      cases dir with
      | none => exact after
      | some dir => exact after.of_same rfl fun _ => rfl
  | closedir dir =>
      obtain ⟨-, -, s, ran, rfl⟩ := exec_closedir stepped
      have after := (dirClose_keepsFiles _ _ _ _ ran).grows.lists before
      exact after.of_same rfl fun _ => rfl
  | chdir path =>
      obtain ⟨-, inodeNo, s, ran, rfl⟩ := exec_chdir stepped
      have same := @Discipline.sysChdir _ _ 0 discipline.toDiscipline _ _ _ _ _ refl ran
      have after := (show SameFiles _ _ from same).grows.lists before
      cases inodeNo with
      | none => exact after
      | some inodeNo =>
          refine after.of_same rfl fun pid' => ?_
          change (Function.update (tasks.commit pid s).task pid _ pid').heap = _
          by_cases here : pid' = pid
          · rw [here, Function.update_self]
          · rw [Function.update_of_ne here]
  | stat path =>
      obtain ⟨-, stat, s, ran, rfl⟩ := exec_stat stepped
      have same := @Discipline.sysStat _ _ 0 discipline.toDiscipline _ _ _ _ _ refl ran
      exact (show SameFiles _ _ from same).grows.lists before
  | fork child =>
      obtain ⟨-, -, s, ran, rfl⟩ := exec_fork stepped
      have grows := (updateInodeOpenCnts_keepsFiles _ _ _ _ ran).grows
      intro pid'
      by_cases born : pid' = child
      · refine grows.view pid before rfl ?_
        change (Function.update (tasks.commit pid s).task child _ pid').heap = _
        rw [born, Function.update_self]
      · refine (grows.lists before pid').view_congr rfl ?_
        change (Function.update (tasks.commit pid s).task child _ pid').heap = _
        rw [Function.update_of_ne born]
  | exit =>
      obtain ⟨-, s, ran, rfl⟩ := exec_exit stepped
      have after := (closeFds_grows _ _ _ _ ran).lists before
      exact after.of_same rfl fun _ => rfl

theorem Mounted.listsSound (mounted : Mounted tasks) : ListsSound tasks := by
  obtain ⟨addr, root, is, below, live, once, alone⟩ := mounted.root
  have only : ∀ ptr ∈ tasks.fs.openInodes, ptr = .kernel addr := by
    intro ptr listed
    rw [mounted.openInodes, List.mem_singleton] at listed
    exact listed.trans is
  intro pid
  refine ⟨?_, ?_, ?_, ?_⟩
  · change tasks.fs.openInodes.Nodup
    rw [mounted.openInodes]
    exact List.nodup_singleton _
  · intro ptr listed
    rw [only ptr listed]
    exact below
  · intro ptr new
    cases ptr with
    | kernel other =>
        refine alone other ?_
        rintro rfl
        exact absurd below (Nat.not_lt.mpr new)
    | user other => exact mounted.heaps pid other
  · intro ptr listed obj found
    have found : tasks.objects pid ptr = some obj := found
    rw [only ptr listed] at found
    cases live.symm.trans found
    rw [once]
    exact Nat.one_pos

/-- **The list of open inodes.** In every run every task sees a sound list. -/
theorem reachable_listSound {admits : FsOp → Prop}
    (reachable : (tasksUsing part admits).Reachable tasks) (pid : Pid) :
    ListSound (tasks.view pid) := by
  have lists : ListsSound tasks := by
    apply reachable.invariant ListsSound
    · exact fun tasks mounted => Mounted.listsSound mounted
    · exact fun tasks label next _ before taken => listsSound_step before taken.2
  exact lists pid

end Tasks

end UKernel.Fs
