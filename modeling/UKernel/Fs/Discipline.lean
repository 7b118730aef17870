import UKernel.Fs.Frames

/-! # Opening and closing in pairs

The calls open and close inodes in pairs, but for the directory that a search leaves open in its
record and for what a call returns. A property of states that says how many references are held,
and that opening and closing an inode keep, is kept by every call that does so
(`UKernel.Fs.Discipline`).
-/

namespace UKernel.Fs

open UKernel.Library

variable {part : Partition} {α : Type}

/-- The reference that a directory holds. -/
def Dir.refs : Dir → Ptr → Nat
  | .root => 0
  | .heap inode => Pi.single inode 1

/-- A property of the held references and the state: opening an inode makes a reference, and
closing it takes one. -/
structure Discipline (P : (Ptr → Nat) → FsState part → Prop) : Prop where
  inodeOpen : ∀ held inodeNo,
    Triple (P held) (inodeOpen inodeNo) fun ptr => P (held + Pi.single ptr 1)
  inodeClose : ∀ held ptr,
    Triple (P (held + Pi.single ptr 1)) (inodeClose ptr) fun _ => P held

/-- The property does not depend on more than the open counts of inode objects. -/
structure QuietDiscipline (P : (Ptr → Nat) → FsState part → Prop) : Prop extends Discipline P where
  quiet : ∀ held s s', P held s → SameCounts s s' → P held s'

theorem deref_same (ptr : Ptr) : Keeps (· = ·) (deref ptr : FsCall part Inode) :=
  fun _ _ _ ran => (deref_returns.mp ran).2

theorem searchDirEntry_same (dir : Ptr) (name : List Byte) :
    Keeps (· = ·) (searchDirEntry dir name : FsCall part (Option DirEntry)) := by
  intro s found s' ran
  obtain ⟨_, _, _, same⟩ := searchDirEntry_returns.mp ran
  exact same

variable {P : (Ptr → Nat) → FsState part → Prop} {held : Ptr → Nat}

namespace Discipline

variable (discipline : Discipline P)

include discipline

theorem dirOpen (inodeNo : Word) :
    Triple (P held) (dirOpen inodeNo) fun dir => P (held + dir.refs) :=
  .bind (discipline.inodeOpen held inodeNo) fun _ => .pure fun _ => id

theorem dirClose (dir : Dir) : Triple (P (held + dir.refs)) (dirClose dir) fun _ => P held := by
  cases dir with
  | root => exact .pure fun _ => id
  | heap inode => exact discipline.inodeClose held inode

/-- The directory that a search left open is closed at the end. -/
theorem closing {dir : Dir} {a : α} :
    Triple (P (held + dir.refs)) (do Fs.dirClose dir; return a) fun _ => P held :=
  .bind (discipline.dirClose dir) fun _ => .pure fun _ => id

theorem searchLoop (fuel : Nat) (v : Search) {dir : Dir} (parent : v.record.parentDir = dir) :
    Triple (P (held + dir.refs)) (searchLoop fuel v) fun found =>
      P (held + found.2.parentDir.refs) := by
  induction fuel generalizing v dir with
  | zero => exact .throw _
  | succ fuel ih =>
      subst parent
      unfold Fs.searchLoop
      split
      · exact .bind (discipline.dirClose _) fun _ => .bind (discipline.dirOpen _) fun _ =>
          .pure fun _ => id
      · split
        · exact .throw _
        · refine .bind (.lift _) fun _ => .bind Triple.get_keeps fun s =>
            .bind (searchDirEntry_same _ _).triple_same fun found => ?_
          split
          · exact .pure fun _ => id
          · refine .bind (.lift _) fun next => ?_
            obtain ⟨name, subPath⟩ := next
            dsimp only
            split
            · exact .bind (deref_same _).triple_same fun parent =>
                .bind (discipline.dirClose _) fun _ =>
                  .bind (discipline.dirOpen _) fun dir => ih _ rfl
            · split
              · exact .pure fun _ => id
              · exact ih _ rfl

/-- The search keeps one more directory open: the one in its record. -/
theorem searchFile (junk : Word) (pathname : List Byte) :
    Triple (P held) (searchFile junk pathname) fun found =>
      P (held + found.2.parentDir.refs) := by
  unfold Fs.searchFile
  split
  · exact .pure fun _ => id
  · refine .bind (.lift _) fun _ => .bind (.lift _) fun next => ?_
    obtain ⟨name, subPath⟩ := next
    change Triple (P (held + Dir.root.refs)) _ _
    exact discipline.searchLoop _ _ rfl

theorem sysChdir (junk : Word) (path : List Byte) :
    Triple (P held) (sysChdir junk path) fun _ => P held :=
  .bind (discipline.searchFile _ _) fun _ => discipline.closing

theorem sysStat (junk : Word) (path : List Byte) :
    Triple (P held) (sysStat junk path) fun _ => P held := by
  unfold Fs.sysStat
  split
  · exact .bind Triple.get_keeps fun s => .bind (deref_same _).triple_same fun _ =>
      .pure fun _ => id
  · refine .bind (discipline.searchFile _ _) fun found => ?_
    obtain ⟨inodeNo, record⟩ := found
    dsimp only
    split
    · exact discipline.closing
    · exact .bind (discipline.inodeOpen _ _) fun ptr => .bind (deref_same _).triple_same fun _ =>
        .bind (discipline.inodeClose _ ptr) fun _ => discipline.closing

/-- A call that opened a directory has a reference to it. -/
theorem sysOpendir (junk : Word) (name : List Byte) :
    Triple (P held) (sysOpendir junk name) fun dir => P (held + dir.elim 0 Dir.refs) := by
  refine .bind (.lift _) fun _ => ?_
  split
  · exact .pure fun _ => id
  · refine .bind (discipline.searchFile _ _) fun found => ?_
    obtain ⟨inodeNo, record⟩ := found
    dsimp only
    split
    · refine .bind (discipline.dirOpen _) fun dir =>
        .bind ((discipline.dirClose _).weaken ?_) fun _ => .pure fun _ => id
      intro s holds
      rwa [add_right_comm] at holds
    · exact .bind (discipline.dirClose _) fun _ => .pure fun _ => id

end Discipline

/-! ## Calls that write -/

namespace QuietDiscipline

variable (discipline : QuietDiscipline P)

include discipline

theorem of_quiet {call : FsCall part α} (quiet : Quiet call) :
    Triple (P held) call fun _ => P held :=
  quiet.triple fun s s' => discipline.quiet held s s'

theorem onDisk {call : FsCall part α} (onDisk : OnDisk call) :
    Triple (P held) call fun _ => P held :=
  discipline.of_quiet onDisk.quiet

theorem inodeRelease (inodeNo : Word) :
    Triple (P held) (inodeRelease inodeNo) fun _ => P held := by
  refine .bind (discipline.inodeOpen held inodeNo) fun ptr => ?_
  have rest : ∀ blocks, Triple (P (held + Pi.single ptr 1)) (do
      freeBlocks blocks
      setInodeBit inodeNo.toNat false
      bitmapSync inodeNo.toNat .inodeBitmap
      inodeDelete inodeNo
      Fs.inodeClose ptr : FsCall part Unit) fun _ => P held := fun blocks =>
    .bind (discipline.onDisk (freeBlocks_onDisk _)) fun _ =>
      .bind (discipline.onDisk (setInodeBit_onDisk _ _)) fun _ =>
      .bind (discipline.onDisk (bitmapSync_onDisk _ _)) fun _ =>
      .bind (discipline.onDisk (inodeDelete_onDisk _)) fun _ => discipline.inodeClose held ptr
  refine .bind (deref_same ptr).triple_same fun inode => .bind (.lift _) fun _ =>
    .bind Triple.get_keeps fun s => ?_
  dsimp only
  split
  · exact .bind (discipline.onDisk (freeBlock_onDisk _)) fun _ => rest _
  · exact rest _

theorem dirRemove (parentDir childDir : Ptr) :
    Triple (P held) (dirRemove parentDir childDir) fun _ => P held :=
  .bind (deref_same childDir).triple_same fun _ => .bind (.lift _) fun _ =>
    .bind (discipline.of_quiet (deleteDirEntry_quiet _ _)) fun _ => discipline.inodeRelease _

theorem sysUnlink (junk : Word) (pathname : List Byte) :
    Triple (P held) (sysUnlink junk pathname) fun _ => P held := by
  refine .bind (.lift _) fun _ => .bind (discipline.searchFile _ _) fun found => ?_
  obtain ⟨inodeNo, record⟩ := found
  refine .bind (.lift _) fun _ => ?_
  split
  · exact discipline.closing
  · refine .bind (discipline.onDisk (inUse_onDisk _ _)) fun used => ?_
    split
    · exact discipline.closing
    · exact .bind Triple.get_keeps fun s =>
        .bind (discipline.of_quiet (deleteDirEntry_quiet _ _)) fun _ =>
        .bind (discipline.inodeRelease _) fun _ => discipline.closing

omit discipline in
theorem makeDir_quiet (parentDir : Ptr) (dirname : List Byte) (inodeNo : Nat) :
    Quiet (makeDir parentDir dirname inodeNo : FsCall part Bool) := by
  unfold makeDir
  refine .bind blockBitmapAlloc_onDisk.quiet fun blockLba => ?_
  split
  · refine .bind (OnDisk.lift _).quiet fun _ => .bind (syncBlock_onDisk _).quiet fun _ =>
      .bind (deref_onDisk _).quiet fun _ => .bind (writeBlock_onDisk _ _).quiet fun _ =>
      .bind (OnDisk.lift _).quiet fun _ => .bind (syncDirEntry_quiet _ _) fun done => ?_
    split
    · exact .bind (deref_onDisk _).quiet fun _ => .bind (inodeSync_onDisk _).quiet fun _ =>
        .bind (inodeSync_onDisk _).quiet fun _ => .bind (bitmapSync_onDisk _ _).quiet fun _ =>
        (OnDisk.pure true).quiet
    · exact (OnDisk.pure false).quiet
  · exact (OnDisk.pure false).quiet

theorem makeFound (record : PathSearchRecord) :
    Triple (P (held + record.parentDir.refs)) (makeFound record) fun _ => P held := by
  refine .bind (.lift _) fun dirname =>
    .bind (discipline.onDisk inodeBitmapAlloc_onDisk) fun found => ?_
  split
  · exact discipline.closing
  · refine .bind Triple.get_keeps fun s =>
      .bind (discipline.of_quiet (makeDir_quiet _ _ _)) fun done => ?_
    split
    · exact discipline.closing
    · exact .bind (discipline.onDisk (setInodeBit_onDisk _ _)) fun _ => discipline.closing

theorem sysMkdir (junk : Word) (pathname : List Byte) :
    Triple (P held) (sysMkdir junk pathname) fun _ => P held := by
  refine .bind (discipline.searchFile _ _) fun found => ?_
  obtain ⟨inodeNo, record⟩ := found
  dsimp only
  split
  · exact discipline.closing
  · refine .bind (.lift _) fun depth => .bind (.lift _) fun _ => ?_
    split
    · exact discipline.closing
    · exact discipline.makeFound record

theorem removeFound (inodeNo : Word) (parentDir : Dir) :
    Triple (P held) (removeFound inodeNo parentDir) fun _ => P held := by
  refine .bind (discipline.dirOpen _) fun dir => .bind Triple.get_keeps fun s =>
    .bind (discipline.onDisk ?_) fun empty => ?_
  · exact .bind (deref_onDisk _) fun _ => .pure _
  · split
    · exact .bind (discipline.dirRemove _ _) fun _ => discipline.closing
    · exact discipline.closing

theorem sysRmdir (junk : Word) (pathname : List Byte) :
    Triple (P held) (sysRmdir junk pathname) fun _ => P held := by
  refine .bind (discipline.searchFile _ _) fun found => ?_
  obtain ⟨inodeNo, record⟩ := found
  refine .bind (.lift _) fun _ => ?_
  split
  · exact discipline.closing
  · exact .bind (discipline.removeFound _ _) fun removed => discipline.closing

end QuietDiscipline

end UKernel.Fs
