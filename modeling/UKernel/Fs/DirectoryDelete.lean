import UKernel.Fs.DirectoryRemove
import UKernel.Fs.ReadDir

/-! # A directory after a deletion

`delete_dir_entry` removes the entry with an inode number, and the block that loses its last entry,
unless that block is an indirect one: the loop that counts the indirect blocks does not advance
(`UKernel.Fs.countIndirect_diverges`). So the deletion is correct exactly if the entry is not the
only one of an indirect block (`UKernel.Fs.delete_dir_entry_correct_iff`).
-/

namespace UKernel.Fs

open UKernel.Library

variable {part : Partition} {s s' : FsState part} {dir : Ptr} {disk disk' : Memory}
  {inode inode' : Inode} {pos : Pos} {inodeNo : Word} {btmp : Bitmap part.blockBitmapBytes}

instance (entry : DirEntry) (name : List Byte) : Decidable (entry.HasName name) :=
  inferInstanceAs (Decidable (_ = true))

/-- An entry other than `.` and `..`. -/
def DirEntry.IsOther (entry : DirEntry) : Prop :=
  ¬ entry.HasName dot ∧ ¬ entry.HasName dotdot

instance (entry : DirEntry) : Decidable entry.IsOther :=
  inferInstanceAs (Decidable (_ ∧ _))

/-- A well-formed directory as `sys_mkdir` and `partition_format` make it: `.` and `..` are in the
first block, and the inode numbers of the other entries are different. -/
structure DottedDir (disk : Memory) (btmp : Bitmap part.blockBitmapBytes) (inode : Inode) : Prop
    extends WfDir disk btmp inode where
  dotFirst : ∃ i entry, entries disk inode (0, i) = some entry ∧ entry.HasName dot
  dotdotFirst : ∀ pos entry, entries disk inode pos = some entry → entry.HasName dotdot → pos.1 = 0
  distinct : ∀ pos pos' entry entry', entries disk inode pos = some entry →
    entries disk inode pos' = some entry' → entry.IsOther → entry'.IsOther →
    entry.iNo = entry'.iNo → pos = pos'

/-- The entry that `delete_dir_entry` looks for. -/
def Target (disk : Memory) (inode : Inode) (inodeNo : Word) (pos : Pos) (entry : DirEntry) : Prop :=
  entries disk inode pos = some entry ∧ entry.IsOther ∧ entry.iNo = inodeNo

/-- A position holds the only entry of its block. -/
def Alone (said : Pos → Option DirEntry) (pos : Pos) : Prop :=
  ∀ i, said (pos.1, i) ≠ none → i = pos.2

/-- In a directory `.` and `..` are in the first block. -/
structure Dotted (disk : Memory) (inode : Inode) : Prop where
  dotFirst : ∃ i entry, entries disk inode (0, i) = some entry ∧ entry.HasName dot
  dotOnly : ∀ pos entry, entries disk inode pos = some entry → entry.HasName dot → pos.1 = 0
  dotdotOnly : ∀ pos entry, entries disk inode pos = some entry → entry.HasName dotdot → pos.1 = 0

theorem DottedDir.dotted (wf : DottedDir disk btmp inode) : Dotted disk inode := by
  obtain ⟨i, dotE, first, isDot⟩ := wf.dotFirst
  refine ⟨wf.dotFirst, fun pos entry there has => ?_, wf.dotdotFirst⟩
  have same := wf.unique pos (0, i) entry dotE dot there first (by decide) (by decide) has isDot
  rw [same]

/-- Without the entry at a position its block is empty, and is not the first one. -/
def Empties (said : Pos → Option DirEntry) (pos : Pos) : Prop :=
  pos.1 ≠ 0 ∧ Alone said pos

instance (said : Pos → Option DirEntry) (pos : Pos) : Decidable (Empties said pos) :=
  inferInstanceAs (Decidable (_ ∧ ∀ i, said (pos.1, i) ≠ none → i = pos.2))

/-! ## The loop over a sector -/

section Scan

variable {dirE : Memory} {scan scan' : SectorScan} {n : Nat}

/-- A slot of a sector holds an entry other than `.` and `..`. -/
def OtherSlot (dirE : Memory) (i : Nat) : Prop :=
  ∃ entry, liveSlot dirE i = some entry ∧ entry.IsOther

/-- A slot of a sector holds the entry that is looked for. -/
def TargetSlot (dirE : Memory) (inodeNo : Word) (i : Nat) : Prop :=
  ∃ entry, liveSlot dirE i = some entry ∧ entry.IsOther ∧ entry.iNo = inodeNo

/-- What is known after the first `n` entries of a sector. -/
structure Scanned (dirE : Memory) (inodeNo : Word) (n : Nat) (scan : SectorScan) : Prop where
  first : scan.isDirFirstBlock = true ↔
    ∃ i < n, ∃ entry, liveSlot dirE i = some entry ∧ entry.HasName dot
  none_ : scan.dirEntryCnt = 0 ↔ ∀ i < n, ¬ OtherSlot dirE i
  one : scan.dirEntryCnt = 1 ↔ ∃ i < n, OtherSlot dirE i ∧ ∀ j < n, OtherSlot dirE j → j = i
  found : ∀ i, scan.dirEntryFound = some i ↔ i < n ∧ TargetSlot dirE inodeNo i

/-- Comparing the bytes of a slot is comparing the name of its entry. -/
def NamedSlot (dirE : Memory) (i : Nat) : Prop :=
  ∀ entry, liveSlot dirE i = some entry → ∀ name, name ≠ [] → 0 ∉ name →
    (strEq (dirE.shift (24 * i)) name = true ↔ entry.HasName name)

/-- The round for one entry, as a matter of what is in the slot. -/
theorem scanEntry_eq {i : Nat} (named : NamedSlot dirE i) :
    scanEntry dirE inodeNo scan i = match liveSlot dirE i with
      | none => .ok scan
      | some entry =>
          if entry.HasName dot then .ok { scan with isDirFirstBlock := true }
          else if entry.HasName dotdot then .ok scan
          else if entry.iNo = inodeNo then do
            require (scan.dirEntryFound = none)
            return { scan with dirEntryCnt := scan.dirEntryCnt + 1, dirEntryFound := some i }
          else .ok { scan with dirEntryCnt := scan.dirEntryCnt + 1 } := by
  rw [scanEntry]
  by_cases free : (DirEntry.load (dirE.shift (24 * i))).fType = ftUnknown
  · have none_ : liveSlot dirE i = none := if_pos free
    rw [if_pos free, none_]
    rfl
  · have some_ : liveSlot dirE i = some (DirEntry.load (dirE.shift (24 * i))) := if_neg free
    have isDot := named _ some_ dot (by decide) (by decide)
    have isDotdot := named _ some_ dotdot (by decide) (by decide)
    rw [if_neg free, some_]
    simp only [isDot, isDotdot]
    rfl

/-- An entry that is passed over. -/
theorem Scanned.pass (scanned : Scanned dirE inodeNo n scan) (other : ¬ OtherSlot dirE n)
    (first : Bool) (dot : first = true ↔ scan.isDirFirstBlock = true ∨
      ∃ entry, liveSlot dirE n = some entry ∧ entry.HasName dot) :
    Scanned dirE inodeNo (n + 1) { scan with isDirFirstBlock := first } := by
  have target : ¬ TargetSlot dirE inodeNo n := fun ⟨entry, there, isOther, _⟩ =>
    other ⟨entry, there, isOther⟩
  refine ⟨?_, ?_, ?_, ?_⟩
  · rw [dot, scanned.first]
    constructor
    · rintro (⟨i, less, there⟩ | there)
      · exact ⟨i, by omega, there⟩
      · exact ⟨n, by omega, there⟩
    · rintro ⟨i, less, there⟩
      by_cases last : i = n
      · exact .inr (last ▸ there)
      · exact .inl ⟨i, by omega, there⟩
  · rw [scanned.none_]
    constructor
    · intro none i less
      by_cases last : i = n
      · exact last ▸ other
      · exact none i (by omega)
    · exact fun none i less => none i (by omega)
  · rw [scanned.one]
    constructor
    · rintro ⟨i, less, here, only⟩
      refine ⟨i, by omega, here, fun j less' there => ?_⟩
      by_cases last : j = n
      · exact absurd (last ▸ there) other
      · exact only j (by omega) there
    · rintro ⟨i, less, here, only⟩
      have before : i ≠ n := fun last => other (last ▸ here)
      exact ⟨i, by omega, here, fun j less' => only j (by omega)⟩
  · intro i
    rw [scanned.found i]
    constructor
    · exact fun both => ⟨by omega, both.2⟩
    · rintro ⟨less, here⟩
      have before : i ≠ n := fun last => target (last ▸ here)
      exact ⟨by omega, here⟩

/-- An entry that is counted. -/
theorem Scanned.count (scanned : Scanned dirE inodeNo n scan) (other : OtherSlot dirE n)
    (noDot : ¬ ∃ entry, liveSlot dirE n = some entry ∧ entry.HasName dot)
    (dirEntryFound : Option Nat) (found : ∀ i, dirEntryFound = some i ↔
      scan.dirEntryFound = some i ∨ (i = n ∧ TargetSlot dirE inodeNo n)) :
    Scanned dirE inodeNo (n + 1)
      { scan with dirEntryCnt := scan.dirEntryCnt + 1, dirEntryFound := dirEntryFound } := by
  refine ⟨?_, ?_, ?_, ?_⟩
  · rw [scanned.first]
    constructor
    · rintro ⟨i, less, there⟩
      exact ⟨i, by omega, there⟩
    · rintro ⟨i, less, there⟩
      have before : i ≠ n := fun last => noDot (last ▸ there)
      exact ⟨i, by omega, there⟩
  · exact iff_of_false (Nat.succ_ne_zero _) fun none => none n (Nat.lt_succ_self n) other
  · rw [Nat.add_eq_right, scanned.none_]
    constructor
    · intro none
      refine ⟨n, Nat.lt_succ_self n, other, fun j less there => ?_⟩
      by_contra before
      exact none j (by omega) there
    · rintro ⟨i, less, here, only⟩ j less' there
      have last := only n (Nat.lt_succ_self n) other
      have same := only j (by omega) there
      omega
  · intro i
    rw [found i, scanned.found i]
    constructor
    · rintro (⟨less, here⟩ | ⟨rfl, here⟩)
      · exact ⟨by omega, here⟩
      · exact ⟨Nat.lt_succ_self _, here⟩
    · rintro ⟨less, here⟩
      by_cases last : i = n
      · exact .inr ⟨last, last ▸ here⟩
      · exact .inl ⟨by omega, here⟩

/-- The round for one entry of a sector. -/
theorem scanEntry_scanned (named : NamedSlot dirE n) (scanned : Scanned dirE inodeNo n scan)
    (ran : scanEntry dirE inodeNo scan n = .ok scan') : Scanned dirE inodeNo (n + 1) scan' := by
  rw [scanEntry_eq named] at ran
  cases there : liveSlot dirE n with
  | none =>
      rw [there] at ran
      cases ran
      refine scanned.pass ?_ _ ?_
      · rintro ⟨entry, some_, -⟩
        rw [there] at some_
        cases some_
      · rw [or_iff_left]
        rintro ⟨entry, some_, -⟩
        rw [there] at some_
        cases some_
  | some entry =>
      have same : ∀ entry', liveSlot dirE n = some entry' → entry' = entry := by
        intro entry' some_
        rw [there] at some_
        exact (Option.some.inj some_).symm
      rw [there] at ran
      dsimp only at ran
      by_cases isDot : entry.HasName dot
      · rw [if_pos isDot] at ran
        cases ran
        refine scanned.pass ?_ _ ?_
        · rintro ⟨entry', some_, isOther⟩
          exact isOther.1 (same entry' some_ ▸ isDot)
        · exact iff_of_true rfl (.inr ⟨entry, there, isDot⟩)
      rw [if_neg isDot] at ran
      have noDot : ¬ ∃ entry, liveSlot dirE n = some entry ∧ entry.HasName dot :=
        fun ⟨entry', some_, is⟩ => isDot (same entry' some_ ▸ is)
      by_cases isDotdot : entry.HasName dotdot
      · rw [if_pos isDotdot] at ran
        cases ran
        refine scanned.pass ?_ _ ?_
        · rintro ⟨entry', some_, isOther⟩
          exact isOther.2 (same entry' some_ ▸ isDotdot)
        · rw [or_iff_left noDot]
      rw [if_neg isDotdot] at ran
      have other : OtherSlot dirE n := ⟨entry, there, isDot, isDotdot⟩
      by_cases number : entry.iNo = inodeNo
      · have target : TargetSlot dirE inodeNo n := ⟨entry, there, ⟨isDot, isDotdot⟩, number⟩
        rw [if_pos number] at ran
        obtain ⟨_, holds, ran⟩ := except_bind_eq_ok.mp ran
        have none_ := require_eq_ok.mp holds
        cases ran
        refine scanned.count other noDot _ fun i => ?_
        rw [none_]
        constructor
        · intro is
          cases is
          exact .inr ⟨rfl, target⟩
        · rintro (is | ⟨rfl, -⟩)
          · cases is
          · rfl
      · have noTarget : ¬ TargetSlot dirE inodeNo n := by
          rintro ⟨entry', some_, -, is⟩
          exact number (same entry' some_ ▸ is)
        rw [if_neg number] at ran
        cases ran
        refine scanned.count other noDot _ fun i => ?_
        rw [or_iff_left fun both => noTarget both.2]

/-- A round returns, unless it is the second to find the inode number. -/
theorem scanEntry_returns (named : NamedSlot dirE n) (scanned : Scanned dirE inodeNo n scan)
    (unique : TargetSlot dirE inodeNo n → ∀ i < n, ¬ TargetSlot dirE inodeNo i) :
    ∃ scan', scanEntry dirE inodeNo scan n = .ok scan' := by
  rw [scanEntry_eq named]
  cases there : liveSlot dirE n with
  | none => exact ⟨_, rfl⟩
  | some entry =>
      dsimp only
      by_cases isDot : entry.HasName dot
      · exact ⟨_, if_pos isDot⟩
      by_cases isDotdot : entry.HasName dotdot
      · exact ⟨_, by rw [if_neg isDot, if_pos isDotdot]⟩
      by_cases number : entry.iNo = inodeNo
      · have target : TargetSlot dirE inodeNo n := ⟨entry, there, ⟨isDot, isDotdot⟩, number⟩
        have none_ : scan.dirEntryFound = none := by
          rw [Option.eq_none_iff_forall_ne_some]
          intro i found
          obtain ⟨less, earlier⟩ := (scanned.found i).mp found
          exact unique target i less earlier
        exact ⟨_, by rw [if_neg isDot, if_neg isDotdot, if_pos number, require_of none_,
          except_ok_bind, except_pure_eq]⟩
      · exact ⟨_, by rw [if_neg isDot, if_neg isDotdot, if_neg number]⟩

/-- Before the first entry. -/
theorem scanned_start : Scanned dirE inodeNo 0 ⟨false, 0, none⟩ := by
  refine ⟨?_, ?_, ?_, fun i => ?_⟩
  · exact iff_of_false Bool.false_ne_true fun ⟨i, less, _⟩ => absurd less (Nat.not_lt_zero i)
  · exact iff_of_true rfl fun i less => absurd less (Nat.not_lt_zero i)
  · exact iff_of_false Nat.zero_ne_one fun ⟨i, less, _⟩ => absurd less (Nat.not_lt_zero i)
  · exact iff_of_false (Option.some_ne_none i ∘ Eq.symm) fun both =>
      absurd both.1 (Nat.not_lt_zero i)

/-- The loop over the entries of a sector. -/
theorem scanEntries_scanned (named : ∀ i < n, NamedSlot dirE i)
    (ran : (List.range n).foldlM (scanEntry dirE inodeNo) ⟨false, 0, none⟩ = .ok scan) :
    Scanned dirE inodeNo n scan := by
  induction n generalizing scan with
  | zero =>
      cases ran
      exact scanned_start
  | succ n ih =>
      rw [List.range_succ, List.foldlM_append] at ran
      obtain ⟨before, first, ran⟩ := except_bind_eq_ok.mp ran
      rw [List.foldlM_cons] at ran
      obtain ⟨after, round, ran⟩ := except_bind_eq_ok.mp ran
      cases ran
      exact scanEntry_scanned (named n (Nat.lt_succ_self n))
        (ih (fun i less => named i (by omega)) first) round

/-- The loop over the entries of a sector returns if the inode number is there once. -/
theorem scanEntries_returns (named : ∀ i < n, NamedSlot dirE i)
    (unique : ∀ i < n, ∀ j < i, TargetSlot dirE inodeNo i → ¬ TargetSlot dirE inodeNo j) :
    ∃ scan, (List.range n).foldlM (scanEntry dirE inodeNo) ⟨false, 0, none⟩ = .ok scan := by
  induction n with
  | zero => exact ⟨_, rfl⟩
  | succ n ih =>
      have earlier : ∀ i < n, NamedSlot dirE i := fun i less => named i (by omega)
      obtain ⟨scan, first⟩ := ih earlier fun i less => unique i (by omega)
      obtain ⟨scan', round⟩ := scanEntry_returns (named n (Nat.lt_succ_self n))
        (scanEntries_scanned earlier first)
        fun target j less => unique n (Nat.lt_succ_self n) j less target
      exact ⟨scan', by rw [List.range_succ, List.foldlM_append, first, except_ok_bind,
        List.foldlM_cons, round]; rfl⟩

end Scan

/-! ## The loop over the blocks -/

section Blocks

/-- The entry in a slot of a block. -/
theorem liveSlot_entries {b : Fin 140} (present : allBlocks disk inode b ≠ 0) (i : Fin 21) :
    liveSlot (ideRead disk (allBlocks disk inode b).toNat) i = entries disk inode (b, i) := by
  have said : entries disk inode (b, i) = _ := entries_present present
  exact said.symm

/-- Comparing the bytes of the slots of a block is comparing the names of its entries. -/
theorem namedSlot_block {b : Fin 140} (readable : Readable disk inode)
    (present : allBlocks disk inode b ≠ 0) :
    ∀ i < 21, NamedSlot (ideRead disk (allBlocks disk inode b).toNat) i := by
  intro i less entry there name nonempty clean
  have said := (liveSlot_entries present ⟨i, less⟩).symm.trans there
  have matches_ : strEq (slotBuf disk inode (b, ⟨i, less⟩)) name = true ↔ _ :=
    readable.slot_matches present nonempty clean
  refine matches_.trans ⟨?_, fun has => ⟨entry, said, has⟩⟩
  rintro ⟨entry', said', has⟩
  rw [said] at said'
  cases said'
  exact has

/-- A slot that is looked for is the slot of a target. -/
theorem targetSlot_iff {b : Fin 140} (present : allBlocks disk inode b ≠ 0) (i : Fin 21) :
    TargetSlot (ideRead disk (allBlocks disk inode b).toNat) inodeNo i ↔
      ∃ entry, Target disk inode inodeNo (b, i) entry := by
  unfold TargetSlot Target
  rw [liveSlot_entries present]

/-- The count and the flag of a block tell whether a removal empties it. -/
theorem Scanned.empties {b : Fin 140} {scan : SectorScan} (dotted : Dotted disk inode)
    (present : allBlocks disk inode b ≠ 0)
    (scanned : Scanned (ideRead disk (allBlocks disk inode b).toNat) inodeNo 21 scan) {i : Fin 21}
    {entry : DirEntry} (target : Target disk inode inodeNo (b, i) entry) :
    (scan.dirEntryCnt = 1 ∧ scan.isDirFirstBlock = false) ↔
      Empties (entries disk inode) (b, i) := by
  have other : OtherSlot (ideRead disk (allBlocks disk inode b).toNat) i :=
    ⟨entry, (liveSlot_entries present i).trans target.1, target.2.1⟩
  have first : scan.isDirFirstBlock = false ↔ b ≠ 0 := by
    rw [← Bool.not_eq_true, scanned.first, not_iff_not]
    constructor
    · rintro ⟨j, less, dotE, there, isDot⟩
      rw [liveSlot_entries present ⟨j, less⟩] at there
      exact dotted.dotOnly _ dotE there isDot
    · rintro rfl
      obtain ⟨j, dotE, there, isDot⟩ := dotted.dotFirst
      exact ⟨j, j.isLt, dotE, (liveSlot_entries present j).trans there, isDot⟩
  rw [first, and_comm]
  refine and_congr_right fun later => ?_
  -- in a later block every entry is counted
  have counted : ∀ j : Fin 21, entries disk inode (b, j) ≠ none →
      OtherSlot (ideRead disk (allBlocks disk inode b).toNat) j := by
    intro j there
    obtain ⟨entry', said⟩ := Option.ne_none_iff_exists'.mp there
    exact ⟨entry', (liveSlot_entries present j).trans said,
      fun isDot => later (dotted.dotOnly _ entry' said isDot),
      fun isDotdot => later (dotted.dotdotOnly _ entry' said isDotdot)⟩
  rw [scanned.one]
  constructor
  · rintro ⟨j, less, -, only⟩ j' there
    have here := only i i.isLt other
    have there' := only j' j'.isLt (counted j' there)
    exact Fin.ext (there'.trans here.symm)
  · intro alone
    refine ⟨i, i.isLt, other, fun j less there => ?_⟩
    obtain ⟨entry', said, -⟩ := there
    rw [liveSlot_entries present ⟨j, less⟩] at said
    exact congrArg Fin.val (alone ⟨j, less⟩ (by rw [said]; exact Option.some_ne_none _))

/-- The branch of `delete_dir_entry` that gives the block back. -/
def removeBlock (dir : Ptr) (dirInode : Inode) (blockIdx : Nat) (block : Word) :
    FsCall part Bool := do
  let dirInode ← recycleBlock dir dirInode blockIdx block
  shrinkDir dir dirInode
  return true

/-- The branch of `delete_dir_entry` that clears the entry. -/
def removeSlot (dir : Ptr) (dirInode : Inode) (block : Word) (dirEntryIdx : Nat) :
    FsCall part Bool := do
  clearEntry block dirEntryIdx
  shrinkDir dir dirInode
  return true

/-- The two branches of `delete_dir_entry` for an entry that was found. -/
def removeTarget (dir : Ptr) (inode : Inode) (said : Pos → Option DirEntry) (pos : Pos)
    (block : Word) : FsCall part Bool :=
  if Empties said pos then removeBlock dir inode pos.1 block else removeSlot dir inode block pos.2

/-- The ways in which the loop over some blocks ends: at a sector that it cannot scan, behind the
last block, or at a target. -/
def LoopEnds (s : FsState part) (dir : Ptr) (inode : Inode) (inodeNo : Word)
    (blockIdxs : List Nat) : Prop :=
  (∃ (b : Fin 140) (fault : Fault), allBlocks s.disk inode b ≠ 0 ∧
    scanSector (ideRead s.disk (allBlocks s.disk inode b).toNat) inodeNo = .error fault ∧
    (deleteBlocks dir inode inodeNo (allBlocks s.disk inode) blockIdxs).run s = .error fault) ∨
  ((∀ pos entry, pos.1.val ∈ blockIdxs → ¬ Target s.disk inode inodeNo pos entry) ∧
    (deleteBlocks dir inode inodeNo (allBlocks s.disk inode) blockIdxs).run s = .ok (false, s)) ∨
  ∃ (pos : Pos) (entry : DirEntry), Target s.disk inode inodeNo pos entry ∧
    (deleteBlocks dir inode inodeNo (allBlocks s.disk inode) blockIdxs).run s =
      (removeTarget dir inode (entries s.disk inode) pos (allBlocks s.disk inode pos.1)).run s

/-- A block without a target is passed over. -/
theorem LoopEnds.pass {b : Nat} {blockIdxs : List Nat} (small : b < 140)
    (same : (deleteBlocks dir inode inodeNo (allBlocks s.disk inode) (b :: blockIdxs)).run s =
      (deleteBlocks dir inode inodeNo (allBlocks s.disk inode) blockIdxs).run s)
    (none_ : ∀ i entry, ¬ Target s.disk inode inodeNo (⟨b, small⟩, i) entry)
    (ends : LoopEnds s dir inode inodeNo blockIdxs) :
    LoopEnds s dir inode inodeNo (b :: blockIdxs) := by
  rcases ends with ⟨b, fault, present, failed, ran⟩ | ⟨rest, ran⟩ | ⟨pos, entry, target, ran⟩
  · exact .inl ⟨b, fault, present, failed, same.trans ran⟩
  · refine .inr (.inl ⟨fun pos entry listed => ?_, same.trans ran⟩)
    rcases List.mem_cons.mp listed with here | later
    · have block : pos = (⟨b, small⟩, pos.2) := Prod.ext (Fin.ext here) rfl
      rw [block]
      exact none_ pos.2 entry
    · exact rest pos entry later
  · exact .inr (.inr ⟨pos, entry, target, same.trans ran⟩)

/-- The round for a block whose sector was scanned. -/
theorem deleteBlocks_scanned {b : Nat} {blockIdxs : List Nat} {scan : SectorScan}
    {allBlocks : Nat → Word} (present : allBlocks b ≠ 0)
    (scanned : scanSector (ideRead s.disk (allBlocks b).toNat) inodeNo = .ok scan) :
    (deleteBlocks dir inode inodeNo allBlocks (b :: blockIdxs)).run s =
      (match scan.dirEntryFound with
      | none => deleteBlocks dir inode inodeNo allBlocks blockIdxs
      | some dirEntryIdx => do
          require (1 ≤ scan.dirEntryCnt)
          if scan.dirEntryCnt = 1 ∧ scan.isDirFirstBlock = false then
            removeBlock dir inode b (allBlocks b)
          else
            removeSlot dir inode (allBlocks b) dirEntryIdx).run s := by
  rw [deleteBlocks, if_neg present, call_bind_of (call_get_returns.mpr ⟨rfl, rfl⟩),
    call_bind_of (call_lift_returns.mpr ⟨scanned, rfl⟩)]
  rfl

/-- The loop over the blocks. -/
theorem deleteBlocks_ends (dotted : Dotted s.disk inode) (readable : Readable s.disk inode)
    (dir : Ptr) (inodeNo : Word) {blockIdxs : List Nat} (bounds : ∀ b ∈ blockIdxs, b < 140) :
    LoopEnds s dir inode inodeNo blockIdxs := by
  induction blockIdxs with
  | nil => exact .inr (.inl ⟨fun pos _ listed => absurd listed List.not_mem_nil, rfl⟩)
  | cons b blockIdxs ih =>
      obtain ⟨small, rest⟩ := List.forall_mem_cons.mp bounds
      by_cases absent : allBlocks s.disk inode b = 0
      · refine (ih rest).pass small (by rw [deleteBlocks, if_pos absent]) fun i entry target => ?_
        exact (entries_some target.1).1 absent
      cases scanned : scanSector (ideRead s.disk (allBlocks s.disk inode b).toNat) inodeNo with
      | error fault =>
          refine .inl ⟨⟨b, small⟩, fault, absent, scanned, ?_⟩
          rw [deleteBlocks, if_neg absent, call_bind_of (call_get_returns.mpr ⟨rfl, rfl⟩)]
          exact call_bind_error.mpr (.inl (call_lift_error.mpr scanned))
      | ok scan =>
          have all : Scanned (ideRead s.disk (allBlocks s.disk inode b).toNat) inodeNo 21 scan :=
            scanEntries_scanned (namedSlot_block (b := ⟨b, small⟩) readable absent) scanned
          cases found : scan.dirEntryFound with
          | none =>
              refine (ih rest).pass small
                (by rw [deleteBlocks_scanned absent scanned, found]) fun i entry target => ?_
              have slot := (targetSlot_iff (b := ⟨b, small⟩) absent i).mpr ⟨entry, target⟩
              have is := (all.found i).mpr ⟨i.isLt, slot⟩
              rw [found] at is
              cases is
          | some i =>
              obtain ⟨less, slot⟩ := (all.found i).mp found
              obtain ⟨entry, target⟩ :=
                (targetSlot_iff (b := ⟨b, small⟩) absent ⟨i, less⟩).mp slot
              have empties := all.empties (b := ⟨b, small⟩) dotted absent target
              have counted : 1 ≤ scan.dirEntryCnt := by
                rw [Nat.one_le_iff_ne_zero, Ne, all.none_]
                intro nothing
                exact nothing i less ⟨entry, slot.elim fun _ _ => by
                  rw [liveSlot_entries (b := ⟨b, small⟩) absent ⟨i, less⟩]
                  exact target.1, target.2.1⟩
              refine .inr (.inr ⟨(⟨b, small⟩, ⟨i, less⟩), entry, target, ?_⟩)
              rw [deleteBlocks_scanned absent scanned, found]
              dsimp only
              rw [call_bind_of (call_lift_returns.mpr ⟨require_of counted, rfl⟩)]
              rw [removeTarget]
              by_cases alone : Empties (entries s.disk inode) (⟨b, small⟩, ⟨i, less⟩)
              · rw [if_pos (empties.mpr alone), if_pos alone]
              · rw [if_neg fun both => alone (empties.mp both), if_neg alone]

end Blocks

/-! ## What a deletion changes -/

/-- The number of a block that is given back: the one of the entry, if the entry was its only one
and it is not the first, and the table of indirect blocks with its last block. -/
def Frees (disk : Memory) (inode : Inode) (pos : Pos) (k : Nat) : Prop :=
  Empties (entries disk inode) pos ∧ (k = pos.1 ∨ (k = 140 ∧ 12 ≤ pos.1.val ∧
    ∀ k', 12 ≤ k' → k' < 140 → k' ≠ pos.1.val → allBlocks disk inode k' = 0))

/-- What `delete_dir_entry` did: the entry is gone, every other one is where it was, the blocks
that it gives back are no longer marked, and the blocks of others and the inode table, but for the
slot of the directory, were left alone. -/
structure Removed (s s' : FsState part) (dir : Ptr) (inode inode' : Inode) (pos : Pos) :
    Prop where
  entries_eq : entries s'.disk inode' = Function.update (entries s.disk inode) pos none
  readable : Readable s'.disk inode'
  owns : OwnsBlocks s'.disk s'.blockBitmap inode'
  own_freed : ∀ k ≤ 140, Frees s.disk inode pos k → ownBlock s'.disk inode' k = 0
  own_kept : ∀ k ≤ 140, ¬ Frees s.disk inode pos k →
    ownBlock s'.disk inode' k = ownBlock s.disk inode k
  marks : ∀ block, Marked s'.blockBitmap block ↔ Marked s.blockBitmap block ∧
    ∀ k ≤ 140, Frees s.disk inode pos k → ownBlock s.disk inode k ≠ block
  blocks : ∀ block, part.sb.dataStartLba ≤ block.toNat →
    (∀ k ≤ 140, ownBlock s.disk inode k ≠ block) → SameBlock s.disk s'.disk block
  slots : ∀ n < 4096, n ≠ inode.iNo.toNat % 256 → SameSlot part s.disk s'.disk n
  iNo_eq : inode'.iNo = inode.iNo
  iSize_eq : inode'.iSize = inode.iSize - 24
  state_eq : s' = { s with
    disk := s'.disk
    blockBitmap := s'.blockBitmap
    inodes := Function.update s.inodes dir (some inode') }

/-- The directory's object after the deletion. -/
theorem Removed.object (removed : Removed s s' dir inode inode' pos) :
    s'.inodes dir = some inode' := by
  have objects : s'.inodes = Function.update s.inodes dir (some inode') :=
    congrArg FsState.inodes removed.state_eq
  rw [objects, Function.update_self]

/-- The directory's inode with one entry less. -/
def Inode.shrunk (inode : Inode) : Inode :=
  { inode with iSize := inode.iSize - 24 }

/-- The state after the directory was shrunk and its slot was written. -/
def FsState.shrunk (s : FsState part) (disk : Memory) (btmp : Bitmap part.blockBitmapBytes)
    (dir : Ptr) (inode : Inode) : FsState part :=
  { s with
    disk := disk.splice (slotAddr part (inode.iNo.toNat % 256)) inode.shrunk.image 76
    blockBitmap := btmp
    inodes := Function.update s.inodes dir (some inode.shrunk) }

theorem shrinkDir_run (fits : 24 ≤ inode.iSize.toNat) :
    (shrinkDir dir inode).run s = .ok ((), s.shrunk s.disk s.blockBitmap dir inode) := by
  rw [shrinkDir, call_bind_of (call_lift_returns.mpr ⟨require_of fits, rfl⟩),
    call_bind_of (store_returns.mpr rfl), inodeSync_run]
  rfl

/-- The state after an entry was cleared. -/
def FsState.clearSlot (s : FsState part) (dir : Ptr) (inode : Inode) (block : Word) (i : Nat) :
    FsState part :=
  s.shrunk (ideWrite s.disk block.toNat
    ((ideRead s.disk block.toNat).splice (24 * i) Memory.zeros 24) 1) s.blockBitmap dir inode

theorem removeSlot_run {block : Word} {i : Nat} (fits : 24 ≤ inode.iSize.toNat) :
    (removeSlot dir inode block i).run s = .ok (true, s.clearSlot dir inode block i) := by
  have cleared : (clearEntry block i).run s = .ok ((), { s with
      disk := ideWrite s.disk block.toNat
        ((ideRead s.disk block.toNat).splice (24 * i) Memory.zeros 24) 1 }) := by
    rw [clearEntry, call_bind_of (call_get_returns.mpr ⟨rfl, rfl⟩)]
    exact writeBlock_returns.mpr rfl
  rw [removeSlot, call_bind_of cleared, call_bind_of (shrinkDir_run fits)]
  rfl

/-- The state after a block was given back. -/
def FsState.freedBlock (s : FsState part) (disk : Memory) (bitIdx : Nat) (dir : Ptr)
    (inode : Inode) : FsState part :=
  s.shrunk disk (s.blockBitmap.set bitIdx false) dir inode

/-- A block that is given back. -/
theorem recycleBlock_cases (s : FsState part) (dir : Ptr) (inode : Inode) (b : Nat) {bitIdx : Nat}
    (small : bitIdx < 4096 * part.sb.blockBitmapSects) :
    ∃ disk, SameFromTable part s.disk disk ∧
      (recycleBlock dir inode b (blockOfBit part bitIdx)).run s = if b < 12 then
        .ok (inode.setSector b 0, { s with
          disk := disk
          blockBitmap := s.blockBitmap.set bitIdx false
          inodes := Function.update s.inodes dir (some (inode.setSector b 0)) })
      else .error .diverges := by
  have synced : ∃ after : FsState part, (bitmapSync bitIdx .blockBitmap).run
      { s with blockBitmap := s.blockBitmap.set bitIdx false } = .ok ((), after) :=
    ⟨_, call_modify_returns.mpr rfl⟩
  obtain ⟨after, synced⟩ := synced
  obtain ⟨disk, rfl, same⟩ := bitmapSync_block small synced
  refine ⟨disk, same, ?_⟩
  rw [recycleBlock, blockOfBit_sub small,
    call_bind_of (setBlockBit_returns.mpr ⟨small, rfl⟩), call_bind_of synced]
  by_cases direct : b < 12
  · rw [if_pos direct, if_pos direct, call_bind_of (store_returns.mpr rfl)]
    rfl
  · rw [if_neg direct, if_neg direct]
    rfl

section Removal

variable {entry : DirEntry} {src : Memory} {n : Nat}

/-- Without an entry the directory stays readable. -/
theorem readable_erased (readable : Readable disk inode)
    (erased : entries disk' inode' = Function.update (entries disk inode) pos none)
    (blank : ∀ pos', allBlocks disk' inode' pos'.1 ≠ 0 → entries disk' inode' pos' = none →
      slotBuf disk' inode' pos' 0 = 0) : Readable disk' inode' := by
  refine ⟨blank, fun pos' entry there => ?_⟩
  rw [erased] at there
  by_cases here : pos' = pos
  · rw [here, Function.update_self] at there
    cases there
  · rw [Function.update_of_ne here] at there
    exact readable.typed pos' entry there

/-- Writing a slot of the inode table after the data area. -/
theorem SameData.splice_slot (same : SameData part disk disk') (inside : n < 4096) :
    SameData part disk (disk'.splice (slotAddr part n) src 76) :=
  fun i far => (same i far).trans (sameData_splice_slot inside i far)

/-- A block of which one slot was cleared. -/
theorem clearSlot_entries (pos : Pos) (readable : Readable disk inode)
    (all : ∀ k < 140, allBlocks disk' inode' k = allBlocks disk inode k)
    (written : ∀ k < 512, ideRead disk' (allBlocks disk inode pos.1).toNat k =
      (ideRead disk (allBlocks disk inode pos.1).toNat).splice (24 * pos.2) Memory.zeros 24 k)
    (others : ∀ k < 140, k ≠ pos.1.val → allBlocks disk inode k ≠ 0 →
      SameBlock disk disk' (allBlocks disk inode k)) :
    entries disk' inode' = Function.update (entries disk inode) pos none ∧
      Readable disk' inode' := by
  have kept := slotBuf_kept pos all written others
  have erased : entries disk' inode' = Function.update (entries disk inode) pos none := by
    funext pos'
    by_cases here : pos' = pos
    · rw [here, Function.update_self]
      by_cases absent : allBlocks disk' inode' pos.1 = 0
      · exact entries_absent absent
      · have loaded : DirEntry.load (slotBuf disk' inode' pos) = DirEntry.load Memory.zeros :=
          DirEntry.load_congr fun k small => slotBuf_written all written small
        rw [entries_present absent, loaded, if_pos]
        rfl
    · rw [Function.update_of_ne here]
      exact entries_kept (all _ pos'.1.isLt) (kept pos' here)
  refine ⟨erased, readable_erased readable erased fun pos' used free => ?_⟩
  by_cases here : pos' = pos
  · rw [here]
    exact slotBuf_written all written (by decide)
  · rw [all _ pos'.1.isLt] at used
    rw [erased, Function.update_of_ne here] at free
    rw [kept pos' here used 0 (by decide)]
    exact readable.blank pos' used free

/-- Clearing an entry. -/
theorem removeSlot_removed (owns : OwnsBlocks s.disk s.blockBitmap inode)
    (readable : Readable s.disk inode) (there : entries s.disk inode pos = some entry)
    (stays : ¬ Empties (entries s.disk inode) pos) :
    Removed s (s.clearSlot dir inode (allBlocks s.disk inode pos.1) pos.2) dir inode
      inode.shrunk pos := by
  have present := (entries_some there).1
  have own : ownBlock s.disk inode pos.1 = allBlocks s.disk inode pos.1 :=
    ownBlock_of_lt pos.1.isLt
  have marked := owns.block_marked pos.1.isLt present
  have synced : ∀ block : Word, part.sb.dataStartLba ≤ block.toNat →
      SameBlock (ideWrite s.disk (allBlocks s.disk inode pos.1).toNat _ 1)
        (s.clearSlot dir inode (allBlocks s.disk inode pos.1) pos.2).disk block :=
    fun _ far => (sameData_splice_slot (by omega)).sameBlock far
  have others : ∀ block ≠ allBlocks s.disk inode pos.1, part.sb.dataStartLba ≤ block.toNat →
      SameBlock s.disk (s.clearSlot dir inode (allBlocks s.disk inode pos.1) pos.2).disk block :=
    fun block apart far => (sameBlock_ideWrite apart).trans (synced block far)
  have table : inode.sector 12 ≠ 0 → SameBlock s.disk
      (s.clearSlot dir inode (allBlocks s.disk inode pos.1) pos.2).disk (inode.sector 12) := by
    intro used
    refine others _ (fun same => ?_) (owns.table_marked used).in_data
    have first : ownBlock s.disk inode 140 = inode.sector 12 := ownBlock_table
    have := owns.apart 140 (Nat.le_refl _) pos.1 (by omega) (by rwa [first])
      (first.trans (same.trans own.symm))
    omega
  have all : ∀ k < 140, allBlocks (s.clearSlot dir inode (allBlocks s.disk inode pos.1) pos.2).disk
      inode.shrunk k = allBlocks s.disk inode k :=
    fun k small => allBlocks_congr small (fun _ _ => rfl) table
  obtain ⟨erased, readable'⟩ := clearSlot_entries pos readable all
    (fun k small => (synced _ marked.in_data k small).symm.trans (ideRead_ideWrite_self small))
    (fun k small apart used => by
      refine others _ (fun same => apart ?_) (owns.block_marked small used).in_data
      rw [← ownBlock_of_lt small] at used same
      exact owns.apart k (by omega) pos.1 (by omega) used (same.trans own.symm))
  exact {
    entries_eq := erased
    readable := readable'
    owns := owns.frame (fun _ _ => rfl) table owns.marked
    own_freed := fun k _ freed => absurd freed.1 stays
    own_kept := fun k small _ => ownBlock_congr small (fun _ _ => rfl) table
    marks := fun block => (and_iff_left fun k _ freed => absurd freed.1 stays).symm
    blocks := fun block far foreign =>
      others block (fun same => foreign pos.1 (by omega) (own.trans same.symm)) far
    slots := fun n inside apart =>
      (sameSlot_ideWrite marked.in_data inside).trans (sameSlot_splice apart)
    iNo_eq := rfl
    iSize_eq := rfl
    state_eq := rfl }

/-- Giving a direct block back. -/
theorem removeBlock_removed {bitIdx : Nat} (owns : OwnsBlocks s.disk s.blockBitmap inode)
    (readable : Readable s.disk inode) (empties : Empties (entries s.disk inode) pos)
    (direct : pos.1.val < 12) (small : bitIdx < 4096 * part.sb.blockBitmapSects)
    (is : allBlocks s.disk inode pos.1 = blockOfBit part bitIdx)
    (same : SameFromTable part s.disk disk) :
    Removed s (s.freedBlock disk bitIdx dir (inode.setSector pos.1 0)) dir inode
      (inode.setSector pos.1 0).shrunk pos := by
  have data : SameData part s.disk (s.freedBlock disk bitIdx dir (inode.setSector pos.1 0)).disk :=
    same.sameData.splice_slot (by omega)
  have blocks : ∀ block, Marked s.blockBitmap block → SameBlock s.disk
      (s.freedBlock disk bitIdx dir (inode.setSector pos.1 0)).disk block :=
    fun block was => data.sameBlock was.in_data
  have sector : ∀ i, (inode.setSector pos.1 0).shrunk.sector i =
      if i = pos.1 then 0 else inode.sector i :=
    fun i => Inode.sector_setSector (by omega)
  have all : ∀ k < 140, allBlocks (s.freedBlock disk bitIdx dir (inode.setSector pos.1 0)).disk
      (inode.setSector pos.1 0).shrunk k =
      if k = pos.1 then 0 else allBlocks s.disk inode k := by
    intro k less
    by_cases direct' : k < 12
    · rw [allBlocks_direct direct', allBlocks_direct direct', sector]
    · rw [if_neg (by omega)]
      exact allBlocks_indirect (by omega) less (by rw [sector, if_neg (by omega)])
        fun used => blocks _ (owns.table_marked used)
  have own : ∀ k ≤ 140, ownBlock (s.freedBlock disk bitIdx dir (inode.setSector pos.1 0)).disk
      (inode.setSector pos.1 0).shrunk k =
      if k = pos.1 then 0 else ownBlock s.disk inode k := by
    intro k less
    by_cases last : k = 140
    · rw [last, ownBlock_table, ownBlock_table, sector, if_neg (by omega), if_neg (by omega)]
    · rw [ownBlock_of_lt (by omega), ownBlock_of_lt (by omega), all k (by omega)]
  have freed : ∀ k, Frees s.disk inode pos k ↔ k = pos.1 := by
    intro k
    constructor
    · rintro ⟨-, here | ⟨-, indirect, -⟩⟩
      · exact here
      · omega
    · exact fun here => ⟨empties, .inl here⟩
  have kept : ∀ pos' : Pos, pos'.1 ≠ pos.1 → allBlocks
      (s.freedBlock disk bitIdx dir (inode.setSector pos.1 0)).disk (inode.setSector pos.1 0).shrunk
        pos'.1 =
      allBlocks s.disk inode pos'.1 := by
    intro pos' apart
    rw [all _ pos'.1.isLt, if_neg fun here => apart (Fin.ext here)]
  have erased : entries (s.freedBlock disk bitIdx dir (inode.setSector pos.1 0)).disk
      (inode.setSector pos.1 0).shrunk =
      Function.update (entries s.disk inode) pos none := by
    funext pos'
    by_cases block : pos'.1 = pos.1
    · rw [entries_absent (by rw [all _ pos'.1.isLt, if_pos (congrArg Fin.val block)])]
      by_cases here : pos' = pos
      · rw [here, Function.update_self]
      · rw [Function.update_of_ne here]
        by_contra other
        have slot := empties.2 pos'.2 (by rw [← block]; exact fun none_ => other none_.symm)
        exact here (Prod.ext block slot)
    · rw [Function.update_of_ne fun here => block (congrArg Prod.fst here)]
      exact entries_congr (kept pos' block)
        fun used => blocks _ (owns.block_marked pos'.1.isLt used)
  have ownPos : ownBlock s.disk inode pos.1 = blockOfBit part bitIdx :=
    (ownBlock_of_lt pos.1.isLt).trans is
  exact {
    entries_eq := erased
    readable := by
      refine readable_erased readable erased fun pos' used free => ?_
      have block : pos'.1 ≠ pos.1 := by
        intro here
        rw [all _ pos'.1.isLt, if_pos (congrArg Fin.val here)] at used
        exact used rfl
      rw [kept pos' block] at used
      have same' := blocks _ (owns.block_marked pos'.1.isLt used)
      rw [slotBuf_congr (kept pos' block) same' (by decide)]
      refine readable.blank pos' used ?_
      rw [← entries_congr (kept pos' block) fun _ => same']
      exact free
    owns := by
      constructor
      · intro k less k' less' used same'
        rw [own k less] at used same'
        rw [own k' less'] at same'
        by_cases here : k = pos.1
        · rw [if_pos here] at used
          exact absurd rfl used
        rw [if_neg here] at used same'
        by_cases here' : k' = pos.1
        · rw [if_pos here'] at same'
          exact absurd same' used
        rw [if_neg here'] at same'
        exact owns.apart k less k' less' used same'
      · intro k less used
        rw [own k less] at used ⊢
        by_cases here : k = pos.1
        · rw [if_pos here] at used
          exact absurd rfl used
        rw [if_neg here] at used ⊢
        refine (marked_clear small).mpr ⟨fun eq => here ?_, owns.marked k less used⟩
        exact owns.apart k less pos.1 (by omega) used (eq.trans ownPos.symm)
    own_freed := fun k less gone => by rw [own k less, if_pos ((freed k).mp gone)]
    own_kept := fun k less stays => by
      rw [own k less, if_neg fun here => stays ((freed k).mpr here)]
    marks := fun block => by
      refine (marked_clear small).trans (and_comm.trans (and_congr_right fun _ => ?_))
      constructor
      · intro apart k _ gone eq
        rw [(freed k).mp gone, ownPos] at eq
        exact apart eq.symm
      · intro apart eq
        exact apart pos.1 (by omega) ((freed _).mpr rfl) (ownPos.trans eq.symm)
    blocks := fun block far _ => data.sameBlock far
    slots := fun n inside apart => same.sameSlot.trans (sameSlot_splice apart)
    iNo_eq := rfl
    iSize_eq := rfl
    state_eq := rfl }

/-- The branches for an entry that was found. -/
theorem removeTarget_removed (dir : Ptr) (owns : OwnsBlocks s.disk s.blockBitmap inode)
    (readable : Readable s.disk inode) (fits : 24 ≤ inode.iSize.toNat)
    (there : entries s.disk inode pos = some entry)
    (direct : Empties (entries s.disk inode) pos → pos.1.val < 12) :
    ∃ s' inode', (removeTarget dir inode (entries s.disk inode) pos
      (allBlocks s.disk inode pos.1)).run s = .ok (true, s') ∧
      Removed s s' dir inode inode' pos := by
  by_cases empties : Empties (entries s.disk inode) pos
  · obtain ⟨bitIdx, small, is, -⟩ := owns.block_marked pos.1.isLt (entries_some there).1
    obtain ⟨disk, same, recycled⟩ :=
      recycleBlock_cases s dir inode pos.1 small
    rw [if_pos (direct empties)] at recycled
    have fits' : 24 ≤ (inode.setSector pos.1 0).iSize.toNat := fits
    refine ⟨_, _, ?_, removeBlock_removed owns readable empties (direct empties) small is same⟩
    rw [removeTarget, if_pos empties, removeBlock, is, call_bind_of recycled,
      call_bind_of (shrinkDir_run fits'), FsState.freedBlock, FsState.shrunk, FsState.shrunk,
      Function.update_idem]
    rfl
  · refine ⟨_, _, ?_, removeSlot_removed owns readable there empties⟩
    rw [removeTarget, if_neg empties, removeSlot_run fits]

/-- The only entry of an indirect block. -/
theorem removeTarget_diverges (owns : OwnsBlocks s.disk s.blockBitmap inode)
    (there : entries s.disk inode pos = some entry)
    (empties : Empties (entries s.disk inode) pos) (indirect : 12 ≤ pos.1.val) :
    (removeTarget dir inode (entries s.disk inode) pos (allBlocks s.disk inode pos.1)).run s =
      .error .diverges := by
  obtain ⟨bitIdx, small, is, -⟩ := owns.block_marked pos.1.isLt (entries_some there).1
  obtain ⟨disk, same, recycled⟩ :=
    recycleBlock_cases s dir inode pos.1 small
  rw [if_neg (by omega)] at recycled
  rw [removeTarget, if_pos empties, removeBlock, is]
  exact call_bind_error.mpr (.inl recycled)

end Removal

/-! ## Deletion -/

section Deletion

variable {entry : DirEntry}

theorem deleteDirEntry_run (live : s.inodes dir = some inode) : (deleteDirEntry dir inodeNo).run s =
    (deleteBlocks dir inode inodeNo (allBlocks s.disk inode) (List.range 140)).run s := by
  rw [deleteDirEntry, call_bind_of (deref_returns.mpr ⟨live, rfl⟩),
    call_bind_of (call_get_returns.mpr ⟨rfl, rfl⟩)]

theorem mem_blocks (pos : Pos) : pos.1.val ∈ List.range 140 :=
  List.mem_range.mpr pos.1.isLt

/-- **What a deletion does.** A call of `delete_dir_entry` that returns found no target and changed
nothing, or removed one. -/
theorem deleteDirEntry_returns {done : Bool} (live : s.inodes dir = some inode)
    (owns : OwnsBlocks s.disk s.blockBitmap inode) (readable : Readable s.disk inode)
    (dotted : Dotted s.disk inode)
    (fits : ∀ pos entry, entries s.disk inode pos = some entry → 24 ≤ inode.iSize.toNat)
    (ran : (deleteDirEntry dir inodeNo).run s = .ok (done, s')) :
    (done = false ∧ s' = s ∧ ∀ pos entry, ¬ Target s.disk inode inodeNo pos entry) ∨
      (done = true ∧ ∃ pos entry inode', Target s.disk inode inodeNo pos entry ∧
        (Empties (entries s.disk inode) pos → pos.1.val < 12) ∧
        Removed s s' dir inode inode' pos) := by
  rw [deleteDirEntry_run live] at ran
  rcases deleteBlocks_ends dotted readable dir inodeNo (fun b => List.mem_range.mp) with
    ⟨b, fault, -, -, ends⟩ | ⟨none_, ends⟩ | ⟨pos, entry, target, ends⟩
  · rw [ends] at ran
    cases ran
  · rw [ends] at ran
    cases ran
    exact .inl ⟨rfl, rfl, fun pos entry => none_ pos entry (mem_blocks pos)⟩
  · rw [ends] at ran
    have direct : Empties (entries s.disk inode) pos → pos.1.val < 12 := by
      intro empties
      by_contra indirect
      rw [removeTarget_diverges owns target.1 empties (by omega)] at ran
      cases ran
    obtain ⟨after, inode', removes, removed⟩ :=
      removeTarget_removed dir owns readable (fits pos entry target.1) target.1 direct
    rw [removes] at ran
    cases ran
    exact .inr ⟨rfl, pos, entry, inode', target, direct, removed⟩

/-- In a directory whose entries have different numbers every sector can be scanned. -/
theorem DottedDir.scans (wf : DottedDir disk btmp inode) {b : Fin 140}
    (present : allBlocks disk inode b ≠ 0) (inodeNo : Word) :
    ∃ scan, scanSector (ideRead disk (allBlocks disk inode b).toNat) inodeNo = .ok scan := by
  refine scanEntries_returns (namedSlot_block wf.readable present) fun i less j before here there =>
    ?_
  obtain ⟨entry, said, other, number⟩ := (targetSlot_iff present ⟨i, less⟩).mp here
  obtain ⟨entry', said', other', number'⟩ := (targetSlot_iff present ⟨j, by omega⟩).mp there
  have same := wf.distinct _ _ _ _ said said' other other' (number.trans number'.symm)
  have slot : i = j := congrArg (fun pos : Pos => pos.2.val) same
  omega

/-- The size of a well-formed directory with an entry. -/
theorem WfDir.fits (wf : WfDir disk btmp inode) (there : entries disk inode pos = some entry) :
    24 ≤ inode.iSize.toNat := by
  have counted : 0 < liveCount (entries disk inode) := by
    rw [liveCount, Finset.card_pos, Finset.filter_nonempty_iff]
    exact ⟨pos, by simp, by rw [there, Option.isSome_some]⟩
  rw [wf.size]
  omega

/-- **Deletion.** `delete_dir_entry` on a well-formed directory without a target. -/
theorem DottedDir.delete_none (wf : DottedDir s.disk s.blockBitmap inode)
    (live : s.inodes dir = some inode)
    (none_ : ∀ pos entry, ¬ Target s.disk inode inodeNo pos entry) :
    (deleteDirEntry dir inodeNo).run s = .ok (false, s) := by
  rw [deleteDirEntry_run live]
  rcases deleteBlocks_ends wf.dotted wf.readable dir inodeNo (fun b => List.mem_range.mp) with
    ⟨b, fault, present, failed, -⟩ | ⟨-, ends⟩ | ⟨pos, entry, target, -⟩
  · obtain ⟨scan, scanned⟩ := wf.scans present inodeNo
    rw [scanned] at failed
    cases failed
  · exact ends
  · exact absurd target (none_ pos entry)

/-- `delete_dir_entry` on a well-formed directory comes to the target. -/
theorem DottedDir.delete_found (wf : DottedDir s.disk s.blockBitmap inode)
    (live : s.inodes dir = some inode) (target : Target s.disk inode inodeNo pos entry) :
    (deleteDirEntry dir inodeNo).run s =
      (removeTarget dir inode (entries s.disk inode) pos (allBlocks s.disk inode pos.1)).run s := by
  rw [deleteDirEntry_run live]
  rcases deleteBlocks_ends wf.dotted wf.readable dir inodeNo (fun b => List.mem_range.mp) with
    ⟨b, fault, present, failed, -⟩ | ⟨none_, -⟩ | ⟨pos', entry', target', ends⟩
  · obtain ⟨scan, scanned⟩ := wf.scans present inodeNo
    rw [scanned] at failed
    cases failed
  · exact absurd target (none_ pos entry (mem_blocks pos))
  · have same := wf.distinct _ _ _ _ target.1 target'.1 target.2.1 target'.2.1
      (target.2.2.trans target'.2.2.symm)
    rw [same]
    exact ends

/-- `delete_dir_entry` removes a target that is not the only entry of an indirect block. -/
theorem DottedDir.delete_removes (wf : DottedDir s.disk s.blockBitmap inode)
    (live : s.inodes dir = some inode) (target : Target s.disk inode inodeNo pos entry)
    (direct : Empties (entries s.disk inode) pos → pos.1.val < 12) :
    ∃ s' inode', (deleteDirEntry dir inodeNo).run s = .ok (true, s') ∧
      Removed s s' dir inode inode' pos := by
  rw [wf.delete_found live target]
  exact removeTarget_removed dir wf.owns wf.readable (wf.fits target.1) target.1 direct

/-- After a removal the search finds the entries that remain. -/
theorem Removed.search (removed : Removed s s' dir inode inode' pos)
    (wf : WfDir s.disk s.blockBitmap inode) (there : entries s.disk inode pos = some entry)
    {name : List Byte} (nonempty : name ≠ []) (clean : 0 ∉ name) :
    searchBlocks s'.disk inode' name =
      if entry.HasName name then none else searchBlocks s.disk inode name := by
  have said : ∀ {pos' entry'}, entries s'.disk inode' pos' = some entry' ↔
      pos' ≠ pos ∧ entries s.disk inode pos' = some entry' := by
    intro pos' entry'
    rw [removed.entries_eq]
    by_cases here : pos' = pos
    · rw [here, Function.update_self]
      exact iff_of_false (Option.some_ne_none entry' ∘ Eq.symm) fun both => both.1 rfl
    · rw [Function.update_of_ne here]
      exact (and_iff_right here).symm
  by_cases named : entry.HasName name
  · rw [if_pos named, removed.readable.search_none nonempty clean]
    intro pos' entry' there' has
    obtain ⟨apart, there'⟩ := said.mp there'
    exact apart (wf.unique pos' pos entry' entry name there' there nonempty clean has named)
  · rw [if_neg named]
    cases found : searchBlocks s.disk inode name with
    | none =>
        have unnamed := (wf.readable.search_none nonempty clean).mp found
        exact (removed.readable.search_none nonempty clean).mpr fun pos' entry' there' =>
          unnamed pos' entry' (said.mp there').2
    | some entry' =>
        obtain ⟨pos', there', has⟩ := wf.readable.search_sound nonempty clean found
        have apart : pos' ≠ pos := by
          rintro rfl
          rw [there] at there'
          cases there'
          exact named has
        refine removed.readable.search_finds pos' (fun pos'' entry'' there'' has'' => ?_) nonempty
          clean (said.mpr ⟨apart, there'⟩) has
        exact wf.unique pos'' pos' entry'' entry' name (said.mp there'').2 there' nonempty clean
          has'' has

/-- A call of `delete_dir_entry` returns; an entry with the number disappears and no other one,
with the blocks that lose their last entry; without such an entry nothing changes. -/
def DeleteCorrect (s : FsState part) (dir : Ptr) (inode : Inode) (inodeNo : Word) : Prop :=
  (∀ pos entry, Target s.disk inode inodeNo pos entry → ∃ s' inode',
    (deleteDirEntry dir inodeNo).run s = .ok (true, s') ∧ Removed s s' dir inode inode' pos ∧
    ∀ name ≠ [], 0 ∉ name → (searchDirEntry dir name).run s' =
      .ok (if entry.HasName name then none else searchBlocks s.disk inode name, s')) ∧
  ((∀ pos entry, ¬ Target s.disk inode inodeNo pos entry) →
    (deleteDirEntry dir inodeNo).run s = .ok (false, s))

/-- The number belongs to the only entry of an indirect block. -/
def LastOfIndirect (disk : Memory) (inode : Inode) (inodeNo : Word) : Prop :=
  ∃ pos entry, Target disk inode inodeNo pos entry ∧ 12 ≤ pos.1.val ∧
    Alone (entries disk inode) pos

/-- **Deleting an entry.** For every well-formed directory and every inode number,
`delete_dir_entry` returns and removes exactly the entry with the number, if and only if that is
not the only entry of an indirect block. -/
theorem delete_dir_entry_correct_iff (live : s.inodes dir = some inode)
    (wf : DottedDir s.disk s.blockBitmap inode) :
    DeleteCorrect s dir inode inodeNo ↔ ¬ LastOfIndirect s.disk inode inodeNo := by
  constructor
  · rintro ⟨removes, -⟩ ⟨pos, entry, target, indirect, alone⟩
    obtain ⟨s', inode', ran, -⟩ := removes pos entry target
    have later : pos.1 ≠ 0 := by
      intro first
      rw [first] at indirect
      exact absurd indirect (by decide)
    rw [wf.delete_found live target,
      removeTarget_diverges wf.owns target.1 ⟨later, alone⟩ indirect] at ran
    cases ran
  · intro others
    refine ⟨fun pos entry target => ?_, wf.delete_none live⟩
    have direct : Empties (entries s.disk inode) pos → pos.1.val < 12 := by
      intro empties
      by_contra indirect
      exact others ⟨pos, entry, target, by omega, empties.2⟩
    obtain ⟨s', inode', ran, removed⟩ := wf.delete_removes live target direct
    refine ⟨s', inode', ran, removed, fun name nonempty clean => ?_⟩
    rw [search_run removed.object, removed.search wf.toWfDir target.1 nonempty clean]

end Deletion

/-! ## The loop that counts the indirect blocks -/

/-- The loop `while (indirect_block_idx < 140)`, for at most `fuel` rounds; a block is counted, and
the index stays what it is. -/
def countIndirect (allBlocks : Nat → Word) (indirectBlockIdx : Nat) : Nat → Nat → Option Nat
  | 0, _ => none
  | fuel + 1, indirectBlocks =>
      if indirectBlockIdx < 140 then
        countIndirect allBlocks indirectBlockIdx fuel
          (if allBlocks indirectBlockIdx ≠ 0 then indirectBlocks + 1 else indirectBlocks)
      else some indirectBlocks

/-- The loop does not end, after whichever number of rounds. -/
theorem countIndirect_diverges (allBlocks : Nat → Word) (fuel indirectBlocks : Nat) :
    countIndirect allBlocks 12 fuel indirectBlocks = none := by
  induction fuel generalizing indirectBlocks with
  | zero => rfl
  | succ fuel ih =>
      rw [countIndirect, if_pos (by decide)]
      exact ih _

/-! ## A directory with holes

Block 0 holds `.` and `..`, block 1 and block 12 hold one file each. -/

section Holed

/-- The entry of a regular file. -/
def fileEntry (name : List Byte) (inodeNo : Word) : DirEntry where
  filename i := name.getD i 0
  iNo := inodeNo
  fType := ftRegular

/-- The bytes of a block of the data area. -/
def holedBlock (bitIdx : Nat) : Memory :=
  if bitIdx = 1 then
    (Memory.zeros.splice 0 (directoryEntry dot 1).image 24).splice 24
      (directoryEntry dotdot 0).image 24
  else if bitIdx = 2 then Memory.zeros.splice 0 (fileEntry [97] 5).image 24
  else if bitIdx = 3 then Memory.zeros.splice 0 (fileEntry [98] 6).image 24
  else if bitIdx = 4 then tableWith 0 (blockOfBit somePartition 3)
  else Memory.zeros

/-- The inode of the directory. -/
def holedInode : Inode where
  iNo := 1
  iSize := 24 * 4
  iOpenCnts := 1
  writeDeny := false
  iSectors k := if k = 0 then blockOfBit somePartition 1
    else if k = 1 then blockOfBit somePartition 2
    else if k = 12 then blockOfBit somePartition 4 else 0

/-- A partition with this directory. -/
def holedDirectory : FsState somePartition :=
  { blankState with
    disk := fun i => if 2664 ≤ i / 512 then holedBlock (i / 512 - 2664) (i % 512) else 0
    blockBitmap := ⟨fun i => if i = 0 then 0x1f else 0⟩
    inodes := fun _ => some holedInode }

/-- The name at a position that holds an entry. -/
def holedName (pos : Pos) : Option (List Byte) :=
  if pos = (0, 0) then some dot
  else if pos = (0, 1) then some dotdot
  else if pos = (1, 0) then some [97]
  else if pos = (12, 0) then some [98]
  else none

/-- The entry with a name. -/
def holedEntry (name : List Byte) : DirEntry :=
  if name = dot then directoryEntry dot 1
  else if name = dotdot then directoryEntry dotdot 0
  else if name = [97] then fileEntry [97] 5
  else fileEntry [98] 6

theorem holedEntry_typed (name : List Byte) : (holedEntry name).Typed := by
  unfold holedEntry
  split_ifs
  · exact .inr rfl
  · exact .inr rfl
  · exact .inl rfl
  · exact .inl rfl

/-- The number of the block of the directory that a block is. -/
def holedPlace (block : Word) : Nat :=
  if block = blockOfBit somePartition 1 then 0 else if block = blockOfBit somePartition 2 then 1
  else if block = blockOfBit somePartition 3 then 12 else 140

theorem holed_present : ∀ b : Fin 140, allBlocks holedDirectory.disk holedInode b ≠ 0 ↔
    b = 0 ∨ b = 1 ∨ b = 12 := by
  decide +kernel

theorem holed_slot : ∀ b : Fin 140, (b = 0 ∨ b = 1 ∨ b = 12) → ∀ (i : Fin 21) (k : Fin 24),
    slotBuf holedDirectory.disk holedInode (b, i) k =
      ((holedName (b, i)).elim Memory.zeros fun name => (holedEntry name).image) k := by
  decide +kernel

theorem holed_entries (pos : Pos) :
    entries holedDirectory.disk holedInode pos = (holedName pos).map holedEntry := by
  by_cases present : pos.1 = 0 ∨ pos.1 = 1 ∨ pos.1 = 12
  · have slot := fun k : Fin 24 => holed_slot pos.1 present pos.2 k
    rw [entries_present ((holed_present pos.1).mpr present)]
    cases named : holedName pos with
    | none =>
        rw [named] at slot
        have loaded : DirEntry.load (slotBuf holedDirectory.disk holedInode pos) =
            DirEntry.load Memory.zeros :=
          DirEntry.load_congr fun k small => slot ⟨k, small⟩
        rw [loaded, if_pos]
        · rfl
        · rfl
    | some name =>
        rw [named] at slot
        have loaded : DirEntry.load (slotBuf holedDirectory.disk holedInode pos) =
            holedEntry name := by
          rw [← DirEntry.load_image (holedEntry name)]
          exact DirEntry.load_congr fun k small => slot ⟨k, small⟩
        rw [loaded, if_neg (holedEntry_typed name).ne_unknown]
        rfl
  · have none_ : holedName pos = none := by
      unfold holedName
      rw [if_neg, if_neg, if_neg, if_neg]
      all_goals rintro rfl; exact present (by decide)
    rw [none_, entries_absent (not_not.mp fun there => present ((holed_present pos.1).mp there))]
    rfl

theorem holed_owns : OwnsBlocks holedDirectory.disk holedDirectory.blockBitmap holedInode := by
  have place : ∀ k ≤ 140, ownBlock holedDirectory.disk holedInode k ≠ 0 →
      k = holedPlace (ownBlock holedDirectory.disk holedInode k) := by
    decide +kernel
  have bits : ∀ k ≤ 140, ownBlock holedDirectory.disk holedInode k ≠ 0 → ∃ bitIdx < 5,
      ownBlock holedDirectory.disk holedInode k = blockOfBit somePartition bitIdx ∧
        holedDirectory.blockBitmap.test bitIdx = true := by
    decide +kernel
  constructor
  · intro k small k' small' used same
    calc
      k = holedPlace (ownBlock holedDirectory.disk holedInode k) := place k small used
      _ = holedPlace (ownBlock holedDirectory.disk holedInode k') := by rw [same]
      _ = k' := (place k' small' (same ▸ used)).symm
  · intro k small used
    obtain ⟨bitIdx, less, is, set⟩ := bits k small used
    exact ⟨bitIdx, by rw [somePartition_sects]; omega, is, set⟩

/-- The positions and the names of the entries. -/
def holedList : List (Pos × List Byte) :=
  [((0, 0), dot), ((0, 1), dotdot), ((1, 0), [97]), ((12, 0), [98])]

theorem holedName_some {pos : Pos} {name : List Byte} (named : holedName pos = some name) :
    (pos, name) ∈ holedList := by
  unfold holedName at named
  split_ifs at named with first second third fourth
  · cases named
    exact first ▸ List.mem_cons_self
  · cases named
    exact second ▸ by decide
  · cases named
    exact third ▸ by decide
  · cases named
    exact fourth ▸ by decide

/-- The names of the list are clean, each is the one of its entry, and is listed once. -/
theorem holedList_names : ∀ listed ∈ holedList, 0 ∉ listed.2 ∧
    (holedEntry listed.2).HasName listed.2 ∧ (holedEntry listed.2).filename 0 ≠ 0 ∧
    ∀ listed' ∈ holedList, listed.2 = listed'.2 → listed.1 = listed'.1 := by
  decide

/-- An entry of the directory has the name that is listed for its position. -/
theorem holed_some {pos : Pos} {entry : DirEntry}
    (there : entries holedDirectory.disk holedInode pos = some entry) :
    ∃ name, (pos, name) ∈ holedList ∧ entry = holedEntry name := by
  rw [holed_entries, Option.map_eq_some_iff] at there
  obtain ⟨name, named, is⟩ := there
  exact ⟨name, holedName_some named, is.symm⟩

/-- The name of an entry determines its position. -/
theorem holed_named {pos : Pos} {name name' : List Byte} (listed : (pos, name) ∈ holedList)
    (clean : 0 ∉ name') (has : (holedEntry name).HasName name') : name' = name := by
  obtain ⟨clean', named, -⟩ := holedList_names _ listed
  exact DirEntry.HasName.unique clean clean' has named

theorem holed_wf :
    DottedDir holedDirectory.disk holedDirectory.blockBitmap holedInode where
  owns := holed_owns
  readable := by
    constructor
    · intro pos present free
      rw [holed_entries, Option.map_eq_none_iff] at free
      have slot := holed_slot pos.1 ((holed_present pos.1).mp present) pos.2 0
      rw [free] at slot
      exact slot
    · intro pos entry there
      obtain ⟨name, -, rfl⟩ := holed_some there
      exact holedEntry_typed name
  nonempty := by
    intro pos entry there
    obtain ⟨name, listed, rfl⟩ := holed_some there
    exact (holedList_names _ listed).2.2.1
  unique := by
    intro pos pos' entry entry' name there there' _ clean has has'
    obtain ⟨name₁, listed, rfl⟩ := holed_some there
    obtain ⟨name₂, listed', rfl⟩ := holed_some there'
    have same : name₁ = name₂ :=
      (holed_named listed clean has).symm.trans (holed_named listed' clean has')
    exact (holedList_names _ listed).2.2.2 _ listed' same
  size := by
    have live : (fun pos : Pos => (entries holedDirectory.disk holedInode pos).isSome = true) =
        fun pos => (holedName pos).isSome = true := by
      funext pos
      rw [holed_entries, Option.isSome_map]
    have count : (Finset.univ.filter fun pos : Pos => (holedName pos).isSome).card = 4 := by
      decide +kernel
    rw [liveCount, Finset.filter_congr (fun pos _ => iff_of_eq (congrFun live pos)), count]
    rfl
  dotFirst := ⟨0, holedEntry dot, holed_entries (0, 0), by decide⟩
  dotdotFirst := by
    intro pos entry there has
    obtain ⟨name, listed, rfl⟩ := holed_some there
    have is := holed_named listed (by decide) has
    have second : ∀ listed ∈ holedList, dotdot = listed.2 → listed.1.1 = 0 := by
      decide
    exact second _ listed is
  distinct := by
    intro pos pos' entry entry' there there' other other' number
    obtain ⟨name, listed, rfl⟩ := holed_some there
    obtain ⟨name', listed', rfl⟩ := holed_some there'
    have apart : ∀ listed ∈ holedList, ∀ listed' ∈ holedList, (holedEntry listed.2).IsOther →
        (holedEntry listed'.2).IsOther → (holedEntry listed.2).iNo = (holedEntry listed'.2).iNo →
        listed.1 = listed'.1 := by
      decide
    exact apart _ listed _ listed' other other' number

theorem holed_target : Target holedDirectory.disk holedInode 6 (12, 0) (holedEntry [98]) :=
  ⟨holed_entries (12, 0), by decide, by decide⟩

/-- The file in block 1 is deleted, together with the block. -/
theorem delete_dir_entry_correct_holed : DeleteCorrect holedDirectory (.kernel 0) holedInode 5 := by
  refine (delete_dir_entry_correct_iff rfl holed_wf).mpr ?_
  rintro ⟨pos, entry, ⟨there, -, number⟩, indirect, -⟩
  obtain ⟨name, listed, rfl⟩ := holed_some there
  have direct : ∀ listed ∈ holedList, (holedEntry listed.2).iNo = 5 → listed.1.1.val < 12 := by
    decide
  have less : pos.1.val < 12 := direct (pos, name) listed number
  omega

/-- The deletion of the file in block 12 does not return. -/
theorem delete_dir_entry_hangs :
    DottedDir holedDirectory.disk holedDirectory.blockBitmap holedInode ∧
    Target holedDirectory.disk holedInode 6 (12, 0) (holedEntry [98]) ∧
    (deleteDirEntry (.kernel 0) 6).run holedDirectory = .error .diverges ∧
    ¬ DeleteCorrect holedDirectory (.kernel 0) holedInode 6 := by
  have alone : Empties (entries holedDirectory.disk holedInode) (12, 0) := by
    refine ⟨by decide, fun i there => ?_⟩
    obtain ⟨entry, there⟩ := Option.ne_none_iff_exists'.mp there
    obtain ⟨name, listed, -⟩ := holed_some there
    have only : ∀ listed ∈ holedList, listed.1.1 = 12 → listed.1.2 = 0 := by
      decide
    exact only _ listed rfl
  have hangs : (deleteDirEntry (.kernel 0) 6).run holedDirectory = .error .diverges := by
    rw [holed_wf.delete_found rfl holed_target]
    exact removeTarget_diverges holed_owns holed_target.1 alone (by decide)
  refine ⟨holed_wf, holed_target, hangs, fun correct => ?_⟩
  obtain ⟨s', inode', ran, -⟩ := correct.1 _ _ holed_target
  rw [hangs] at ran
  cases ran

end Holed

end UKernel.Fs
