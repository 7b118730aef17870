import UKernel.Fs.Frames
import UKernel.Fs.ReadDir
import UKernel.Library.Count

/-! # The name of a new entry

The field for the name of an entry has room for 16 bytes and none for a zero byte behind them. Its
readers read a string, so a name of 16 bytes continues with the bytes of the inode number. The
entry that `sync_dir_entry` stored has its name for `search_dir_entry`, `dir_read` and
`get_child_dir_name` exactly if such a name is followed by a zero byte, and no entry in front has
the inode number (`UKernel.Fs.entry_found_under_iff`).
-/

namespace UKernel.Fs

open UKernel.Library

variable {part : Partition} {s s' : FsState part} {dir : Ptr} {disk disk' m : Memory}
  {inode inode' : Inode} {pos pos' : Pos} {entry pDe : DirEntry} {name path : List Byte}
  {number : Word}

/-! ## Strings -/

/-- The string at an address of which `size` bytes are in the buffer. -/
def stringAt (m : Memory) : Nat → Except Fault (List Byte)
  | 0 => throw .outOfBounds
  | size + 1 =>
      if m 0 = 0 then
        return []
      else do
        let rest ← stringAt (m.shift 1) size
        return m 0 :: rest

/-- The string at an address is a name. -/
theorem stringAt_eq_ok {size : Nat} :
    stringAt m size = .ok name ↔ name.length < size ∧ 0 ∉ name ∧ strEq m name = true := by
  induction size generalizing m name with
  | zero => exact iff_of_false (by rintro ⟨⟩) fun three => absurd three.1 (Nat.not_lt_zero _)
  | succ size ih =>
      have next : (m.shift 1) = fun i => m (i + 1) := by
        funext i
        rw [Memory.shift, Nat.add_comm]
      rw [stringAt]
      by_cases zero : m 0 = 0
      · rw [if_pos zero]
        cases name with
        | nil => simp [pure, Except.pure, strEq, zero]
        | cons c cs =>
            refine iff_of_false (by rintro ⟨⟩) fun three => ?_
            obtain ⟨-, clean, equal⟩ := three
            simp only [strEq, zero, Bool.and_eq_true, decide_eq_true_eq] at equal
            exact clean (equal.1 ▸ List.mem_cons_self)
      · rw [if_neg zero, except_bind_eq_ok]
        constructor
        · rintro ⟨rest, read, ends⟩
          cases ends
          obtain ⟨short, clean, equal⟩ := ih.mp read
          refine ⟨Nat.succ_lt_succ short, ?_, ?_⟩
          · rw [List.mem_cons, not_or]
            exact ⟨fun is => zero is.symm, clean⟩
          · rw [strEq, ← next, equal, decide_eq_true rfl, Bool.and_true]
        · rintro ⟨short, clean, equal⟩
          cases name with
          | nil => exact absurd (of_decide_eq_true equal) zero
          | cons c cs =>
              rw [List.mem_cons, not_or] at clean
              simp only [strEq, Bool.and_eq_true, decide_eq_true_eq] at equal
              exact ⟨cs, ih.mpr ⟨Nat.lt_of_succ_lt_succ short, clean.2, next ▸ equal.2⟩,
                by rw [equal.1]; rfl⟩

/-! ## `get_child_dir_name` -/

/-- The loop of `get_child_dir_name` over the entries of a sector. -/
def childSlot (dirE : Memory) (cInodeNr : Word) : Option Nat :=
  (List.range 21).find? fun dirEIdx => (DirEntry.load (dirE.shift (24 * dirEIdx))).iNo = cInodeNr

/-- The loop of `get_child_dir_name` over the blocks; `none` is the result `-1`. -/
def childBlocks (disk : Memory) (allBlocks : Nat → Word) (cInodeNr : Word) (path : List Byte) :
    List Nat → Except Fault (Option (List Byte))
  | [] => return none
  | blockIdx :: blockIdxs =>
      if allBlocks blockIdx = 0 then
        childBlocks disk allBlocks cInodeNr path blockIdxs
      else
        let dirE := ideRead disk (allBlocks blockIdx).toNat
        match childSlot dirE cInodeNr with
        | some dirEIdx => do
            let filename ← stringAt (dirE.shift (24 * dirEIdx)) (512 - 24 * dirEIdx)
            return some (path ++ [slash] ++ filename)
        | none => childBlocks disk allBlocks cInodeNr path blockIdxs

/-- `get_child_dir_name`: the path with the name at its end. -/
def getChildDirName (pInodeNr cInodeNr : Word) (path : List Byte) :
    FsCall part (Option (List Byte)) := do
  let parentDir ← inodeOpen pInodeNr
  let parentDirInode ← deref parentDir
  let s ← get
  let blocks := allBlocks s.disk parentDirInode
  let blockCnt := if parentDirInode.sector 12 ≠ 0 then 140 else 12
  inodeClose parentDir
  let s ← get
  childBlocks s.disk blocks cInodeNr path (List.range blockCnt)

section Child

/-- A position holds the number, in a block that is there. -/
def HasNumber (disk : Memory) (inode : Inode) (number : Word) (pos : Pos) : Prop :=
  allBlocks disk inode pos.1 ≠ 0 ∧ (DirEntry.load (slotBuf disk inode pos)).iNo = number

theorem childSlot_none {b : Fin 140} :
    childSlot (ideRead disk (allBlocks disk inode b).toNat) number = none ↔
      ∀ i : Fin 21, (DirEntry.load (slotBuf disk inode (b, i))).iNo ≠ number := by
  simp only [childSlot, List.find?_eq_none, List.mem_range, decide_eq_true_eq]
  exact ⟨fun none_ i => none_ i i.isLt, fun none_ i less => none_ ⟨i, less⟩⟩

theorem childSlot_some {b : Fin 140} {i : Nat}
    (found : childSlot (ideRead disk (allBlocks disk inode b).toNat) number = some i) :
    ∃ less : i < 21, (DirEntry.load (slotBuf disk inode (b, ⟨i, less⟩))).iNo = number ∧
      ∀ j : Fin 21, j.val < i → (DirEntry.load (slotBuf disk inode (b, j))).iNo ≠ number := by
  obtain ⟨is, listed, front⟩ := List.find?_range_eq_some.mp found
  refine ⟨List.mem_range.mp listed, of_decide_eq_true is, fun j less same => ?_⟩
  have known := front j less
  rw [Bool.not_eq_true'] at known
  exact of_decide_eq_false known same

/-- The ways in which the loop over some blocks ends: nothing has the number, or the first position
that has it gives the name. -/
def ChildEnds (disk : Memory) (inode : Inode) (number : Word) (path : List Byte)
    (blockIdxs : List Nat) : Prop :=
  ((∀ pos : Pos, pos.1.val ∈ blockIdxs → ¬ HasNumber disk inode number pos) ∧
    childBlocks disk (allBlocks disk inode) number path blockIdxs = .ok none) ∨
  ∃ pos : Pos, HasNumber disk inode number pos ∧
    (∀ pos', pos'.1.val ∈ blockIdxs → Before pos' pos → ¬ HasNumber disk inode number pos') ∧
    childBlocks disk (allBlocks disk inode) number path blockIdxs = (do
      let filename ← stringAt (slotBuf disk inode pos) (512 - 24 * pos.2)
      return some (path ++ [slash] ++ filename))

/-- A block in which nothing has the number is passed over. -/
theorem ChildEnds.pass {b : Nat} {blockIdxs : List Nat} (small : b < 140)
    (none_ : ∀ i, ¬ HasNumber disk inode number (⟨b, small⟩, i))
    (same : childBlocks disk (allBlocks disk inode) number path (b :: blockIdxs) =
      childBlocks disk (allBlocks disk inode) number path blockIdxs)
    (ends : ChildEnds disk inode number path blockIdxs) :
    ChildEnds disk inode number path (b :: blockIdxs) := by
  have skip : ∀ pos : Pos, pos.1.val ∈ b :: blockIdxs → HasNumber disk inode number pos →
      pos.1.val ∈ blockIdxs := by
    intro pos listed has
    refine (List.mem_cons.mp listed).resolve_left fun here => ?_
    have block : pos = (⟨b, small⟩, pos.2) := Prod.ext (Fin.ext here) rfl
    exact none_ pos.2 (block ▸ has)
  rcases ends with ⟨nothing, ran⟩ | ⟨pos, has, first, ran⟩
  · exact .inl ⟨fun pos listed has => nothing pos (skip pos listed has) has, same.trans ran⟩
  · exact .inr ⟨pos, has, fun pos' listed front has' =>
      first pos' (skip pos' listed has') front has',
      same.trans ran⟩

/-- The loop over the blocks. -/
theorem childBlocks_ends {blockIdxs : List Nat} (sorted : blockIdxs.Pairwise (· < ·))
    (bounds : ∀ b ∈ blockIdxs, b < 140) : ChildEnds disk inode number path blockIdxs := by
  induction blockIdxs with
  | nil => exact .inl ⟨fun pos listed => absurd listed List.not_mem_nil, rfl⟩
  | cons b blockIdxs ih =>
      obtain ⟨small, rest⟩ := List.forall_mem_cons.mp bounds
      obtain ⟨later, sorted⟩ := List.pairwise_cons.mp sorted
      by_cases absent : allBlocks disk inode b = 0
      · exact (ih sorted rest).pass small (fun i has => has.1 absent)
          (by rw [childBlocks, if_pos absent])
      cases found : childSlot (ideRead disk (allBlocks disk inode b).toNat) number with
      | none =>
          have none_ := (childSlot_none (b := ⟨b, small⟩)).mp found
          exact (ih sorted rest).pass small (fun i has => none_ i has.2)
            (by rw [childBlocks, if_neg absent]; dsimp only; rw [found])
      | some i =>
          obtain ⟨less, is, front⟩ := childSlot_some (b := ⟨b, small⟩) found
          refine .inr ⟨(⟨b, small⟩, ⟨i, less⟩), ⟨absent, is⟩, fun pos' listed before has => ?_,
            by rw [childBlocks, if_neg absent]; dsimp only; rw [found]; rfl⟩
          have block : pos'.1.val = b := by
            refine (List.mem_cons.mp listed).resolve_right fun behind => ?_
            have behind := later _ behind
            rcases before with less' | ⟨same, -⟩
            · have less' : pos'.1.val < b := less'
              omega
            · have same : pos'.1.val = b := congrArg Fin.val same
              omega
          have here : pos' = (⟨b, small⟩, pos'.2) := Prod.ext (Fin.ext block) rfl
          have slot : pos'.2.val < i := by
            rcases before with less' | ⟨-, less'⟩
            · have less' : pos'.1.val < b := less'
              omega
            · exact less'
          exact front pos'.2 slot (here ▸ has.2)

/-- The only open inode with a number. -/
def OnlyOpen (s : FsState part) (ptr : Ptr) (number : Word) : Prop :=
  ptr ∈ s.openInodes ∧ ∀ p ∈ s.openInodes, ∃ obj, s.inodes p = some obj ∧
    (obj.iNo = number ↔ p = ptr)

theorem findOpen_only {ptr : Ptr} {elems : List Ptr} (listed : ptr ∈ elems)
    (only : ∀ p ∈ elems, ∃ obj, s.inodes p = some obj ∧ (obj.iNo = number ↔ p = ptr)) :
    (findOpen number elems).run s = .ok (some ptr, s) := by
  induction elems with
  | nil => exact absurd listed List.not_mem_nil
  | cons elem elems ih =>
      obtain ⟨⟨obj, live, same⟩, rest⟩ := List.forall_mem_cons.mp only
      rw [findOpen, call_bind_of (deref_returns.mpr ⟨live, rfl⟩)]
      by_cases here : elem = ptr
      · rw [if_pos (same.mpr here), here]
        rfl
      · rw [if_neg (mt same.mp here)]
        exact ih ((List.mem_cons.mp listed).resolve_left (Ne.symm here)) rest

/-- An open directory is opened and closed again. -/
theorem getChildDirName_run (only : OnlyOpen s dir inode.iNo) (live : s.inodes dir = some inode)
    (opened : 1 ≤ inode.iOpenCnts) : (getChildDirName inode.iNo number path).run s =
      (liftM (childBlocks s.disk (allBlocks s.disk inode) number path
        (List.range (if inode.sector 12 ≠ 0 then 140 else 12))) : FsCall part _).run s := by
  have opens : (inodeOpen inode.iNo).run s = .ok (dir, s.reopen dir inode) := by
    rw [inodeOpen, call_bind_of (call_get_returns.mpr ⟨rfl, rfl⟩),
      call_bind_of (findOpen_only only.1 only.2)]
    dsimp only
    rw [call_bind_of (deref_returns.mpr ⟨live, rfl⟩), call_bind_of (store_returns.mpr rfl)]
    rfl
  have again : (s.reopen dir inode).inodes dir =
      some { inode with iOpenCnts := inode.iOpenCnts + 1 } := Function.update_self ..
  have closes : (inodeClose dir).run (s.reopen dir inode) = .ok ((), s) := by
    rw [inodeClose, call_bind_of (deref_returns.mpr ⟨again, rfl⟩)]
    dsimp only
    rw [if_neg (Nat.succ_ne_zero _), Nat.add_sub_cancel, if_neg (by omega), store_returns,
      FsState.reopen, Function.update_idem]
    have same : Function.update s.inodes dir (some inode) = s.inodes := by
      rw [← live, Function.update_eq_self]
    exact congrArg (fun inodes => { s with inodes := inodes }) same
  rw [getChildDirName, call_bind_of opens, call_bind_of (deref_returns.mpr ⟨again, rfl⟩),
    call_bind_of (call_get_returns.mpr ⟨rfl, rfl⟩)]
  dsimp only
  rw [call_bind_of closes, call_bind_of (call_get_returns.mpr ⟨rfl, rfl⟩)]
  rfl

end Child

/-! ## What the readers find -/

/-- `search_dir_entry` finds the entry under the name and no other one, some call of `dir_read`
yields it with the name, and `get_child_dir_name` gives the name for its number. -/
structure FoundUnder (s : FsState part) (dir : Ptr) (number : Word) (pDe : DirEntry)
    (name : List Byte) : Prop where
  search : (searchDirEntry dir name).run s = .ok (some pDe, s)
  only : ∀ other ≠ [], 0 ∉ other → (searchDirEntry dir other).run s = .ok (some pDe, s) →
    other = name
  read : ∃ pos handle, (dirRead ⟨dir, pos⟩).run s = .ok ((some pDe, handle), s) ∧
    stringAt pDe.image 24 = .ok name
  child : ∀ path, (getChildDirName number pDe.iNo path).run s =
    .ok (some (path ++ [slash] ++ name), s)

/-- An entry in front of the first free place has the number. -/
def InFront (disk : Memory) (inode : Inode) (number : Word) : Prop :=
  ∃ pos entry, entries disk inode pos = some entry ∧ entry.iNo = number ∧ pos.1.val < 12 ∧
    ∀ pos', Before pos' pos → entries disk inode pos' ≠ none

theorem FoundUnder.hasName (found : FoundUnder s dir number pDe name) : pDe.HasName name := by
  obtain ⟨pos, handle, -, string⟩ := found.read
  exact (stringAt_eq_ok.mp string).2.2

/-- Of two positions one comes first. -/
theorem before_or (pos pos' : Pos) : Before pos pos' ∨ pos = pos' ∨ Before pos' pos := by
  rcases lt_trichotomy pos.1 pos'.1 with less | same | more
  · exact .inl (.inl less)
  · rcases lt_trichotomy pos.2 pos'.2 with less | same' | more
    · exact .inl (.inr ⟨same, less⟩)
    · exact .inr (.inl (Prod.ext same same'))
    · exact .inr (.inr (.inr ⟨same.symm, more⟩))
  · exact .inr (.inr (.inl more))

section Stored

/-- A call of `dir_read` yields any live entry, if the size counts the entries in front of it. -/
theorem dirRead_yields {k : Nat} (live : s.inodes dir = some inode)
    (more : 24 * k < inode.iSize.toNat)
    (there : (liveEntries (entries s.disk inode))[k]? = some entry) :
    ∃ handle, (dirRead ⟨dir, BitVec.ofNat 32 (24 * k)⟩).run s = .ok ((some entry, handle), s) := by
  refine ⟨⟨dir, BitVec.ofNat 32 (24 * k) + 24⟩, ?_⟩
  rw [dirRead, call_bind_of (deref_returns.mpr ⟨live, rfl⟩),
    call_bind_of (call_get_returns.mpr ⟨rfl, rfl⟩)]
  dsimp only
  rw [call_bind_of (call_lift_returns.mpr ⟨readBlocks_run more, rfl⟩), there]
  rfl

/-- What is known of the directory after the entry was stored at a position. -/
structure Stored (s s' : FsState part) (dir : Ptr) (inode inode' : Inode) (pos : Pos)
    (pDe : DirEntry) : Prop where
  object : s'.inodes dir = some inode'
  readable : Readable s'.disk inode'
  here : entries s'.disk inode' pos = some pDe
  old : ∀ pos' ≠ pos, ∀ entry, entries s'.disk inode' pos' = some entry →
    entries s.disk inode pos' = some entry
  place : (pos.1.val < 12 ∧ entries s.disk inode pos = none) ∨ pos = (12, 0)
  front : ∀ pos', Before pos' pos → entries s.disk inode pos' ≠ none ∧
    entries s'.disk inode' pos' = entries s.disk inode pos'
  iNo_eq : inode'.iNo = inode.iNo
  iSize_eq : inode'.iSize = inode.iSize + 24
  state_eq : s' = { s with
    disk := s'.disk
    blockBitmap := s'.blockBitmap
    inodes := Function.update s.inodes dir (some inode') }

theorem Before.trans {pos₁ pos₂ pos₃ : Pos} (first : Before pos₁ pos₂) (second : Before pos₂ pos₃) :
    Before pos₁ pos₃ := by
  rcases first with less | ⟨same, less⟩
  · rcases second with less' | ⟨same', -⟩
    · exact .inl (less.trans less')
    · exact .inl (same' ▸ less)
  · rcases second with less' | ⟨same', less'⟩
    · exact .inl (same ▸ less')
    · exact .inr ⟨same.trans same', less.trans less'⟩

theorem Before.ne (before : Before pos pos') : pos ≠ pos' := by
  rintro rfl
  rcases before with less | ⟨-, less⟩
  · exact lt_irrefl _ less
  · exact lt_irrefl _ less

/-- What `sync_dir_entry` leaves when it returned true. -/
theorem stored_of_sync (live : s.inodes dir = some inode)
    (wf : WfDir s.disk s.blockBitmap inode) (typed : pDe.Typed)
    (ran : (syncDirEntry dir pDe).run s = .ok (true, s')) :
    ∃ inode' pos, Stored s s' dir inode inode' pos pDe := by
  obtain ⟨base, inode', pos, either, front, inserted, -⟩ :=
    syncDirEntry_placed typed live wf.owns wf.readable ran
  have either' : (base = inode ∧ pos.1.val < 12) ∨
      (DirectFull s.disk inode ∧ base = inode.detach) :=
    either.imp_right fun three => ⟨three.1, three.2.1⟩
  refine ⟨inode', pos, {
    object := inserted.object
    readable := inserted.readable
    here := ?_, old := ?_, place := ?_, front := ?_, iNo_eq := ?_, iSize_eq := ?_,
    state_eq := inserted.state_eq }⟩
  · rw [inserted.entries_eq, Function.update_self]
  · intro pos' apart entry there
    rw [inserted.entries_eq, Function.update_of_ne apart] at there
    exact base_said either' there
  · rcases either with ⟨rfl, direct⟩ | ⟨-, -, last⟩
    · exact .inl ⟨direct, inserted.was_free⟩
    · exact .inr last
  · intro pos' before
    refine ⟨front pos' before, ?_⟩
    rw [inserted.entries_eq, Function.update_of_ne before.ne]
    rcases either with ⟨rfl, -⟩ | ⟨-, rfl, rfl⟩
    · rfl
    · rw [detach_entries, if_pos]
      rcases before with less | ⟨-, less⟩
      · exact less
      · exact absurd less (Nat.not_lt_zero _)
  · rw [inserted.iNo_eq]
    rcases either with ⟨rfl, -⟩ | ⟨-, rfl, -⟩
    · rfl
    · rfl
  · rw [inserted.iSize_eq]
    rcases either with ⟨rfl, -⟩ | ⟨-, rfl, -⟩
    · rfl
    · rfl

theorem Stored.has (stored : Stored s s' dir inode inode' pos pDe) :
    HasNumber s'.disk inode' pDe.iNo pos := by
  obtain ⟨present, is⟩ := entries_some stored.here
  exact ⟨present, congrArg DirEntry.iNo is.symm⟩

/-- An entry in front of the new one has the number if and only if there is one in front of the
first free place. -/
theorem Stored.inFront_iff (stored : Stored s s' dir inode inode' pos pDe) :
    (∃ pos', Before pos' pos ∧ HasNumber s'.disk inode' number pos') ↔
      InFront s.disk inode number := by
  constructor
  · rintro ⟨pos', before, present, is⟩
    obtain ⟨there, same⟩ := stored.front pos' before
    obtain ⟨entry, said⟩ := Option.ne_none_iff_exists'.mp there
    have loaded := (entries_some (same.trans said)).2
    refine ⟨pos', entry, said, loaded ▸ is, ?_, fun pos'' earlier =>
      (stored.front pos'' (earlier.trans before)).1⟩
    rcases stored.place with ⟨direct, -⟩ | rfl
    · rcases before with less | ⟨block, -⟩
      · have less : pos'.1.val < pos.1.val := less
        omega
      · rw [block]
        exact direct
    · rcases before with less | ⟨-, less⟩
      · exact less
      · exact absurd less (Nat.not_lt_zero _)
  · rintro ⟨pos', entry, said, is, direct, occupied⟩
    have before : Before pos' pos := by
      rcases stored.place with ⟨-, free⟩ | rfl
      · rcases before_or pos' pos with before | rfl | after
        · exact before
        · rw [free] at said
          cases said
        · exact absurd free (occupied pos after)
      · exact .inl direct
    have same := (stored.front pos' before).2.trans said
    obtain ⟨present, loaded⟩ := entries_some same
    exact ⟨pos', before, present, loaded ▸ is⟩

/-- The directory is still the only open inode with its number. -/
theorem Stored.onlyOpen (stored : Stored s s' dir inode inode' pos pDe)
    (only : OnlyOpen s dir inode.iNo) : OnlyOpen s' dir inode'.iNo := by
  obtain ⟨listed, others⟩ := only
  rw [stored.iNo_eq, OnlyOpen, stored.state_eq]
  refine ⟨listed, fun p listed' => ?_⟩
  by_cases here : p = dir
  · refine ⟨inode', ?_, iff_of_true stored.iNo_eq here⟩
    dsimp only
    rw [here, Function.update_self]
  · obtain ⟨obj, live, same⟩ := others p listed'
    refine ⟨obj, ?_, same⟩
    dsimp only
    rw [Function.update_of_ne here, live]

/-- `get_child_dir_name` takes the name at the first position with the number. -/
theorem Stored.child_run (stored : Stored s s' dir inode inode' pos pDe)
    (only : OnlyOpen s dir inode.iNo) (opened : 1 ≤ inode'.iOpenCnts) :
    ∃ first, HasNumber s'.disk inode' pDe.iNo first ∧
      (∀ pos', Before pos' first → ¬ HasNumber s'.disk inode' pDe.iNo pos') ∧
      ∀ path, (getChildDirName inode.iNo pDe.iNo path).run s' = (liftM (do
        let filename ← stringAt (slotBuf s'.disk inode' first) (512 - 24 * first.2)
        return some (path ++ [slash] ++ filename)) : FsCall part _).run s' := by
  have listed : ∀ pos', HasNumber s'.disk inode' pDe.iNo pos' →
      pos'.1.val ∈ List.range (if inode'.sector 12 ≠ 0 then 140 else 12) := by
    intro pos' has
    rw [List.mem_range]
    by_cases table : inode'.sector 12 = 0
    · rw [if_neg (not_not.mpr table)]
      by_contra indirect
      exact has.1 (allBlocks_noTable (by omega) table)
    · rw [if_pos table]
      exact pos'.1.isLt
  have ends : ∀ path, ChildEnds s'.disk inode' pDe.iNo path
      (List.range (if inode'.sector 12 ≠ 0 then 140 else 12)) := by
    intro path
    refine childBlocks_ends List.pairwise_lt_range fun b inside => ?_
    have less := List.mem_range.mp inside
    split at less
    · exact less
    · omega
  have first : ∀ path, ∃ first, HasNumber s'.disk inode' pDe.iNo first ∧
      (∀ pos', Before pos' first → ¬ HasNumber s'.disk inode' pDe.iNo pos') ∧
      (getChildDirName inode.iNo pDe.iNo path).run s' = (liftM (do
        let filename ← stringAt (slotBuf s'.disk inode' first) (512 - 24 * first.2)
        return some (path ++ [slash] ++ filename)) : FsCall part _).run s' := by
    intro path
    rcases ends path with ⟨nothing, -⟩ | ⟨first, has, front, read⟩
    · exact absurd stored.has (nothing pos (listed pos stored.has))
    · refine ⟨first, has, fun pos' before has' => front pos' (listed pos' has') before has', ?_⟩
      rw [← stored.iNo_eq, getChildDirName_run (stored.onlyOpen only) stored.object opened, read]
  obtain ⟨first₁, has₁, front₁, -⟩ := first []
  refine ⟨first₁, has₁, front₁, fun path => ?_⟩
  obtain ⟨first₂, has₂, front₂, run⟩ := first path
  rcases before_or first₁ first₂ with before | rfl | after
  · exact absurd has₁ (front₂ first₁ before)
  · exact run
  · exact absurd has₂ (front₁ first₂ after)

/-- The new entry is among the live ones, at an index that the size counts. -/
theorem Stored.listed (stored : Stored s s' dir inode inode' pos pDe)
    (wf : WfDir s.disk s.blockBitmap inode) :
    ∃ k, (liveEntries (entries s'.disk inode'))[k]? = some pDe ∧ 24 * k < inode'.iSize.toNat := by
  have inside : pDe ∈ liveEntries (entries s'.disk inode') :=
    List.mem_filterMap.mpr ⟨pos, mem_positions pos, stored.here⟩
  obtain ⟨k, less, is⟩ := List.mem_iff_getElem.mp inside
  refine ⟨k, List.getElem?_eq_some_iff.mpr ⟨less, is⟩, ?_⟩
  have counted : liveCount (entries s'.disk inode') ≤ liveCount (entries s.disk inode) + 1 := by
    refine card_le_succ pos fun pos' apart there => ?_
    obtain ⟨entry, there⟩ := Option.isSome_iff_exists.mp there
    rw [stored.old pos' apart entry there, Option.isSome_some]
  have bound := liveCount_le (entries s.disk inode)
  rw [length_liveEntries] at less
  have size := wf.size
  rw [stored.iSize_eq, BitVec.toNat_add]
  change _ < (_ + 24) % 2 ^ 32
  omega

/-- The string of the new entry in its sector, and in the entry. -/
theorem Stored.string_here (stored : Stored s s' dir inode inode' pos pDe)
    (short : name.length ≤ 16) (clean : 0 ∉ name) (named : pDe.HasName name) :
    stringAt (slotBuf s'.disk inode' pos) (512 - 24 * pos.2) = .ok name := by
  have inside := pos.2.isLt
  refine stringAt_eq_ok.mpr ⟨by omega, clean, ?_⟩
  rw [← named]
  apply strEq_congr
  intro i small
  rw [(entries_some stored.here).2, DirEntry.image_load (by omega)]

/-- The string at another position is the name of an entry of before. -/
theorem Stored.string_there (stored : Stored s s' dir inode inode' pos pDe)
    (nonempty : name ≠ []) (apart : pos' ≠ pos) (present : allBlocks s'.disk inode' pos'.1 ≠ 0)
    {size : Nat} (string : stringAt (slotBuf s'.disk inode' pos') size = .ok name) :
    ∃ entry, entries s.disk inode pos' = some entry ∧ entry.HasName name := by
  obtain ⟨-, clean, equal⟩ := stringAt_eq_ok.mp string
  obtain ⟨entry, there, named⟩ := (stored.readable.slot_matches present nonempty clean).mp equal
  exact ⟨entry, stored.old pos' apart entry there, named⟩

/-- **The name of a new entry.** For every name that `create_dir_entry` accepts and every inode
number, after `sync_dir_entry` stored the entry in a well-formed directory without that name, the
three readers give exactly that name, if and only if a name of 16 bytes is followed by a zero byte,
which the inode number supplies, and no entry in front of the first free place has the number. -/
theorem entry_found_under_iff {inodeNo fileType : Word} (live : s.inodes dir = some inode)
    (wf : WfDir s.disk s.blockBitmap inode) (only : OnlyOpen s dir inode.iNo)
    (opened : 1 ≤ inode.iOpenCnts) (nonempty : name ≠ []) (clean : 0 ∉ name)
    (typed : fileType = ftRegular ∨ fileType = ftDirectory)
    (created : createDirEntry name inodeNo fileType .blank = .ok pDe)
    (absent : (searchDirEntry dir name).run s = .ok (none, s))
    (ran : (syncDirEntry dir pDe).run s = .ok (true, s')) :
    FoundUnder s' dir inode.iNo pDe name ↔
      (name.length = 16 → inodeNo.toNat % 256 = 0) ∧ ¬ InFront s.disk inode inodeNo := by
  obtain ⟨inode', pos, stored⟩ := stored_of_sync live wf (created_typed typed created) ran
  obtain ⟨short, number, -⟩ := createDirEntry_returns created
  have count : inode'.iOpenCnts = inode.iOpenCnts := by
    have same := (syncDirEntry_quiet pDe dir s true s' ran).counts dir
    rw [live, stored.object] at same
    exact Option.some.inj same
  have unnamed : ∀ pos entry, entries s.disk inode pos = some entry → ¬ entry.HasName name := by
    rw [search_run live] at absent
    exact (wf.readable.search_none nonempty clean).mp (congrArg Prod.fst (Except.ok.inj absent))
  obtain ⟨first, has, front, child⟩ := stored.child_run only (count.symm ▸ opened)
  rw [← created_hasName created, ← stored.inFront_iff, ← number]
  constructor
  · intro found
    refine ⟨found.hasName, ?_⟩
    rintro ⟨pos', before, has'⟩
    -- the first position with the number is another one, whose entry has another name
    have apart : first ≠ pos := by
      rintro rfl
      exact front pos' before has'
    have given := found.child []
    rw [child [], call_lift_returns] at given
    obtain ⟨filename, string, is⟩ := except_bind_eq_ok.mp given.1
    have same : filename = name := by
      cases is
      rfl
    obtain ⟨entry, there, named⟩ := stored.string_there nonempty apart has.1 (same ▸ string)
    exact unnamed first entry there named
  · rintro ⟨named, nothing⟩
    have searched : ∀ other, (searchDirEntry dir other).run s' =
        .ok (searchBlocks s'.disk inode' other, s') := fun other => search_run stored.object
    have here : first = pos := by
      rcases before_or first pos with before | same | after
      · exact absurd ⟨first, before, has⟩ nothing
      · exact same
      · exact absurd stored.has (front pos after)
    obtain ⟨k, listed, more⟩ := stored.listed wf
    obtain ⟨handle, read⟩ := dirRead_yields stored.object more listed
    refine ⟨?_, ?_, ⟨_, handle, read, stringAt_eq_ok.mpr ⟨by omega, clean, named⟩⟩, ?_⟩
    · rw [searched, stored.readable.search_finds pos ?_ nonempty clean stored.here named]
      intro pos' entry there has'
      by_contra apart
      exact unnamed pos' entry (stored.old pos' apart entry there) has'
    · intro other nonempty' clean' found
      rw [searched] at found
      obtain ⟨-, -, has'⟩ := stored.readable.search_sound nonempty' clean'
        (congrArg Prod.fst (Except.ok.inj found))
      exact DirEntry.HasName.unique clean' clean has' named
    · intro path
      rw [child path, here, call_lift_returns, stored.string_here short clean named]
      exact ⟨rfl, rfl⟩

end Stored

/-! ## Two names -/

/-- A directory that is open and has no block yet. -/
def openDirectory : FsState somePartition :=
  { blankState with
    inodes := fun _ => some { inodeInit 1 with iOpenCnts := 1 }
    openInodes := [.kernel 0] }

theorem openDirectory_wf : WfDir openDirectory.disk openDirectory.blockBitmap
    { inodeInit 1 with iOpenCnts := 1 } where
  owns := ⟨newDirectory_wf.owns.apart, newDirectory_wf.owns.marked⟩
  readable := ⟨newDirectory_wf.readable.blank, newDirectory_wf.readable.typed⟩
  nonempty := newDirectory_wf.nonempty
  unique := newDirectory_wf.unique
  size := by
    have same : entries openDirectory.disk { inodeInit 1 with iOpenCnts := 1 } =
        entries newDirectory.disk (inodeInit 1) := rfl
    rw [same]
    exact newDirectory_wf.size

theorem openDirectory_absent (name : List Byte) (nonempty : name ≠ []) (clean : 0 ∉ name) :
    (searchDirEntry (.kernel 0) name).run openDirectory = .ok (none, openDirectory) := by
  have nothing : searchBlocks openDirectory.disk { inodeInit 1 with iOpenCnts := 1 } name =
      none := by
    rw [openDirectory_wf.readable.search_none nonempty clean]
    intro pos entry there
    have silent : entries openDirectory.disk { inodeInit 1 with iOpenCnts := 1 } pos = none :=
      newDirectory_silent pos
    rw [silent] at there
    cases there
  rw [search_run rfl, nothing]

/-- An entry with a name of one byte. -/
theorem entry_found_under_a : ∃ s', (syncDirEntry (.kernel 0) (regularEntry [97])).run
    openDirectory = .ok (true, s') ∧ FoundUnder s' (.kernel 0) 1 (regularEntry [97]) [97] := by
  have returned :
      valueOf (syncDirEntry (.kernel 0) (regularEntry [97])) openDirectory = some true := by
    decide +kernel
  obtain ⟨s', ran⟩ := exists_of_valueOf returned
  have only : OnlyOpen openDirectory (.kernel 0) 1 := by
    refine ⟨List.mem_singleton.mpr rfl, fun p listed => ⟨_, rfl, ?_⟩⟩
    exact iff_of_true rfl (List.mem_singleton.mp listed)
  refine ⟨s', ran, (entry_found_under_iff rfl openDirectory_wf only (Nat.le_refl 1) (by decide)
    (by decide) (.inl rfl) (regularEntry_created (by decide))
    (openDirectory_absent [97] (by decide) (by decide)) ran).mpr ⟨by decide, ?_⟩⟩
  rintro ⟨pos, entry, there, -⟩
  have silent : entries openDirectory.disk { inodeInit 1 with iOpenCnts := 1 } pos = none :=
    newDirectory_silent pos
  rw [silent] at there
  cases there

/-- An entry with a name of 16 bytes and the inode number 5 is not found under its name. -/
theorem entry_not_found_under_full :
    WfDir openDirectory.disk openDirectory.blockBitmap { inodeInit 1 with iOpenCnts := 1 } ∧
    ∃ s', (syncDirEntry (.kernel 0) (regularEntry (List.replicate 16 97))).run openDirectory =
        .ok (true, s') ∧
      ¬ FoundUnder s' (.kernel 0) 1 (regularEntry (List.replicate 16 97))
        (List.replicate 16 97) := by
  have returned : valueOf (syncDirEntry (.kernel 0) (regularEntry (List.replicate 16 97)))
      openDirectory = some true := by
    decide +kernel
  obtain ⟨s', ran⟩ := exists_of_valueOf returned
  refine ⟨openDirectory_wf, s', ran, fun found => ?_⟩
  have created : createDirEntry (List.replicate 16 97) 5 ftRegular .blank =
      .ok (regularEntry (List.replicate 16 97)) := regularEntry_created (by decide)
  exact absurd ((created_hasName created).mp found.hasName) (by decide)

end UKernel.Fs
