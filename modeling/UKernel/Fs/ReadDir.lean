import UKernel.Fs.DirectoryCorrect
import UKernel.Library.Transition

/-! # Reading a directory

`dir_read` finds the next entry by counting the live entries from the start of the directory, up to
the position of the handle. The `k`-th call on a handle that starts at 0 returns the `k`-th live
entry, in the order of blocks and slots, and later calls return `NULL`
(`UKernel.Fs.readdir_lists_entries`).
-/

namespace UKernel.Fs

open UKernel.Library

variable {part : Partition} {s s' : FsState part} {ptr : Ptr} {disk : Memory} {inode : Inode}

/-! ## The calls -/

/-- `struct dir`, as `sys_readdir` uses it: the object of the inode and `dir_pos`. -/
structure DirHandle where
  inode : Ptr
  dirPos : Word
  deriving DecidableEq

/-- The loop of `dir_read` over the entries of a sector: the position behind those that it passed,
and the entry at which it stopped. -/
def readSector (dirE : Memory) (dirPos : Word) : List Nat → Word →
    Except Fault (Word × Option DirEntry)
  | [], curDirEntryPos => return (curDirEntryPos, none)
  | dirEntryIdx :: dirEntryIdxs, curDirEntryPos =>
      let entry := DirEntry.load (dirE.shift (24 * dirEntryIdx))
      if entry.fType = ftUnknown then
        readSector dirE dirPos dirEntryIdxs curDirEntryPos
      else if curDirEntryPos < dirPos then
        readSector dirE dirPos dirEntryIdxs (curDirEntryPos + 24)
      else do
        require (curDirEntryPos = dirPos)
        return (curDirEntryPos, some entry)

/-- The loop of `dir_read` over the blocks; `none` is the result `NULL`. -/
def readBlocks (disk : Memory) (inode : Inode) (dirPos : Word) :
    List Nat → Word → Except Fault (Option DirEntry)
  | [], _ => return none
  | blockIdx :: blockIdxs, curDirEntryPos =>
      if inode.iSize ≤ dirPos then
        return none
      else if allBlocks disk inode blockIdx = 0 then
        readBlocks disk inode dirPos blockIdxs curDirEntryPos
      else do
        let (curDirEntryPos, found) ← readSector
          (ideRead disk (allBlocks disk inode blockIdx).toNat) dirPos (List.range 21) curDirEntryPos
        match found with
        | some entry => return some entry
        | none => readBlocks disk inode dirPos blockIdxs curDirEntryPos

/-- `dir_read`: the entry, or `none` for `NULL`, and the handle after the call. -/
def dirRead (dir : DirHandle) : FsCall part (Option DirEntry × DirHandle) := do
  let dirInode ← deref dir.inode
  let s ← get
  let blockCnt := if dirInode.sector 12 ≠ 0 then 140 else 12
  match ← readBlocks s.disk dirInode dir.dirPos (List.range blockCnt) 0 with
  | none => return (none, dir)
  | some entry => return (some entry, { dir with dirPos := dir.dirPos + 24 })

/-- `sys_readdir`, of a handle. -/
def sysReaddir (dir : DirHandle) : FsCall part (Option DirEntry × DirHandle) :=
  dirRead dir

/-- `sys_rewinddir`. -/
def sysRewinddir (dir : DirHandle) : DirHandle :=
  { dir with dirPos := 0 }

/-! ## The live entries in order -/

/-- The positions of a directory, by block and slot. -/
def positions : List Pos :=
  (List.finRange 140).flatMap fun b => (List.finRange 21).map fun i => (b, i)

/-- The live entries, in the order of their positions. -/
def liveEntries (said : Pos → Option DirEntry) : List DirEntry :=
  positions.filterMap said

theorem mem_positions (pos : Pos) : pos ∈ positions := by
  rw [positions, List.mem_flatMap]
  exact ⟨pos.1, List.mem_finRange _, List.mem_map.mpr ⟨pos.2, List.mem_finRange _, rfl⟩⟩

/-- Each position comes once, after those of earlier blocks and those of earlier slots of its
block. -/
theorem positions_sorted :
    positions.Pairwise fun pos pos' => pos.1 < pos'.1 ∨ (pos.1 = pos'.1 ∧ pos.2 < pos'.2) := by
  rw [positions, List.pairwise_flatMap]
  refine ⟨fun b _ => ?_, ?_⟩
  · rw [List.pairwise_map]
    exact (List.pairwise_lt_finRange 21).imp fun less => .inr ⟨rfl, less⟩
  · refine (List.pairwise_lt_finRange 140).imp fun less pos listed pos' listed' => ?_
    obtain ⟨_, -, rfl⟩ := List.mem_map.mp listed
    obtain ⟨_, -, rfl⟩ := List.mem_map.mp listed'
    exact .inl less

theorem positions_nodup : positions.Nodup := by
  refine positions_sorted.imp fun before same => ?_
  rw [same] at before
  rcases before with less | ⟨-, less⟩
  · exact absurd less (lt_irrefl _)
  · exact absurd less (lt_irrefl _)

/-- There are as many live entries as positions that hold one. -/
theorem length_liveEntries (said : Pos → Option DirEntry) :
    (liveEntries said).length = liveCount said := by
  have counted : (positions.filter fun pos => (said pos).isSome).toFinset =
      Finset.univ.filter fun pos => (said pos).isSome := by
    ext pos
    simp [mem_positions]
  rw [liveEntries, List.length_filterMap_eq_countP, List.countP_eq_length_filter, liveCount,
    ← counted, List.toFinset_card_of_nodup (positions_nodup.filter _)]

/-- The entry in a slot of a sector, if it is live. -/
def liveSlot (dirE : Memory) (dirEntryIdx : Nat) : Option DirEntry :=
  let entry := DirEntry.load (dirE.shift (24 * dirEntryIdx))
  if entry.fType = ftUnknown then none else some entry

/-- The live entries of a block. -/
def liveBlock (disk : Memory) (inode : Inode) (blockIdx : Nat) : List DirEntry :=
  if allBlocks disk inode blockIdx = 0 then []
  else (List.range 21).filterMap (liveSlot (ideRead disk (allBlocks disk inode blockIdx).toNat))

/-- The live entries are those of the blocks, one block after the other. -/
theorem liveEntries_blocks :
    liveEntries (entries disk inode) = (List.range 140).flatMap (liveBlock disk inode) := by
  have block : ∀ b : Fin 140, (((List.finRange 21).map fun i => (b, i)).filterMap
      (entries disk inode)) = liveBlock disk inode b := by
    intro b
    rw [List.filterMap_map, liveBlock]
    by_cases absent : allBlocks disk inode b = 0
    · rw [if_pos absent, List.filterMap_eq_nil_iff]
      exact fun i _ => entries_absent absent
    · rw [if_neg absent, ← List.map_coe_finRange_eq_range, List.filterMap_map]
      have said : ∀ i, entries disk inode (b, i) = _ := fun i => entries_present absent
      exact List.filterMap_congr fun i _ => said i
  rw [liveEntries, positions, List.filterMap_flatMap, ← List.map_coe_finRange_eq_range,
    List.flatMap_map]
  exact List.flatMap_congr fun b _ => block b

/-! ## The loops -/

section Loops

variable {dirE : Memory} {c k : Nat} {live : List DirEntry}

/-- The position of a handle behind a number of entries. -/
theorem pos_lt {c k : Nat} (small : 24 * k < 2 ^ 32) (before : c ≤ k) :
    BitVec.ofNat 32 (24 * c) < BitVec.ofNat 32 (24 * k) ↔ c < k := by
  rw [BitVec.lt_def, BitVec.toNat_ofNat, BitVec.toNat_ofNat, Nat.mod_eq_of_lt (by omega),
    Nat.mod_eq_of_lt small]
  omega

/-- In a sector the loop passes over live entries until it has counted `k` of them, and stops at the
next. -/
theorem readSector_eq (small : 24 * k < 2 ^ 32) (idxs : List Nat) (before : c ≤ k) :
    readSector dirE (BitVec.ofNat 32 (24 * k)) idxs (BitVec.ofNat 32 (24 * c)) =
      .ok (match (idxs.filterMap (liveSlot dirE))[k - c]? with
        | some entry => (BitVec.ofNat 32 (24 * k), some entry)
        | none => (BitVec.ofNat 32 (24 * (c + (idxs.filterMap (liveSlot dirE)).length)),
              none)) := by
  induction idxs generalizing c with
  | nil => rfl
  | cons idx idxs ih =>
      rw [readSector, List.filterMap_cons]
      by_cases free : (DirEntry.load (dirE.shift (24 * idx))).fType = ftUnknown
      · have none_ : liveSlot dirE idx = none := if_pos free
        rw [if_pos free, none_]
        exact ih before
      · have some_ : liveSlot dirE idx = some (DirEntry.load (dirE.shift (24 * idx))) := if_neg free
        rw [if_neg free, some_]
        dsimp only
        by_cases passes : c < k
        · have next : BitVec.ofNat 32 (24 * c) + 24 = BitVec.ofNat 32 (24 * (c + 1)) := by
            rw [Nat.mul_succ, BitVec.ofNat_add]
            rfl
          rw [if_pos ((pos_lt small before).mpr passes), next, ih passes,
            show k - c = (k - (c + 1)) + 1 by omega, List.getElem?_cons_succ, List.length_cons,
            ← Nat.add_assoc c, Nat.add_right_comm]
        · obtain rfl : c = k := by omega
          rw [if_neg (mt (pos_lt small before).mp passes), require_of rfl, Nat.sub_self,
            List.getElem?_cons_zero]
          rfl

/-- Over the blocks the loop stops at the entry behind the first `k` live ones. -/
theorem readBlocks_eq (small : 24 * k < 2 ^ 32) (more : 24 * k < inode.iSize.toNat)
    (blockIdxs : List Nat) (before : c ≤ k) :
    readBlocks disk inode (BitVec.ofNat 32 (24 * k)) blockIdxs (BitVec.ofNat 32 (24 * c)) =
      .ok (blockIdxs.flatMap (liveBlock disk inode))[k - c]? := by
  have unfinished : ¬ inode.iSize ≤ BitVec.ofNat 32 (24 * k) := by
    rw [BitVec.le_def, BitVec.toNat_ofNat, Nat.mod_eq_of_lt small]
    omega
  induction blockIdxs generalizing c with
  | nil => rfl
  | cons blockIdx blockIdxs ih =>
      rw [readBlocks, if_neg unfinished, List.flatMap_cons]
      by_cases absent : allBlocks disk inode blockIdx = 0
      · have nothing : liveBlock disk inode blockIdx = [] := if_pos absent
        rw [if_pos absent, nothing, List.nil_append]
        exact ih before
      · have block : liveBlock disk inode blockIdx = (List.range 21).filterMap
            (liveSlot (ideRead disk (allBlocks disk inode blockIdx).toNat)) := if_neg absent
        rw [if_neg absent, readSector_eq small _ before, ← block, except_ok_bind]
        cases found : (liveBlock disk inode blockIdx)[k - c]? with
        | some entry =>
            rw [List.getElem?_append_left (List.getElem?_eq_some_iff.mp found).1, found]
            rfl
        | none =>
            have passed := List.getElem?_eq_none_iff.mp found
            dsimp only
            rw [ih (by omega), List.getElem?_append_right passed, Nat.sub_sub]

end Loops

/-! ## One call -/

/-- The table of indirect blocks is read if there is one. -/
theorem liveBlocks_direct (noTable : inode.sector 12 = 0) :
    (List.range 140).flatMap (liveBlock disk inode) =
      (List.range 12).flatMap (liveBlock disk inode) := by
  have rest : ((List.range 128).map (12 + ·)).flatMap (liveBlock disk inode) = [] := by
    rw [List.flatMap_eq_nil_iff]
    intro b listed
    obtain ⟨j, -, rfl⟩ := List.mem_map.mp listed
    exact if_pos (allBlocks_noTable (Nat.le_add_right 12 j) noTable)
  rw [show 140 = 12 + 128 from rfl, List.range_add, List.flatMap_append, rest, List.append_nil]

/-- What a directory says, and its size. -/
def DirectorySays (ptr : Ptr) (said : Pos → Option DirEntry) (s : FsState part) : Prop :=
  ∃ inode, s.inodes ptr = some inode ∧ entries s.disk inode = said ∧
    inode.iSize.toNat = 24 * (liveEntries said).length

/-- Before its end a directory gives the entry behind the first `k` live ones. -/
theorem readBlocks_run {k : Nat} (more : 24 * k < inode.iSize.toNat) :
    readBlocks disk inode (BitVec.ofNat 32 (24 * k))
      (List.range (if inode.sector 12 ≠ 0 then 140 else 12)) 0 =
        .ok (liveEntries (entries disk inode))[k]? := by
  have bound := inode.iSize.isLt
  have start := @readBlocks_eq disk inode 0 k (by omega) more
  rw [liveEntries_blocks]
  by_cases table : inode.sector 12 = 0
  · rw [if_neg (not_not.mpr table), liveBlocks_direct table]
    exact start _ (Nat.zero_le k)
  · rw [if_pos table]
    exact start _ (Nat.zero_le k)

/-- **One call.** With a position behind the first `k` live entries, `sys_readdir` returns the next
one and moves the position behind it, and at the end it returns `NULL`. -/
theorem sysReaddir_run {dir : DirHandle} {said : Pos → Option DirEntry} {k : Nat}
    (told : DirectorySays dir.inode said s) (position : dir.dirPos = BitVec.ofNat 32 (24 * k))
    (inside : k ≤ (liveEntries said).length) :
    (sysReaddir dir).run s = .ok (((liveEntries said)[k]?, { dir with
      dirPos := BitVec.ofNat 32 (24 * min (k + 1) (liveEntries said).length) }), s) := by
  obtain ⟨inode, live, rfl, size⟩ := told
  have bound := inode.iSize.isLt
  have reads : readBlocks s.disk inode dir.dirPos
      (List.range (if inode.sector 12 ≠ 0 then 140 else 12)) 0 =
        .ok (liveEntries (entries s.disk inode))[k]? := by
    by_cases last : k = (liveEntries (entries s.disk inode)).length
    · have done : inode.iSize ≤ dir.dirPos := by
        rw [position, BitVec.le_def, BitVec.toNat_ofNat, Nat.mod_eq_of_lt (by omega)]
        omega
      rw [List.getElem?_eq_none (by omega)]
      split
      · exact if_pos done
      · exact if_pos done
    · rw [position]
      exact readBlocks_run (by omega)
  rw [sysReaddir, dirRead, call_bind_of (deref_returns.mpr ⟨live, rfl⟩),
    call_bind_of (call_get_returns.mpr ⟨rfl, rfl⟩)]
  dsimp only
  rw [call_bind_of (call_lift_returns.mpr ⟨reads, rfl⟩)]
  cases found : (liveEntries (entries s.disk inode))[k]? with
  | none =>
      have done := List.getElem?_eq_none_iff.mp found
      rw [Nat.min_eq_right (by omega), show (liveEntries (entries s.disk inode)).length =
        k by omega,
        ← position]
      rfl
  | some entry =>
      have less := (List.getElem?_eq_some_iff.mp found).1
      rw [Nat.min_eq_left (by omega), Nat.mul_succ, BitVec.ofNat_add, ← position]
      rfl

/-! ## Calling it again and again -/

/-- A step while a directory is read: a call of `sys_readdir` and its result, or anything else that
happens. -/
inductive ReadStep where
  | readdir (result : Option DirEntry)
  | other

/-- The results of the calls of `sys_readdir` in a run. -/
def results (steps : List ReadStep) : List (Option DirEntry) :=
  steps.filterMap fun
    | .readdir result => some result
    | .other => none

theorem results_other (steps : List ReadStep) : results (steps ++ [.other]) = results steps := by
  rw [results, List.filterMap_append]
  exact List.append_nil _

theorem results_readdir (steps : List ReadStep) (result : Option DirEntry) :
    results (steps ++ [.readdir result]) = results steps ++ [result] := by
  rw [results, List.filterMap_append]
  rfl

/-- Reading a directory through a handle that starts at 0, while the directory is not modified. -/
def readingDir (part : Partition) (ptr : Ptr) (said : Pos → Option DirEntry) :
    TransitionSystem (DirHandle × FsState part) ReadStep where
  initial r := r.1 = ⟨ptr, 0⟩ ∧ DirectorySays ptr said r.2
  step r label r' := match label with
    | .readdir result => (sysReaddir r.1).run r.2 = .ok ((result, r'.1), r'.2)
    | .other => r'.1 = r.1 ∧ DirectorySays ptr said r'.2

section Run

variable {said : Pos → Option DirEntry} {r r' : DirHandle × FsState part} {steps : List ReadStep}

/-- How far a handle has come after a number of calls. -/
structure Delivered (ptr : Ptr) (said : Pos → Option DirEntry) (calls : Nat)
    (r : DirHandle × FsState part) : Prop where
  told : DirectorySays ptr said r.2
  inode : r.1.inode = ptr
  position : r.1.dirPos = BitVec.ofNat 32 (24 * min calls (liveEntries said).length)

/-- The next call returns the next entry, or `NULL` at the end. -/
theorem Delivered.next {calls : Nat} (delivered : Delivered ptr said calls r) :
    ∃ r', (sysReaddir r.1).run r.2 = .ok (((liveEntries said)[calls]?, r'.1), r'.2) ∧
      Delivered ptr said (calls + 1) r' := by
  obtain ⟨told, rfl, position⟩ := delivered
  have ran := sysReaddir_run told position (Nat.min_le_right _ _)
  have entry : (liveEntries said)[min calls (liveEntries said).length]? =
      (liveEntries said)[calls]? := by
    by_cases inside : calls ≤ (liveEntries said).length
    · rw [Nat.min_eq_left inside]
    · rw [Nat.min_eq_right (by omega), List.getElem?_eq_none (Nat.le_refl _),
        List.getElem?_eq_none (by omega)]
  rw [entry] at ran
  refine ⟨(_, r.2), ran, told, rfl, ?_⟩
  dsimp only
  congr 2
  omega

/-- The entries that were delivered are the first ones. -/
theorem delivered_of_steps (start : Delivered ptr said 0 r)
    (ran : (readingDir part ptr said).Steps r steps r') :
    Delivered ptr said (results steps).length r' ∧
      results steps = (List.range (results steps).length).map fun k => (liveEntries said)[k]? := by
  induction ran with
  | nil => exact ⟨start, rfl⟩
  | snoc label before step ih =>
      obtain ⟨delivered, listed⟩ := ih
      cases label with
      | other =>
          obtain ⟨same, told⟩ := step
          rw [results_other]
          have inode := same ▸ delivered.inode
          have position := same ▸ delivered.position
          exact ⟨⟨told, inode, position⟩, listed⟩
      | readdir result =>
          obtain ⟨next, called, later⟩ := delivered.next
          have same := called.symm.trans step
          rw [Except.ok.injEq, Prod.mk.injEq, Prod.mk.injEq] at same
          obtain ⟨⟨rfl, handle⟩, state⟩ := same
          have after : next = _ := Prod.ext handle state
          rw [results_readdir, List.length_append, List.length_singleton, List.range_succ,
            List.map_append, ← listed, List.map_singleton]
          exact ⟨after ▸ later, rfl⟩

/-- **Reading a directory.** While a directory whose size counts its live entries is not modified,
the calls of `sys_readdir` on a handle that starts at 0 return the live entries, each of them once
and in the order of blocks and slots, and then `NULL`; the next call returns, so the assertion of
`dir_read` does not fail. -/
theorem readdir_lists_entries {s₀ : FsState part} {inode : Inode}
    (live : s₀.inodes ptr = some inode)
    (size : inode.iSize.toNat = 24 * liveCount (entries s₀.disk inode))
    (ran : (readingDir part ptr (entries s₀.disk inode)).Steps (⟨ptr, 0⟩, s₀) steps r) :
    (∀ (k : Nat) (result : Option DirEntry), (results steps)[k]? = some result →
      result = (liveEntries (entries s₀.disk inode))[k]?) ∧
    ∃ r' : DirHandle × FsState part, (sysReaddir r.1).run r.2 =
      .ok (((liveEntries (entries s₀.disk inode))[(results steps).length]?, r'.1), r'.2) := by
  have told : DirectorySays ptr (entries s₀.disk inode) s₀ :=
    ⟨inode, live, rfl, by rw [length_liveEntries]; exact size⟩
  have start :
      Delivered ptr (entries s₀.disk inode) 0 ((⟨ptr, 0⟩, s₀) : DirHandle × FsState part) :=
    ⟨told, rfl, by rw [Nat.zero_min]; rfl⟩
  obtain ⟨delivered, listed⟩ := delivered_of_steps start ran
  obtain ⟨next, called, -⟩ := delivered.next
  refine ⟨fun k result found => ?_, next, called⟩
  rw [listed, List.getElem?_map] at found
  obtain ⟨i, ranged, rfl⟩ := Option.map_eq_some_iff.mp found
  rw [List.getElem?_eq_some_iff] at ranged
  obtain ⟨less, is⟩ := ranged
  rw [List.getElem_range] at is
  rw [is]

end Run

/-- The first of 253 entries. -/
theorem readdir_lists_packed : ∃ r' : DirHandle × FsState somePartition,
    (sysReaddir ⟨.kernel 0, 0⟩).run (packedDirectory 21) =
      .ok ((some (regularEntry (packedName 0 0)), r'.1), r'.2) := by
  have live : (packedDirectory 21).inodes (.kernel 0) = some (packedInode 21) := rfl
  have ran := (readdir_lists_entries live full_wf.size .nil).2
  have said : entries (packedDirectory 21).disk (packedInode 21) = fun pos =>
      if Packed 21 pos.1 pos.2 then
      some (regularEntry (packedName pos.1 pos.2)) else none := funext packed_entries
  have first : (liveEntries (entries (packedDirectory 21).disk (packedInode 21)))[0]? =
      some (regularEntry (packedName 0 0)) := by
    rw [said]
    rfl
  rw [results, List.filterMap_nil, List.length_nil, first] at ran
  exact ran

end UKernel.Fs
