import UKernel.Fs.DirectoryMade
import UKernel.Fs.SmallTree
import UKernel.Library.Count
import UKernel.Library.Transition

/-! # Directories without entries

`dir_is_empty` looks at the size of a directory only. The size counts the entries, and one more
for each table of indirect blocks that `sync_dir_entry` replaced
(`UKernel.Fs.Tracked`), so that a directory of the size of two entries has no other entries than
`.` and `..`, and no block but its first one (`UKernel.Fs.dir_is_empty_sound`). This holds from the
opening of a directory that `sys_mkdir` made, if its inode was loaded from its own slot.
-/

namespace UKernel.Fs

open UKernel.Library

variable {part : Partition} {s s' : FsState part} {disk disk' : Memory} {dir dir' : Ptr}
  {inode inode' base : Inode} {pos : Pos} {pDe entry : DirEntry} {lost : Finset Word}
  {btmp btmp' : Bitmap part.blockBitmapBytes} {said : Pos → Option DirEntry}

/-! ## Counting entries -/

/-- A place that takes an entry, or gives it up. -/
theorem liveCount_update (said : Pos → Option DirEntry) (pos : Pos) (new : Option DirEntry) :
    liveCount (Function.update said pos new) + (if (said pos).isSome then 1 else 0) =
      liveCount said + (if new.isSome then 1 else 0) := by
  have counted := count_update (f := fun pos => (said pos).isSome) (Finset.mem_univ pos) new.isSome
    true
  have moved : (fun pos' => (Function.update said pos new pos').isSome) =
      Function.update (fun pos' => (said pos').isSome) pos new.isSome := by
    funext pos'
    by_cases here : pos' = pos
    · rw [here, Function.update_self, Function.update_self]
    · rw [Function.update_of_ne here, Function.update_of_ne here]
  unfold liveCount
  rw [← countOf, ← countOf, moved]
  exact counted

/-- A bitmap marks fewer than 2 ^ 20 blocks. -/
theorem marked_few (marked : ∀ block ∈ lost, Marked btmp block) : lost.card < 2 ^ 20 := by
  have inside :
      lost ⊆ (Finset.range (4096 * part.sb.blockBitmapSects)).image (blockOfBit part) := by
    intro block member
    obtain ⟨bitIdx, small, rfl, -⟩ := marked block member
    exact Finset.mem_image_of_mem _ (Finset.mem_range.mpr small)
  have few : 4096 * part.sb.blockBitmapSects < 2 ^ 20 := by
    have holds := part.holdsMetadata
    have fits := part.onDisk
    simp only [Partition.sb, Partition.blockBitmapSects, Partition.blockBitmapBitLen,
      Partition.freeSects, divRoundUp, usedSects, maxFilesPerPart, bitsPerSector, inodeSize,
      sectorSize, maxLba] at *
    omega
  calc lost.card
    _ ≤ ((Finset.range (4096 * part.sb.blockBitmapSects)).image (blockOfBit part)).card :=
      Finset.card_le_card inside
    _ ≤ (Finset.range (4096 * part.sb.blockBitmapSects)).card := Finset.card_image_le
    _ < 2 ^ 20 := by rwa [Finset.card_range]

/-! ## What the size counts -/

/-- What is known of a directory that was changed since it was made. The blocks in `lost` were its
tables of indirect blocks; the entry to which each of them led is counted still. -/
structure Tracked (s : FsState part) (inode : Inode) (lost : Finset Word) : Prop where
  owns : OwnsBlocks s.disk s.blockBitmap inode
  readable : Readable s.disk inode
  dotted : Dotted s.disk inode
  dotdotFirst : ∃ i entry, entries s.disk inode (0, i) = some entry ∧ entry.HasName dotdot
  size : inode.iSize.toNat = 24 * (liveCount (entries s.disk inode) + lost.card)
  held : ∀ b : Fin 140, b.val < 12 → b ≠ 0 → allBlocks s.disk inode b ≠ 0 →
    ∃ i, entries s.disk inode (b, i) ≠ none
  table : inode.sector 12 ≠ 0 → entries s.disk inode (12, 0) ≠ none
  indirect : ∀ pos : Pos, 12 ≤ pos.1.val → entries s.disk inode pos ≠ none → pos = (12, 0)
  lost_marked : ∀ block ∈ lost, Marked s.blockBitmap block
  lost_foreign : ∀ block ∈ lost, ∀ k ≤ 140, ownBlock s.disk inode k ≠ block

/-- The names `.` and `..` are different. -/
theorem dot_not_dotdot (isDot : entry.HasName dot) : ¬ entry.HasName dotdot := by
  intro isDotdot
  have same := DirEntry.HasName.unique (by decide) (by decide) isDot isDotdot
  exact absurd same (by decide)

/-- **Emptiness.** A directory of the size of two entries has no other entries, and one block. -/
theorem Tracked.empty (tracked : Tracked s inode lost) (empty : inode.iSize = 48) :
    (∀ pos entry, entries s.disk inode pos = some entry → ¬ entry.IsOther) ∧ inode.OneBlock := by
  obtain ⟨i, dotE, first, isDot⟩ := tracked.dotted.dotFirst
  obtain ⟨i', dotdotE, first', isDotdot⟩ := tracked.dotdotFirst
  have apart : ((0, i) : Pos) ≠ (0, i') := by
    intro same
    rw [same, first'] at first
    cases first
    exact dot_not_dotdot isDot isDotdot
  have two : liveCount (entries s.disk inode) ≤ 2 := by
    have size := tracked.size
    rw [empty] at size
    change 48 = _ at size
    omega
  -- a third entry would be counted
  have only : ∀ pos, entries s.disk inode pos ≠ none → pos = (0, i) ∨ pos = (0, i') := by
    intro pos there
    apply eq_or_eq_of_card_le apart (by rw [first, Option.isSome_some])
      (by rw [first', Option.isSome_some]) two
    exact Option.isSome_iff_ne_none.mpr there
  constructor
  · intro pos entry there other
    rcases only pos (there ▸ Option.some_ne_none _) with rfl | rfl
    · rw [first] at there
      cases there
      exact other.1 isDot
    · rw [first'] at there
      cases there
      exact other.2 isDotdot
  · intro b small
    by_contra used
    by_cases last : b = 11
    · subst last
      cases only _ (tracked.table used) with
      | inl same => cases same
      | inr same => cases same
    · have there : allBlocks s.disk inode (b + 1) ≠ 0 := by rwa [allBlocks_direct (by omega)]
      obtain ⟨j, here⟩ := tracked.held ⟨b + 1, by omega⟩ (show b + 1 < 12 by omega)
        (fun zero => absurd (congrArg Fin.val zero) (Nat.succ_ne_zero b)) there
      have block : (⟨b + 1, by omega⟩ : Fin 140) = 0 := by
        cases only _ here with
        | inl same => exact congrArg Prod.fst same
        | inr same => exact congrArg Prod.fst same
      exact absurd (congrArg Fin.val block) (Nat.succ_ne_zero b)

/-! ## Adding an entry -/

/-- The entries after an entry was placed; of those in the indirect blocks none is left but the
new one. -/
theorem Placed.entries_eq (placed : Placed s s' dir inode base inode' pos pDe)
    (indirect : ∀ pos : Pos, 12 ≤ pos.1.val → entries s.disk inode pos ≠ none → pos = (12, 0)) :
    entries s'.disk inode' = Function.update (entries s.disk inode) pos (some pDe) := by
  rw [placed.inserted.entries_eq]
  rcases placed.base_eq with ⟨rfl, -⟩ | ⟨-, rfl, rfl⟩
  · rfl
  · funext pos'
    by_cases here : pos' = (12, 0)
    · rw [here, Function.update_self, Function.update_self]
    · rw [Function.update_of_ne here, Function.update_of_ne here, detach_entries]
      split
      · rfl
      · rename_i far
        symm
        by_contra there
        exact here (indirect pos' (Nat.le_of_not_lt far) there)

/-- The size after an entry was added. -/
theorem Tracked.grown (tracked : Tracked s inode lost) {size : Word}
    (grown : size = inode.iSize + 24) :
    size.toNat = inode.iSize.toNat + 24 := by
  have count := liveCount_le (entries s.disk inode)
  have few := marked_few tracked.lost_marked
  have bound := tracked.size
  rw [grown, BitVec.toNat_add]
  change (_ + 24) % 2 ^ 32 = _
  omega

/-- The blocks of a directory after an entry was placed. -/
theorem Placed.own_new (placed : Placed s s' dir inode base inode' pos pDe) {k : Nat}
    (small : k ≤ 140) :
    ownBlock s'.disk inode' k = 0 ∨
      (ownBlock s'.disk inode' k = ownBlock s.disk inode k ∧ (pos.1.val < 12 ∨ k < 12)) ∨
      ¬ Marked s.blockBitmap (ownBlock s'.disk inode' k) := by
  rcases placed.inserted.own_new k small with zero | old | fresh
  · exact .inl zero
  · rcases placed.base_eq with ⟨rfl, direct⟩ | ⟨-, rfl, -⟩
    · exact .inr (.inl ⟨old, .inl direct⟩)
    · rw [detach_ownBlock small] at old
      split at old
      · rename_i direct
        exact .inr (.inl ⟨old, .inr direct⟩)
      · exact .inl old
  · exact .inr (.inr fresh)

/-- The direct blocks, but for the one of the entry, are the same after it was placed. -/
theorem Placed.direct_eq (placed : Placed s s' dir inode base inode' pos pDe) {b : Nat}
    (direct : b < 12) (apart : b ≠ pos.1.val) :
    allBlocks s'.disk inode' b = allBlocks s.disk inode b := by
  rw [placed.inserted.others_eq b (by omega) apart]
  cases placed.base_eq with
  | inl kept => rw [kept.1]
  | inr cut => rw [cut.2.1, detach_allBlocks, if_pos direct, allBlocks_direct direct]

/-- An entry that is there stays there when another one is placed. -/
theorem Placed.free (placed : Placed s s' dir inode base inode' pos pDe) (direct : pos.1.val < 12) :
    entries s.disk inode pos = none := by
  rcases placed.base_eq with ⟨rfl, -⟩ | ⟨-, -, rfl⟩
  · exact placed.inserted.was_free
  · exact absurd direct (by decide)

/-- What is known of a directory stays known when an entry is placed, if it is counted. -/
theorem Tracked.placed_counted {lost' : Finset Word} (tracked : Tracked s inode lost)
    (other : pDe.IsOther) (placed : Placed s s' dir inode base inode' pos pDe)
    (counted : liveCount (entries s'.disk inode') + lost'.card =
      liveCount (entries s.disk inode) + lost.card + 1)
    (marked : ∀ block ∈ lost', Marked s.blockBitmap block)
    (foreign : ∀ block ∈ lost', ∀ k ≤ 140, ownBlock s'.disk inode' k ≠ block) :
    Tracked s' inode' lost' := by
  have inserted := placed.inserted
  have said := placed.entries_eq tracked.indirect
  -- the entries of the first block are where they were
  have first : ∀ {i entry}, entries s.disk inode (0, i) = some entry →
      entries s'.disk inode' (0, i) = some entry := by
    intro i entry there
    have apart : ((0, i) : Pos) ≠ pos := by
      rintro rfl
      rw [placed.free (show 0 < 12 by decide)] at there
      cases there
    rw [said, Function.update_of_ne apart, there]
  have old : ∀ {pos' entry}, entries s'.disk inode' pos' = some entry → ¬ entry.IsOther →
      entries s.disk inode pos' = some entry := by
    intro pos' entry there same
    rw [said] at there
    by_cases here : pos' = pos
    · rw [here, Function.update_self] at there
      cases there
      exact absurd other same
    · rwa [Function.update_of_ne here] at there
  constructor
  · exact inserted.owns
  · exact inserted.readable
  · obtain ⟨i, dotE, there, isDot⟩ := tracked.dotted.dotFirst
    refine ⟨⟨i, dotE, first there, isDot⟩, fun pos' entry there' has => ?_,
      fun pos' entry there' has => ?_⟩
    · exact tracked.dotted.dotOnly pos' entry (old there' fun is => is.1 has) has
    · exact tracked.dotted.dotdotOnly pos' entry (old there' fun is => is.2 has) has
  · obtain ⟨i, dotdotE, there, isDotdot⟩ := tracked.dotdotFirst
    exact ⟨i, dotdotE, first there, isDotdot⟩
  · have size : inode'.iSize = inode.iSize + 24 := by
      rw [inserted.iSize_eq]
      cases placed.base_eq with
      | inl kept => rw [kept.1]
      | inr cut =>
          rw [cut.2.1]
          rfl
    rw [tracked.grown size, counted, tracked.size]
    omega
  · intro b direct apart used
    by_cases here : b = pos.1
    · refine ⟨pos.2, ?_⟩
      rw [here, said, Function.update_self]
      exact Option.some_ne_none pDe
    · rw [placed.direct_eq direct fun same => here (Fin.ext same)] at used
      obtain ⟨i, there⟩ := tracked.held b direct apart used
      refine ⟨i, ?_⟩
      rwa [said, Function.update_of_ne fun same => here (congrArg Prod.fst same)]
  · intro used
    rw [said]
    by_cases here : ((12, 0) : Pos) = pos
    · rw [here, Function.update_self]
      exact Option.some_ne_none pDe
    · rw [Function.update_of_ne here]
      apply tracked.table
      rcases placed.base_eq with ⟨-, direct⟩ | ⟨-, -, is⟩
      · rwa [← placed.table_eq direct]
      · exact absurd is.symm here
  · intro pos' far there
    rw [said] at there
    by_cases here : pos' = pos
    · rcases placed.base_eq with ⟨-, direct⟩ | ⟨-, -, is⟩
      · rw [here] at far
        omega
      · rw [here, is]
    · rw [Function.update_of_ne here] at there
      exact tracked.indirect pos' far there
  · intro block member
    exact inserted.marks block (marked block member)
  · exact foreign

/-- **Adding an entry.** A table that is replaced is lost, and the entry to which it led. -/
theorem Tracked.placed (tracked : Tracked s inode lost) (other : pDe.IsOther)
    (placed : Placed s s' dir inode base inode' pos pDe) :
    ∃ lost, Tracked s' inode' lost := by
  have counted := liveCount_update (entries s.disk inode) pos (some pDe)
  rw [← placed.entries_eq tracked.indirect, Option.isSome_some, if_pos rfl] at counted
  have foreign : ∀ block ∈ lost, ∀ k ≤ 140, ownBlock s'.disk inode' k ≠ block := by
    intro block member k small eq
    have marked := tracked.lost_marked block member
    rcases placed.own_new small with zero | ⟨old, -⟩ | fresh
    · exact marked.ne_zero (eq.symm.trans zero)
    · exact tracked.lost_foreign block member k small (old.symm.trans eq)
    · exact fresh (eq ▸ marked)
  by_cases full : entries s.disk inode pos = none
  · rw [full, Option.isSome_none, if_neg (by decide)] at counted
    refine ⟨lost, tracked.placed_counted other placed ?_ tracked.lost_marked foreign⟩
    omega
  · obtain ⟨entry, there⟩ := Option.ne_none_iff_exists'.mp full
    rw [there, Option.isSome_some, if_pos rfl] at counted
    have far : ¬ pos.1.val < 12 := fun direct => full (placed.free direct)
    have used : inode.sector 12 ≠ 0 := by
      intro absent
      rw [entries_absent (allBlocks_noTable (Nat.le_of_not_lt far) absent)] at there
      cases there
    have own : ownBlock s.disk inode 140 = inode.sector 12 := ownBlock_table
    have fresh : inode.sector 12 ∉ lost :=
      fun member => tracked.lost_foreign _ member 140 (Nat.le_refl _) own
    have marked := tracked.owns.table_marked used
    refine ⟨insert (inode.sector 12) lost, tracked.placed_counted other placed ?_ ?_ ?_⟩
    · rw [Finset.card_insert_of_notMem fresh]
      omega
    · intro block member
      rcases Finset.mem_insert.mp member with rfl | member
      · exact marked
      · exact tracked.lost_marked block member
    · intro block member k small eq
      rcases Finset.mem_insert.mp member with rfl | member
      · rcases placed.own_new small with zero | ⟨old, either⟩ | unmarked
        · exact used (eq.symm.trans zero)
        · have table : 140 = k := by
            apply tracked.owns.apart 140 (Nat.le_refl _) k small
            · rwa [own]
            · rw [own, ← old, eq]
          rcases either with direct | direct
          · exact far direct
          · omega
        · exact unmarked (eq ▸ marked)
      · exact foreign block member k small eq

/-! ## Deleting an entry -/

/-- The size after an entry was removed. -/
theorem Tracked.fits (tracked : Tracked s inode lost)
    (there : entries s.disk inode pos = some entry) : 24 ≤ inode.iSize.toNat := by
  have counted : 0 < liveCount (entries s.disk inode) := by
    rw [liveCount, Finset.card_pos, Finset.filter_nonempty_iff]
    exact ⟨pos, by simp, by rw [there, Option.isSome_some]⟩
  rw [tracked.size]
  omega

/-- **Deleting an entry.** -/
theorem Tracked.removed {inodeNo : Word} (tracked : Tracked s inode lost)
    (target : Target s.disk inode inodeNo pos entry)
    (direct : Empties (entries s.disk inode) pos → pos.1.val < 12)
    (removed : Removed s s' dir inode inode' pos) : Tracked s' inode' lost := by
  have said := removed.entries_eq
  have first : ∀ {i e}, entries s.disk inode (0, i) = some e → ¬ e.IsOther →
      entries s'.disk inode' (0, i) = some e := by
    intro i e there same
    have apart : ((0, i) : Pos) ≠ pos := by
      rintro rfl
      rw [target.1] at there
      cases there
      exact same target.2.1
    rw [said, Function.update_of_ne apart, there]
  have old : ∀ {pos'}, entries s'.disk inode' pos' ≠ none →
      pos' ≠ pos ∧ entries s'.disk inode' pos' = entries s.disk inode pos' := by
    intro pos' there
    rw [said] at there ⊢
    by_cases here : pos' = pos
    · rw [here, Function.update_self] at there
      exact absurd rfl there
    · exact ⟨here, Function.update_of_ne here ..⟩
  have table : inode'.sector 12 = inode.sector 12 := by
    have kept := removed.own_kept 140 (Nat.le_refl _)
    rw [ownBlock_table, ownBlock_table] at kept
    apply kept
    rintro ⟨empties, is | ⟨-, far, -⟩⟩
    · have inside := pos.1.isLt
      omega
    · have near := direct empties
      omega
  constructor
  · exact removed.owns
  · exact removed.readable
  · obtain ⟨i, dotE, there, isDot⟩ := tracked.dotted.dotFirst
    refine ⟨⟨i, dotE, first there fun is => is.1 isDot, isDot⟩, fun pos' e there' has => ?_,
      fun pos' e there' has => ?_⟩
    · apply tracked.dotted.dotOnly pos' e _ has
      rwa [← (old (there' ▸ Option.some_ne_none e)).2]
    · apply tracked.dotted.dotdotOnly pos' e _ has
      rwa [← (old (there' ▸ Option.some_ne_none e)).2]
  · obtain ⟨i, dotdotE, there, isDotdot⟩ := tracked.dotdotFirst
    exact ⟨i, dotdotE, first there fun is => is.2 isDotdot, isDotdot⟩
  · have fits := tracked.fits target.1
    have size := tracked.size
    have counted := liveCount_update (entries s.disk inode) pos none
    rw [← said, target.1, Option.isSome_some, if_pos rfl, Option.isSome_none,
      if_neg Bool.false_ne_true] at counted
    rw [removed.iSize_eq, BitVec.toNat_sub_of_le fits]
    change _ - 24 = _
    omega
  · intro b near apart used
    have kept : ¬ Frees s.disk inode pos b := by
      intro frees
      have zero := removed.own_freed b (Nat.le_of_lt b.isLt) frees
      rw [ownBlock_of_lt b.isLt] at zero
      exact used zero
    have same := removed.own_kept b (Nat.le_of_lt b.isLt) kept
    rw [ownBlock_of_lt b.isLt, ownBlock_of_lt b.isLt] at same
    rw [same] at used
    by_cases here : b = pos.1
    · -- another entry of the block of the deleted one remains
      have more : ¬ Alone (entries s.disk inode) pos := by
        intro alone
        exact kept ⟨⟨here ▸ apart, alone⟩, .inl (congrArg Fin.val here)⟩
      rw [Alone, not_forall] at more
      obtain ⟨i, more⟩ := more
      rw [Classical.not_imp] at more
      refine ⟨i, ?_⟩
      rw [here, said, Function.update_of_ne fun same => more.2 (congrArg Prod.snd same)]
      exact more.1
    · obtain ⟨i, there⟩ := tracked.held b near apart used
      refine ⟨i, ?_⟩
      rwa [said, Function.update_of_ne fun same => here (congrArg Prod.fst same)]
  · intro used
    rw [table] at used
    have there := tracked.table used
    have apart : ((12, 0) : Pos) ≠ pos := by
      rintro rfl
      have empties : Empties (entries s.disk inode) (12, 0) := by
        refine ⟨by decide, fun i here => ?_⟩
        exact congrArg Prod.snd (tracked.indirect (12, i) (Nat.le_refl _) here)
      exact absurd (direct empties) (Nat.lt_irrefl 12)
    rwa [said, Function.update_of_ne apart]
  · intro pos' far there
    exact tracked.indirect pos' far ((old there).2 ▸ there)
  · intro block member
    refine (removed.marks block).mpr ⟨tracked.lost_marked block member, fun k small _ => ?_⟩
    exact tracked.lost_foreign block member k small
  · intro block member k small
    by_cases frees : Frees s.disk inode pos k
    · rw [removed.own_freed k small frees]
      exact (tracked.lost_marked block member).ne_zero.symm
    · rw [removed.own_kept k small frees]
      exact tracked.lost_foreign block member k small

/-! ## The new directory -/

section Start

variable {number block up : Word}

theorem newEntries_count : liveCount (newEntries number up) = 2 := by
  have twice : newEntries number up = Function.update (Function.update (fun _ => none) (0, 1)
      (some (directoryEntry dotdot up))) (0, 0) (some (directoryEntry dot number)) := by
    funext pos
    unfold newEntries
    by_cases dots : pos = (0, 0)
    · rw [if_pos dots, dots, Function.update_self]
    · rw [if_neg dots, Function.update_of_ne dots]
      by_cases dotdots : pos = (0, 1)
      · rw [if_pos dotdots, dotdots, Function.update_self]
      · rw [if_neg dotdots, Function.update_of_ne dotdots]
  have none_ : liveCount (fun _ => none) = 0 := by
    unfold liveCount
    rw [Finset.card_eq_zero, Finset.filter_eq_empty_iff]
    exact fun _ _ => Bool.false_ne_true
  have one := liveCount_update (fun _ => none) (0, 1) (some (directoryEntry dotdot up))
  have two := liveCount_update (Function.update (fun _ => none) (0, 1)
    (some (directoryEntry dotdot up))) (0, 0) (some (directoryEntry dot number))
  rw [none_, Option.isSome_none, if_neg Bool.false_ne_true, Option.isSome_some, if_pos rfl,
    Nat.add_zero] at one
  rw [← twice, one, Function.update_of_ne (by decide), Option.isSome_none,
    if_neg Bool.false_ne_true, Option.isSome_some, if_pos rfl] at two
  omega

/-- A new directory has two entries, and lost no table. -/
theorem FirstOnly.tracked {n : Nat} (only : FirstOnly inode block) (size : inode.iSize = 48)
    (fresh : FreshDir s n block up) : Tracked s inode ∅ := by
  have said := only.entries_eq fresh.marked.ne_zero fresh.block_eq
  have first : ∀ {pos entry}, entries s.disk inode pos = some entry → pos.1 = 0 := by
    intro pos entry there
    rw [said] at there
    rcases newEntries_some there with ⟨rfl, -⟩ | ⟨rfl, -⟩
    · rfl
    · rfl
  have table := only.rest 12 (by decide)
  constructor
  · exact only.owns fresh.marked
  · constructor
    · intro pos present free
      obtain ⟨b, i⟩ := pos
      have zero : b = 0 := by
        rw [only.allBlocks_eq] at present
        by_contra apart
        exact present (if_neg fun zero => apart (Fin.ext zero))
      subst zero
      rw [said, newEntries] at free
      have dots : i.val ≠ 0 := by
        intro zero
        have here : i = 0 := Fin.ext zero
        rw [here, if_pos rfl] at free
        cases free
      have dotdots : i.val ≠ 1 := by
        intro one
        have here : i = 1 := Fin.ext one
        rw [here, if_neg (by decide), if_pos rfl] at free
        cases free
      rw [only.slot fresh.block_eq (by decide), dirBlock_slot (by decide), if_neg dots,
        if_neg dotdots]
    · intro pos e there
      rw [said] at there
      rcases newEntries_some there with ⟨-, rfl⟩ | ⟨-, rfl⟩
      · exact .inr rfl
      · exact .inr rfl
  · refine ⟨⟨0, directoryEntry dot (BitVec.ofNat 32 n), ?_, directoryEntry_dot⟩,
      fun pos e there _ => first there, fun pos e there _ => first there⟩
    rw [said]
    rfl
  · refine ⟨1, directoryEntry dotdot up, ?_, directoryEntry_dotdot⟩
    rw [said]
    rfl
  · rw [said, newEntries_count, size, Finset.card_empty]
    rfl
  · intro b _ apart used
    rw [only.allBlocks_eq] at used
    exact absurd (if_neg fun zero => apart (Fin.ext zero)) used
  · exact fun used => absurd table used
  · intro pos far there
    obtain ⟨e, there⟩ := Option.ne_none_iff_exists'.mp there
    rw [first there] at far
    exact absurd far (by decide)
  · intro b member
    cases member
  · intro b member
    cases member

end Start

/-! ## Runs -/

/-- What happens to a directory between its changes: it may be stored and loaded again, and other
calls may use other blocks, but do not give back marked ones. -/
structure LeftAlone (s s' : FsState part) (dir dir' : Ptr) : Prop where
  object : ∀ inode, s.inodes dir = some inode →
    (∃ inode', s'.inodes dir' = some inode' ∧ inode'.SameFile inode) ∧
    ∀ k ≤ 140, ownBlock s.disk inode k ≠ 0 → SameBlock s.disk s'.disk (ownBlock s.disk inode k)
  marks : ∀ block, Marked s.blockBitmap block → Marked s'.blockBitmap block

/-- A step of the kernel, as a directory sees it. -/
inductive DirChange where
  | sync (pDe : DirEntry)
  | delete (inodeNo : Word)
  | other

/-- A directory that is changed by `sync_dir_entry`, with entries that its callers build, and by
`delete_dir_entry`, in calls that return. -/
def changingDir (part : Partition) : TransitionSystem (FsState part × Ptr) DirChange where
  initial _ := True
  step here change after :=
    match change with
    | .sync pDe => pDe.Typed ∧ pDe.IsOther ∧ after.2 = here.2 ∧
        ∃ done, (syncDirEntry here.2 pDe).run here.1 = .ok (done, after.1)
    | .delete inodeNo => after.2 = here.2 ∧
        ∃ done, (deleteDirEntry here.2 inodeNo).run here.1 = .ok (done, after.1)
    | .other => LeftAlone here.1 after.1 here.2 after.2

/-- The directory's object, and what is known of it. -/
def Known (here : FsState part × Ptr) : Prop :=
  ∃ inode lost, here.1.inodes here.2 = some inode ∧ Tracked here.1 inode lost

theorem Tracked.leftAlone (tracked : Tracked s inode lost) (live : s.inodes dir = some inode)
    (alone : LeftAlone s s' dir dir') (file : inode'.SameFile inode) : Tracked s' inode' lost := by
  obtain ⟨-, blocks⟩ := alone.object inode live
  have sector : ∀ i < 13, inode'.sector i = inode.sector i := by
    intro i _
    unfold Inode.sector
    rw [file.2.2]
  have table : inode.sector 12 ≠ 0 → SameBlock s.disk s'.disk (inode.sector 12) := by
    have same := blocks 140 (Nat.le_refl _)
    rwa [ownBlock_table] at same
  have own : ∀ k ≤ 140, ownBlock s'.disk inode' k = ownBlock s.disk inode k :=
    fun k small => ownBlock_congr small sector table
  have all : ∀ k < 140, allBlocks s'.disk inode' k = allBlocks s.disk inode k :=
    fun k small => allBlocks_congr small sector table
  obtain ⟨said, readable⟩ := tracked.readable.frame all fun k small used => by
    have same := blocks k (Nat.le_of_lt small)
    rw [ownBlock_of_lt small] at same
    exact same used
  exact {
    owns := tracked.owns.frame_own own alone.marks
    readable := readable
    dotted := ⟨said ▸ tracked.dotted.dotFirst, said ▸ tracked.dotted.dotOnly,
      said ▸ tracked.dotted.dotdotOnly⟩
    dotdotFirst := said ▸ tracked.dotdotFirst
    size := by rw [file.2.1, said, tracked.size]
    held := fun b near apart used => by
      rw [all b b.isLt] at used
      rw [said]
      exact tracked.held b near apart used
    table := fun used => by
      rw [sector 12 (by decide)] at used
      rw [said]
      exact tracked.table used
    indirect := said ▸ tracked.indirect
    lost_marked := fun block member => alone.marks block (tracked.lost_marked block member)
    lost_foreign := fun block member k small => by
      rw [own k small]
      exact tracked.lost_foreign block member k small }

/-- **The step.** Every change of a directory keeps what is known of it. -/
theorem Known.step {here after : FsState part × Ptr} {change : DirChange} (known : Known here)
    (step : (changingDir part).step here change after) : Known after := by
  obtain ⟨inode, lost, live, tracked⟩ := known
  obtain ⟨s', dir'⟩ := after
  cases change with
  | sync pDe =>
      obtain ⟨typed, other, rfl, done, ran⟩ := step
      have success := syncDirEntry_true ran
      subst success
      obtain ⟨base, inode', pos, placed⟩ :=
        syncDirEntry_placed typed live tracked.owns tracked.readable ran
      obtain ⟨lost', tracked'⟩ := tracked.placed other placed
      exact ⟨inode', lost', placed.inserted.object, tracked'⟩
  | delete inodeNo =>
      obtain ⟨rfl, done, ran⟩ := step
      rcases deleteDirEntry_returns live tracked.owns tracked.readable tracked.dotted
        (fun pos entry there => tracked.fits there) ran with
        ⟨-, same, -⟩ | ⟨-, pos, entry, inode', target, direct, removed⟩
      · exact ⟨inode, lost, same ▸ live, same ▸ tracked⟩
      · exact ⟨inode', lost, removed.object, tracked.removed target direct removed⟩
  | other =>
      have alone : LeftAlone here.1 s' here.2 dir' := step
      obtain ⟨⟨inode', live', file⟩, -⟩ := alone.object inode live
      exact ⟨inode', lost, live', tracked.leftAlone live alone file⟩

/-- **The run.** -/
theorem Known.steps {here after : FsState part × Ptr} {changes : List DirChange}
    (known : Known here)
    (steps : (changingDir part).Steps here changes after) : Known after := by
  induction steps with
  | nil => exact known
  | snoc change _ step ih => exact ih.step step

/-- `dir_is_empty` holds only of a directory that has no entry other than `.` and `..`, and whose
inode passes the assertions of `dir_remove`. -/
def EmptySound (s : FsState part) (dir : Ptr) : Prop :=
  ∀ s', (dirIsEmpty dir).run s = .ok (true, s') → ∃ inode, s.inodes dir = some inode ∧
    (∀ pos entry, entries s.disk inode pos = some entry → ¬ entry.IsOther) ∧ inode.OneBlock

theorem Known.emptySound (known : Known (s, dir)) : EmptySound s dir := by
  obtain ⟨inode, lost, live, tracked⟩ := known
  intro s' ran
  obtain ⟨obj, _, loaded, ran⟩ := call_bind_returns.mp ran
  obtain ⟨here, -⟩ := deref_returns.mp loaded
  have same : obj = inode := Option.some.inj (here.symm.trans live)
  rw [same] at ran
  exact ⟨inode, live, tracked.empty (of_decide_eq_true (call_pure_returns.mp ran).1)⟩

/-- **Empty directories.** For every directory that `sys_mkdir` made and that was opened while its
number was below 256 and no inode with the number was open, and for every sequence of changes,
`dir_is_empty` holds only if the directory has no entry other than `.` and `..` and one block. -/
theorem dir_is_empty_sound {junk : Word} {path : List Byte} {s₀ s₁ : FsState part} {n : Nat}
    {changes : List DirChange} {after : FsState part × Ptr} (makes : Makes junk path s₀ s₁ n)
    (fits : n < 256) (opens : OpensOnly s₁ s) (closed : NotOpen s (BitVec.ofNat 32 n))
    (ran : (dirOpen (BitVec.ofNat 32 n)).run s = .ok (.heap dir, s'))
    (steps : (changingDir part).Steps (s', dir) changes after) : EmptySound after.1 after.2 := by
  obtain ⟨inode, block, up, live, only, size, fresh⟩ := makes.opened fits opens closed ran
  have known : Known (s', dir) := ⟨inode, ∅, live, only.tracked size fresh⟩
  exact (known.steps steps).emptySound

/-! ## In a small tree -/

section Small

/-- The root directory of the small tree has one block. -/
theorem openRoot_firstOnly : FirstOnly openRoot (blockOfBit somePartition 0) := by
  constructor
  · decide +kernel
  · intro i apart
    by_cases small : i < 13
    · exact smallDisk_root.only i small (Nat.pos_of_ne_zero apart)
    · exact dif_neg small

theorem openRoot_readable : Readable smallDisk openRoot := by
  have all : ∀ k < 140, allBlocks smallDisk openRoot k =
      allBlocks smallDisk (slot somePartition smallDisk 0) k := fun _ _ => rfl
  exact (smallDisk_root.ok.readable.frame all fun _ _ _ _ _ => rfl).2

theorem smallTree_marked : Marked smallTree.blockBitmap (blockOfBit somePartition 0) := by
  refine ⟨0, ?_, rfl, by decide⟩
  rw [somePartition_sects]
  decide

/-- The root directory has no entry `d`. -/
theorem smallTree_search {s : FsState somePartition} (live : s.inodes s.rootDir = some openRoot)
    (disk : s.disk = smallDisk) : (searchFile 0 [slash, 100]).run s =
      .ok ((notFound, ⟨[slash, 100], .root, ftUnknown⟩), s) := by
  have absent : searchBlocks smallDisk openRoot [100] = none := by decide +kernel
  have searched : (searchDirEntry s.rootDir [100]).run s = .ok (none, s) :=
    searchDirEntry_returns.mpr ⟨openRoot, live, disk ▸ absent, rfl⟩
  rw [searchFile, if_neg (by decide),
    call_bind_of (call_lift_returns.mpr ⟨require_of (by decide), rfl⟩),
    call_bind_of (call_lift_returns.mpr ⟨show pathParse [slash, 100] = .ok ([100], none) from rfl,
      rfl⟩)]
  dsimp only
  rw [searchLoop, if_neg (by decide), if_neg (by decide),
    call_bind_of (call_lift_returns.mpr ⟨require_of (by decide), rfl⟩)]
  dsimp only
  rw [call_bind_of (call_get_returns.mpr ⟨rfl, rfl⟩)]
  dsimp only [FsState.dirInode]
  rw [call_bind_of searched]
  rfl

/-- `sys_mkdir` makes `/d` in the small tree, whatever inode numbers are taken. -/
theorem smallTree_makes {s₀ s₁ : FsState somePartition} {n : Nat}
    (live : s₀.inodes s₀.rootDir = some openRoot) (disk : s₀.disk = smallDisk)
    (btmp : s₀.blockBitmap = smallTree.blockBitmap)
    (ran : (sysMkdir 0 [slash, 100]).run s₀ = .ok (true, s₁))
    (free : s₀.inodeBitmap.test n = false) (lowest : ∀ l < n, s₀.inodeBitmap.test l = true) :
    Makes 0 [slash, 100] s₀ s₁ n where
  ran := ran
  free := free
  lowest := lowest
  upper := by
    intro record s searched
    rw [smallTree_search live disk] at searched
    obtain ⟨pair, state⟩ := Prod.mk.inj (Except.ok.inj searched)
    rw [← (Prod.mk.inj pair).2, ← state]
    refine ⟨openRoot, live, openRoot_firstOnly.owns ?_, ?_⟩
    · rw [btmp]
      exact smallTree_marked
    · rw [disk]
      exact openRoot_readable

/-- Two new entries. -/
def twoEntries : List DirChange :=
  [.sync (regularEntry [120]), .sync (regularEntry [121])]

/-- The calls that make a directory with a number, open it and add two entries; then it is asked
whether it is empty, and whether its first entry is another one than `.` and `..`. -/
def makeAndFill (n : Word) : FsCall somePartition (List Bool) := do
  let made ← sysMkdir 0 [slash, 100]
  let s ← get
  let closed := s.openInodes.all fun ptr => (s.inodes ptr).any fun obj => obj.iNo ≠ n
  let dir ← dirOpen n
  let done ← syncDirEntry (.kernel 1) (regularEntry [120])
  let done' ← syncDirEntry (.kernel 1) (regularEntry [121])
  let empty ← dirIsEmpty (.kernel 1)
  let obj ← deref (.kernel 1)
  let s ← get
  return [made, closed, dir = .heap (.kernel 1), done && done', empty,
    (entries s.disk obj (0, 0)).any fun entry => entry.IsOther]

/-- The runs that these calls are. -/
theorem makeAndFill_run {number : Word} {s₀ : FsState somePartition} {empty other : Bool}
    (value : valueOf (makeAndFill number) s₀ = some [true, true, true, true, empty, other]) :
    ∃ s₁ s' after inode, (sysMkdir 0 [slash, 100]).run s₀ = .ok (true, s₁) ∧ NotOpen s₁ number ∧
      (dirOpen number).run s₁ = .ok (.heap (.kernel 1), s') ∧
      (changingDir somePartition).Steps (s', .kernel 1) twoEntries (after, .kernel 1) ∧
      (dirIsEmpty (.kernel 1)).run after = .ok (empty, after) ∧
      after.inodes (.kernel 1) = some inode ∧
      (entries after.disk inode (0, 0)).any (fun entry => entry.IsOther) = other := by
  obtain ⟨last, ran⟩ := exists_of_valueOf value
  obtain ⟨made, s₁, makes, ran⟩ := call_bind_returns.mp ran
  rw [call_bind_of (call_get_returns.mpr ⟨rfl, rfl⟩)] at ran
  dsimp only at ran
  obtain ⟨dir, s', opened, ran⟩ := call_bind_returns.mp ran
  obtain ⟨done, s'', first, ran⟩ := call_bind_returns.mp ran
  obtain ⟨done', after, second, ran⟩ := call_bind_returns.mp ran
  obtain ⟨empty', after', asked, rest⟩ := call_bind_returns.mp ran
  have same : after' = after := by
    obtain ⟨_, _, loaded, pure⟩ := call_bind_returns.mp asked
    exact ((deref_returns.mp loaded).2.trans (call_pure_returns.mp pure).2).symm
  subst same
  obtain ⟨inode, _, found, rest⟩ := call_bind_returns.mp rest
  obtain ⟨live, rfl⟩ := deref_returns.mp found
  rw [call_bind_of (call_get_returns.mpr ⟨rfl, rfl⟩)] at rest
  obtain ⟨values, rfl⟩ := call_pure_returns.mp rest
  simp only [List.cons.injEq, and_true] at values
  obtain ⟨rfl, closed, isDir, both, rfl, is⟩ := values
  rw [of_decide_eq_true isDir] at opened
  obtain ⟨rfl, rfl⟩ := Bool.and_eq_true_iff.mp both
  refine ⟨s₁, s', after', inode, makes, fun ptr member => ?_, opened, ?_, asked, live, is⟩
  · have known := List.all_eq_true.mp closed ptr member
    obtain ⟨obj, here, apart⟩ := (Option.any_eq_true _ _).mp known
    exact ⟨obj, here, of_decide_eq_true apart⟩
  · have one : (changingDir somePartition).step (s', .kernel 1) (.sync (regularEntry [120]))
        (s'', .kernel 1) := ⟨.inl rfl, by decide, rfl, true, first⟩
    have two : (changingDir somePartition).step (s'', .kernel 1) (.sync (regularEntry [121]))
        (after', .kernel 1) := ⟨.inl rfl, by decide, rfl, true, second⟩
    exact (TransitionSystem.Steps.nil.snoc _ one).snoc _ two

/-- The small tree after all numbers below 256 were taken. -/
def fullTree : FsState somePartition :=
  { smallTree with inodeBitmap := ⟨fun i => if i < 32 then 0xff else 0⟩ }

theorem fullTree_root : fullTree.inodes fullTree.rootDir = some openRoot := smallTree_root

theorem fullTree_disk : fullTree.disk = smallDisk := by
  simp only [fullTree, smallTree]

/-- In the small tree the directory gets the number 3. -/
theorem dir_is_empty_sound_small : ∃ s₁ s' after,
    (sysMkdir 0 [slash, 100]).run smallTree = .ok (true, s₁) ∧
    (dirOpen 3).run s₁ = .ok (.heap (.kernel 1), s') ∧
    (changingDir somePartition).Steps (s', .kernel 1) twoEntries (after, .kernel 1) ∧
    EmptySound after (.kernel 1) := by
  have value : valueOf (makeAndFill 3) smallTree = some [true, true, true, true, false, false] := by
    decide +kernel
  obtain ⟨s₁, s', after, inode, makes, closed, opened, steps, -⟩ := makeAndFill_run value
  have made : Makes 0 [slash, 100] smallTree s₁ 3 :=
    smallTree_makes smallTree_root smallTree_disk rfl makes (by decide +kernel) (by decide +kernel)
  exact ⟨s₁, s', after, makes, opened, steps,
    dir_is_empty_sound made (by decide) (OpensOnly.refl s₁) closed opened steps⟩

/-- A directory that got the number 256: `inode_sync` stored its inode in the slot of the root
directory, and the one that is loaded counts none of `.` and `..`. With two entries it is empty for
`dir_is_empty`. -/
theorem dir_is_empty_with_entries : ∃ s₁ s' after, Makes 0 [slash, 100] fullTree s₁ 256 ∧
    (dirOpen 256).run s₁ = .ok (.heap (.kernel 1), s') ∧
    (changingDir somePartition).Steps (s', .kernel 1) twoEntries (after, .kernel 1) ∧
    ¬ EmptySound after (.kernel 1) := by
  have value : valueOf (makeAndFill 256) fullTree = some [true, true, true, true, true, true] := by
    decide +kernel
  obtain ⟨s₁, s', after, inode, makes, -, opened, steps, asked, live, other⟩ :=
    makeAndFill_run value
  have made : Makes 0 [slash, 100] fullTree s₁ 256 :=
    smallTree_makes fullTree_root fullTree_disk rfl makes (by decide +kernel) (by decide +kernel)
  refine ⟨s₁, s', after, made, opened, steps, fun sound => ?_⟩
  obtain ⟨inode', live', only, -⟩ := sound after asked
  have same : inode' = inode := Option.some.inj (live'.symm.trans live)
  obtain ⟨entry, there, is⟩ := (Option.any_eq_true _ _).mp other
  exact only (0, 0) entry (same ▸ there) (of_decide_eq_true is)

end Small

end UKernel.Fs
