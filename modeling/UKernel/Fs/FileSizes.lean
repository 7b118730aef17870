import UKernel.Fs.FileContent

/-! # The sizes that `file_write` and `file_read` compute with

Both calls add a count to a size or a position in 32 bits. Whatever the blocks of a file are, a
call of `file_write` that returns advances the size and sets the position behind the last byte it
wrote but one (`UKernel.Fs.fileWrite_sized`), and neither call leaves the array `all_blocks` while
the sum does not wrap (`UKernel.Fs.fileWrite_inBounds`, `UKernel.Fs.fileRead_inBounds`). A sum that
wraps passes the guard (`UKernel.Fs.size_computations_sound_iff`).
-/

namespace UKernel.Fs

open UKernel.Library

variable {part : Partition} {s s' : FsState part} {ptr : Ptr} {inode : Inode} {size : Word}
  {table : Nat → File} {globalFd : Nat} {α β : Type}

/-- An inode in memory has a size, and the file table is the given one. -/
structure Sized (ptr : Ptr) (size : Word) (table : Nat → File) (s : FsState part) : Prop where
  size : (s.inodes ptr).map Inode.iSize = some size
  table : s.fileTable = table

theorem Sized.of_live (live : s.inodes ptr = some inode) :
    Sized ptr inode.iSize s.fileTable s :=
  ⟨by rw [live, Option.map_some], rfl⟩

theorem Sized.live (sized : Sized ptr size table s) :
    ∃ inode, s.inodes ptr = some inode ∧ inode.iSize = size :=
  Option.map_eq_some_iff.mp sized.size

/-- A call that stays inside its arrays and changes neither the size nor the file table; the
values that it returns satisfy `Q`. -/
abbrev KeepsSize (ptr : Ptr) (size : Word) (table : Nat → File) (call : FsCall part α)
    (Q : α → Prop) : Prop :=
  SafeTriple .outOfBounds (Sized ptr size table) call fun a s => Sized ptr size table s ∧ Q a

section Rules

variable {Q : α → Prop} {R : β → Prop}

theorem KeepsSize.bind {first : FsCall part β} {second : β → FsCall part α}
    (one : KeepsSize ptr size table first R)
    (two : ∀ b, R b → KeepsSize ptr size table (second b) Q) :
    KeepsSize ptr size table (first >>= second) Q :=
  SafeTriple.bind one fun b => .assume (two b)

theorem KeepsSize.pure {a : α} (holds : Q a) :
    KeepsSize ptr size table (Pure.pure a : FsCall part α) Q :=
  (Avoids.pure a).safe (.pure fun _ sized => ⟨sized, holds⟩)

/-- A call on the disk and the bitmaps. -/
theorem KeepsSize.of_onDisk {call : FsCall part α} (avoids : Avoids .outOfBounds call)
    (onDisk : OnDisk call) (returns : ∀ s a s', call.run s = .ok (a, s') → Q a) :
    KeepsSize ptr size table call Q := by
  refine avoids.safe fun s a s' sized ran => ⟨⟨?_, ?_⟩, returns s a s' ran⟩
  · rw [(onDisk s a s' ran).inodes, sized.size]
  · rw [(onDisk s a s' ran).fileTable, sized.table]

theorem KeepsSize.require {condition : Prop} [Decidable condition] :
    KeepsSize ptr size table (liftM (UKernel.Library.require condition) : FsCall part Unit)
      fun _ => condition := by
  refine (Avoids.require (by decide)).safe fun s done s' sized ran => ?_
  obtain ⟨holds, rfl⟩ := call_lift_returns.mp ran
  exact ⟨sized, require_eq_ok.mp holds⟩

theorem KeepsSize.get :
    KeepsSize ptr size table (MonadState.get : FsCall part (FsState part)) fun _ => True :=
  Avoids.get.safe fun s s₀ s' sized ran => ⟨(Triple.get s s₀ s' sized ran).2, trivial⟩

theorem deref_avoids {fault : Fault} (apart : fault ≠ .badPointer) :
    Avoids fault (deref ptr : FsCall part Inode) := by
  refine .bind .get fun s => ?_
  split
  · exact .pure _
  · exact .throw apart.symm

/-- The object that is read has the size. -/
theorem KeepsSize.deref :
    KeepsSize ptr size table (UKernel.Fs.deref ptr : FsCall part Inode) fun inode =>
      inode.iSize = size := by
  refine (deref_avoids (by decide)).safe fun s inode s' sized ran => ?_
  obtain ⟨live, rfl⟩ := deref_returns.mp ran
  obtain ⟨inode', live', same⟩ := sized.live
  rw [live] at live'
  cases live'
  exact ⟨sized, same⟩

/-- An object of the same size is stored. -/
theorem KeepsSize.store (same : inode.iSize = size) :
    KeepsSize ptr size table (UKernel.Fs.store ptr inode : FsCall part Unit) fun _ => True := by
  refine (Avoids.modify _).safe fun s done s' sized ran => ?_
  cases store_returns.mp ran
  refine ⟨⟨?_, sized.table⟩, trivial⟩
  dsimp only
  rw [Function.update_self, Option.map_some, same]

end Rules

/-! ## Blocks -/

/-- A block is allocated, or there is none and the assertion of the scan fails. -/
theorem blockBitmapAlloc_inBounds :
    Avoids .outOfBounds (blockBitmapAlloc : FsCall part (Option Word)) := by
  intro s ran
  rw [blockBitmapAlloc, call_bind_of (call_get_returns.mpr ⟨rfl, rfl⟩)] at ran
  rcases call_bind_error.mp ran with failed | ⟨found, s₁, lifted, failed⟩
  · refine Avoids.lift (except_bind_avoids (require_avoids (by decide)) fun _ => ?_) s failed
    dsimp only
    split
    · exact pure_avoids _
    · split
      · exact pure_avoids _
      · exact pure_avoids _
  · obtain ⟨scanned, rfl⟩ := call_lift_returns.mp lifted
    obtain ⟨bitIdx, rfl, small, -, -⟩ := Bitmap.scan_returns scanned
    rcases call_bind_error.mp failed with failed | ⟨_, _, _, failed⟩
    · rw [setBlockBit, if_pos small] at failed
      exact Avoids.modify _ s failed
    · exact Avoids.pure _ _ failed

theorem blockBitmapAlloc_sized : KeepsSize ptr size table
    (blockBitmapAlloc : FsCall part (Option Word)) fun block => ∃ blockLba, block = some blockLba :=
  .of_onDisk blockBitmapAlloc_inBounds blockBitmapAlloc_onDisk fun _ _ _ ran =>
    (blockBitmapAlloc_returns ran).elim fun _ found => ⟨_, found.1⟩

theorem syncBlock_sized (block : Word) :
    KeepsSize ptr size table (syncBlock block : FsCall part Unit) fun _ => True :=
  .of_onDisk (Avoids.modify _) (syncBlock_onDisk block) fun _ _ _ _ => trivial

theorem writeBlock_sized (block : Word) (buf : Memory) :
    KeepsSize ptr size table (writeBlock block buf : FsCall part Unit) fun _ => True :=
  .of_onDisk (Avoids.modify _) (writeBlock_onDisk block buf) fun _ _ _ _ => trivial

/-- The first block is there afterwards: without a free block the machine stops. -/
theorem firstBlock_sized :
    KeepsSize ptr size table (firstBlock ptr : FsCall part Bool) fun done => done = true := by
  refine .bind .deref fun inode same => ?_
  split
  · refine .bind blockBitmapAlloc_sized fun block found => ?_
    obtain ⟨blockLba, rfl⟩ := found
    exact .bind (.store same) fun _ _ => .bind .require fun _ _ =>
      .bind (syncBlock_sized blockLba) fun _ _ => .pure rfl
  · exact .pure rfl

theorem enterDirect_sized (blockIdx : Nat) (blockLba : Word) :
    KeepsSize ptr size table (enterDirect ptr blockIdx blockLba : FsCall part Unit)
      fun _ => True := by
  unfold enterDirect
  split
  · exact .bind .deref fun inode same => .bind .require fun _ _ => .store same
  · exact .pure trivial

/-- The loops that allocate blocks assign the elements from the first index on. -/
theorem growBlocks_sized (left first : Nat) (blocks : Nat → Word) :
    KeepsSize ptr size table (growBlocks ptr left first blocks : FsCall part _) fun found =>
      ∃ blocks', found = some blocks' ∧ ∀ k, k < first ∨ first + left ≤ k →
        blocks' k = blocks k := by
  induction left generalizing first blocks with
  | zero => exact .pure ⟨blocks, rfl, fun _ _ => rfl⟩
  | succ left ih =>
      rw [growBlocks]
      refine .bind blockBitmapAlloc_sized fun block found => ?_
      obtain ⟨blockLba, rfl⟩ := found
      refine .bind (enterDirect_sized first blockLba) fun _ _ =>
        .bind (syncBlock_sized blockLba) fun _ _ => ?_
      have later := @ih (first + 1) (Function.update blocks first blockLba)
      refine ⟨later.1, fun s found s' sized ran => ?_⟩
      obtain ⟨sized', blocks', rfl, kept⟩ := later.2 s found s' sized ran
      refine ⟨sized', blocks', rfl, fun k outside => ?_⟩
      rw [kept k (by omega), Function.update_of_ne (by omega)]

/-- The indices of `all_blocks` that `file_write` assigns when it collects the blocks: the block in
use last, the new ones, and those of the table. -/
def writeIndices (hasUsed willUse : Nat) : List Nat :=
  (hasUsed - 1) :: (List.range' hasUsed (willUse - hasUsed) ++ List.range' 12 128)

theorem not_mem_writeIndices {hasUsed willUse k : Nat}
    (outside : k ∉ writeIndices hasUsed willUse) :
    k ≠ hasUsed - 1 ∧ (k < hasUsed ∨ hasUsed + (willUse - hasUsed) ≤ k) ∧ (k < 12 ∨ 140 ≤ k) := by
  simp only [writeIndices, List.mem_cons, List.mem_append, List.mem_range'_1, not_or] at outside
  omega

/-- `file_write` assigns those elements of `all_blocks` only. -/
theorem blocksToWrite_sized (hasUsed willUse : Nat) :
    KeepsSize ptr size table (blocksToWrite ptr hasUsed willUse : FsCall part _) fun found =>
      ∃ blocks, found = some blocks ∧ ∀ k ∉ writeIndices hasUsed willUse, blocks k = 0 := by
  have direct : ∀ (inode : Inode), ∀ k ∉ writeIndices hasUsed willUse,
      collectDirect inode (hasUsed - 1) (hasUsed - 1) (fun _ => 0) k = 0 := by
    intro inode k outside
    have apart := not_mem_writeIndices outside
    rw [collectDirect, if_neg (by omega)]
  have indirect : ∀ (disk : Memory) (inode : Inode), ∀ k ∉ writeIndices hasUsed willUse,
      collectTable disk inode (fun _ => 0) k = 0 := by
    intro disk inode k outside
    have apart := not_mem_writeIndices outside
    rw [collectTable, if_neg fun within => by
      have : k < 140 := within.2
      omega]
  -- The loops that allocate start from an array that is zero outside the indices.
  have grows : ∀ start : Nat → Word, (∀ k ∉ writeIndices hasUsed willUse, start k = 0) →
      KeepsSize ptr size table
        (growBlocks ptr (willUse - hasUsed) hasUsed start : FsCall part _) fun found =>
          ∃ blocks, found = some blocks ∧ ∀ k ∉ writeIndices hasUsed willUse, blocks k = 0 := by
    intro start zero
    obtain ⟨inBounds, returns⟩ :=
      @growBlocks_sized part ptr size table (willUse - hasUsed) hasUsed start
    refine ⟨inBounds, fun s found s' sized ran => ?_⟩
    obtain ⟨sized', blocks, rfl, kept⟩ := returns s found s' sized ran
    exact ⟨sized', blocks, rfl, fun k outside =>
      (kept k (not_mem_writeIndices outside).2.1).trans (zero k outside)⟩
  refine .bind .deref fun inode same => .bind .get fun s _ => ?_
  split
  · split
    · exact .pure ⟨_, rfl, direct inode⟩
    · exact .bind .require fun _ _ => .pure ⟨_, rfl, indirect s.disk inode⟩
  · split
    · exact .bind .require fun _ _ => grows _ (direct inode)
    · split
      · refine .bind blockBitmapAlloc_sized fun block found => ?_
        obtain ⟨tableLba, rfl⟩ := found
        refine .bind .require fun _ _ => .bind (.store same) fun _ _ =>
          .bind (grows _ (direct inode)) fun found holds => ?_
        obtain ⟨blocks, rfl, zero⟩ := holds
        exact .bind (writeBlock_sized _ _) fun _ _ => .pure ⟨blocks, rfl, zero⟩
      · refine .bind .require fun _ _ => .bind (grows _ (indirect s.disk inode)) fun found holds =>
          ?_
        obtain ⟨blocks, rfl, zero⟩ := holds
        exact .bind (writeBlock_sized _ _) fun _ _ => .pure ⟨blocks, rfl, zero⟩

/-! ## The rounds of `file_write` -/

/-- The file table after the position of one slot was advanced. -/
def advanceFile (table : Nat → File) (globalFd bytes : Nat) : Nat → File :=
  Function.update table globalFd
    { table globalFd with fdPos := (table globalFd).fdPos + BitVec.ofNat 32 bytes }

theorem advanceFile_zero : advanceFile table globalFd 0 = table := by
  rw [advanceFile, BitVec.add_zero, Function.update_eq_self]

theorem advanceFile_advanceFile (bytes bytes' : Nat) :
    advanceFile (advanceFile table globalFd bytes) globalFd bytes' =
      advanceFile table globalFd (bytes + bytes') := by
  simp only [advanceFile, Function.update_idem, Function.update_self, BitVec.ofNat_add,
    BitVec.add_assoc]

section Rounds

variable {left : Nat} {blocks : Nat → Word} {first : Bool} {src : List Byte}

/-- One round of the loop: it advances the size and the position by a chunk, or the block is
outside `all_blocks`. -/
theorem writeRounds_round (globalFd left : Nat) (blocks : Nat → Word) (first : Bool)
    (sized : Sized ptr size table s) (nonempty : src ≠ []) :
    (size.toNat / 512 < 140 ∧ ∃ chunkSize s₁, chunkSize = min src.length (512 - size.toNat % 512) ∧
      Sized ptr (size + BitVec.ofNat 32 chunkSize) (advanceFile table globalFd chunkSize) s₁ ∧
      (writeRounds globalFd ptr blocks (left + 1) first src).run s =
        (writeRounds globalFd ptr blocks left false (src.drop chunkSize)).run s₁) ∨
    (140 ≤ size.toNat / 512 ∧
      (writeRounds globalFd ptr blocks (left + 1) first src).run s = .error .outOfBounds) := by
  obtain ⟨inode, live, rfl⟩ := sized.live
  rw [writeRounds, if_neg nonempty, call_bind_of (deref_returns.mpr ⟨live, rfl⟩),
    call_bind_of (call_get_returns.mpr ⟨rfl, rfl⟩)]
  by_cases inside : inode.iSize.toNat / 512 < 140
  · obtain ⟨chunkSize, chunk⟩ : ∃ n, n = min src.length (512 - inode.iSize.toNat % 512) := ⟨_, rfl⟩
    have element :
        blockAt blocks (inode.iSize.toNat / 512) = .ok (blocks (inode.iSize.toNat / 512)) :=
      if_pos inside
    let written : FsState part := { s with
      disk := roundDisk s.disk (blocks (inode.iSize.toNat / 512)) inode.iSize.toNat chunkSize
        first src
      inodes := Function.update s.inodes ptr
        (some { inode with iSize := inode.iSize + BitVec.ofNat 32 chunkSize }) }
    refine .inl ⟨inside, chunkSize, written.advanced globalFd chunkSize, chunk, ⟨?_, ?_⟩, ?_⟩
    · dsimp only [FsState.advanced, written]
      rw [Function.update_self, Option.map_some]
    · dsimp only [FsState.advanced, written]
      rw [sized.table]
      rfl
    · rw [call_bind_of (call_lift_returns.mpr ⟨element, rfl⟩),
        call_bind_of (writeBlock_returns.mpr rfl), call_bind_of (store_returns.mpr rfl),
        call_bind_of advance_run, ← chunk]
      rfl
  · refine .inr ⟨Nat.le_of_not_lt inside, ?_⟩
    rw [blockAt, if_neg inside]
    rfl

/-- The rounds that return advance the size and the position by the bytes, which fit. -/
theorem writeRounds_sized (sized : Sized ptr size table s) (enough : src.length ≤ left)
    (ran : (writeRounds globalFd ptr blocks left first src).run s = .ok ((), s')) :
    Sized ptr (size + BitVec.ofNat 32 src.length) (advanceFile table globalFd src.length) s' ∧
      (src = [] ∨ size.toNat + src.length ≤ 512 * 140) := by
  induction left generalizing s size table first src with
  | zero =>
      obtain ⟨-, rfl⟩ := call_pure_returns.mp ran
      obtain rfl := List.length_eq_zero_iff.mp (Nat.le_zero.mp enough)
      rw [List.length_nil, BitVec.add_zero, advanceFile_zero]
      exact ⟨sized, .inl rfl⟩
  | succ left ih =>
      by_cases nonempty : src = []
      · rw [writeRounds, if_pos nonempty] at ran
        obtain ⟨-, rfl⟩ := call_pure_returns.mp ran
        rw [nonempty, List.length_nil, BitVec.add_zero, advanceFile_zero]
        exact ⟨sized, .inl rfl⟩
      · have positive : 0 < src.length := List.length_pos_iff.mpr nonempty
        rcases writeRounds_round globalFd left blocks first sized nonempty with
          ⟨inside, chunkSize, s₁, chunk, sized₁, same⟩ | ⟨-, same⟩
        · rw [same] at ran
          have dropped : (src.drop chunkSize).length = src.length - chunkSize := List.length_drop
          obtain ⟨sized', fits⟩ := ih sized₁ (by omega) ran
          rw [advanceFile_advanceFile, BitVec.add_assoc, ← BitVec.ofNat_add, dropped,
            Nat.add_sub_cancel' (by omega)] at sized'
          refine ⟨sized', .inr ?_⟩
          have total : (size + BitVec.ofNat 32 chunkSize).toNat = size.toNat + chunkSize := by
            rw [BitVec.toNat_add, BitVec.toNat_ofNat]
            omega
          rcases fits with done | fits
          · rw [done, List.length_nil] at dropped
            omega
          · omega
        · rw [same] at ran
          cases ran

/-- The rounds stay inside `all_blocks` if the bytes fit. -/
theorem writeRounds_inBounds (sized : Sized ptr size table s)
    (fits : size.toNat + src.length ≤ 512 * 140) :
    (writeRounds globalFd ptr blocks left first src).run s ≠ .error .outOfBounds := by
  induction left generalizing s size table first src with
  | zero => exact Avoids.pure () s
  | succ left ih =>
      by_cases nonempty : src = []
      · rw [writeRounds, if_pos nonempty]
        exact Avoids.pure () s
      · have positive : 0 < src.length := List.length_pos_iff.mpr nonempty
        rcases writeRounds_round globalFd left blocks first sized nonempty with
          ⟨inside, chunkSize, s₁, chunk, sized₁, same⟩ | ⟨outside, -⟩
        · rw [same]
          refine ih sized₁ ?_
          rw [BitVec.toNat_add, BitVec.toNat_ofNat, List.length_drop]
          omega
        · omega

end Rounds

/-! ## `file_write` -/

section Write

variable {buf : List Byte}

theorem fdInodeOf_run (file : (s.fileTable globalFd).fdInode = some ptr) :
    (fdInodeOf globalFd : FsCall part Ptr).run s = .ok (ptr, s) := by
  rw [fdInodeOf, call_bind_of (call_get_returns.mpr ⟨rfl, rfl⟩), file]
  rfl

/-- A size beyond the guard is rejected, and nothing is changed. -/
theorem fileWrite_rejects (file : (s.fileTable globalFd).fdInode = some ptr)
    (live : s.inodes ptr = some inode)
    (exceeds : 512 * 140 < (inode.iSize + BitVec.ofNat 32 buf.length).toNat) :
    (fileWrite globalFd buf).run s = .ok (none, s) := by
  rw [fileWrite, call_bind_of (fdInodeOf_run file), call_bind_of (deref_returns.mpr ⟨live, rfl⟩)]
  dsimp only
  rw [if_pos exceeds]
  rfl

/-- The part of `file_write` behind its guard. -/
def writeAdmitted (globalFd : Nat) (ptr : Ptr) (inode : Inode) (buf : List Byte) :
    FsCall part (Option Nat) := do
  if ← firstBlock ptr then
    let count := BitVec.ofNat 32 buf.length
    require ((inode.iSize + count).toNat / 512 + 1 ≤ 140)
    match ← blocksToWrite ptr (inode.iSize.toNat / 512 + 1)
        ((inode.iSize + count).toNat / 512 + 1) with
    | none => return none
    | some blocks =>
        setFile globalFd { (← get).fileTable globalFd with fdPos := inode.iSize - 1 }
        writeRounds globalFd ptr blocks buf.length true buf
        inodeSync (← deref ptr)
        return some buf.length
  else
    return none

theorem fileWrite_admitted (file : (s.fileTable globalFd).fdInode = some ptr)
    (live : s.inodes ptr = some inode)
    (admitted : (inode.iSize + BitVec.ofNat 32 buf.length).toNat ≤ 512 * 140) :
    (fileWrite globalFd buf).run s = (writeAdmitted globalFd ptr inode buf).run s := by
  rw [fileWrite, call_bind_of (fdInodeOf_run file), call_bind_of (deref_returns.mpr ⟨live, rfl⟩)]
  dsimp only
  rw [if_neg (Nat.not_lt.mpr admitted)]
  rfl

/-- The file table after `file_write` set the position for its rounds. -/
def rewindFile (table : Nat → File) (globalFd : Nat) (size : Word) : Nat → File :=
  Function.update table globalFd { table globalFd with fdPos := size - 1 }

theorem Sized.rewind (sized : Sized ptr size table s) (pos : Word) :
    Sized ptr size (rewindFile table globalFd pos) { s with
      fileTable := Function.update s.fileTable globalFd
        { s.fileTable globalFd with fdPos := pos - 1 } } :=
  ⟨sized.size, by rw [rewindFile, sized.table]⟩

/-- Behind the guard `file_write` returns the length of the buffer, if it returns; the size grew by
it, and the position was advanced by it from the last byte that the file had. -/
theorem writeAdmitted_sized {n : Option Nat} (sized : Sized ptr inode.iSize table s)
    (ran : (writeAdmitted globalFd ptr inode buf).run s = .ok (n, s')) :
    n = some buf.length ∧ inode.iSize.toNat + buf.length < 512 * 140 ∧
      Sized ptr (inode.iSize + BitVec.ofNat 32 buf.length)
        (advanceFile (rewindFile table globalFd inode.iSize) globalFd buf.length) s' := by
  obtain ⟨done, s₁, firsts, ran⟩ := call_bind_returns.mp ran
  obtain ⟨sized₁, rfl⟩ := firstBlock_sized.2 s done s₁ sized firsts
  rw [if_pos rfl] at ran
  dsimp only at ran
  obtain ⟨_, _, lifted, ran⟩ := call_bind_returns.mp ran
  obtain ⟨required, rfl⟩ := call_lift_returns.mp lifted
  have small := require_eq_ok.mp required
  obtain ⟨found, s₂, collects, ran⟩ := call_bind_returns.mp ran
  obtain ⟨sized₂, blocks, rfl, -⟩ := (blocksToWrite_sized _ _).2 s₁ found s₂ sized₁ collects
  rw [call_bind_of (call_get_returns.mpr ⟨rfl, rfl⟩)] at ran
  obtain ⟨_, s₃, moves, ran⟩ := call_bind_returns.mp ran
  cases call_modify_returns.mp moves
  obtain ⟨_, s₄, writes, ran⟩ := call_bind_returns.mp ran
  obtain ⟨sized₄, fits⟩ := writeRounds_sized (sized₂.rewind inode.iSize) (Nat.le_refl _) writes
  obtain ⟨last, _, reads, ran⟩ := call_bind_returns.mp ran
  obtain ⟨-, rfl⟩ := deref_returns.mp reads
  obtain ⟨_, s₅, syncs, ran⟩ := call_bind_returns.mp ran
  have same := inodeSync_onDisk last _ _ _ syncs
  obtain ⟨rfl, rfl⟩ := call_pure_returns.mp ran
  refine ⟨rfl, ?_, ?_, ?_⟩
  · rw [BitVec.toNat_add, BitVec.toNat_ofNat] at small
    rcases fits with done | fits
    · rw [done, List.length_nil] at small ⊢
      omega
    · omega
  · rw [same.inodes, sized₄.size]
  · rw [same.fileTable, sized₄.table]

/-- Behind the guard `file_write` stays inside `all_blocks`, if the new size does not wrap. -/
theorem writeAdmitted_inBounds (sized : Sized ptr inode.iSize table s)
    (noWrap : inode.iSize.toNat + buf.length < 2 ^ 32) :
    (writeAdmitted globalFd ptr inode buf).run s ≠ .error .outOfBounds := by
  intro ran
  rcases call_bind_error.mp ran with failed | ⟨done, s₁, firsts, failed⟩
  · exact firstBlock_sized.1 s sized failed
  obtain ⟨sized₁, rfl⟩ := firstBlock_sized.2 s done s₁ sized firsts
  rw [if_pos rfl] at failed
  dsimp only at failed
  rcases call_bind_error.mp failed with failed | ⟨_, _, lifted, failed⟩
  · exact Avoids.require (by decide) _ failed
  obtain ⟨required, rfl⟩ := call_lift_returns.mp lifted
  have small := require_eq_ok.mp required
  rcases call_bind_error.mp failed with failed | ⟨found, s₂, collects, failed⟩
  · exact (blocksToWrite_sized _ _).1 s₁ sized₁ failed
  obtain ⟨sized₂, blocks, rfl, -⟩ := (blocksToWrite_sized _ _).2 s₁ found s₂ sized₁ collects
  rw [call_bind_of (call_get_returns.mpr ⟨rfl, rfl⟩), setFile,
    call_bind_of (call_modify_returns.mpr rfl)] at failed
  rcases call_bind_error.mp failed with failed | ⟨_, s₄, writes, failed⟩
  · refine writeRounds_inBounds (sized₂.rewind inode.iSize) ?_ failed
    rw [BitVec.toNat_add, BitVec.toNat_ofNat] at small
    omega
  · rcases call_bind_error.mp failed with failed | ⟨last, _, _, failed⟩
    · exact deref_avoids (by decide) _ failed
    · rw [call_bind_of (inodeSync_run ..)] at failed
      cases failed

end Write

/-! ## `file_read` -/

section Read

variable {disk : Memory} {blocks : Nat → Word} {left fdPos sizeLeft : Nat}

/-- A number of bytes that `file_read` computes is what is left of the file, or the count. -/
theorem sizeToRead_some {iSize pos count : Word} {n : Nat}
    (some_ : sizeToRead iSize pos count = some n) :
    n = (iSize - pos).toNat ∨ (n = count.toNat ∧ (pos + count).toNat ≤ iSize.toNat) := by
  unfold sizeToRead at some_
  split at some_
  case isTrue past =>
      split at some_
      case isTrue done => cases some_
      case isFalse more =>
          cases some_
          exact .inl rfl
  case isFalse inside =>
      cases some_
      rw [BitVec.not_lt, BitVec.le_def] at inside
      exact .inr ⟨rfl, inside⟩

/-- The rounds that return read all the bytes, from elements of `all_blocks`. -/
theorem readChunks_returned {chunks : List (List Byte)} (enough : sizeLeft ≤ left)
    (reads : readChunks disk (blockAt blocks) left fdPos sizeLeft = chunks.map .ok) :
    chunks.flatten.length = sizeLeft ∧ (sizeLeft = 0 ∨ fdPos + sizeLeft ≤ 512 * 140) := by
  induction left generalizing fdPos sizeLeft chunks with
  | zero =>
      obtain rfl := List.map_eq_nil_iff.mp reads.symm
      rw [Nat.le_zero.mp enough]
      exact ⟨rfl, .inl rfl⟩
  | succ left ih =>
      rw [readChunks] at reads
      split at reads
      case isTrue done =>
          obtain rfl := List.map_eq_nil_iff.mp reads.symm
          exact ⟨done.symm, .inl done⟩
      case isFalse more =>
          obtain ⟨element, block⟩ : ∃ element, blockAt blocks (fdPos / 512) = element := ⟨_, rfl⟩
          rw [block] at reads
          cases element with
          | error fault =>
              obtain ⟨chunk, rest, -, is, -⟩ := List.map_eq_cons_iff.mp reads.symm
              cases is
          | ok secLba =>
              obtain ⟨inside, -⟩ := blockAt_returns block
              obtain ⟨chunk, rest, rfl, is, later⟩ := List.map_eq_cons_iff.mp reads.symm
              have length := congrArg List.length (Except.ok.inj is)
              rw [List.length_map, List.length_range] at length
              rw [Nat.mod_eq_of_lt (show fdPos + min sizeLeft (512 - fdPos % 512) <
                2 ^ 32 by omega)]
                at later
              obtain ⟨total, fits⟩ := ih (by omega) later.symm
              rw [List.flatten_cons, List.length_append, length, total]
              exact ⟨by omega, by omega⟩

/-- The rounds stay inside `all_blocks` if the bytes are inside. -/
theorem readChunks_inBounds (fits : fdPos + sizeLeft ≤ 512 * 140) :
    ∃ chunks : List (List Byte),
      readChunks disk (blockAt blocks) left fdPos sizeLeft = chunks.map .ok := by
  induction left generalizing fdPos sizeLeft with
  | zero => exact ⟨[], rfl⟩
  | succ left ih =>
      rw [readChunks]
      split
      · exact ⟨[], rfl⟩
      · rw [blockAt, if_pos (show fdPos / 512 < 140 by omega)]
        dsimp only
        rw [Nat.mod_eq_of_lt (show fdPos + min sizeLeft (512 - fdPos % 512) < 2 ^ 32 by omega)]
        obtain ⟨chunks, later⟩ := @ih (fdPos + min sizeLeft (512 - fdPos % 512))
          (sizeLeft - min sizeLeft (512 - fdPos % 512)) (by omega)
        exact ⟨_ :: chunks, by rw [later, List.map_cons]⟩

/-- Rounds that returned. -/
theorem readRounds_returns {chunks : List (Except Fault (List Byte))} {bytes : List Byte}
    (ran : (readRounds globalFd chunks).run s = .ok (bytes, s')) :
    ∃ read : List (List Byte), chunks = read.map .ok ∧ bytes = read.flatten ∧
      s' = s.advanced globalFd bytes.length := by
  have all : ∃ read : List (List Byte), chunks = read.map .ok := by
    induction chunks generalizing s s' bytes with
    | nil => exact ⟨[], rfl⟩
    | cons chunk chunks ih =>
        obtain ⟨first, _, lifted, ran⟩ := call_bind_returns.mp ran
        obtain ⟨rfl, rfl⟩ := call_lift_returns.mp lifted
        obtain ⟨_, _, -, ran⟩ := call_bind_returns.mp ran
        obtain ⟨_, _, rest, -⟩ := call_bind_returns.mp ran
        obtain ⟨read, rfl⟩ := ih rest
        exact ⟨first :: read, rfl⟩
  obtain ⟨read, rfl⟩ := all
  rw [readRounds_chunks] at ran
  cases ran
  exact ⟨read, rfl, rfl, rfl⟩

/-- `file_read` of a file in memory. -/
theorem fileRead_run (file : (s.fileTable globalFd).fdInode = some ptr)
    (live : s.inodes ptr = some inode) {count : Word} :
    (fileRead globalFd count).run s =
      match sizeToRead inode.iSize (s.fileTable globalFd).fdPos count with
      | none => .ok (none, s)
      | some n => ((do
          require ((s.fileTable globalFd).fdPos.toNat / 512 < 139 ∧
            ((s.fileTable globalFd).fdPos + BitVec.ofNat 32 n).toNat / 512 < 139)
          let blocks ← blocksToRead s.disk inode ((s.fileTable globalFd).fdPos.toNat / 512)
            (((s.fileTable globalFd).fdPos + BitVec.ofNat 32 n).toNat / 512)
          return some (← readRounds globalFd
            (readChunks s.disk (blockAt blocks) n (s.fileTable globalFd).fdPos.toNat n))) :
          FsCall part (Option (List Byte))).run s := by
  rw [fileRead, call_bind_of (fdInodeOf_run file), call_bind_of (deref_returns.mpr ⟨live, rfl⟩),
    call_bind_of (call_get_returns.mpr ⟨rfl, rfl⟩)]
  dsimp only
  cases sizeToRead inode.iSize (s.fileTable globalFd).fdPos count with
  | none => rfl
  | some n => rfl

/-- A call of `file_read` that returns bytes returns as many as it computed, and advances the
position by their number. -/
theorem fileRead_sized (file : (s.fileTable globalFd).fdInode = some ptr)
    (live : s.inodes ptr = some inode) {count : Word} {read : Option (List Byte)}
    (ran : (fileRead globalFd count).run s = .ok (read, s')) :
    (read = none ∧ s' = s) ∨ ∃ bytes, read = some bytes ∧
      sizeToRead inode.iSize (s.fileTable globalFd).fdPos count = some bytes.length ∧
      (bytes.length = 0 ∨ (s.fileTable globalFd).fdPos.toNat + bytes.length ≤ 512 * 140) ∧
      s' = s.advanced globalFd bytes.length := by
  rw [fileRead_run file live] at ran
  cases computes : sizeToRead inode.iSize (s.fileTable globalFd).fdPos count with
  | none =>
      rw [computes] at ran
      cases ran
      exact .inl ⟨rfl, rfl⟩
  | some n =>
      rw [computes] at ran
      obtain ⟨_, _, lifted, ran⟩ := call_bind_returns.mp ran
      obtain ⟨-, rfl⟩ := call_lift_returns.mp lifted
      obtain ⟨blocks, _, lifted, ran⟩ := call_bind_returns.mp ran
      obtain ⟨-, rfl⟩ := call_lift_returns.mp lifted
      obtain ⟨bytes, _, rounds, ran⟩ := call_bind_returns.mp ran
      obtain ⟨rfl, rfl⟩ := call_pure_returns.mp ran
      obtain ⟨chunks, reads, whole, state⟩ := readRounds_returns rounds
      obtain ⟨total, fits⟩ := readChunks_returned (Nat.le_refl n) reads
      rw [← whole] at total
      subst total
      exact .inr ⟨bytes, rfl, rfl, fits, state⟩

theorem blocksToRead_avoids {startIdx endIdx : Nat} {fault : Fault} (apart : fault ≠ .assertion) :
    blocksToRead disk inode startIdx endIdx ≠ .error fault := by
  unfold blocksToRead
  split
  · split
    · exact pure_avoids _
    · exact pure_avoids _
  · split
    · exact pure_avoids _
    · split
      · exact except_bind_avoids (require_avoids apart) fun _ => pure_avoids _
      · exact except_bind_avoids (require_avoids apart) fun _ => pure_avoids _

/-- `file_read` stays inside `all_blocks`, if what it reads is inside. -/
theorem fileRead_inBounds (file : (s.fileTable globalFd).fdInode = some ptr)
    (live : s.inodes ptr = some inode) {count : Word}
    (fits : ∀ n, sizeToRead inode.iSize (s.fileTable globalFd).fdPos count = some n →
      (s.fileTable globalFd).fdPos.toNat + n ≤ 512 * 140) :
    (fileRead globalFd count).run s ≠ .error .outOfBounds := by
  rw [fileRead_run file live]
  cases computes : sizeToRead inode.iSize (s.fileTable globalFd).fdPos count with
  | none => exact fun is => nomatch is
  | some n =>
      intro failed
      rcases call_bind_error.mp failed with failed | ⟨_, _, lifted, failed⟩
      · exact Avoids.require (by decide) _ failed
      obtain ⟨-, rfl⟩ := call_lift_returns.mp lifted
      rcases call_bind_error.mp failed with failed | ⟨blocks, _, lifted, failed⟩
      · exact Avoids.lift (blocksToRead_avoids (by decide)) _ failed
      obtain ⟨-, rfl⟩ := call_lift_returns.mp lifted
      obtain ⟨chunks, reads⟩ := @readChunks_inBounds s.disk blocks n _ _ (fits n computes)
      rw [reads, call_bind_of readRounds_chunks] at failed
      cases failed

end Read

/-! ## Sums that wrap -/

section Sound

variable {buf : List Byte}

/-- For one open file and one count, the size computations of `file_write` and `file_read` are
those over the integers: a size beyond the guard is rejected, no more bytes are read than are left,
and all indices of `all_blocks` are below 140. -/
structure SizesSound (s : FsState part) (globalFd : Nat) (inode : Inode) (buf : List Byte) :
    Prop where
  rejects : 512 * 140 < inode.iSize.toNat + buf.length →
    (fileWrite globalFd buf).run s = .ok (none, s)
  collects : ∀ willUse ≤ 140, willUse = (inode.iSize + BitVec.ofNat 32 buf.length).toNat / 512 + 1 →
    ∀ k ∈ writeIndices (inode.iSize.toNat / 512 + 1) willUse, k < 140
  writes : (fileWrite globalFd buf).run s ≠ .error .outOfBounds
  reads : ∀ bytes s', (fileRead globalFd (BitVec.ofNat 32 buf.length)).run s =
      .ok (some bytes, s') →
    bytes.length ≤ inode.iSize.toNat - (s.fileTable globalFd).fdPos.toNat
  readsInside : (fileRead globalFd (BitVec.ofNat 32 buf.length)).run s ≠ .error .outOfBounds

/-- What is read ends inside the file, if the sum of position and count does not wrap. -/
theorem sizeToRead_inside {iSize pos count : Word} {n : Nat} (inside : pos.toNat ≤ iSize.toNat)
    (noWrap : pos.toNat + count.toNat < 2 ^ 32) (some_ : sizeToRead iSize pos count = some n) :
    pos.toNat + n ≤ iSize.toNat := by
  rcases sizeToRead_some some_ with rfl | ⟨rfl, fits⟩
  · rw [BitVec.toNat_sub]
    omega
  · rw [BitVec.toNat_add] at fits
    omega

theorem sizes_sound (file : (s.fileTable globalFd).fdInode = some ptr)
    (live : s.inodes ptr = some inode)
    (inside : (s.fileTable globalFd).fdPos.toNat ≤ inode.iSize.toNat)
    (small : inode.iSize.toNat ≤ 512 * 140)
    (noWrap : inode.iSize.toNat + buf.length < 2 ^ 32) : SizesSound s globalFd inode buf := by
  have count : (BitVec.ofNat 32 buf.length).toNat = buf.length := by
    rw [BitVec.toNat_ofNat]
    omega
  have sum : (inode.iSize + BitVec.ofNat 32 buf.length).toNat = inode.iSize.toNat + buf.length := by
    rw [BitVec.toNat_add, count]
    omega
  have fits :
      ∀ n, sizeToRead inode.iSize (s.fileTable globalFd).fdPos (BitVec.ofNat 32 buf.length) =
      some n → (s.fileTable globalFd).fdPos.toNat + n ≤ inode.iSize.toNat :=
    fun n => sizeToRead_inside inside (by omega)
  refine ⟨?_, ?_, ?_, ?_, ?_⟩
  · intro exceeds
    exact fileWrite_rejects file live (by omega)
  · intro willUse bound same k member
    simp only [writeIndices, List.mem_cons, List.mem_append, List.mem_range'_1] at member
    omega
  · by_cases exceeds : 512 * 140 < (inode.iSize + BitVec.ofNat 32 buf.length).toNat
    · rw [fileWrite_rejects file live exceeds]
      exact fun is => nomatch is
    · rw [fileWrite_admitted file live (Nat.le_of_not_lt exceeds)]
      exact writeAdmitted_inBounds (.of_live live) noWrap
  · intro bytes s' ran
    rcases fileRead_sized file live ran with ⟨is, -⟩ | ⟨_, is, computes, -, -⟩
    · cases is
    · cases is
      have := fits _ computes
      omega
  · exact fileRead_inBounds file live fun n computes => Nat.le_trans (fits n computes) small

/-- A sum that wraps passes the guard: the call does not return `-1`. -/
theorem wrapped_not_rejected (file : (s.fileTable globalFd).fdInode = some ptr)
    (live : s.inodes ptr = some inode) (small : inode.iSize.toNat ≤ 512 * 140)
    (bounded : buf.length < 2 ^ 32) (wraps : 2 ^ 32 ≤ inode.iSize.toNat + buf.length) :
    (fileWrite globalFd buf).run s ≠ .ok (none, s) := by
  intro ran
  have admitted : (inode.iSize + BitVec.ofNat 32 buf.length).toNat ≤ 512 * 140 := by
    rw [BitVec.toNat_add, BitVec.toNat_ofNat]
    omega
  rw [fileWrite_admitted file live admitted] at ran
  have returned := (writeAdmitted_sized (.of_live live) ran).1
  cases returned

/-- **Size computations.** For an open file with its position inside it and a buffer, the size
computations of `file_write` and `file_read` are those over the integers exactly if the sum of the
size and the count does not wrap. -/
theorem size_computations_sound_iff (s : FsState part) (globalFd : Nat) (ptr : Ptr) (inode : Inode)
    (buf : List Byte) (file : (s.fileTable globalFd).fdInode = some ptr)
    (live : s.inodes ptr = some inode)
    (inside : (s.fileTable globalFd).fdPos.toNat ≤ inode.iSize.toNat)
    (small : inode.iSize.toNat ≤ 71680) (bounded : buf.length < 2 ^ 32) :
    SizesSound s globalFd inode buf ↔ inode.iSize.toNat + buf.length < 2 ^ 32 := by
  constructor
  · intro sound
    by_contra wraps
    exact wrapped_not_rejected file live small bounded (Nat.le_of_not_lt wraps)
      (sound.rejects (by omega))
  · exact sizes_sound file live inside small

/-- An open file of one byte. -/
def oneByteFile : FsState somePartition :=
  { twoFiles with
    inodes := Function.update twoFiles.inodes (.kernel 1) (some { inodeInit 1 with iSize := 1 }) }

theorem oneByteFile_live :
    oneByteFile.inodes (.kernel 1) = some { inodeInit 1 with iSize := 1 } := rfl

theorem size_computations_sound_two :
    SizesSound oneByteFile 3 { inodeInit 1 with iSize := 1 } [7, 8] :=
  (size_computations_sound_iff oneByteFile 3 (.kernel 1) { inodeInit 1 with iSize := 1 } [7, 8] rfl
    oneByteFile_live (by decide) (by decide) (by decide)).mpr (by decide)

/-- A count of `2 ^ 32 - 1` is not rejected for a file of one byte. -/
theorem wrapping_count_not_rejected : ∃ buf : List Byte, buf.length = 2 ^ 32 - 1 ∧
    71680 < 1 + buf.length ∧ (fileWrite 3 buf).run oneByteFile ≠ .ok (none, oneByteFile) ∧
      ¬ SizesSound oneByteFile 3 { inodeInit 1 with iSize := 1 } buf := by
  obtain ⟨buf, length⟩ : ∃ buf : List Byte, buf.length = 2 ^ 32 - 1 :=
    ⟨List.replicate (2 ^ 32 - 1) 0, by rw [List.length_replicate]⟩
  have exceeds : 71680 < 1 + buf.length := by omega
  have kept : (fileWrite 3 buf).run oneByteFile ≠ .ok (none, oneByteFile) := by
    have file : (oneByteFile.fileTable 3).fdInode = some (.kernel 1) := rfl
    refine wrapped_not_rejected file oneByteFile_live (by decide) (by omega) ?_
    have size : ({ inodeInit 1 with iSize := 1 } : Inode).iSize.toNat = 1 := rfl
    omega
  exact ⟨buf, length, exceeds, kept, fun sound => kept (sound.rejects exceeds)⟩

end Sound

end UKernel.Fs
