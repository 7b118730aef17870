import UKernel.Fs.FileGrowth
import UKernel.Library.Transition

/-! # What `file_write` writes

The rounds of `file_write` change the blocks of the new bytes only, and keep the bytes before
them (`UKernel.Fs.Written`). A call that returns its count appends to one file
(`UKernel.Fs.fileWrite_appends`). Open files that own their blocks apart from each other keep
doing so in every run of such calls, and no call changes a block of another file
(`UKernel.Fs.writes_keep_files_apart`).
-/

namespace UKernel.Fs

open UKernel.Library

variable {part : Partition} {s s' : FsState part} {ptr : Ptr} {inode inode' other : Inode}

/-! ## The rounds -/

/-- The bytes `src` were written after the first `size` bytes of the blocks. -/
structure Written (blocks : Nat → Word) (size : Nat) (src : List Byte) (disk disk' : Memory) :
    Prop where
  fits : src = [] ∨ size + src.length ≤ 512 * 140
  untouched : ∀ block, (∀ k, size / 512 ≤ k → 512 * k < size + src.length → block ≠ blocks k) →
    SameBlock disk disk' block
  bytes : (∀ k k', size / 512 ≤ k → 512 * k < size + src.length → size / 512 ≤ k' →
      512 * k' < size + src.length → blocks k = blocks k' → k = k') →
    ∀ i, size / 512 * 512 ≤ i → i < size + src.length →
      ideRead disk' (blocks (i / 512)).toNat (i % 512) =
        if i < size then ideRead disk (blocks (i / 512)).toNat (i % 512)
        else src.getD (i - size) 0

theorem Written.nil {blocks : Nat → Word} {size : Nat} {disk : Memory} :
    Written blocks size [] disk disk := by
  exact ⟨.inl rfl, fun _ _ _ _ => rfl, fun _ i _ high => (if_pos high).symm⟩

/-- One round of the loop: the block that the next byte is in. -/
def roundDisk (disk : Memory) (secLba : Word) (size chunkSize : Nat) (first : Bool)
    (src : List Byte) : Memory :=
  let ioBuf := if first then ideRead disk secLba.toNat else Memory.zeros
  ideWrite disk secLba.toNat (ioBuf.splice (size % 512) (fun i => src.getD i 0) chunkSize) 1

/-- The rounds of the loop write all the bytes, if they return. -/
theorem Written.round {blocks : Nat → Word} {size chunkSize : Nat} {src : List Byte} {first : Bool}
    {disk disk' : Memory} (nonempty : src ≠ []) (inside : size / 512 < 140)
    (chunk : chunkSize = min src.length (512 - size % 512))
    (clean : first = true ∨ size % 512 = 0)
    (rest : Written blocks (size + chunkSize) (src.drop chunkSize)
      (roundDisk disk (blocks (size / 512)) size chunkSize first src) disk') :
    Written blocks size src disk disk' := by
  have positive : 0 < src.length := List.length_pos_iff.mpr nonempty
  have dropped : (src.drop chunkSize).length = src.length - chunkSize := List.length_drop
  have total : size + chunkSize + (src.drop chunkSize).length = size + src.length := by omega
  refine ⟨.inr ?_, ?_, ?_⟩
  · rcases rest.fits with done | fits
    · rw [done, List.length_nil] at total
      omega
    · omega
  · intro block apart
    have round : SameBlock disk (roundDisk disk (blocks (size / 512)) size chunkSize first src)
        block :=
      sameBlock_ideWrite (apart _ (Nat.le_refl _) (by omega))
    exact round.trans (rest.untouched block fun k low high => apart k (by omega) (by omega))
  · intro distinct i low high
    have high' : i < size + chunkSize + (src.drop chunkSize).length := total.symm ▸ high
    by_cases later : i < size + chunkSize
    · have here : i / 512 = size / 512 := by omega
      have kept : ideRead disk' (blocks (i / 512)).toNat (i % 512) =
          ideRead (roundDisk disk (blocks (size / 512)) size chunkSize first src)
            (blocks (i / 512)).toNat (i % 512) := by
        by_cases same : (size + chunkSize) / 512 = size / 512
        · have old := rest.bytes (fun k k' low high low' high' =>
            distinct k k' (by omega) (by omega) (by omega) (by omega)) i (same.symm ▸ low) high'
          rwa [if_pos later] at old
        · rw [here]
          refine (rest.untouched _ ?_ _ (Nat.mod_lt _ (by decide))).symm
          intro k low' high' hit
          have := distinct _ k (Nat.le_refl _) (by omega) (by omega) (by omega) hit
          omega
      rw [kept, here, roundDisk, ideRead_ideWrite_self (Nat.mod_lt _ (by decide))]
      by_cases old : i < size
      · have keeps : first = true := clean.resolve_right (by omega)
        rw [if_pos old, keeps, if_pos rfl, Memory.splice_outside (by omega)]
      · rw [if_neg old, Memory.splice_inside (by omega) (by omega)]
        congr 1
        omega
    · have new := rest.bytes (fun k k' low high low' high' =>
        distinct k k' (by omega) (by omega) (by omega) (by omega)) i
        (Nat.le_trans (Nat.div_mul_le_self _ _) (Nat.le_of_not_lt later)) high'
      rw [new, if_neg later, if_neg (by omega), List.getD_eq_getElem?_getD,
        List.getD_eq_getElem?_getD, List.getElem?_drop]
      congr 2
      omega

theorem blockAt_returns {blocks : Nat → Word} {secIdx : Nat} {secLba : Word}
    (ran : blockAt blocks secIdx = .ok secLba) : secIdx < 140 ∧ blocks secIdx = secLba := by
  unfold blockAt at ran
  split at ran
  case isTrue inside =>
      cases ran
      exact ⟨inside, rfl⟩
  case isFalse outside => cases ran

/-- The rounds of `file_write` wrote `src` to the blocks and advanced the size and the position. -/
structure RoundsWritten (globalFd : Nat) (ptr : Ptr) (inode : Inode) (blocks : Nat → Word)
    (src : List Byte) (s s' : FsState part) : Prop where
  state : ∃ fdPos, s' = { s with
    disk := s'.disk
    inodes := Function.update s.inodes ptr
      (some { inode with iSize := inode.iSize + BitVec.ofNat 32 src.length })
    fileTable := Function.update s.fileTable globalFd
      { s.fileTable globalFd with fdPos := fdPos } }
  written : Written blocks inode.iSize.toNat src s.disk s'.disk

theorem RoundsWritten.nil {globalFd : Nat} {blocks : Nat → Word}
    (live : s.inodes ptr = some inode) :
    RoundsWritten globalFd ptr inode blocks [] s s := by
  refine ⟨⟨(s.fileTable globalFd).fdPos, ?_⟩, .nil⟩
  rw [List.length_nil, BitVec.add_zero, ← live, Function.update_eq_self]
  simp only [Function.update_eq_self]

/-- The loop of `file_write`. -/
theorem writeRounds_returns {globalFd left : Nat} {blocks : Nat → Word} {first : Bool}
    {src : List Byte} (live : s.inodes ptr = some inode) (enough : src.length ≤ left)
    (clean : first = true ∨ inode.iSize.toNat % 512 = 0 ∨ src = [])
    (ran : (writeRounds globalFd ptr blocks left first src).run s = .ok ((), s')) :
    RoundsWritten globalFd ptr inode blocks src s s' := by
  induction left generalizing s inode first src with
  | zero =>
      obtain ⟨-, same⟩ := call_pure_returns.mp ran
      rw [List.length_eq_zero_iff.mp (Nat.le_zero.mp enough), ← same]
      exact .nil live
  | succ left ih =>
      rw [writeRounds] at ran
      split at ran
      case isTrue done =>
          obtain ⟨-, same⟩ := call_pure_returns.mp ran
          rw [done, ← same]
          exact .nil live
      case isFalse nonempty =>
          obtain ⟨object, _, reads, ran⟩ := call_bind_returns.mp ran
          obtain ⟨found, rfl⟩ := deref_returns.mp reads
          rw [live] at found
          cases found
          rw [call_bind_of (call_get_returns.mpr ⟨rfl, rfl⟩)] at ran
          obtain ⟨secLba, _, lifted, ran⟩ := call_bind_returns.mp ran
          obtain ⟨element, rfl⟩ := call_lift_returns.mp lifted
          obtain ⟨inside, rfl⟩ := blockAt_returns element
          obtain ⟨_, _, writes, ran⟩ := call_bind_returns.mp ran
          cases writeBlock_returns.mp writes
          obtain ⟨_, _, stores, ran⟩ := call_bind_returns.mp ran
          cases store_returns.mp stores
          obtain ⟨_, _, moves, ran⟩ := call_bind_returns.mp ran
          cases call_modify_returns.mp moves
          have positive : 0 < src.length := List.length_pos_iff.mpr nonempty
          obtain ⟨chunkSize, chunk⟩ : ∃ n, n = min src.length (512 - inode.iSize.toNat % 512) :=
            ⟨_, rfl⟩
          rw [← chunk] at ran
          have dropped : (src.drop chunkSize).length = src.length - chunkSize := List.length_drop
          have size : (inode.iSize + BitVec.ofNat 32 chunkSize).toNat =
              inode.iSize.toNat + chunkSize := by
            rw [BitVec.toNat_add, BitVec.toNat_ofNat]
            omega
          have live' : Function.update s.inodes ptr
              (some { inode with iSize := inode.iSize + BitVec.ofNat 32 chunkSize }) ptr =
              some { inode with iSize := inode.iSize + BitVec.ofNat 32 chunkSize } :=
            Function.update_self ..
          have clean' : false = true ∨
              (inode.iSize + BitVec.ofNat 32 chunkSize).toNat % 512 = 0 ∨
              src.drop chunkSize = [] := by
            rw [size]
            by_cases last : src.length ≤ chunkSize
            · exact .inr (.inr (List.length_eq_zero_iff.mp (by omega)))
            · exact .inr (.inl (by omega))
          obtain ⟨⟨fdPos, state⟩, written⟩ := ih live' (by omega) clean' ran
          refine ⟨⟨fdPos, ?_⟩, ?_⟩
          · rw [state]
            simp only [Function.update_idem, Function.update_self]
            rw [BitVec.add_assoc, ← BitVec.ofNat_add, dropped, Nat.add_sub_cancel' (by omega)]
          · rw [size] at written
            exact .round nonempty inside chunk (clean.imp id (·.resolve_right nonempty)) written

/-! ## The call -/

/-- The phases of a call of `file_write` that returns its count: the first block, the blocks that
the new size needs, and the bytes. -/
structure Appends (inode inode₁ inode₂ : Inode) (blocks : Nat → Word) (buf : List Byte)
    (s s₁ s₂ s' : FsState part) : Prop where
  sameFile : inode₁ = { inode with iSectors := inode₁.iSectors }
  first : Extends s s₁ inode inode₁
  used : inode₁.sector 0 ≠ 0
  same : ∀ k < 140, k ≠ 0 ∨ inode.sector 0 ≠ 0 →
    allBlocks s₁.disk inode₁ k = allBlocks s.disk inode k
  fits : inode.iSize.toNat + buf.length < 512 * 140
  collected : Collected s₁ s₂ inode₁ inode₂ (inode.iSize.toNat / 512 + 1)
    ((inode.iSize.toNat + buf.length) / 512 + 1) blocks
  bitmap : s'.blockBitmap = s₂.blockBitmap
  written : ∃ disk, Written blocks inode.iSize.toNat buf s₂.disk disk ∧
    SameData part disk s'.disk

/-- The inode after `buf` was appended. -/
def Inode.grow (inode : Inode) (buf : List Byte) : Inode :=
  { inode with iSize := inode.iSize + BitVec.ofNat 32 buf.length }

/-- A call of `file_write` that returns a count returns the length of the buffer, and appends
the buffer to the file. -/
theorem fileWrite_returns {globalFd n : Nat} {buf : List Byte}
    (file : (s.fileTable globalFd).fdInode = some ptr) (live : s.inodes ptr = some inode)
    (owns : OwnsBlocks s.disk s.blockBitmap inode)
    (ran : (fileWrite globalFd buf).run s = .ok (some n, s')) :
    n = buf.length ∧ ∃ inode₁ inode₂ blocks s₁ s₂,
      Appends inode inode₁ inode₂ blocks buf s s₁ s₂ s' ∧
      ∃ fdPos, s' = { s with
        disk := s'.disk
        blockBitmap := s'.blockBitmap
        inodes := Function.update s.inodes ptr (some (inode₂.grow buf))
        fileTable := Function.update s.fileTable globalFd
          { s.fileTable globalFd with fdPos := fdPos } } := by
  obtain ⟨found, _, reads, ran⟩ := call_bind_returns.mp ran
  rw [fdInodeOf, call_bind_of (call_get_returns.mpr ⟨rfl, rfl⟩)] at reads
  simp only [file] at reads
  obtain ⟨rfl, rfl⟩ := call_pure_returns.mp reads
  obtain ⟨object, _, reads, ran⟩ := call_bind_returns.mp ran
  obtain ⟨found, rfl⟩ := deref_returns.mp reads
  rw [live] at found
  cases found
  dsimp only at ran
  split at ran
  case isTrue exceeds =>
      obtain ⟨is, -⟩ := call_pure_returns.mp ran
      cases is
  case isFalse below =>
      obtain ⟨done, s₁, firsts, ran⟩ := call_bind_returns.mp ran
      cases done with
      | false =>
          obtain ⟨is, -⟩ := call_pure_returns.mp ran
          cases is
      | true =>
          obtain ⟨inode₁, state₁, sameFile, first, used, same⟩ :=
            firstBlock_returns live owns firsts
          obtain ⟨_, _, lifted, ran⟩ := call_bind_returns.mp ran
          obtain ⟨small, rfl⟩ := call_lift_returns.mp lifted
          obtain ⟨collects, s₂, collecting, ran⟩ := call_bind_returns.mp ran
          cases collects with
          | none =>
              obtain ⟨is, -⟩ := call_pure_returns.mp ran
              cases is
          | some blocks =>
              obtain ⟨inode₂, state₂, collected⟩ := blocksToWrite_returns
                (by rw [state₁]; exact Function.update_self ..) (first.owns owns)
                (Nat.succ_pos _) (require_eq_ok.mp small) collecting
              obtain ⟨_, _, moves, ran⟩ := call_bind_returns.mp ran
              cases call_modify_returns.mp moves
              obtain ⟨_, s₃, writes, ran⟩ := call_bind_returns.mp ran
              have live₂ : s₂.inodes ptr = some inode₂ := by
                rw [state₂]
                exact Function.update_self ..
              obtain ⟨⟨fdPos, state₃⟩, written⟩ := writeRounds_returns (by exact live₂)
                (Nat.le_refl _) (.inl rfl) writes
              obtain ⟨last, _, reads, ran⟩ := call_bind_returns.mp ran
              obtain ⟨found, rfl⟩ := deref_returns.mp reads
              obtain ⟨_, _, syncs, ran⟩ := call_bind_returns.mp ran
              rw [inodeSync_run] at syncs
              cases syncs
              obtain ⟨is, rfl⟩ := call_pure_returns.mp ran
              cases is
              have size : inode₂.iSize = inode.iSize := by
                rw [collected.sameFile, sameFile]
              rw [size] at written
              have fits : inode.iSize.toNat + buf.length < 512 * 140 ∧
                  (inode.iSize + BitVec.ofNat 32 buf.length).toNat =
                    inode.iSize.toNat + buf.length := by
                have willUse := require_eq_ok.mp small
                rw [BitVec.toNat_add, BitVec.toNat_ofNat] at below willUse ⊢
                rcases written.fits with done | fits
                · have length : buf.length = 0 := List.length_eq_zero_iff.mpr done
                  omega
                · omega
              rw [fits.2] at collected
              have numbers : last = inode₂.grow buf := by
                rw [state₃] at found
                dsimp only at found
                rw [Function.update_self] at found
                exact (Option.some.inj found).symm
              refine ⟨rfl, inode₁, inode₂, blocks, s₁, s₂, ?_, fdPos, ?_⟩
              · refine ⟨sameFile, first, used, same, fits.1, collected, ?_, s₃.disk, written, ?_⟩
                · rw [state₃]
                · exact sameData_splice_slot (by omega)
              · rw [state₃, state₂, state₁]
                simp only [Function.update_idem, Function.update_self]
                rfl

/-! ## What the call leaves alone -/

section Appends

variable {inode₁ inode₂ : Inode} {blocks : Nat → Word} {buf : List Byte} {s₁ s₂ : FsState part}

/-- The bytes go to blocks of the file. -/
theorem Appends.untouched (appends : Appends inode inode₁ inode₂ blocks buf s s₁ s₂ s')
    {block : Word}
    (data : part.sb.dataStartLba ≤ block.toNat)
    (apart : ∀ k < 140, block ≠ allBlocks s₂.disk inode₂ k) : SameBlock s₂.disk s'.disk block := by
  obtain ⟨disk, written, synced⟩ := appends.written
  have fits := appends.fits
  refine .trans (written.untouched block fun k low high => ?_) (synced.sameBlock data)
  rw [appends.collected.blocks k (by omega) (by omega)]
  exact apart k (by omega)

/-- The table of indirect blocks is no block of bytes. -/
theorem Appends.table (appends : Appends inode inode₁ inode₂ blocks buf s s₁ s₂ s')
    (owns : OwnsBlocks s₂.disk s₂.blockBitmap inode₂) (table : inode₂.sector 12 ≠ 0) :
    SameBlock s₂.disk s'.disk (inode₂.sector 12) := by
  apply appends.untouched (owns.table_marked table).in_data
  intro k small same
  have last := owns.apart 140 (Nat.le_refl _) k (by omega)
  rw [ownBlock_table, ownBlock_of_lt small] at last
  have := last table same
  omega

theorem Appends.owned (appends : Appends inode inode₁ inode₂ blocks buf s s₁ s₂ s')
    (owns : OwnsBlocks s.disk s.blockBitmap inode) :
    OwnsBlocks s₂.disk s₂.blockBitmap inode₂ :=
  appends.collected.grows.owns (appends.first.owns owns)

/-- The file owns its blocks after the call. -/
theorem Appends.owns (appends : Appends inode inode₁ inode₂ blocks buf s s₁ s₂ s')
    (owns : OwnsBlocks s.disk s.blockBitmap inode) :
    OwnsBlocks s'.disk s'.blockBitmap (inode₂.grow buf) := by
  have owned := appends.owned owns
  refine owned.frame (fun _ _ => rfl) (appends.table owned) fun k small used => ?_
  rw [appends.bitmap]
  exact owned.marked k small used

/-- A call of `file_write` on one file leaves the blocks of another file alone. -/
structure LeavesBlocks (other : Inode) (s s' : FsState part) : Prop where
  owns : OwnsBlocks s'.disk s'.blockBitmap other
  same : ∀ k ≤ 140, ownBlock s'.disk other k = ownBlock s.disk other k
  bytes : ∀ k ≤ 140, ownBlock s.disk other k ≠ 0 →
    SameBlock s.disk s'.disk (ownBlock s.disk other k)

theorem Appends.leaves (appends : Appends inode inode₁ inode₂ blocks buf s s₁ s₂ s')
    (ownsFile : OwnsBlocks s.disk s.blockBitmap inode)
    (owns : OwnsBlocks s.disk s.blockBitmap other) (apart : BlocksApart s.disk other inode) :
    LeavesBlocks other s s' ∧ BlocksApart s'.disk other (inode₂.grow buf) := by
  have owns₁ := appends.first.owns_other owns apart
  have apart₁ := appends.first.blocksApart owns apart
  have owns₂ := appends.collected.grows.owns_other owns₁ apart₁
  have apart₂ := appends.collected.grows.blocksApart owns₁ apart₁
  have same₁ : ∀ k ≤ 140, ownBlock s₁.disk other k = ownBlock s.disk other k :=
    fun k small => appends.first.ownBlock_other owns apart small
  have same₂ : ∀ k ≤ 140, ownBlock s₂.disk other k = ownBlock s.disk other k :=
    fun k small => (appends.collected.grows.ownBlock_other owns₁ apart₁ small).trans (same₁ k small)
  have written : ∀ k ≤ 140, ownBlock s₂.disk other k ≠ 0 →
      SameBlock s₂.disk s'.disk (ownBlock s₂.disk other k) := by
    intro k small used
    apply appends.untouched (owns₂.marked k small used).in_data
    intro k' small' hit
    rw [← ownBlock_of_lt small'] at hit
    exact apart₂ k small k' (by omega) used hit
  have table : other.sector 12 ≠ 0 → SameBlock s₂.disk s'.disk (other.sector 12) := by
    have last := written 140 (Nat.le_refl _)
    rwa [ownBlock_table] at last
  have same₃ : ∀ k ≤ 140, ownBlock s'.disk other k = ownBlock s₂.disk other k :=
    fun k small => ownBlock_congr small (fun _ _ => rfl) table
  refine ⟨⟨?_, ?_, ?_⟩, ?_⟩
  · refine owns₂.frame (fun _ _ => rfl) table fun k small used => ?_
    rw [appends.bitmap]
    exact owns₂.marked k small used
  · exact fun k small => (same₃ k small).trans (same₂ k small)
  · intro k small used
    have first := appends.first.sameBlock owns apart small used
    have second := appends.collected.grows.sameBlock owns₁ apart₁ small
      (by rwa [same₁ k small])
    rw [same₁ k small] at second
    have third := written k small (by rwa [same₂ k small])
    rw [same₂ k small] at third
    exact (first.trans second).trans third
  · intro k small k' small' used hit
    rw [same₃ k small] at used hit
    have kept : ownBlock s'.disk (inode₂.grow buf) k' = ownBlock s₂.disk inode₂ k' :=
      ownBlock_congr small' (fun _ _ => rfl) (appends.table (appends.owned ownsFile))
    rw [kept] at hit
    exact apart₂ k small k' small' used hit

end Appends

/-! ## Files apart from each other -/

/-- An inode without sectors owns no block. -/
theorem ownBlock_empty {disk : Memory} {k : Nat} (none : ∀ i < 13, inode.sector i = 0)
    (small : k ≤ 140) : ownBlock disk inode k = 0 := by
  by_cases last : k = 140
  · rw [last, ownBlock_table, none 12 (by decide)]
  · rw [ownBlock_of_lt (by omega)]
    by_cases direct : k < 12
    · rw [allBlocks_direct direct, none k (by omega)]
    · exact allBlocks_noTable (by omega) (none 12 (by decide))

/-- The inodes at the given addresses own marked blocks, each of them once, and no block in
common. -/
structure FilesApart (files : Set Ptr) (s : FsState part) : Prop where
  owns : ∀ ptr ∈ files, ∃ inode, s.inodes ptr = some inode ∧
    OwnsBlocks s.disk s.blockBitmap inode
  apart : ∀ ptr ∈ files, ∀ ptr' ∈ files, ptr ≠ ptr' → ∀ inode inode', s.inodes ptr = some inode →
    s.inodes ptr' = some inode' → BlocksApart s.disk inode inode'

/-- Calls of `file_write` on open files that return their count, from a state in which the files
own their blocks apart from each other. -/
def writing (part : Partition) (files : Set Ptr) :
    TransitionSystem (FsState part) (Nat × List Byte) where
  initial := FilesApart files
  step s call s' := (∃ ptr ∈ files, (s.fileTable call.1).fdInode = some ptr) ∧
    (fileWrite call.1 call.2).run s = .ok (some call.2.length, s')

section

variable {files : Set Ptr} {globalFd : Nat} {buf : List Byte}

/-- Every file but the one that is written keeps its inode and its blocks. -/
def LeavesOthers (files : Set Ptr) (globalFd : Nat) (s s' : FsState part) : Prop :=
  ∀ ptr ∈ files, (s.fileTable globalFd).fdInode ≠ some ptr → ∀ inode, s.inodes ptr = some inode →
    s'.inodes ptr = some inode ∧ LeavesBlocks inode s s'

/-- One call keeps the files apart, and the others unchanged. -/
theorem writing_step (apart : FilesApart files s)
    (step : (writing part files).step s (globalFd, buf) s') :
    FilesApart files s' ∧ LeavesOthers files globalFd s s' := by
  obtain ⟨⟨ptr, listed, file⟩, ran⟩ := step
  obtain ⟨inode, live, owns⟩ := apart.owns ptr listed
  obtain ⟨-, inode₁, inode₂, blocks, s₁, s₂, appends, fdPos, state⟩ :=
    fileWrite_returns file live owns ran
  have here : s'.inodes ptr = some (inode₂.grow buf) := by
    rw [state]
    exact Function.update_self ..
  have there : ∀ other, other ≠ ptr → s'.inodes other = s.inodes other := by
    intro other different
    rw [state]
    exact Function.update_of_ne different ..
  have leaves : ∀ other ∈ files, other ≠ ptr → ∀ object, s.inodes other = some object →
      LeavesBlocks object s s' ∧ BlocksApart s'.disk object (inode₂.grow buf) := by
    intro other listed' different object found
    obtain ⟨object', found', owns'⟩ := apart.owns other listed'
    rw [found] at found'
    cases found'
    exact appends.leaves owns owns' (apart.apart other listed' ptr listed different _ _ found live)
  refine ⟨⟨?_, ?_⟩, ?_⟩
  · intro other listed'
    by_cases same : other = ptr
    · exact ⟨_, same ▸ here, appends.owns owns⟩
    · obtain ⟨object, found, -⟩ := apart.owns other listed'
      exact ⟨object, (there other same).trans found,
        (leaves other listed' same object found).1.owns⟩
  · intro first listedFirst second listedSecond different inode inode' found found'
    by_cases isFirst : first = ptr
    · subst isFirst
      rw [here] at found
      cases found
      rw [there second different.symm] at found'
      exact (leaves second listedSecond different.symm _ found').2.symm
    · rw [there first isFirst] at found
      obtain ⟨left, apartFirst⟩ := leaves first listedFirst isFirst _ found
      by_cases isSecond : second = ptr
      · subst isSecond
        rw [here] at found'
        cases found'
        exact apartFirst
      · rw [there second isSecond] at found'
        obtain ⟨right, -⟩ := leaves second listedSecond isSecond _ found'
        intro k small k' small' used hit
        rw [left.same k small] at used hit
        rw [right.same k' small'] at hit
        exact apart.apart first listedFirst second listedSecond different _ _ found found'
          k small k' small' used hit
  · intro other listed' different object found
    have elsewhere : other ≠ ptr := fun same => different (same ▸ file)
    exact ⟨(there other elsewhere).trans found, (leaves other listed' elsewhere object found).1⟩

/-- Files without blocks are apart. -/
theorem filesApart_of_empty (empty : ∀ ptr ∈ files, ∃ inode, s.inodes ptr = some inode ∧
    ∀ i < 13, inode.sector i = 0) : FilesApart files s := by
  constructor
  · intro ptr listed
    obtain ⟨inode, live, none⟩ := empty ptr listed
    exact ⟨inode, live, fun k small _ _ used _ => absurd (ownBlock_empty none small) used,
      fun k small used => absurd (ownBlock_empty none small) used⟩
  · intro ptr listed ptr' _ _ inode inode' found _ k small _ _ used _
    obtain ⟨object, live, none⟩ := empty ptr listed
    rw [found] at live
    cases live
    exact used (ownBlock_empty none small)

/-- **Separation of files.** In every state that is reached by calls of `file_write` that return
their count, the open files own marked blocks, each of them once and none in common, and the next
such call changes no block of another file. -/
theorem writes_keep_files_apart (reached : (writing part files).Reachable s) :
    FilesApart files s ∧ ∀ globalFd buf s', (writing part files).step s (globalFd, buf) s' →
      LeavesOthers files globalFd s s' := by
  have apart : FilesApart files s :=
    reached.invariant (FilesApart files) (fun _ start => start)
      fun _ call _ _ apart step => (writing_step apart step).1
  exact ⟨apart, fun globalFd buf s' step => (writing_step apart step).2⟩

end

/-- A mounted partition with two empty files that are open, and one block that is in use. -/
def twoFiles : FsState somePartition :=
  { blankState with
    blockBitmap := ⟨Function.update Memory.zeros 0 1⟩
    inodes := fun ptr =>
      if ptr = .kernel 1 then some (inodeInit 1)
      else if ptr = .kernel 2 then some (inodeInit 2)
      else none
    fileTable := fun globalFd =>
      { fdPos := 0, fdFlag := 0, fdInode :=
          if globalFd = 3 then some (.kernel 1) else if globalFd = 4 then some (.kernel 2)
          else none } }

/-- Two files are written in turn. -/
theorem two_files_apart : ∃ s₁ s₂, (fileWrite 3 [1]).run twoFiles = .ok (some 1, s₁) ∧
    (fileWrite 4 [2, 3]).run s₁ = .ok (some 2, s₂) ∧
    FilesApart {.kernel 1, .kernel 2} s₂ := by
  have ran : valueOf (do
      let first ← fileWrite 3 [1]
      let s ← get
      let second ← fileWrite 4 [2, 3]
      return (first, (s.fileTable 4).fdInode, second)) twoFiles =
        some (some 1, some (.kernel 2), some 2) := by
    decide +kernel
  obtain ⟨s', ran⟩ := exists_of_valueOf ran
  obtain ⟨first, s₁, ran₁, ran⟩ := call_bind_returns.mp ran
  rw [call_bind_of (call_get_returns.mpr ⟨rfl, rfl⟩)] at ran
  obtain ⟨second, s₂, ran₂, ran⟩ := call_bind_returns.mp ran
  obtain ⟨all, rfl⟩ := call_pure_returns.mp ran
  rw [Prod.mk.injEq, Prod.mk.injEq] at all
  obtain ⟨rfl, file, rfl⟩ := all
  have start : FilesApart {.kernel 1, .kernel 2} twoFiles := by
    apply filesApart_of_empty
    intro ptr listed
    rcases listed with rfl | rfl
    · exact ⟨inodeInit 1, rfl, by decide⟩
    · exact ⟨inodeInit 2, rfl, by decide⟩
  have reached : (writing somePartition {.kernel 1, .kernel 2}).Reachable s₂ :=
    .step (4, [2, 3]) (.step (3, [1]) (.initial start) ⟨⟨.kernel 1, .inl rfl, rfl⟩, ran₁⟩)
      ⟨⟨.kernel 2, .inr rfl, file⟩, ran₂⟩
  exact ⟨s₁, s₂, ran₁, ran₂, (writes_keep_files_apart reached).1⟩

end UKernel.Fs
