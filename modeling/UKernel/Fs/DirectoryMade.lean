import UKernel.Fs.DirectoryDelete
import UKernel.Fs.OpenList

/-! # The directory that `sys_mkdir` makes

`sys_mkdir` returns 0 after it wrote a block with the entries `.` and `..`, and an inode that has
only this block (`UKernel.Fs.Makes.fresh`). The inode is stored in its slot if its number is below
256, and `dir_open` then loads it, unless an inode with the number is still open
(`UKernel.Fs.Makes.opened`).
-/

namespace UKernel.Fs

open UKernel.Library

variable {part : Partition} {s s' s₀ s₁ : FsState part} {disk disk' : Memory}
  {inode inode' parent : Inode} {ptr : Ptr} {n : Nat} {number : Word}
  {btmp btmp' : Bitmap part.blockBitmapBytes}

/-- A directory whose blocks hold what they held says the same. -/
theorem Readable.frame (readable : Readable disk inode)
    (all : ∀ k < 140, allBlocks disk' inode' k = allBlocks disk inode k)
    (blocks : ∀ k < 140, allBlocks disk inode k ≠ 0 →
      SameBlock disk disk' (allBlocks disk inode k)) :
    entries disk' inode' = entries disk inode ∧ Readable disk' inode' := by
  have same : ∀ pos, entries disk' inode' pos = entries disk inode pos :=
    fun pos => entries_congr (all _ pos.1.isLt) (blocks _ pos.1.isLt)
  refine ⟨funext same, fun pos present free => ?_, fun pos entry there => ?_⟩
  · rw [all _ pos.1.isLt] at present
    rw [same] at free
    rw [slotBuf_congr (all _ pos.1.isLt) (blocks _ pos.1.isLt present) (by decide)]
    exact readable.blank pos present free
  · rw [same] at there
    exact readable.typed pos entry there

/-! ## The block and the inode -/

/-- The inode that `sys_mkdir` writes. -/
def newDirInode (number block : Word) : Inode :=
  { (inodeInit number).setSector 0 block with iSize := 48 }

/-- The inode and the block of a directory that `sys_mkdir` made, where its number fits the
`uint8_t` through which `inode_sync` passes it. -/
structure FreshDir (s : FsState part) (n : Nat) (block up : Word) : Prop where
  slot_eq : n < 256 → (slot part s.disk n).SameFile (newDirInode (BitVec.ofNat 32 n) block)
  marked : Marked s.blockBitmap block
  block_eq : ∀ k < 512, ideRead s.disk block.toNat k = dirBlock (BitVec.ofNat 32 n) up k

/-- An inode that has the block of a directory at its start and no other one. -/
structure FirstOnly (inode : Inode) (block : Word) : Prop where
  first : inode.sector 0 = block
  rest : ∀ i, i ≠ 0 → inode.sector i = 0

theorem newDirInode_firstOnly (number block : Word) :
    FirstOnly (newDirInode number block) block := by
  have sector : ∀ i, (newDirInode number block).sector i = if i = 0 then block else 0 := by
    intro i
    have set : (newDirInode number block).sector i = if i = 0 then block
        else (inodeInit number).sector i := Inode.sector_setSector (by decide)
    rw [set]
    congr 1
    unfold Inode.sector inodeInit
    split
    · rfl
    · rfl
  exact ⟨(sector 0).trans (if_pos rfl), fun i apart => (sector i).trans (if_neg apart)⟩

theorem FirstOnly.sameFile {block : Word} (only : FirstOnly inode block)
    (file : inode'.SameFile inode) : FirstOnly inode' block := by
  have sector : ∀ i, inode'.sector i = inode.sector i := by
    intro i
    unfold Inode.sector
    rw [file.2.2]
  constructor
  · rw [sector, only.first]
  · intro i apart
    rw [sector, only.rest i apart]

/-- Adding an entry to a directory leaves a marked block alone that the directory does not own. -/
theorem syncDirEntry_keeps {dir : Ptr} {pDe : DirEntry} {block : Word} (typed : pDe.Typed)
    (live : s.inodes dir = some inode) (owns : OwnsBlocks s.disk s.blockBitmap inode)
    (readable : Readable s.disk inode) (marked : Marked s.blockBitmap block)
    (foreign : ∀ k ≤ 140, ownBlock s.disk inode k ≠ block)
    (ran : (syncDirEntry dir pDe).run s = .ok (true, s')) :
    Marked s'.blockBitmap block ∧ SameBlock s.disk s'.disk block := by
  obtain ⟨base, inode', pos, placed⟩ := syncDirEntry_placed typed live owns readable ran
  refine ⟨placed.inserted.marks block marked, placed.inserted.blocks block marked fun k small => ?_⟩
  cases placed.base_eq with
  | inl kept => exact kept.1 ▸ foreign k small
  | inr cut =>
      rw [cut.2.1, detach_ownBlock small]
      split
      · exact foreign k small
      · exact marked.ne_zero.symm

/-- A new block is written; the directories that there are do not change. -/
theorem newBlock_frame (buf : Memory) {block : Word} (owns : OwnsBlocks disk btmp inode)
    (readable : Readable disk inode) (fresh : ¬ Marked btmp block)
    (same : SameFromTable part disk disk') :
    (∀ k ≤ 140, ownBlock (ideWrite disk' block.toNat buf 1) inode k = ownBlock disk inode k) ∧
      Readable (ideWrite disk' block.toNat buf 1) inode := by
  have kept : ∀ {used}, Marked btmp used →
      SameBlock disk (ideWrite disk' block.toNat buf 1) used := by
    intro used marked
    apply SameBlock.trans (same.sameData.sameBlock marked.in_data)
    exact sameBlock_ideWrite fun eq => fresh (eq ▸ marked)
  have table : inode.sector 12 ≠ 0 →
      SameBlock disk (ideWrite disk' block.toNat buf 1) (inode.sector 12) :=
    fun there => kept (owns.table_marked there)
  refine ⟨fun k small => ownBlock_congr small (fun _ _ => rfl) table, ?_⟩
  apply And.right
  apply readable.frame (fun k small => allBlocks_congr small (fun _ _ => rfl) table)
  intro k small used
  exact kept (owns.block_marked small used)

/-- An inode owns its blocks as long as they are the same ones and stay marked. -/
theorem OwnsBlocks.frame_own (owns : OwnsBlocks disk btmp inode)
    (same : ∀ k ≤ 140, ownBlock disk' inode' k = ownBlock disk inode k)
    (keeps : ∀ block, Marked btmp block → Marked btmp' block) : OwnsBlocks disk' btmp' inode' := by
  constructor
  · intro k small k' small' used eq
    rw [same k small] at used eq
    rw [same k' small'] at eq
    exact owns.apart k small k' small' used eq
  · intro k small used
    rw [same k small] at used ⊢
    exact keeps _ (owns.marked k small used)

/-- Two inodes are stored, and the inode bitmap. -/
theorem twoSlots_stored {upper : Inode} (small : n < 4096)
    (synced : (bitmapSync n .inodeBitmap).run { s with
      disk := (s.disk.splice (slotAddr part (upper.iNo.toNat % 256)) upper.image 76).splice
        (slotAddr part (inode.iNo.toNat % 256)) inode.image 76 } = .ok ((), s')) :
    s'.blockBitmap = s.blockBitmap ∧
      (slot part s'.disk (inode.iNo.toNat % 256)).SameFile inode ∧
        SameData part s.disk s'.disk := by
  obtain ⟨disk, rfl, same⟩ := bitmapSync_inode small synced
  have refl : SameData part s.disk s.disk := fun _ _ => rfl
  have small₁ : upper.iNo.toNat % 256 < 4096 := by omega
  have small₂ : inode.iNo.toNat % 256 < 4096 := by omega
  refine ⟨rfl, ?_, fun i far => Eq.trans ?_ (same.sameData i far)⟩
  · rw [← same.sameSlot.slot_eq]
    exact load_slot_splice
  · exact (refl.splice_slot small₁).splice_slot small₂ i far

/-- `sys_mkdir` after an inode was allocated. -/
theorem makeDir_fresh {parentDir : Ptr} {dirname : List Byte} (small : n < 4096)
    (live : s.inodes parentDir = some parent) (owns : OwnsBlocks s.disk s.blockBitmap parent)
    (readable : Readable s.disk parent)
    (ran : (makeDir parentDir dirname n).run s = .ok (true, s')) :
    ∃ block, FreshDir s' n block parent.iNo := by
  obtain ⟨_, s₁, allocated, ran⟩ := call_bind_returns.mp ran
  obtain ⟨bitIdx, rfl, inside, free, rfl⟩ := blockBitmapAlloc_returns allocated
  dsimp only at ran
  obtain ⟨_, _, checked, ran⟩ := call_bind_returns.mp ran
  obtain ⟨-, rfl⟩ := call_lift_returns.mp checked
  obtain ⟨_, s₁, synced, ran⟩ := call_bind_returns.mp ran
  obtain ⟨disk, rfl, same⟩ := syncBlock_returns inside synced
  obtain ⟨obj, _, loaded, ran⟩ := call_bind_returns.mp ran
  obtain ⟨here, rfl⟩ := deref_returns.mp loaded
  have obj_eq : obj = parent := Option.some.inj (here.symm.trans live)
  subst obj_eq
  obtain ⟨_, s₂, wrote, ran⟩ := call_bind_returns.mp ran
  have wrote := writeBlock_returns.mp wrote
  have disk₂ : s₂.disk = ideWrite disk (blockOfBit part bitIdx).toNat
      (dirBlock (BitVec.ofNat 32 n) obj.iNo) 1 := by rw [← wrote]
  have btmp₂ : s₂.blockBitmap = s.blockBitmap.set bitIdx true := by rw [← wrote]
  have live₂ : s₂.inodes parentDir = some obj := by rw [← wrote, live]
  clear wrote
  obtain ⟨pDe, _, lifted, ran⟩ := call_bind_returns.mp ran
  obtain ⟨created, rfl⟩ := call_lift_returns.mp lifted
  obtain ⟨done, s₃, stored, ran⟩ := call_bind_returns.mp ran
  cases done with
  | false => cases (call_pure_returns.mp ran).1
  | true =>
      have unmarked : ¬ Marked s.blockBitmap (blockOfBit part bitIdx) :=
        not_marked_of_free inside free
      have framed := newBlock_frame (dirBlock (BitVec.ofNat 32 n) obj.iNo) owns readable
        unmarked same
      rw [← disk₂] at framed
      obtain ⟨owned, readable₂⟩ := framed
      have marks : ∀ block, Marked s.blockBitmap block → Marked s₂.blockBitmap block := by
        intro block was
        rw [btmp₂, marked_set inside]
        exact .inr was
      have marked₂ : Marked s₂.blockBitmap (blockOfBit part bitIdx) := by
        rw [btmp₂, marked_set inside]
        exact .inl rfl
      have foreign : ∀ k ≤ 140, ownBlock s₂.disk obj k ≠ blockOfBit part bitIdx := by
        intro k less eq
        rw [owned k less] at eq
        apply unmarked
        rw [← eq]
        apply owns.marked k less
        rw [eq]
        exact marked₂.ne_zero
      obtain ⟨marked₃, same₃⟩ := syncDirEntry_keeps (created_typed (.inr rfl) created) live₂
        (owns.frame_own owned marks) readable₂ marked₂ foreign stored
      obtain ⟨obj', _, loaded, ran⟩ := call_bind_returns.mp ran
      obtain ⟨-, rfl⟩ := deref_returns.mp loaded
      rw [call_bind_of inodeSync_run, call_bind_of inodeSync_run] at ran
      obtain ⟨_, s₅, synced, ran⟩ := call_bind_returns.mp ran
      obtain ⟨-, rfl⟩ := call_pure_returns.mp ran
      obtain ⟨btmp₅, slot₅, same₅⟩ := twoSlots_stored small synced
      refine ⟨blockOfBit part bitIdx, fun fits => ?_, ?_, fun k less => ?_⟩
      · have number : (BitVec.ofNat 32 n).toNat % 256 = n := by
          rw [BitVec.toNat_ofNat]
          omega
        have slot₅ : (slot part _ ((BitVec.ofNat 32 n).toNat % 256)).SameFile _ := slot₅
        rwa [number] at slot₅
      · rwa [btmp₅]
      · rw [← same₅.sameBlock marked₃.in_data k less, ← same₃ k less, disk₂,
          ideRead_ideWrite_self less]

/-! ## What a new directory says -/

section Says

variable {block up : Word} {name : List Byte} {pos : Pos} {entry : DirEntry}

theorem directoryEntry_image {k : Nat} (small : k < 16) :
    (directoryEntry name number).image k = (directoryEntry name 0).image k := by
  rw [DirEntry.image, DirEntry.image, dif_pos small, dif_pos small]
  rfl

theorem directoryEntry_known : (directoryEntry name number).fType ≠ ftUnknown :=
  show ftDirectory ≠ ftUnknown by decide

theorem directoryEntry_dot : (directoryEntry dot number).HasName dot := by
  have same : strEq (directoryEntry dot number).image dot =
      strEq (directoryEntry dot 0).image dot :=
    strEq_congr fun i small => directoryEntry_image (Nat.lt_of_le_of_lt small (by decide))
  exact same.trans (by decide)

theorem directoryEntry_dotdot : (directoryEntry dotdot number).HasName dotdot := by
  have same : strEq (directoryEntry dotdot number).image dotdot =
      strEq (directoryEntry dotdot 0).image dotdot :=
    strEq_congr fun i small => directoryEntry_image (Nat.lt_of_le_of_lt small (by decide))
  exact same.trans (by decide)

/-- The slots of the first block of a directory. -/
theorem dirBlock_slot {i k : Nat} (small : k < 24) :
    (dirBlock number up).shift (24 * i) k = if i = 0 then (directoryEntry dot number).image k
      else if i = 1 then (directoryEntry dotdot up).image k else 0 := by
  unfold dirBlock Memory.shift
  by_cases first : i = 0
  · rw [if_pos first, Memory.splice_outside (by omega), Memory.splice_inside (by omega) (by omega)]
    congr 1
    omega
  · rw [if_neg first]
    by_cases second : i = 1
    · rw [if_pos second, Memory.splice_inside (by omega) (by omega)]
      congr 1
      omega
    · rw [if_neg second, Memory.splice_outside (by omega), Memory.splice_outside (by omega)]
      rfl

/-- What a new directory says. -/
def newEntries (number up : Word) (pos : Pos) : Option DirEntry :=
  if pos = (0, 0) then some (directoryEntry dot number)
  else if pos = (0, 1) then some (directoryEntry dotdot up)
  else none

theorem FirstOnly.allBlocks_eq (only : FirstOnly inode block) (k : Nat) :
    allBlocks disk inode k = if k = 0 then block else 0 := by
  by_cases direct : k < 12
  · rw [allBlocks_direct direct]
    split
    · rename_i zero
      rw [zero, only.first]
    · rename_i apart
      exact only.rest k apart
  · rw [allBlocks_noTable (Nat.le_of_not_lt direct) (only.rest 12 (by decide)), if_neg (by omega)]

theorem FirstOnly.slot (only : FirstOnly inode block)
    (block_eq : ∀ k < 512, ideRead disk block.toNat k = dirBlock number up k) {i : Fin 21} {k : Nat}
    (small : k < 24) : slotBuf disk inode (0, i) k = (dirBlock number up).shift (24 * i) k := by
  have inside := i.isLt
  rw [slotBuf, only.allBlocks_eq, if_pos (by rfl)]
  exact block_eq _ (by omega)

theorem FirstOnly.entries_eq (only : FirstOnly inode block) (used : block ≠ 0)
    (block_eq : ∀ k < 512, ideRead disk block.toNat k = dirBlock number up k) :
    entries disk inode = newEntries number up := by
  funext pos
  obtain ⟨b, i⟩ := pos
  by_cases first : b = 0
  · subst first
    have present : allBlocks disk inode (0 : Fin 140) ≠ 0 := by
      rw [only.allBlocks_eq]
      exact used
    have loaded : ∀ buf : Memory, (∀ k < 24, (dirBlock number up).shift (24 * i) k = buf k) →
        DirEntry.load (slotBuf disk inode (0, i)) = DirEntry.load buf := by
      intro buf same
      apply DirEntry.load_congr
      intro k small
      rw [only.slot block_eq small, same k small]
    rw [entries_present present, newEntries]
    by_cases dots : i = 0
    · subst dots
      rw [loaded (directoryEntry dot number).image fun k small => by
        rw [dirBlock_slot small, if_pos (by rfl)], DirEntry.load_image,
        if_neg directoryEntry_known, if_pos rfl]
    · rw [if_neg fun same => dots (congrArg Prod.snd same)]
      have apart : i.val ≠ 0 := fun zero => dots (Fin.ext zero)
      by_cases dotdots : i = 1
      · subst dotdots
        rw [loaded (directoryEntry dotdot up).image fun k small => by
          rw [dirBlock_slot small, if_neg apart, if_pos (by rfl)], DirEntry.load_image,
          if_neg directoryEntry_known, if_pos rfl]
      · have apart' : i.val ≠ 1 := fun one => dotdots (Fin.ext one)
        rw [if_neg fun same => dotdots (congrArg Prod.snd same),
          loaded Memory.zeros fun k small => by
          rw [dirBlock_slot small, if_neg apart, if_neg apart']
          rfl]
        exact if_pos rfl
  · rw [entries_absent, newEntries, if_neg fun same => first (congrArg Prod.fst same),
      if_neg fun same => first (congrArg Prod.fst same)]
    rw [only.allBlocks_eq]
    exact if_neg fun zero => first (Fin.ext zero)

theorem newEntries_some (there : newEntries number up pos = some entry) :
    (pos = (0, 0) ∧ entry = directoryEntry dot number) ∨
      (pos = (0, 1) ∧ entry = directoryEntry dotdot up) := by
  unfold newEntries at there
  by_cases dots : pos = (0, 0)
  · rw [if_pos dots] at there
    exact .inl ⟨dots, (Option.some.inj there).symm⟩
  · rw [if_neg dots] at there
    by_cases dotdots : pos = (0, 1)
    · rw [if_pos dotdots] at there
      exact .inr ⟨dotdots, (Option.some.inj there).symm⟩
    · rw [if_neg dotdots] at there
      cases there

theorem FirstOnly.own_eq (only : FirstOnly inode block) {k : Nat} (small : k ≤ 140) :
    ownBlock disk inode k = if k = 0 then block else 0 := by
  by_cases last : k = 140
  · rw [last, ownBlock_table, only.rest 12 (by decide), if_neg (by decide)]
  · rw [ownBlock_of_lt (by omega), only.allBlocks_eq]

theorem FirstOnly.owns (only : FirstOnly inode block) (marked : Marked btmp block) :
    OwnsBlocks disk btmp inode := by
  constructor
  · intro k small k' small' used same
    rw [only.own_eq small] at used same
    rw [only.own_eq small'] at same
    split at used
    · rename_i zero
      rw [zero, if_pos rfl] at same
      by_contra apart
      rw [if_neg fun zero' => apart (zero.trans zero'.symm)] at same
      exact used same
    · exact absurd rfl used
  · intro k small used
    rw [only.own_eq small] at used ⊢
    split at used
    · rename_i zero
      rw [if_pos zero]
      exact marked
    · exact absurd rfl used

end Says

/-! ## The call -/

/-- A directory that is open, owns its blocks and can be read. -/
structure OpenDir (s : FsState part) (dir : Ptr) (inode : Inode) : Prop where
  live : s.inodes dir = some inode
  owns : OwnsBlocks s.disk s.blockBitmap inode
  readable : Readable s.disk inode

/-- `sys_mkdir` made the directory with the first number that was free, in a directory that can be
read. -/
structure Makes (junk : Word) (path : List Byte) (s₀ s₁ : FsState part) (n : Nat) : Prop where
  ran : (sysMkdir junk path).run s₀ = .ok (true, s₁)
  free : s₀.inodeBitmap.test n = false
  lowest : ∀ l < n, s₀.inodeBitmap.test l = true
  upper : ∀ record s, (searchFile junk path).run s₀ = .ok ((notFound, record), s) →
    ∃ parent, OpenDir s (s.dirInode record.parentDir) parent

variable {junk : Word} {path : List Byte}

/-- Opening and closing inodes leaves a new directory alone. -/
theorem FreshDir.opens {block up : Word} (fresh : FreshDir s n block up) (opens : OpensOnly s s') :
    FreshDir s' n block up := by
  constructor
  · rw [opens.disk]
    exact fresh.slot_eq
  · rw [opens.blockBitmap]
    exact fresh.marked
  · rw [opens.disk]
    exact fresh.block_eq

theorem makeFound_fresh {record : PathSearchRecord} (free : s.inodeBitmap.test n = false)
    (lowest : ∀ l < n, s.inodeBitmap.test l = true)
    (upper : OpenDir s (s.dirInode record.parentDir) parent)
    (ran : (makeFound record).run s = .ok (true, s')) :
    n < 4096 ∧ ∃ block, FreshDir s' n block parent.iNo := by
  obtain ⟨dirname, _, lifted, ran⟩ := call_bind_returns.mp ran
  obtain ⟨-, rfl⟩ := call_lift_returns.mp lifted
  obtain ⟨_, s₁, allocated, ran⟩ := call_bind_returns.mp ran
  obtain ⟨bitIdx, rfl, small, free', lowest', rfl⟩ := inodeBitmapAlloc_returns allocated
  have same : bitIdx = n := by
    rcases Nat.lt_trichotomy bitIdx n with less | same | more
    · rw [lowest bitIdx less] at free'
      cases free'
    · exact same
    · rw [lowest' n more] at free
      cases free
  subst same
  refine ⟨small, ?_⟩
  dsimp only at ran
  rw [call_bind_of (call_get_returns.mpr ⟨rfl, rfl⟩)] at ran
  obtain ⟨done, s₂, made, ran⟩ := call_bind_returns.mp ran
  cases done with
  | false =>
      obtain ⟨_, _, -, ran⟩ := call_bind_returns.mp ran
      obtain ⟨_, _, -, ran⟩ := call_bind_returns.mp ran
      cases (call_pure_returns.mp ran).1
  | true =>
      obtain ⟨_, s₃, closed, ran⟩ := call_bind_returns.mp ran
      obtain ⟨-, rfl⟩ := call_pure_returns.mp ran
      have same : ∀ dir, FsState.dirInode { s with
          inodeBitmap := s.inodeBitmap.set bitIdx true } dir = s.dirInode dir :=
        fun dir => by cases dir <;> rfl
      rw [same] at made
      obtain ⟨block, fresh⟩ := makeDir_fresh
        (s := { s with inodeBitmap := s.inodeBitmap.set bitIdx true }) small upper.live upper.owns
        upper.readable made
      exact ⟨block, fresh.opens (dirClose_opens _ _ _ _ closed)⟩

/-- **Making a directory.** -/
theorem Makes.fresh (makes : Makes junk path s₀ s₁ n) :
    n < 4096 ∧ ∃ block up, FreshDir s₁ n block up := by
  obtain ⟨⟨inodeNo, record⟩, s, searched, ran⟩ := call_bind_returns.mp makes.ran
  dsimp only at ran
  by_cases known : inodeNo ≠ notFound
  · rw [if_pos known] at ran
    obtain ⟨_, _, -, ran⟩ := call_bind_returns.mp ran
    cases (call_pure_returns.mp ran).1
  · rw [if_neg known] at ran
    have unknown : inodeNo = notFound := Decidable.not_not.mp known
    subst unknown
    have opens := searchFile_opens junk path s₀ _ s searched
    obtain ⟨depth, _, lifted, ran⟩ := call_bind_returns.mp ran
    obtain ⟨-, rfl⟩ := call_lift_returns.mp lifted
    obtain ⟨depth', _, lifted, ran⟩ := call_bind_returns.mp ran
    obtain ⟨-, rfl⟩ := call_lift_returns.mp lifted
    by_cases apart : depth ≠ depth'
    · rw [if_pos apart] at ran
      obtain ⟨_, _, -, ran⟩ := call_bind_returns.mp ran
      cases (call_pure_returns.mp ran).1
    · rw [if_neg apart] at ran
      obtain ⟨parent, upper⟩ := makes.upper record _ searched
      obtain ⟨small, block, fresh⟩ := makeFound_fresh (opens.inodeBitmap ▸ makes.free)
        (opens.inodeBitmap ▸ makes.lowest) upper ran
      exact ⟨small, block, parent.iNo, fresh⟩

/-- A directory that was made, and opened while no inode with its number was open, has the block of
`.` and `..` only. -/
theorem Makes.opened {dir : Ptr} (makes : Makes junk path s₀ s₁ n) (fits : n < 256)
    (opens : OpensOnly s₁ s) (closed : NotOpen s (BitVec.ofNat 32 n))
    (ran : (dirOpen (BitVec.ofNat 32 n)).run s = .ok (.heap dir, s')) :
    ∃ inode block up, s'.inodes dir = some inode ∧ FirstOnly inode block ∧ inode.iSize = 48 ∧
      FreshDir s' n block up := by
  obtain ⟨small, block, up, fresh⟩ := makes.fresh
  obtain ⟨ptr, _, loaded, ran⟩ := call_bind_returns.mp ran
  obtain ⟨here, rfl⟩ := call_pure_returns.mp ran
  cases here
  have number : (BitVec.ofNat 32 n).toNat = n := by
    rw [BitVec.toNat_ofNat]
    omega
  rw [inodeOpen_of_notOpen (by omega) closed, number] at loaded
  cases loaded
  have fresh' := fresh.opens opens
  have file := fresh'.slot_eq fits
  exact ⟨_, block, up, Function.update_self .., (newDirInode_firstOnly _ _).sameFile file,
    file.2.1, fresh'.slot_eq, fresh'.marked, fresh'.block_eq⟩

end UKernel.Fs
