import UKernel.Memory.CopyProcess

/-! # What a fork copies

The copy of a process has the parent's pages in frames that were free, and the parent is left as it
was, unless an inode that the parent has open lies in its own memory
(`UKernel.Fork.copy_process_copies`). The loop of `copy_body_stack3` keeps
`UKernel.Fork.Copying`: the child's account of frames is the one of a fork, no frame that was in
use has changed, and the pages that were passed are copied.
-/

namespace UKernel.Fork

open UKernel.Library UKernel.Fs UKernel.Memory UKernel.Paging

variable {pools : Pools} {parent child : Nat} {m₀ m m' m'' : Machine pools}

/-! ## What a copy is -/

/-- A page whose bit is set in the bitmap of a process. -/
def Marked (space : Space) (page : Nat) : Prop :=
  ∃ bitIdx < 8 * userBtmpBytesLen, space.vaddrBitmap.test bitIdx = true ∧
    page = (bitIdx * pgSize + userVaddrStart) / pgSize

/-- The frames to which a process maps pages are in use. -/
def HoldsFrames (space : Space) (s : Pages pools) : Prop :=
  ∀ page, space.tables.Maps page → ∃ pf b, b < pools.frames pf ∧
    (space.pte page).addr = frameAddr pools pf b ∧ s.taken pf b = true

/-- An address is that of a frame that is free. -/
def FreeFrame (s : Pages pools) (addr : Nat) : Prop :=
  ∃ pf b, b < pools.frames pf ∧ addr = frameAddr pools pf b ∧ s.taken pf b = false

/-- A child that is a copy of its parent, of which it was made. -/
structure CopyOf (m₀ m' : Machine pools) (parentSpace space : Space) : Prop where
  mapped : ∀ page, Marked parentSpace page → space.tables.Maps page
  free : ∀ page, Marked parentSpace page → FreeFrame m₀.pages (space.pte page).addr
  equal : ∀ page, Marked parentSpace page → ∀ i < pgSize,
    m'.frame (space.pte page).addr i = m₀.frame (parentSpace.pte page).addr i
  apart : ∀ page page', Marked parentSpace page → Marked parentSpace page' →
    (space.pte page).addr = (space.pte page').addr → page = page'
  bitmap : space.vaddrBitmap = parentSpace.vaddrBitmap
  ownBits : ∀ page ∈ pagesFrom space.bits bitmapPgCnt,
    (m'.pages.kernelPte page).present = true ∧ FreeFrame m₀.pages (m'.pages.kernelPte page).addr

/-- The child is a copy of the parent, shares the kernel's half of memory with it, and leaves it as
it was. -/
structure Copied (parent child : Nat) (m₀ m' : Machine pools) (parentSpace : Space) : Prop where
  copy : ∃ space, m'.pages.space child = some space ∧ CopyOf m₀ m' parentSpace space
  shared : ∀ pdeIdx, 768 ≤ pdeIdx → pdeIdx ≤ 1022 →
    m'.kernelPde child pdeIdx = m₀.kernelPde parent pdeIdx
  kernelPde : m'.kernelPde parent = m₀.kernelPde parent
  mappings : m'.pages.space parent = some parentSpace
  memory : ∀ page, parentSpace.tables.Maps page → ∀ i < pgSize,
    m'.frame (parentSpace.pte page).addr i = m₀.frame (parentSpace.pte page).addr i

/-- The address of the open count behind a descriptor, if it lies in the user half of memory. -/
def userCount (m : Machine pools) (pid localFd : Nat) : Option Nat :=
  match m.fdTable pid localFd with
  | none => none
  | some globalFd =>
      let slot := m.fileTable globalFd
      if slot.isPipe = false ∧ slot.fdInode.openCnts < kernelBase then
        some slot.fdInode.openCnts
      else none

/-- No descriptor of a process refers to an inode in the user half of memory. -/
def CountsInKernel (m : Machine pools) (pid : Nat) : Prop :=
  ∀ localFd ∈ List.range' 3 (maxFilesOpenPerProc - 3), userCount m pid localFd = none

/-! ## The primitives -/

section Primitives

variable {α : Type} {vaddr frame : Nat}

theorem onPages_returns {call : PageCall pools α} {a : α} :
    (onPages call).run m = .ok (a, m') ↔
      ∃ pages, call.run m.pages = .ok (a, pages) ∧ { m with pages := pages } = m' := by
  constructor
  · intro ran
    obtain ⟨_, _, read, ran⟩ := call_bind_returns.mp ran
    obtain ⟨rfl, rfl⟩ := call_get_returns.mp read
    obtain ⟨⟨b, pages⟩, _, lifted, ran⟩ := call_bind_returns.mp ran
    obtain ⟨made, rfl⟩ := call_lift_returns.mp lifted
    obtain ⟨_, _, set, ran⟩ := call_bind_returns.mp ran
    obtain ⟨rfl, rfl⟩ := call_pure_returns.mp ran
    cases set
    exact ⟨pages, made, rfl⟩
  · rintro ⟨pages, made, rfl⟩
    rw [onPages, call_bind_of (call_get_returns.mpr ⟨rfl, rfl⟩),
      call_bind_of (call_lift_returns.mpr ⟨made, rfl⟩)]
    rfl

/-- The frame of a page of the kernel's heap. -/
theorem frameOf_kernel (high : kHeapStart ≤ vaddr)
    (ran : (frameOf vaddr).run m = .ok (frame, m')) :
    frame = (m.pages.kernelPte (vaddr / pgSize)).addr ∧ m = m' := by
  obtain ⟨_, _, read, ran⟩ := call_bind_returns.mp ran
  obtain ⟨rfl, rfl⟩ := call_get_returns.mp read
  obtain ⟨pte, _, translated, ran⟩ := call_bind_returns.mp ran
  obtain ⟨pages, found, rfl⟩ := onPages_returns.mp translated
  obtain ⟨rfl, rfl⟩ := readPte_kernel high found
  split at ran
  · obtain ⟨rfl, rfl⟩ := call_pure_returns.mp ran
    exact ⟨rfl, rfl⟩
  · exact (call_throw_returns ran).elim

/-- The frame of a page of the active process. -/
theorem frameOf_user {space : Space} (low : vaddr < kernelBase)
    (known : m.pages.space m.active = some space)
    (ran : (frameOf vaddr).run m = .ok (frame, m')) :
    space.tables.Maps (vaddr / pgSize) ∧ frame = (space.pte (vaddr / pgSize)).addr ∧ m = m' := by
  obtain ⟨_, _, read, ran⟩ := call_bind_returns.mp ran
  obtain ⟨rfl, rfl⟩ := call_get_returns.mp read
  obtain ⟨pte, _, translated, ran⟩ := call_bind_returns.mp ran
  obtain ⟨pages, found, rfl⟩ := onPages_returns.mp translated
  obtain ⟨present, rfl, rfl⟩ := readPte_user low known found
  split at ran
  · obtain ⟨rfl, rfl⟩ := call_pure_returns.mp ran
    refine ⟨⟨?_, ?_, ‹_›⟩, rfl, rfl⟩
    · unfold kernelBase at low
      unfold pgSize
      omega
    · rw [page_of_vaddr]
      exact present
  · exact (call_throw_returns ran).elim

end Primitives

/-! ## A new page of the child -/

section NewPage

variable {s s' : Pages pools} {cur vaddr addr : Nat} {space : Space}

/-- A process has one more page, and the pages it had. -/
structure MapsMore (s s' : Pages pools) (cur page : Nat) (space space' : Space) : Prop where
  spaces : s'.space = Function.update s.space cur (some space')
  bitmap : space'.vaddrBitmap = space.vaddrBitmap
  maps : space'.tables.Maps page
  keeps : ∀ other, other ≠ page → space.tables.Maps other →
    space'.tables.Maps other ∧ space'.pte other = space.pte other
  kernelPte : s'.kernelPte = s.kernelPte

theorem user_page (low : vaddr < kernelBase) : vaddr / pgSize < 768 * 1024 := by
  unfold kernelBase at low
  unfold pgSize
  omega

/-- The end of `page_table_add`, with a page table. -/
theorem writeEntry_maps (low : vaddr < kernelBase) (known : s.space cur = some space)
    (ran : (do
      require ((← readPte cur vaddr).present = false)
      writePte cur vaddr ⟨addr, true⟩ : PageCall pools Unit).run s = .ok ((), s')) :
    ∃ space', MapsMore s s' cur (vaddr / pgSize) space space' := by
  obtain ⟨entry, _, read, ran⟩ := call_bind_returns.mp ran
  obtain ⟨present, rfl, rfl⟩ := readPte_user low known read
  obtain ⟨_, _, required, ran⟩ := call_bind_returns.mp ran
  obtain ⟨absent, rfl⟩ := call_lift_returns.mp required
  rw [writePte, if_neg (not_high low), if_neg (Nat.not_le.mpr low)] at ran
  obtain ⟨space', _, read, ran⟩ := call_bind_returns.mp ran
  obtain ⟨found, rfl⟩ := spaceOf_returns read
  cases known.symm.trans found
  cases call_modify_returns.mp ran
  rw [← page_of_vaddr] at present
  have small := user_page low
  generalize vaddr / pgSize = page at *
  refine ⟨_, rfl, rfl, ⟨small, present, ?_⟩, fun other apart maps => ?_, rfl⟩
  · simp [Space.tables]
  · have same : Function.update space.pte page ⟨addr, true⟩ other = space.pte other :=
      Function.update_of_ne apart _ _
    refine ⟨⟨maps.1, maps.2.1, ?_⟩, same⟩
    change (Function.update space.pte page ⟨addr, true⟩ other).present = true
    rw [same]
    exact maps.2.2

/-- `get_a_page_without_opvaddrbitmap` maps one more page. -/
theorem getAPage_maps (low : vaddr < kernelBase) (known : s.space cur = some space)
    (ran : (getAPageWithoutOpvaddrbitmap cur vaddr).run s = .ok ((), s')) :
    ∃ space', MapsMore s s' cur (vaddr / pgSize) space space' := by
  obtain ⟨found, _, allocated, ran⟩ := call_bind_returns.mp ran
  obtain ⟨b, rfl, -, -, rfl⟩ := palloc_returns allocated
  dsimp only at ran
  rw [pageTableAdd, if_pos low] at ran
  obtain ⟨space', _, read, ran⟩ := call_bind_returns.mp ran
  obtain ⟨found, rfl⟩ := spaceOf_returns read
  cases known.symm.trans found
  by_cases present : (space.pde (vaddr / 0x400000)).present = true
  · rw [if_neg (not_not.mpr present)] at ran
    obtain ⟨space', more⟩ := writeEntry_maps low (s := s.setFrame .user b true) known ran
    exact ⟨space', more.spaces, more.bitmap, more.maps, more.keeps, more.kernelPte⟩
  · rw [if_pos present] at ran
    obtain ⟨_, middle, added, ran⟩ := call_bind_returns.mp ran
    obtain ⟨table, _, allocated, added⟩ := call_bind_returns.mp added
    obtain ⟨c, rfl, -, -, rfl⟩ := palloc_returns allocated
    obtain ⟨space', _, read, added⟩ := call_bind_returns.mp added
    obtain ⟨found, rfl⟩ := spaceOf_returns read
    cases known.symm.trans found
    cases call_modify_returns.mp added
    obtain ⟨space', more⟩ := writeEntry_maps low setSpace_space ran
    refine ⟨space', ?_, more.bitmap, more.maps, fun other apart maps => ?_, more.kernelPte⟩
    · rw [more.spaces]
      exact Function.update_idem _ _ _
    · have tableOf : other / 1024 ≠ vaddr / 0x400000 := by
        intro same
        have entry := maps.2.1
        rw [same] at entry
        exact present entry
      have entry : (space.addTable (vaddr / 0x400000)
          (frameAddr pools .kernel c)).pte other = space.pte other := if_neg tableOf
      have maps' : (space.addTable (vaddr / 0x400000)
          (frameAddr pools .kernel c)).tables.Maps other := by
        refine ⟨maps.1, ?_, ?_⟩
        · change (Function.update space.pde (vaddr / 0x400000) _ (other / 1024)).present = true
          rw [Function.update_of_ne tableOf]
          exact maps.2.1
        · change ((space.addTable (vaddr / 0x400000)
            (frameAddr pools .kernel c)).pte other).present = true
          rw [entry]
          exact maps.2.2
      obtain ⟨kept, same⟩ := more.keeps other apart maps'
      exact ⟨kept, same.trans entry⟩

end NewPage

/-! ## The loop -/

/-- The frames that were in use hold what they held. -/
def Kept (m₀ m : Machine pools) : Prop :=
  ∀ pf b, b < pools.frames pf → m₀.pages.taken pf b = true →
    m.frame (frameAddr pools pf b) = m₀.frame (frameAddr pools pf b)

/-- The identity of a process, as in the account of a child. -/
abbrev Identity := Nat × Nat × Nat × Option Nat × Bool

/-- What the loop of `copy_body_stack3` keeps, once the bits before the given one were passed. -/
structure Copying (parent child bufPage : Nat) (parentSpace : Space) (identity : Identity)
    (mine : Finset Nat) (m₀ m : Machine pools) (passed : Nat) : Prop where
  accounts : ChildAccounts m₀.pages m.pages child identity mine none
  known : m.pages.space parent = some parentSpace
  active : m.active = parent
  kept : Kept m₀ m
  copied : ∀ space, m.pages.space child = some space →
    space.vaddrBitmap = parentSpace.vaddrBitmap ∧ ∀ bitIdx < passed,
      parentSpace.vaddrBitmap.test bitIdx = true →
        let page := (bitIdx * pgSize + userVaddrStart) / pgSize
        space.tables.Maps page ∧
          m.frame (space.pte page).addr = m₀.frame (parentSpace.pte page).addr

theorem pageOfBit (bitIdx : Nat) :
    (bitIdx * pgSize + userVaddrStart) / pgSize = bitIdx + userVaddrStart / pgSize := by
  rw [Nat.add_comm, Nat.add_mul_div_right _ _ (show 0 < pgSize by decide), Nat.add_comm]

section Loop

variable {bufPage passed : Nat} {parentSpace space : Space} {identity : Identity}
  {mine : Finset Nat}

/-- What the child owns was free. -/
theorem free_of_owned {s₀ s : Pages pools} {tables : Option Tables} {addr : Nat}
    (accounts : Accounts s₀ s tables mine none) (owner : Owner)
    (owned : Owns s.kernelPte tables mine none owner addr) :
    FreeFrame s₀ addr :=
  accounts.balanced.frame owner addr owned

/-- Writing to a frame that was free does not touch one that was in use. -/
theorem Kept.write {addr : Nat} {bytes : Memory} (kept : Kept m₀ m)
    (free : FreeFrame m₀.pages addr) (frames : m'.frame = Function.update m.frame addr bytes) :
    Kept m₀ m' := by
  intro pf b small taken
  obtain ⟨pf', b', small', rfl, unused⟩ := free
  rw [frames, Function.update_of_ne]
  · exact kept pf b small taken
  · intro same
    obtain ⟨rfl, rfl⟩ := frameAddr_inj small small' same
    rw [taken] at unused
    cases unused

/-- A page of the child is not in the frame of another, nor in one of the kernel's pages. -/
theorem userFrames_apart {s₀ s : Pages pools} {page other kernelPage : Nat}
    (accounts : Accounts s₀ s (some space.tables) mine none) (maps : space.tables.Maps page)
    (maps' : space.tables.Maps other) (inKernel : kernelPage ∈ mine) :
    ((space.pte page).addr = (space.pte other).addr → page = other) ∧
      (space.pte page).addr ≠ (s.kernelPte kernelPage).addr := by
  have owns : Owns s.kernelPte (some space.tables) mine none (.user page) (space.pte page).addr :=
    ⟨_, rfl, maps, rfl⟩
  have owns' : Owns s.kernelPte (some space.tables) mine none (.user other)
      (space.pte other).addr := ⟨_, rfl, maps', rfl⟩
  have owns'' : Owns s.kernelPte (some space.tables) mine none (.page kernelPage)
      (s.kernelPte kernelPage).addr := ⟨inKernel, rfl⟩
  constructor
  · intro same
    rw [← same] at owns'
    cases accounts.balanced.exclusive _ _ _ owns owns'
    rfl
  · intro same
    rw [← same] at owns''
    cases accounts.balanced.exclusive _ _ _ owns owns''

/-- The copy of a page in `copy_body_stack3`. -/
theorem copyUserPage_copying (differ : parent ≠ child) (high : kHeapStart ≤ bufPage)
    (buffer : bufPage / pgSize ∈ mine) (holds : HoldsFrames parentSpace m₀.pages)
    (inside : passed < 8 * userBtmpBytesLen)
    (copying : Copying parent child bufPage parentSpace identity mine m₀ m passed)
    (ran : (copyUserPage parent child bufPage (passed * pgSize + userVaddrStart)).run m =
      .ok ((), m')) :
    Copying parent child bufPage parentSpace identity mine m₀ m' (passed + 1) := by
  have low : passed * pgSize + userVaddrStart < kernelBase := by
    unfold userBtmpBytesLen kernelBase userVaddrStart pgSize at inside
    unfold kernelBase userVaddrStart pgSize
    omega
  have below : passed * pgSize + userVaddrStart < kHeapStart := by
    unfold kernelBase at low
    unfold kHeapStart
    omega
  have page := pageOfBit passed
  generalize vaddr : passed * pgSize + userVaddrStart = progVaddr at *
  -- the page goes to the buffer, under the page directory of the parent
  obtain ⟨_, m₁, toBuffer, ran⟩ := call_bind_returns.mp ran
  obtain ⟨source, _, found, toBuffer⟩ := call_bind_returns.mp toBuffer
  have parentKnown := copying.known
  rw [← copying.active] at parentKnown
  obtain ⟨parentMaps, rfl, rfl⟩ := frameOf_user low parentKnown found
  obtain ⟨buffered, _, found, toBuffer⟩ := call_bind_returns.mp toBuffer
  obtain ⟨rfl, rfl⟩ := frameOf_kernel high found
  cases call_modify_returns.mp toBuffer
  -- the child gets a page, under its own page directory
  obtain ⟨_, m₂, activated, ran⟩ := call_bind_returns.mp ran
  cases call_modify_returns.mp activated
  obtain ⟨_, m₃, mapped, ran⟩ := call_bind_returns.mp ran
  obtain ⟨pages, got, rfl⟩ := onPages_returns.mp mapped
  obtain ⟨space, known, same, accounts⟩ := copying.accounts
  obtain ⟨space', more⟩ := getAPage_maps low known got
  have account' := copyPage_accounts below copying.accounts got
  have known' : pages.space child = some space' := by
    rw [more.spaces, Function.update_self]
  -- and the buffer is copied there
  obtain ⟨_, m₄, fromBuffer, ran⟩ := call_bind_returns.mp ran
  obtain ⟨again, _, found, fromBuffer⟩ := call_bind_returns.mp fromBuffer
  obtain ⟨rfl, rfl⟩ := frameOf_kernel high found
  obtain ⟨target, _, found, fromBuffer⟩ := call_bind_returns.mp fromBuffer
  obtain ⟨-, rfl, rfl⟩ := frameOf_user low known' found
  cases call_modify_returns.mp fromBuffer
  cases call_modify_returns.mp ran
  obtain ⟨after, knownAfter, sameAfter, accounts'⟩ := account'
  cases known'.symm.trans knownAfter
  have entry := congrFun more.kernelPte (bufPage / pgSize)
  have bufferFree : FreeFrame m₀.pages (m.pages.kernelPte (bufPage / pgSize)).addr :=
    free_of_owned accounts (.page (bufPage / pgSize)) ⟨buffer, rfl⟩
  have targetFree : FreeFrame m₀.pages (space'.pte (progVaddr / pgSize)).addr :=
    free_of_owned accounts' (.user (progVaddr / pgSize)) ⟨_, rfl, more.maps, rfl⟩
  have original : m.frame (parentSpace.pte (progVaddr / pgSize)).addr =
      m₀.frame (parentSpace.pte (progVaddr / pgSize)).addr := by
    obtain ⟨pf, b, small, isFrame, taken⟩ := holds _ parentMaps
    rw [isFrame]
    exact copying.kept pf b small taken
  constructor
  · exact ⟨space', knownAfter, sameAfter, accounts'⟩
  · dsimp only
    rw [more.spaces, Function.update_of_ne differ]
    exact copying.known
  · rfl
  · exact (copying.kept.write bufferFree rfl).write targetFree rfl
  · intro childSpace childKnown
    cases knownAfter.symm.trans childKnown
    obtain ⟨bitmap, copied⟩ := copying.copied space known
    refine ⟨more.bitmap.trans bitmap, fun bitIdx less marked => ?_⟩
    dsimp only at *
    by_cases last : bitIdx = passed
    · rw [last, vaddr]
      refine ⟨more.maps, ?_⟩
      rw [Function.update_self, entry, Function.update_self, original]
    · have earlier := copied bitIdx (by omega) marked
      rw [pageOfBit bitIdx] at earlier ⊢
      have apart : bitIdx + userVaddrStart / pgSize ≠ progVaddr / pgSize := by omega
      obtain ⟨maps, same⟩ := more.keeps _ apart earlier.1
      obtain ⟨others, buffers⟩ := userFrames_apart accounts' maps more.maps buffer
      rw [entry] at buffers
      refine ⟨maps, ?_⟩
      rw [Function.update_of_ne fun equal => apart (others equal),
        Function.update_of_ne buffers, same]
      exact earlier.2

/-- A bit that is clear is passed. -/
theorem Copying.skip (copying : Copying parent child bufPage parentSpace identity mine m₀ m passed)
    (clear : parentSpace.vaddrBitmap.test passed = false) :
    Copying parent child bufPage parentSpace identity mine m₀ m (passed + 1) := by
  refine { copying with copied := fun space known => ?_ }
  obtain ⟨bitmap, copied⟩ := copying.copied space known
  refine ⟨bitmap, fun bitIdx less marked => copied bitIdx ?_ marked⟩
  by_contra late
  rw [show bitIdx = passed by omega, clear] at marked
  cases marked

/-- The loop over the bits of a byte. -/
theorem copyByte_copying {idxByte left : Nat} (differ : parent ≠ child)
    (high : kHeapStart ≤ bufPage) (buffer : bufPage / pgSize ∈ mine)
    (holds : HoldsFrames parentSpace m₀.pages) (inside : idxByte < userBtmpBytesLen)
    (small : left ≤ 8)
    (copying : Copying parent child bufPage parentSpace identity mine m₀ m
      (idxByte * 8 + (8 - left)))
    (ran : (copyByte parent child bufPage idxByte (parentSpace.vaddrBitmap.bits idxByte)
      left).run m = .ok ((), m')) :
    Copying parent child bufPage parentSpace identity mine m₀ m' (idxByte * 8 + 8) := by
  induction left generalizing m with
  | zero =>
      obtain ⟨-, rfl⟩ := call_pure_returns.mp ran
      exact copying
  | succ left ih =>
      have bit : parentSpace.vaddrBitmap.test (idxByte * 8 + (8 - (left + 1))) =
          (parentSpace.vaddrBitmap.bits idxByte).getLsbD (8 - (left + 1)) := by
        rw [Bitmap.test, show (idxByte * 8 + (8 - (left + 1))) / 8 = idxByte by omega,
          show (idxByte * 8 + (8 - (left + 1))) % 8 = 8 - (left + 1) by omega]
      have next : idxByte * 8 + (8 - (left + 1)) + 1 = idxByte * 8 + (8 - left) := by omega
      dsimp only [copyByte] at ran
      by_cases used : (parentSpace.vaddrBitmap.bits idxByte).getLsbD (8 - (left + 1)) = true
      · rw [if_pos used] at ran
        obtain ⟨_, middle, copied, ran⟩ := call_bind_returns.mp ran
        have more := copyUserPage_copying differ high buffer holds (by omega) copying copied
        rw [next] at more
        exact ih (by omega) more ran
      · rw [if_neg used] at ran
        have more := copying.skip (bit.trans (Bool.eq_false_iff.mpr used))
        rw [next] at more
        exact ih (by omega) more ran

/-- A byte whose bits are all clear is passed. -/
theorem Copying.skipByte {idxByte : Nat}
    (copying : Copying parent child bufPage parentSpace identity mine m₀ m (idxByte * 8))
    (empty : parentSpace.vaddrBitmap.bits idxByte = 0) :
    Copying parent child bufPage parentSpace identity mine m₀ m (idxByte * 8 + 8) := by
  refine { copying with copied := fun space known => ?_ }
  obtain ⟨bitmap, copied⟩ := copying.copied space known
  refine ⟨bitmap, fun bitIdx less marked => copied bitIdx ?_ marked⟩
  by_contra late
  rw [Bitmap.test, show bitIdx / 8 = idxByte by omega, empty] at marked
  simp at marked

/-- The loop over the bytes of the bitmap. -/
theorem copyBytes_copying {start cnt : Nat} (differ : parent ≠ child)
    (high : kHeapStart ≤ bufPage) (buffer : bufPage / pgSize ∈ mine)
    (holds : HoldsFrames parentSpace m₀.pages) (inside : start + cnt ≤ userBtmpBytesLen)
    (copying : Copying parent child bufPage parentSpace identity mine m₀ m (start * 8))
    (ran : (copyBytes parent child bufPage parentSpace.vaddrBitmap.bits
      (List.range' start cnt)).run m = .ok ((), m')) :
    Copying parent child bufPage parentSpace identity mine m₀ m' ((start + cnt) * 8) := by
  induction cnt generalizing start m with
  | zero =>
      obtain ⟨-, rfl⟩ := call_pure_returns.mp ran
      exact copying
  | succ cnt ih =>
      have next : start * 8 + 8 = (start + 1) * 8 := by omega
      rw [List.range'_succ, copyBytes] at ran
      rw [show start + (cnt + 1) = start + 1 + cnt by omega] at inside ⊢
      by_cases empty : parentSpace.vaddrBitmap.bits start ≠ 0
      · rw [if_pos empty] at ran
        obtain ⟨_, middle, copied, ran⟩ := call_bind_returns.mp ran
        have more := copyByte_copying differ high buffer holds (by omega) (Nat.le_refl 8) copying
          copied
        rw [next] at more
        exact ih inside more ran
      · rw [if_neg empty] at ran
        have more := copying.skipByte (not_not.mp empty)
        rw [next] at more
        exact ih inside more ran

end Loop

/-! ## Open counts -/

section Counts

variable {space : Space} {mem : Memory} {off i : Nat}

/-- The lowest byte of a word that is counted up is counted up. -/
theorem bumpWord_self : bumpWord mem off off = mem off + 1 := by
  have small := (mem off).isLt
  unfold bumpWord
  rw [Memory.splice_inside (Nat.le_refl _) (by omega), Nat.sub_self]
  apply BitVec.eq_of_toNat_eq
  have wordOne : (1 : Word).toNat = 1 := rfl
  have byteOne : (1 : Byte).toNat = 1 := rfl
  rw [wordByte_toNat, BitVec.toNat_add, BitVec.toNat_add, getWord_toNat, wordOne, byteOne]
  omega

theorem bumpWord_below (below : i < off) : bumpWord mem off i = mem i :=
  Memory.splice_outside (.inl below)

/-- Where an address of the user half of memory lies: its frame, and its place in the frame. -/
def placeOf (space : Space) (addr : Nat) : Nat × Nat :=
  ((space.pte (addr / pgSize)).addr, addr % pgSize)

/-- The addresses of the open counts in the user half of memory. -/
def userCounts (m : Machine pools) (pid : Nat) (localFds : List Nat) : List Nat :=
  localFds.filterMap (userCount m pid)

/-- Only contents of frames, positions of pipes and counts in the heap of the kernel change. -/
structure SameButCounts (m m' : Machine pools) : Prop where
  pages : m'.pages = m.pages
  active : m'.active = m.active
  kernelPde : m'.kernelPde = m.kernelPde
  fdTable : m'.fdTable = m.fdTable
  slots : ∀ globalFd, (m'.fileTable globalFd).isPipe = (m.fileTable globalFd).isPipe ∧
    (m'.fileTable globalFd).fdInode = (m.fileTable globalFd).fdInode

theorem SameButCounts.refl : SameButCounts m m :=
  ⟨rfl, rfl, rfl, rfl, fun _ => ⟨rfl, rfl⟩⟩

theorem SameButCounts.trans (first : SameButCounts m m') (second : SameButCounts m' m'') :
    SameButCounts m m'' :=
  ⟨second.pages.trans first.pages, second.active.trans first.active,
    second.kernelPde.trans first.kernelPde, second.fdTable.trans first.fdTable, fun globalFd =>
      ⟨(second.slots globalFd).1.trans (first.slots globalFd).1,
        (second.slots globalFd).2.trans (first.slots globalFd).2⟩⟩

theorem SameButCounts.userCount (same : SameButCounts m m') (pid localFd : Nat) :
    userCount m' pid localFd = userCount m pid localFd := by
  unfold Fork.userCount
  rw [same.fdTable]
  cases m.fdTable pid localFd with
  | none => rfl
  | some globalFd =>
      dsimp only
      rw [(same.slots globalFd).1, (same.slots globalFd).2]

/-- The round for a descriptor: a count in the user half of memory is counted up there, and no
frame changes otherwise. -/
theorem updateOpenCnt_returns {localFd : Nat} (known : m.pages.space m.active = some space)
    (tables : m.fdTable child = m.fdTable parent)
    (ran : (updateOpenCnt parent child localFd).run m = .ok ((), m')) :
    SameButCounts m m' ∧ (userCount m child localFd = none ∧ m'.frame = m.frame ∨
      ∃ addr, userCount m child localFd = some addr ∧
        space.tables.Maps (addr / pgSize) ∧ m'.frame = Function.update m.frame
          (placeOf space addr).1
            (bumpWord (m.frame (placeOf space addr).1) (placeOf space addr).2)) := by
  obtain ⟨_, _, read, ran⟩ := call_bind_returns.mp ran
  obtain ⟨rfl, rfl⟩ := call_get_returns.mp read
  rw [tables] at ran
  unfold Fork.userCount
  rw [tables]
  cases entry : m.fdTable parent localFd with
  | none =>
      rw [entry] at ran
      obtain ⟨-, rfl⟩ := call_pure_returns.mp ran
      exact ⟨.refl, .inl ⟨rfl, rfl⟩⟩
  | some globalFd =>
      rw [entry] at ran
      dsimp only at ran ⊢
      obtain ⟨_, _, required, ran⟩ := call_bind_returns.mp ran
      obtain ⟨-, rfl⟩ := call_lift_returns.mp required
      by_cases pipe : (m.fileTable globalFd).isPipe = true
      · rw [if_pos pipe] at ran
        cases call_modify_returns.mp ran
        refine ⟨⟨rfl, rfl, rfl, rfl, fun other => ?_⟩, .inl ⟨?_, rfl⟩⟩
        · dsimp only
          by_cases same : other = globalFd
          · rw [same, Function.update_self]
            exact ⟨rfl, rfl⟩
          · rw [Function.update_of_ne same]
            exact ⟨rfl, rfl⟩
        · rw [if_neg]
          rintro ⟨file, -⟩
          rw [pipe] at file
          cases file
      · rw [if_neg pipe] at ran
        have file := Bool.eq_false_iff.mpr pipe
        unfold bumpOpenCnts at ran
        by_cases low : (m.fileTable globalFd).fdInode.openCnts < kernelBase
        · rw [if_pos low] at ran
          rw [if_pos ⟨file, low⟩]
          obtain ⟨frame, _, found, ran⟩ := call_bind_returns.mp ran
          obtain ⟨maps, rfl, rfl⟩ := frameOf_user low known found
          cases call_modify_returns.mp ran
          exact ⟨⟨rfl, rfl, rfl, rfl, fun _ => ⟨rfl, rfl⟩⟩, .inr ⟨_, rfl, maps, rfl⟩⟩
        · rw [if_neg low] at ran
          rw [if_neg fun both => low both.2]
          cases call_modify_returns.mp ran
          exact ⟨⟨rfl, rfl, rfl, rfl, fun _ => ⟨rfl, rfl⟩⟩, .inl ⟨rfl, rfl⟩⟩

/-- **Counting up.** Of a frame, a byte below all counts that lie in it stays, and the lowest byte
of the lowest count grows by the number of its descriptors. -/
theorem updateInodeOpenCnts_bytes {localFds : List Nat}
    (known : m.pages.space m.active = some space) (tables : m.fdTable child = m.fdTable parent)
    (ran : (updateInodeOpenCnts parent child localFds).run m = .ok ((), m')) :
    SameButCounts m m' ∧
      (∀ addr ∈ userCounts m child localFds, space.tables.Maps (addr / pgSize)) ∧
      ∀ frame i, (∀ addr ∈ userCounts m child localFds,
          (placeOf space addr).1 = frame → i ≤ (placeOf space addr).2) →
        m'.frame frame i = m.frame frame i + BitVec.ofNat 8
          ((userCounts m child localFds).countP fun addr => placeOf space addr = (frame, i)) := by
  induction localFds generalizing m with
  | nil =>
      obtain ⟨-, rfl⟩ := call_pure_returns.mp ran
      refine ⟨.refl, fun addr member => ?_, fun frame i _ => ?_⟩
      · cases member
      · simp [userCounts]
  | cons localFd localFds ih =>
      obtain ⟨_, middle, once, ran⟩ := call_bind_returns.mp ran
      obtain ⟨same, first⟩ := updateOpenCnt_returns known tables once
      obtain ⟨same', maps, bytes⟩ := ih (m := middle) (by rw [same.pages, same.active]; exact known)
        (by rw [same.fdTable]; exact tables) ran
      have rest : userCounts middle child localFds = userCounts m child localFds :=
        List.filterMap_congr fun other _ => same.userCount child other
      rw [rest] at maps bytes
      refine ⟨same.trans same', ?_⟩
      rcases first with ⟨none, frames⟩ | ⟨addr, here, mapsFirst, frames⟩
      · have list : userCounts m child (localFd :: localFds) = userCounts m child localFds := by
          rw [userCounts, List.filterMap_cons_none none]
          rfl
        rw [list]
        refine ⟨maps, fun frame i low => ?_⟩
        rw [bytes frame i low, frames]
      · have list : userCounts m child (localFd :: localFds) =
            addr :: userCounts m child localFds := by
          rw [userCounts, List.filterMap_cons_some here]
          rfl
        rw [list]
        refine ⟨List.forall_mem_cons.mpr ⟨mapsFirst, maps⟩, fun frame i low => ?_⟩
        rw [List.forall_mem_cons] at low
        rw [bytes frame i low.2, frames, List.countP_cons]
        by_cases inFrame : (placeOf space addr).1 = frame
        · rw [inFrame, Function.update_self]
          by_cases lowest : (placeOf space addr).2 = i
          · have place : placeOf space addr = (frame, i) := Prod.ext inFrame lowest
            rw [lowest, bumpWord_self, if_pos (decide_eq_true place), Nat.add_comm _ 1,
              BitVec.ofNat_add, BitVec.add_assoc]
            rfl
          · have apart : placeOf space addr ≠ (frame, i) :=
              fun place => lowest (congrArg Prod.snd place)
            have above := low.1 inFrame
            rw [bumpWord_below (by omega), if_neg (by simpa using apart), Nat.add_zero]
        · have apart : placeOf space addr ≠ (frame, i) :=
            fun place => inFrame (congrArg Prod.fst place)
          rw [Function.update_of_ne (Ne.symm inFrame), if_neg (by simpa using apart), Nat.add_zero]

end Counts

/-! ## New pages of the kernel -/

section KernelPages

variable {vaddr cnt : Nat} {tables : Option Tables} {mine : Finset Nat} {found : Option Nat}

/-- Clearing pages of the account changes frames that were free. -/
theorem clearPages_returns (high : kHeapStart ≤ vaddr) (members : pagesFrom vaddr cnt ⊆ mine)
    (accounts : Accounts m₀.pages m.pages tables mine none) (kept : Kept m₀ m)
    (ran : (clearPages vaddr cnt).run m = .ok ((), m')) :
    Kept m₀ m' ∧ ∃ frame, m' = { m with frame := frame } := by
  induction cnt generalizing m vaddr with
  | zero =>
      obtain ⟨-, rfl⟩ := call_pure_returns.mp ran
      exact ⟨kept, _, rfl⟩
  | succ cnt ih =>
      rw [pagesFrom_succ, Finset.insert_subset_iff] at members
      obtain ⟨frame, _, found, ran⟩ := call_bind_returns.mp ran
      obtain ⟨rfl, rfl⟩ := frameOf_kernel high found
      obtain ⟨_, _, cleared, ran⟩ := call_bind_returns.mp ran
      cases call_modify_returns.mp cleared
      have free : FreeFrame m₀.pages (m.pages.kernelPte (vaddr / pgSize)).addr :=
        free_of_owned accounts (.page (vaddr / pgSize)) ⟨members.1, rfl⟩
      obtain ⟨kept', frame, same⟩ := ih (m := { m with
          frame := Function.update m.frame (m.pages.kernelPte (vaddr / pgSize)).addr Memory.zeros })
        (Nat.le_trans high (Nat.le_add_right _ _)) members.2 accounts (kept.write free rfl) ran
      exact ⟨kept', frame, same⟩

/-- `get_kernel_pages` opens an account for new pages, and leaves the frames in use alone. -/
theorem getKernelPages_returns (accounts : Accounts m₀.pages m.pages tables mine none)
    (kept : Kept m₀ m) (ran : (getKernelPages cnt).run m = .ok (found, m')) :
    m'.pages.space = m.pages.space ∧ m'.active = m.active ∧ m'.kernelPde = m.kernelPde ∧
      m'.fdTable = m.fdTable ∧ m'.fileTable = m.fileTable ∧
      ∀ start, found = some start → kHeapStart ≤ start ∧ Disjoint (pagesFrom start cnt) mine ∧
        Accounts m₀.pages m'.pages tables (pagesFrom start cnt ∪ mine) none ∧ Kept m₀ m' := by
  obtain ⟨_, _, read, ran⟩ := call_bind_returns.mp ran
  obtain ⟨rfl, rfl⟩ := call_get_returns.mp read
  obtain ⟨got, _, mapped, ran⟩ := call_bind_returns.mp ran
  obtain ⟨pages, made, rfl⟩ := onPages_returns.mp mapped
  obtain ⟨same, account⟩ := mallocPage_kernel accounts made
  cases got with
  | none =>
      obtain ⟨rfl, rfl⟩ := call_pure_returns.mp ran
      refine ⟨same, rfl, rfl, rfl, rfl, fun start none => ?_⟩
      cases none
  | some start =>
      obtain ⟨high, apart, accounts'⟩ := account start rfl
      obtain ⟨_, _, cleared, ran⟩ := call_bind_returns.mp ran
      obtain ⟨rfl, rfl⟩ := call_pure_returns.mp ran
      obtain ⟨kept', frame, rfl⟩ := clearPages_returns (m := { m with pages := pages }) high
        Finset.subset_union_left accounts' kept cleared
      refine ⟨same, rfl, rfl, rfl, rfl, fun start' found => ?_⟩
      cases found
      exact ⟨high, apart, accounts', kept'⟩

end KernelPages

/-! ## What the loop leaves alone -/

section Frame

variable {α : Type}

/-- The page directories, the descriptors and the file table are the same. -/
def SameTables (m m' : Machine pools) : Prop :=
  m.kernelPde = m'.kernelPde ∧ m.fdTable = m'.fdTable ∧ m.fileTable = m'.fileTable

instance : Std.Refl (SameTables : Machine pools → Machine pools → Prop) :=
    ⟨fun _ => ⟨rfl, rfl, rfl⟩⟩

instance : IsTrans (Machine pools) SameTables :=
  ⟨fun _ _ _ one two => ⟨one.1.trans two.1, one.2.1.trans two.2.1, one.2.2.trans two.2.2⟩⟩

theorem onPages_sameTables (call : PageCall pools α) : Keeps SameTables (onPages call) := by
  intro m a m' ran
  obtain ⟨pages, -, rfl⟩ := onPages_returns.mp ran
  exact ⟨rfl, rfl, rfl⟩

theorem frameOf_sameTables (vaddr : Nat) :
    Keeps SameTables (frameOf vaddr : MachineCall pools _) := by
  refine .bind .get fun m => .bind (onPages_sameTables _) fun pte => ?_
  split
  · exact .pure _
  · exact .throw _

theorem copyPage_sameTables (dst src : Nat) :
    Keeps SameTables (copyPage dst src : MachineCall pools _) :=
  .bind (frameOf_sameTables _) fun _ => .bind (frameOf_sameTables _) fun _ =>
    .modify fun _ => ⟨rfl, rfl, rfl⟩

theorem copyUserPage_sameTables (bufPage progVaddr : Nat) :
    Keeps SameTables (copyUserPage parent child bufPage progVaddr : MachineCall pools _) :=
  .bind (copyPage_sameTables _ _) fun _ => .bind (.modify fun _ => ⟨rfl, rfl, rfl⟩) fun _ =>
    .bind (onPages_sameTables _) fun _ => .bind (copyPage_sameTables _ _) fun _ =>
      .modify fun _ => ⟨rfl, rfl, rfl⟩

theorem copyByte_sameTables (bufPage idxByte : Nat) (byte : Byte) (left : Nat) :
    Keeps SameTables (copyByte parent child bufPage idxByte byte left : MachineCall pools _) := by
  induction left with
  | zero => exact .pure _
  | succ left ih =>
      unfold copyByte
      dsimp only
      split
      · exact .bind (copyUserPage_sameTables _ _) fun _ => ih
      · exact ih

theorem copyBytes_sameTables (bufPage : Nat) (parentBits : Memory) (bytes : List Nat) :
    Keeps SameTables (copyBytes parent child bufPage parentBits bytes : MachineCall pools _) := by
  induction bytes with
  | nil => exact .pure _
  | cons idxByte rest ih =>
      unfold copyBytes
      split
      · exact .bind (copyByte_sameTables _ _ _ _) fun _ => ih
      · exact ih

end Frame

/-! ## The copy -/

section Copy

variable {parentSpace : Space} {pcb : Nat}

/-- **The copy before the open counts.** Up to the open counts, whose addresses are those behind the
descriptors of the parent, the child is a copy. -/
theorem copyProcess_returns (differ : parent ≠ child) (active : m₀.active = parent)
    (known : m₀.pages.space parent = some parentSpace) (holds : HoldsFrames parentSpace m₀.pages)
    (ran : (copyProcess parent child pcb).run m₀ = .ok (true, m')) :
    ∃ m₁ m₂ : Machine pools, Copied parent child m₀ { m' with frame := m₁.frame } parentSpace ∧
      Kept m₀ m₁ ∧ m₁.pages.space m₁.active = some parentSpace ∧
      m₁.fdTable child = m₁.fdTable parent ∧
      (∀ localFd, userCount m₁ child localFd = userCount m₀ parent localFd) ∧
      (updateInodeOpenCnts parent child (List.range' 3 (maxFilesOpenPerProc - 3))).run m₁ =
        .ok ((), m₂) ∧ m'.frame = m₂.frame := by
  obtain ⟨_, _, read, ran⟩ := call_bind_returns.mp ran
  obtain ⟨pages, looked, rfl⟩ := onPages_returns.mp read
  obtain ⟨same, rfl⟩ := spaceOf_returns looked
  cases known.symm.trans same
  obtain ⟨found, s₁, got, ran⟩ := call_bind_returns.mp ran
  obtain ⟨space₁, active₁, pde₁, fds₁, files₁, buffer⟩ :=
    getKernelPages_returns accounts_nothing (fun _ _ _ _ => rfl) got
  cases found with
  | none => exact absurd (call_pure_returns.mp ran).1 (by decide)
  | some bufPage =>
  obtain ⟨bufHigh, -, account₁, kept₁⟩ := buffer bufPage rfl
  obtain ⟨found, s₂, got, ran⟩ := call_bind_returns.mp ran
  obtain ⟨space₂, active₂, pde₂, fds₂, files₂, bitmap⟩ := getKernelPages_returns account₁ kept₁ got
  cases found with
  | none => exact absurd (call_pure_returns.mp ran).1 (by decide)
  | some bits =>
  obtain ⟨-, bitsApart, account₂, kept₂⟩ := bitmap bits rfl
  obtain ⟨found, s₄, created, ran⟩ := call_bind_returns.mp ran
  obtain ⟨found', s₃, got, created⟩ := call_bind_returns.mp created
  obtain ⟨space₃, active₃, pde₃, fds₃, files₃, directory⟩ :=
    getKernelPages_returns account₂ kept₂ got
  cases found' with
  | none =>
      obtain ⟨rfl, rfl⟩ := call_pure_returns.mp created
      exact absurd (call_pure_returns.mp ran).1 (by decide)
  | some pgdir =>
  obtain ⟨-, pgdirApart, account₃, kept₃⟩ := directory pgdir rfl
  obtain ⟨_, _, entered, created⟩ := call_bind_returns.mp created
  cases call_modify_returns.mp entered
  obtain ⟨rfl, rfl⟩ := call_pure_returns.mp created
  obtain ⟨_, s₈, into, ran⟩ := call_bind_returns.mp ran
  obtain ⟨-, rfl⟩ := call_pure_returns.mp ran
  obtain ⟨_, s₅, made, into⟩ := call_bind_returns.mp into
  cases call_modify_returns.mp made
  obtain ⟨_, s₆, copied, into⟩ := call_bind_returns.mp into
  obtain ⟨_, s₇, counted, into⟩ := call_bind_returns.mp into
  -- the loop starts with the account of a fork
  have account₄ := account₃.newSpace child ⟨pcb, pgdir, bits, parentSpace.vaddrBitmap,
    fun _ => Pte.zero, fun _ => Pte.zero, some parent, false⟩ rfl
  have begins : Copying parent child bufPage parentSpace (pcb, pgdir, bits, some parent, false)
      (pagesFrom pgdir 1 ∪ (pagesFrom bits bitmapPgCnt ∪ (pagesFrom bufPage 1 ∪ ∅))) m₀
      { s₃ with
        pages := s₃.pages.setSpace child ⟨pcb, pgdir, bits, parentSpace.vaddrBitmap,
          fun _ => Pte.zero, fun _ => Pte.zero, some parent, false⟩
        kernelPde := Function.update s₃.kernelPde child (newKernelPde s₃ pgdir)
        fdTable := Function.update s₃.fdTable child (s₃.fdTable parent) } (0 * 8) := by
    constructor
    · exact account₄
    · change (Function.update s₃.pages.space child _) parent = some parentSpace
      rw [Function.update_of_ne differ, space₃, space₂, space₁]
      exact known
    · exact (active₃.trans (active₂.trans active₁)).trans active
    · exact kept₃
    · intro space knownChild
      change (Function.update s₃.pages.space child _) child = some space at knownChild
      rw [Function.update_self] at knownChild
      cases knownChild
      refine ⟨rfl, fun bitIdx less => ?_⟩
      omega
  have buffered : bufPage / pgSize ∈
      pagesFrom pgdir 1 ∪ (pagesFrom bits bitmapPgCnt ∪ (pagesFrom bufPage 1 ∪ ∅)) := by
    simp [pagesFrom_one]
  rw [copyBodyStack3, List.range_eq_range'] at copied
  have same := copyBytes_sameTables _ _ _ _ _ _ copied
  have all : 0 + userBtmpBytesLen ≤ userBtmpBytesLen := by rw [Nat.zero_add]
  have copying := copyBytes_copying differ bufHigh buffered holds all begins copied
  rw [Nat.zero_add] at copying
  have fds : s₆.fdTable child = m₀.fdTable parent ∧ s₆.fdTable parent = m₀.fdTable parent := by
    rw [← same.2.1]
    dsimp only
    rw [Function.update_self, Function.update_of_ne differ, fds₃, fds₂, fds₁]
    exact ⟨rfl, rfl⟩
  have files : s₆.fileTable = m₀.fileTable := by
    rw [← same.2.2]
    exact files₃.trans (files₂.trans files₁)
  have parentKnown : s₆.pages.space s₆.active = some parentSpace := by
    rw [copying.active]
    exact copying.known
  obtain ⟨unchanged, -⟩ :=
    updateInodeOpenCnts_bytes parentKnown (fds.1.trans fds.2.symm) counted
  -- the buffer is given back
  obtain ⟨pages₈, freed, rfl⟩ := onPages_returns.mp into
  obtain ⟨space, childKnown, identity, account₆⟩ := copying.accounts
  rw [unchanged.pages] at freed
  obtain ⟨account₈, spaces⟩ := mfreePage_kernel bufHigh (by simp [pagesFrom_one]) account₆ freed
  have bitsOf : space.bits = bits := congrArg (fun identity => identity.2.2.1) identity
  obtain ⟨bitmapSame, pagesCopied⟩ := copying.copied space childKnown
  have maps : ∀ page, Marked parentSpace page → space.tables.Maps page ∧
      s₆.frame (space.pte page).addr = m₀.frame (parentSpace.pte page).addr := by
    rintro _ ⟨bitIdx, small, marked, rfl⟩
    have passed : bitIdx < (0 + userBtmpBytesLen) * 8 := by
      rw [Nat.zero_add, Nat.mul_comm]
      exact small
    exact pagesCopied bitIdx passed marked
  refine ⟨s₆, s₇, ⟨⟨space, spaces ▸ childKnown, ?_⟩, ?_, ?_, spaces ▸ copying.known, ?_⟩,
    copying.kept, parentKnown, fds.1.trans fds.2.symm, fun localFd => ?_, counted, rfl⟩
  · constructor
    · exact fun page marked => (maps page marked).1
    · exact fun page marked =>
        free_of_owned account₆ (.user page) ⟨_, rfl, (maps page marked).1, rfl⟩
    · intro page marked i _
      exact congrFun (maps page marked).2 i
    · exact fun page page' marked marked' equal =>
        (userFrames_apart account₆ (maps page marked).1 (maps page' marked').1 buffered).1 equal
    · exact bitmapSame
    · intro page member
      rw [bitsOf] at member
      have inMine : page ∈ (pagesFrom pgdir 1 ∪ (pagesFrom bits bitmapPgCnt ∪
          (pagesFrom bufPage 1 ∪ ∅))) \ pagesFrom bufPage 1 := by
        rw [Finset.mem_sdiff]
        refine ⟨Finset.mem_union_right _ (Finset.mem_union_left _ member), fun inBuffer => ?_⟩
        exact Finset.disjoint_left.mp bitsApart member (Finset.mem_union_left _ inBuffer)
      exact ⟨(account₈.mapped page inMine).1,
        free_of_owned account₈ (.page page) ⟨inMine, rfl⟩⟩
  · intro pdeIdx _ high
    rw [unchanged.kernelPde, ← same.1]
    dsimp only
    rw [Function.update_self, newKernelPde, Function.update_of_ne (by omega), pde₃, pde₂, pde₁,
      active₃, active₂, active₁, active]
  · rw [unchanged.kernelPde, ← same.1]
    dsimp only
    rw [Function.update_of_ne differ, pde₃, pde₂, pde₁]
  · intro page mapped i _
    obtain ⟨pf, b, small, isFrame, taken⟩ := holds page mapped
    rw [isFrame]
    exact congrFun (copying.kept pf b small taken) i
  · unfold userCount
    rw [fds.1, files]

/-- Some count that lies in the memory of the process has changed. -/
theorem counted_changes {addrs : List Nat} {frame frame' : Nat → Memory} (some_ : addrs ≠ [])
    (few : addrs.length < 256) (bytes : ∀ page i, (∀ addr ∈ addrs,
      (placeOf parentSpace addr).1 = page → i ≤ (placeOf parentSpace addr).2) →
        frame' page i = frame page i +
          BitVec.ofNat 8 (addrs.countP fun addr => placeOf parentSpace addr = (page, i))) :
    ∃ addr ∈ addrs, frame' (placeOf parentSpace addr).1 (placeOf parentSpace addr).2 ≠
      frame (placeOf parentSpace addr).1 (placeOf parentSpace addr).2 := by
  obtain ⟨first, member⟩ := List.exists_mem_of_ne_nil addrs some_
  -- the lowest count in the frame of some count
  obtain ⟨lowest, inList, least⟩ := (addrs.toFinset.filter fun addr =>
      (placeOf parentSpace addr).1 = (placeOf parentSpace first).1).exists_min_image
    (fun addr => (placeOf parentSpace addr).2) ⟨first, by simpa using member⟩
  rw [Finset.mem_filter, List.mem_toFinset] at inList
  refine ⟨lowest, inList.1, ?_⟩
  rw [bytes _ _ fun addr member' same => least addr (by
    rw [Finset.mem_filter, List.mem_toFinset]
    exact ⟨member', same.trans inList.2⟩)]
  have positive : 0 < addrs.countP fun addr => placeOf parentSpace addr =
      ((placeOf parentSpace lowest).1, (placeOf parentSpace lowest).2) :=
    List.countP_pos_iff.mpr ⟨lowest, inList.1, decide_eq_true rfl⟩
  have small : addrs.countP (fun addr => placeOf parentSpace addr =
      ((placeOf parentSpace lowest).1, (placeOf parentSpace lowest).2)) < 256 :=
    Nat.lt_of_le_of_lt List.countP_le_length few
  intro same
  have numbers := congrArg BitVec.toNat same
  rw [BitVec.toNat_add, BitVec.toNat_ofNat] at numbers
  have := (frame (placeOf parentSpace lowest).1 (placeOf parentSpace lowest).2).isLt
  omega

/-- **What a fork copies.** A call of `copy_process` that succeeds makes the child a copy of the
parent in frames that were free, and leaves the parent as it was, if and only if no descriptor of
the parent refers to an inode object that lies in the parent's own memory. -/
theorem copy_process_copies (differ : parent ≠ child) (active : m₀.active = parent)
    (known : m₀.pages.space parent = some parentSpace) (holds : HoldsFrames parentSpace m₀.pages)
    (ran : (copyProcess parent child pcb).run m₀ = .ok (true, m')) :
    Copied parent child m₀ m' parentSpace ↔ CountsInKernel m₀ parent := by
  obtain ⟨m₁, m₂, copied, kept, parentKnown, tables, counts, counted, frames⟩ :=
    copyProcess_returns differ active known holds ran
  obtain ⟨-, maps, bytes⟩ := updateInodeOpenCnts_bytes parentKnown tables counted
  rw [← frames] at bytes
  generalize list : List.range' 3 (maxFilesOpenPerProc - 3) = localFds at *
  have short : (userCounts m₁ child localFds).length < 256 := by
    have le := List.length_filterMap_le (userCount m₁ child) localFds
    have length : localFds.length = 5 := by
      rw [← list]
      rfl
    unfold userCounts
    omega
  constructor
  · intro all
    by_contra some_
    have nonempty : userCounts m₁ child localFds ≠ [] := by
      intro empty
      apply some_
      unfold CountsInKernel
      rw [list]
      intro localFd member
      rw [← counts]
      exact List.filterMap_eq_nil_iff.mp empty localFd member
    obtain ⟨addr, member, changed⟩ := counted_changes nonempty short bytes
    have inPage : addr % pgSize < pgSize := Nat.mod_lt addr (show 0 < pgSize by decide)
    exact changed ((all.memory _ (maps addr member) _ inPage).trans
      (copied.memory _ (maps addr member) _ inPage).symm)
  · intro inKernel
    have empty : userCounts m₁ child localFds = [] := by
      refine List.filterMap_eq_nil_iff.mpr fun localFd member => ?_
      rw [counts]
      unfold CountsInKernel at inKernel
      rw [list] at inKernel
      exact inKernel localFd member
    have same : m'.frame = m₁.frame := by
      funext frame i
      rw [bytes frame i fun addr member => absurd member (by simp [empty]), empty]
      simp
    rw [← same] at copied
    exact copied

end Copy

/-! ## A process with one page -/

/-- The frames of its control block, its bitmap, its page directory and its page table are the first
ones of the kernel's pool. -/
def oneSpace : Space where
  pcb := kHeapStart
  bits := kHeapStart + pgSize
  pgdir := kHeapStart + 24 * pgSize
  vaddrBitmap := (⟨Memory.zeros⟩ : Bitmap userBtmpBytesLen).set 753591 true
  pde := fun pdeIdx => if pdeIdx = 767 then ⟨frameAddr somePools .kernel 25, true⟩ else Pte.zero
  pte := fun page => if page = 0xbffff then ⟨frameAddr somePools .user 0, true⟩ else Pte.zero
  parentPid := none
  hanging := false

/-- The process runs, and has a file open whose inode object is at the given address. -/
def oneMachine (inode : InodeAddr) : Machine somePools where
  pages :=
    { poolBitmap := fun
        | .kernel => setBits ⟨Memory.zeros⟩ 0 true 26
        | .user => setBits ⟨Memory.zeros⟩ 0 true 1
      kernelVaddr := setBits ⟨Memory.zeros⟩ 0 true 25
      kernelPte := fun page =>
        if 0xc0100 ≤ page ∧ page < 0xc0100 + 25 then
          ⟨frameAddr somePools .kernel (page - 0xc0100), true⟩
        else Pte.zero
      space := fun pid => if pid = 1 then some oneSpace else none }
  frame := fun _ => Memory.zeros
  active := 1
  kernelPde := fun _ _ => Pte.zero
  fdTable := fun pid localFd => if pid = 1 ∧ localFd = 3 then some 3 else none
  fileTable := fun _ => { isPipe := false, fdPos := 0, fdInode := inode }
  openCnts := fun _ => 1

theorem oneSpace_maps {page : Nat} : oneSpace.tables.Maps page ↔ page = 0xbffff := by
  unfold Tables.Maps Space.tables oneSpace
  constructor
  · rintro ⟨-, -, present⟩
    dsimp only at present
    by_contra other
    rw [if_neg other] at present
    cases present
  · rintro rfl
    decide

theorem oneSpace_holds (inode : InodeAddr) : HoldsFrames oneSpace (oneMachine inode).pages := by
  intro page maps
  rw [oneSpace_maps.mp maps]
  have taken : (setBits ⟨Memory.zeros⟩ 0 true 1 : Bitmap (somePools.btmpBytesLen .user)).test 0 =
      true := by decide
  exact ⟨.user, 0, by decide, rfl, taken⟩

/-- Bytes of the bitmap that are zero are passed. -/
theorem copyBytes_zeros {bufPage : Nat} {parentBits : Memory} {bytes rest : List Nat}
    (zeros : ∀ idxByte ∈ bytes, parentBits idxByte = 0) :
    (copyBytes parent child bufPage parentBits (bytes ++ rest) : MachineCall pools Unit) =
      copyBytes parent child bufPage parentBits rest := by
  induction bytes with
  | nil => rfl
  | cons idxByte bytes ih =>
      rw [List.forall_mem_cons] at zeros
      rw [List.cons_append, copyBytes, if_neg (not_not.mpr zeros.1), ih zeros.2]

/-- The only page of the process is that of the last bit. -/
theorem oneSpace_body (bufPage : Nat) :
    (copyBodyStack3 1 2 bufPage oneSpace : MachineCall somePools Unit) =
      copyBytes 1 2 bufPage oneSpace.vaddrBitmap.bits [94198] := by
  have all : List.range userBtmpBytesLen = List.range 94198 ++ [94198] := List.range_succ
  rw [copyBodyStack3, all]
  refine copyBytes_zeros fun idxByte member => ?_
  have less := List.mem_range.mp member
  change Function.update Memory.zeros 94198 _ idxByte = 0
  rw [Function.update_of_ne (by omega)]
  rfl

theorem oneMachine_space (inode : InodeAddr) : (onPages (spaceOf 1)).run (oneMachine inode) =
    .ok (oneSpace, oneMachine inode) := rfl

/-- An inode in the heap of the kernel. -/
def kernelInode : InodeAddr := ⟨0xc0180000, by decide⟩

/-- A process whose file has its inode in the heap of the kernel is copied. -/
theorem one_process_copied : ∃ m', (copyProcess 1 2 0).run (oneMachine kernelInode) =
    .ok (true, m') ∧ Copied 1 2 (oneMachine kernelInode) m' oneSpace := by
  have forks : ((copyProcess 1 2 0).run (oneMachine kernelInode)).toOption.map Prod.fst =
      some true := by
    rw [copyProcess, call_bind_of (oneMachine_space _)]
    simp only [copyInto, oneSpace_body]
    decide +kernel
  obtain ⟨⟨_, m'⟩, made, rfl⟩ := Option.map_eq_some_iff.mp forks
  have ran := returned_of_toOption made
  have inKernel : ∀ localFd ∈ List.range' 3 (maxFilesOpenPerProc - 3),
      userCount (oneMachine kernelInode) 1 localFd = none := by decide
  exact ⟨m', ran, (copy_process_copies (by decide) rfl rfl (oneSpace_holds _) ran).mpr inKernel⟩

/-! ## A process that made a file -/

/-- An inode in the heap of a process: the first block of the arena on its first page. -/
def userInode : InodeAddr := ⟨0x804800c, by decide⟩

/-- A process with the page of its heap and that of its stack. -/
def heapSpace : Space where
  pcb := kHeapStart
  bits := kHeapStart + pgSize
  pgdir := kHeapStart + 24 * pgSize
  vaddrBitmap := ((⟨Memory.zeros⟩ : Bitmap userBtmpBytesLen).set 0 true).set 753591 true
  pde := fun pdeIdx =>
    if pdeIdx = 32 then ⟨frameAddr somePools .kernel 25, true⟩
    else if pdeIdx = 767 then ⟨frameAddr somePools .kernel 26, true⟩
    else Pte.zero
  pte := fun page =>
    if page = 0x8048 then ⟨frameAddr somePools .user 0, true⟩
    else if page = 0xbffff then ⟨frameAddr somePools .user 1, true⟩
    else Pte.zero
  parentPid := none
  hanging := false

/-- The process runs, and has a file open whose inode object is in its heap, where its open count
is 1. -/
def heapMachine : Machine somePools where
  pages :=
    { poolBitmap := fun
        | .kernel => setBits ⟨Memory.zeros⟩ 0 true 27
        | .user => setBits ⟨Memory.zeros⟩ 0 true 2
      kernelVaddr := setBits ⟨Memory.zeros⟩ 0 true 25
      kernelPte := fun page =>
        if 0xc0100 ≤ page ∧ page < 0xc0100 + 25 then
          ⟨frameAddr somePools .kernel (page - 0xc0100), true⟩
        else Pte.zero
      space := fun pid => if pid = 1 then some heapSpace else none }
  frame := fun frame i => if frame = frameAddr somePools .user 0 ∧ i = 20 then 1 else 0
  active := 1
  kernelPde := fun _ _ => Pte.zero
  fdTable := fun pid localFd => if pid = 1 ∧ localFd = 3 then some 3 else none
  fileTable := fun _ => { isPipe := false, fdPos := 0, fdInode := userInode }
  openCnts := fun _ => 1

/-- The only pages of the process are those of the first and the last bit. -/
theorem heapSpace_body (bufPage : Nat) :
    (copyBodyStack3 1 2 bufPage heapSpace : MachineCall somePools Unit) =
      copyBytes 1 2 bufPage heapSpace.vaddrBitmap.bits [0, 94198] := by
  have all : List.range userBtmpBytesLen = 0 :: ((List.range 94197).map Nat.succ ++ [94198]) := by
    rw [show userBtmpBytesLen = 94197 + 1 + 1 from rfl, List.range_succ, List.range_succ_eq_map,
      List.cons_append]
  have zeros : ∀ idxByte ∈ (List.range 94197).map Nat.succ,
      heapSpace.vaddrBitmap.bits idxByte = 0 := by
    refine List.forall_mem_map.mpr fun k member => ?_
    have less := List.mem_range.mp member
    change Function.update (Function.update Memory.zeros 0 1) 94198 128 (k + 1) = 0
    rw [Function.update_of_ne (by omega), Function.update_of_ne (by omega)]
    rfl
  have first : heapSpace.vaddrBitmap.bits 0 ≠ 0 := by decide
  rw [copyBodyStack3, all, copyBytes, if_pos first, copyBytes_zeros zeros]
  conv_rhs => rw [copyBytes, if_pos first]

theorem heapSpace_marked {page : Nat} (marked : Marked heapSpace page) :
    heapSpace.tables.Maps page := by
  obtain ⟨bitIdx, -, set, rfl⟩ := marked
  unfold heapSpace at set
  rw [Bitmap.test_set] at set
  by_cases last : bitIdx = 753591
  · rw [last]
    exact ⟨by decide, by decide, by decide⟩
  · rw [if_neg last, Bitmap.test_set] at set
    by_cases first : bitIdx = 0
    · rw [first]
      exact ⟨by decide, by decide, by decide⟩
    · rw [if_neg first] at set
      simp [Bitmap.test, Memory.zeros] at set

/-- The page of the process on which the inode lies is changed: its open count becomes 2. -/
theorem own_inode_counted : ∃ m', (copyProcess 1 2 0).run heapMachine = .ok (true, m') ∧
    (∀ page, Marked heapSpace page → heapSpace.tables.Maps page) ∧
      ¬ Copied 1 2 heapMachine m' heapSpace := by
  have space : (onPages (spaceOf 1)).run heapMachine = .ok (heapSpace, heapMachine) := rfl
  have changed : ((copyProcess 1 2 0).run heapMachine).toOption.map (fun r =>
      (r.1, r.2.frame (frameAddr somePools .user 0) 20)) = some (true, 2) := by
    rw [copyProcess, call_bind_of space]
    simp only [copyInto, heapSpace_body]
    decide +kernel
  obtain ⟨⟨done, m'⟩, ran, bytes⟩ := Option.map_eq_some_iff.mp changed
  obtain ⟨rfl, byte⟩ := Prod.mk.inj bytes
  refine ⟨m', returned_of_toOption ran, fun _ => heapSpace_marked, fun copied => ?_⟩
  have same := copied.memory 0x8048 ⟨by decide, by decide, by decide⟩ 20 (by decide)
  change m'.frame (frameAddr somePools .user 0) 20 = 1 at same
  rw [byte] at same
  cases same

end UKernel.Fork
