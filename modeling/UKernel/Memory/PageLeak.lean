import UKernel.Memory.Pages

/-! # What a child costs

`release_prog_resource` gives back one page less than the bitmap of a process takes. The frames
that a child holds are accounted for from the fork on (`UKernel.Paging.Accounts`): the
frames in use are those of the state before the fork and, each once, those that the child's
pages and page tables hold. When the child is reaped, all of them are free again but the last
one of its bitmap (`UKernel.Paging.child_costs_one_frame`).
-/

namespace UKernel.Paging

open UKernel.Library UKernel.Fs UKernel.Memory

variable {pools : Pools} {s₀ s s' s'' : Pages pools} {pf : PoolFlags} {b : Nat}

/-! ## Frames -/

/-- The address of a frame. -/
def frameAddr (pools : Pools) (pf : PoolFlags) (bitIdx : Nat) : Nat :=
  bitIdx * pgSize + pools.phyAddrStart pf

/-- The number of frames of a pool. -/
def Pools.frames (pools : Pools) (pf : PoolFlags) : Nat := 8 * pools.btmpBytesLen pf

namespace Pages

/-- A frame is in use. -/
def taken (s : Pages pools) (pf : PoolFlags) (bitIdx : Nat) : Bool :=
  (s.poolBitmap pf).test bitIdx

/-- The number of free frames of a pool. -/
def freeFrames (s : Pages pools) (pf : PoolFlags) : Nat :=
  ((Finset.range (pools.frames pf)).filter fun bitIdx => s.taken pf bitIdx = false).card

/-- The number of free virtual pages of the kernel. -/
def freeKernelPages (s : Pages pools) : Nat :=
  ((Finset.range (pools.frames .kernel)).filter fun bitIdx =>
    s.kernelVaddr.test bitIdx = false).card

theorem taken_setFrame {pf' : PoolFlags} {b' : Nat} {value : Bool} :
    (s.setFrame pf b value).taken pf' b' =
      if pf' = pf ∧ b' = b then value else s.taken pf' b' := by
  unfold taken setFrame
  by_cases same : pf' = pf
  · cases same
    simp [Bitmap.test_set]
  · simp [same]

end Pages

theorem frameAddr_inj {pf' : PoolFlags} {b' : Nat} (small : b < pools.frames pf)
    (small' : b' < pools.frames pf') (same : frameAddr pools pf b = frameAddr pools pf' b') :
    pf = pf' ∧ b = b' := by
  have apart := pools.kernel_below_user
  unfold frameAddr pgSize at *
  unfold Pools.frames at small small'
  cases pf <;> cases pf' <;> simp only [true_and, reduceCtorEq, false_and] <;> omega

/-- `palloc` takes a free frame. -/
theorem palloc_returns {found : Option Nat} (ran : (palloc pf).run s = .ok (found, s')) :
    ∃ b, found = some (frameAddr pools pf b) ∧ b < pools.frames pf ∧ s.taken pf b = false ∧
      s.setFrame pf b true = s' := by
  obtain ⟨_, _, read, ran⟩ := call_bind_returns.mp ran
  obtain ⟨rfl, rfl⟩ := call_get_returns.mp read
  obtain ⟨scanned, _, lifted, ran⟩ := call_bind_returns.mp ran
  obtain ⟨scan, rfl⟩ := call_lift_returns.mp lifted
  obtain ⟨b, rfl, small, free, -⟩ := Bitmap.scan_returns scan
  obtain ⟨_, _, set, ran⟩ := call_bind_returns.mp ran
  cases call_modify_returns.mp set
  obtain ⟨rfl, rfl⟩ := call_pure_returns.mp ran
  exact ⟨b, rfl, small, free, rfl⟩

/-- The pool of a frame is found by its address. -/
theorem freeAPhyPage_returns (small : b < pools.frames pf)
    (ran : (freeAPhyPage (frameAddr pools pf b)).run s = .ok ((), s')) :
    s.setFrame pf b false = s' := by
  have apart := pools.kernel_below_user
  cases call_modify_returns.mp ran
  have index : (frameAddr pools pf b - pools.phyAddrStart pf) / pgSize = b := by
    unfold frameAddr
    rw [Nat.add_sub_cancel]
    exact Nat.mul_div_cancel b (show 0 < pgSize by decide)
  cases pf with
  | user =>
      rw [if_pos (show pools.phyAddrStart .user ≤ frameAddr pools .user b from
        Nat.le_add_left _ _), index]
  | kernel =>
      have below : ¬ pools.phyAddrStart .user ≤ frameAddr pools .kernel b := by
        unfold Pools.frames at small
        unfold frameAddr pgSize at *
        omega
      rw [if_neg below, index]

/-! ## Accounting -/

/-- What holds a frame. -/
inductive Owner where
  /-- A page of the kernel. -/
  | page (page : Nat)
  /-- A page table of the child. -/
  | table (pdeIdx : Nat)
  /-- A page of the child. -/
  | user (page : Nat)
  /-- Nothing yet: the frame was just allocated. -/
  | pending

/-- The page directory and the page tables of a process. -/
structure Tables where
  pde : Nat → Pte
  pte : Nat → Pte

/-- The tables of a process. -/
def Space.tables (space : Space) : Tables := ⟨space.pde, space.pte⟩

/-- A page that the tables map. -/
def Tables.Maps (tables : Tables) (page : Nat) : Prop :=
  page < 768 * 1024 ∧ (tables.pde (page / 1024)).present = true ∧
    (tables.pte page).present = true

/-- The frame that an owner holds, where the pages `mine` of the kernel and the given tables
are the child's. -/
def Owns (kernelPte : Nat → Pte) (tables : Option Tables) (mine : Finset Nat)
    (pending : Option Nat) : Owner → Nat → Prop
  | .page page, addr => page ∈ mine ∧ (kernelPte page).addr = addr
  | .table pdeIdx, addr => ∃ t, tables = some t ∧ pdeIdx < 768 ∧
      (t.pde pdeIdx).present = true ∧ (t.pde pdeIdx).addr = addr
  | .user page, addr => ∃ t, tables = some t ∧ t.Maps page ∧ (t.pte page).addr = addr
  | .pending, addr => pending = some addr

/-- The frames that are in use are those of an earlier state and, each for one owner, the
owned ones. -/
structure Balanced (s₀ s : Pages pools) (owns : Owner → Nat → Prop) : Prop where
  frame : ∀ owner addr, owns owner addr → ∃ pf b, b < pools.frames pf ∧
    addr = frameAddr pools pf b ∧ s₀.taken pf b = false
  exclusive : ∀ owner owner' addr, owns owner addr → owns owner' addr → owner = owner'
  exact : ∀ pf b, b < pools.frames pf → (s.taken pf b = true ↔
    s₀.taken pf b = true ∨ ∃ owner, owns owner (frameAddr pools pf b))

namespace Balanced

variable {owns owns' : Owner → Nat → Prop}

/-- A frame that was free gets an owner. -/
theorem alloc (balanced : Balanced s₀ s owns) (owner : Owner) (small : b < pools.frames pf)
    (free : s.taken pf b = false)
    (more : ∀ o addr, owns' o addr ↔ owns o addr ∨ o = owner ∧ addr = frameAddr pools pf b)
    (taken : ∀ pf' b', s'.taken pf' b' = (s.setFrame pf b true).taken pf' b') :
    Balanced s₀ s' owns' := by
  have unowned : ∀ o, ¬ owns o (frameAddr pools pf b) := fun o holds => by
    have used := (balanced.exact pf b small).mpr (.inr ⟨o, holds⟩)
    rw [free] at used
    cases used
  constructor
  · intro o addr holds
    rcases (more o addr).mp holds with before | ⟨-, rfl⟩
    · exact balanced.frame o addr before
    · refine ⟨pf, b, small, rfl, ?_⟩
      rw [Bool.eq_false_iff]
      intro used
      rw [(balanced.exact pf b small).mpr (.inl used)] at free
      cases free
  · intro o o' addr holds holds'
    rcases (more o addr).mp holds with before | ⟨rfl, rfl⟩
    · rcases (more o' addr).mp holds' with before' | ⟨rfl, rfl⟩
      · exact balanced.exclusive o o' addr before before'
      · exact (unowned o before).elim
    · rcases (more o' _).mp holds' with before' | ⟨rfl, -⟩
      · exact (unowned o' before').elim
      · rfl
  · intro pf' b' small'
    rw [taken, Pages.taken_setFrame]
    by_cases same : pf' = pf ∧ b' = b
    · obtain ⟨rfl, rfl⟩ := same
      simp only [true_and, if_true, true_iff]
      exact .inr ⟨owner, (more owner _).mpr (.inr ⟨rfl, rfl⟩)⟩
    · rw [if_neg same, balanced.exact pf' b' small']
      refine or_congr_right ⟨fun ⟨o, holds⟩ => ⟨o, (more o _).mpr (.inl holds)⟩, ?_⟩
      intro held
      obtain ⟨o, holds⟩ := held
      rcases (more o _).mp holds with before | ⟨-, equal⟩
      · exact ⟨o, before⟩
      · exact (same (frameAddr_inj small' small equal)).elim

/-- Frames are freed, and nobody owns them any more. -/
theorem free (balanced : Balanced s₀ s owns) (freed : Nat → Prop)
    (owned : ∀ addr, freed addr → ∃ owner, owns owner addr)
    (less : ∀ o addr, owns' o addr ↔ owns o addr ∧ ¬ freed addr)
    (taken : ∀ pf b, b < pools.frames pf → (s'.taken pf b = true ↔
      s.taken pf b = true ∧ ¬ freed (frameAddr pools pf b))) : Balanced s₀ s' owns' := by
  constructor
  · intro o addr holds
    exact balanced.frame o addr ((less o addr).mp holds).1
  · intro o o' addr holds holds'
    exact balanced.exclusive o o' addr ((less o addr).mp holds).1 ((less o' addr).mp holds').1
  · intro pf b small
    rw [taken pf b small, balanced.exact pf b small]
    constructor
    · intro used
      obtain ⟨before | ⟨o, holds⟩, kept⟩ := used
      · exact .inl before
      · exact .inr ⟨o, (less o _).mpr ⟨holds, kept⟩⟩
    · intro used
      rcases used with before | ⟨o, holds⟩
      · refine ⟨.inl before, fun gone => ?_⟩
        obtain ⟨o, holds⟩ := owned _ gone
        obtain ⟨pf', b', small', same, free⟩ := balanced.frame o _ holds
        obtain ⟨rfl, rfl⟩ := frameAddr_inj small small' same
        rw [before] at free
        cases free
      · exact ⟨.inr ⟨o, ((less o _).mp holds).1⟩, ((less o _).mp holds).2⟩

/-- One owner gives its frame back. -/
theorem release (balanced : Balanced s₀ s owns) (owner : Owner) (small : b < pools.frames pf)
    (held : ∀ addr, owns owner addr ↔ addr = frameAddr pools pf b)
    (less : ∀ o addr, owns' o addr ↔ owns o addr ∧ o ≠ owner)
    (taken : ∀ pf' b', s'.taken pf' b' = (s.setFrame pf b false).taken pf' b') :
    Balanced s₀ s' owns' := by
  refine balanced.free (· = frameAddr pools pf b) (fun addr gone => ⟨owner, (held addr).mpr gone⟩)
    (fun o addr => ?_) ?_
  · rw [less]
    refine and_congr_right fun holds => ⟨fun other same => ?_, fun other same => ?_⟩
    · exact other (balanced.exclusive o owner addr holds ((held addr).mpr same))
    · exact other ((held addr).mp (same ▸ holds))
  · intro pf' b' small'
    rw [taken, Pages.taken_setFrame]
    by_cases same : pf' = pf ∧ b' = b
    · obtain ⟨rfl, rfl⟩ := same
      simp
    · rw [if_neg same]
      refine (and_iff_left fun equal => same ?_).symm
      exact frameAddr_inj small' small equal

/-- The pending frame gets its owner. -/
theorem transfer (balanced : Balanced s₀ s owns) (owner : Owner)
    (moved : ∀ o addr, owns' o addr ↔
      o ≠ .pending ∧ owns o addr ∨ o = owner ∧ owns .pending addr)
    (taken : ∀ pf b, s'.taken pf b = s.taken pf b) : Balanced s₀ s' owns' := by
  have before : ∀ o addr, owns' o addr → ∃ o, owns o addr := fun o addr holds => by
    rcases (moved o addr).mp holds with kept | given
    · exact ⟨o, kept.2⟩
    · exact ⟨.pending, given.2⟩
  constructor
  · intro o addr holds
    obtain ⟨o', holds'⟩ := before o addr holds
    exact balanced.frame o' addr holds'
  · intro o o' addr holds holds'
    rcases (moved o addr).mp holds with ⟨other, kept⟩ | ⟨rfl, given⟩
    · rcases (moved o' addr).mp holds' with ⟨-, kept'⟩ | ⟨-, given'⟩
      · exact balanced.exclusive o o' addr kept kept'
      · exact (other (balanced.exclusive o _ addr kept given')).elim
    · rcases (moved o' addr).mp holds' with ⟨other, kept'⟩ | ⟨rfl, -⟩
      · exact (other (balanced.exclusive o' _ addr kept' given)).elim
      · rfl
  · intro pf b small
    rw [taken, balanced.exact pf b small]
    refine or_congr_right ⟨?_, fun ⟨o, holds⟩ => before o _ holds⟩
    intro held
    obtain ⟨o, holds⟩ := held
    by_cases same : o = .pending
    · exact ⟨owner, (moved owner _).mpr (.inr ⟨rfl, same ▸ holds⟩)⟩
    · exact ⟨o, (moved o _).mpr (.inl ⟨same, holds⟩)⟩

/-- Only who owns what matters, and which frames are in use. -/
theorem congr (balanced : Balanced s₀ s owns) (same : ∀ o addr, owns' o addr ↔ owns o addr)
    (taken : ∀ pf b, s'.taken pf b = s.taken pf b) : Balanced s₀ s' owns' := by
  have equal : owns' = owns := by
    funext o addr
    exact propext (same o addr)
  rw [equal]
  exact ⟨balanced.frame, balanced.exclusive, fun pf b small => by
    rw [taken]
    exact balanced.exact pf b small⟩

end Balanced

/-- The account of a child: the frames in use are those of an earlier state and those of the
child. The pages `mine` of the kernel are mapped to frames of the kernel's pool. -/
structure Accounts (s₀ s : Pages pools) (tables : Option Tables) (mine : Finset Nat)
    (pending : Option Nat) : Prop where
  balanced : Balanced s₀ s (Owns s.kernelPte tables mine pending)
  mapped : ∀ page ∈ mine, (s.kernelPte page).present = true ∧
    ∃ b < pools.frames .kernel, (s.kernelPte page).addr = frameAddr pools .kernel b

variable {tables : Option Tables} {mine : Finset Nat} {pending : Option Nat}

/-- Before the fork the child has nothing. -/
theorem accounts_nothing : Accounts s s none ∅ none where
  balanced := by
    constructor
    · intro owner addr holds
      cases owner <;> simp [Owns] at holds
    · intro owner _ addr holds
      cases owner <;> simp [Owns] at holds
    · intro pf b _
      refine ⟨.inl, fun used => ?_⟩
      rcases used with before | ⟨owner, holds⟩
      · exact before
      · cases owner <;> simp [Owns] at holds
  mapped := fun _ member => (Finset.notMem_empty _ member).elim

/-- The frame that `palloc` takes is pending. -/
theorem palloc_accounts (accounts : Accounts s₀ s tables mine none) {found : Option Nat}
    (ran : (palloc pf).run s = .ok (found, s')) :
    ∃ b < pools.frames pf, found = some (frameAddr pools pf b) ∧
      Accounts s₀ s' tables mine (some (frameAddr pools pf b)) ∧
      s'.kernelPte = s.kernelPte ∧ s'.space = s.space := by
  obtain ⟨b, rfl, small, free, rfl⟩ := palloc_returns ran
  refine ⟨b, small, rfl, ⟨?_, accounts.mapped⟩, rfl, rfl⟩
  refine accounts.balanced.alloc .pending small free ?_ fun _ _ => rfl
  intro owner addr
  cases owner with
  | pending =>
      simp only [Owns, reduceCtorEq, false_or, true_and, Option.some.injEq]
      exact eq_comm
  | page page => simp [Owns, Pages.setFrame]
  | table pdeIdx => simp [Owns]
  | user page => simp [Owns]

/-! ## Mapping pages -/

section

variable {cur vaddr : Nat} {pte : Pte} {space : Space}

theorem spaceOf_returns {pid : Nat} (ran : (spaceOf pid).run s = .ok (space, s')) :
    s.space pid = some space ∧ s = s' := by
  obtain ⟨_, _, read, ran⟩ := call_bind_returns.mp ran
  obtain ⟨rfl, rfl⟩ := call_get_returns.mp read
  cases found : s.space pid with
  | none =>
      rw [found] at ran
      exact (call_throw_returns ran).elim
  | some space' =>
      rw [found] at ran
      obtain ⟨rfl, rfl⟩ := call_pure_returns.mp ran
      exact ⟨rfl, rfl⟩

/-- An entry of the kernel's half. -/
theorem readPte_kernel (high : kHeapStart ≤ vaddr)
    (ran : (readPte cur vaddr).run s = .ok (pte, s')) :
    s.kernelPte (vaddr / pgSize) = pte ∧ s = s' := by
  rw [readPte, if_pos high] at ran
  obtain ⟨_, _, read, ran⟩ := call_bind_returns.mp ran
  obtain ⟨rfl, rfl⟩ := call_get_returns.mp read
  exact call_pure_returns.mp ran

theorem not_high (low : vaddr < kernelBase) : ¬ kHeapStart ≤ vaddr := by
  unfold kernelBase at low
  unfold kHeapStart
  omega

/-- An entry of the user half. -/
theorem readPte_user (low : vaddr < kernelBase) (known : s.space cur = some space)
    (ran : (readPte cur vaddr).run s = .ok (pte, s')) :
    (space.pde (vaddr / 0x400000)).present = true ∧ space.pte (vaddr / pgSize) = pte ∧
      s = s' := by
  rw [readPte, if_neg (not_high low), if_neg (Nat.not_le.mpr low)] at ran
  obtain ⟨space', _, read, ran⟩ := call_bind_returns.mp ran
  obtain ⟨found, rfl⟩ := spaceOf_returns read
  rw [known] at found
  cases found
  by_cases present : (space.pde (vaddr / 0x400000)).present = true
  · rw [if_pos present] at ran
    obtain ⟨rfl, rfl⟩ := call_pure_returns.mp ran
    exact ⟨present, rfl, rfl⟩
  · rw [if_neg present] at ran
    exact (call_throw_returns ran).elim

/-- Reading an entry changes nothing. -/
theorem readPte_same {pte : Pte} (ran : (readPte cur vaddr).run s = .ok (pte, s')) : s = s' := by
  by_cases high : kHeapStart ≤ vaddr
  · exact (readPte_kernel high ran).2
  · by_cases low : vaddr < kernelBase
    · rw [readPte, if_neg high, if_neg (Nat.not_le.mpr low)] at ran
      obtain ⟨space, _, read, ran⟩ := call_bind_returns.mp ran
      obtain ⟨-, rfl⟩ := spaceOf_returns read
      split at ran
      case isTrue => exact (call_pure_returns.mp ran).2
      case isFalse => exact (call_throw_returns ran).elim
    · rw [readPte, if_neg high, if_pos (Nat.not_lt.mp low)] at ran
      exact (call_pure_returns.mp ran).2

/-- The rest of `page_table_add`, in the kernel's half: the pending frame is that of a new page
of the kernel. -/
theorem addKernelPage_accounts {addr : Nat} (accounts : Accounts s₀ s tables mine (some addr))
    (inKernel : ∃ b < pools.frames .kernel, addr = frameAddr pools .kernel b)
    (high : kHeapStart ≤ vaddr) (ran : (pageTableAdd cur vaddr addr).run s = .ok ((), s')) :
    vaddr / pgSize ∉ mine ∧ Accounts s₀ s' tables (insert (vaddr / pgSize) mine) none ∧
      s'.space = s.space := by
  have above : ¬ vaddr < kernelBase := by
    unfold kernelBase
    unfold kHeapStart at high
    omega
  rw [pageTableAdd, if_neg above] at ran
  obtain ⟨entry, _, read, ran⟩ := call_bind_returns.mp ran
  obtain ⟨same, rfl⟩ := readPte_kernel high read
  obtain ⟨_, _, required, ran⟩ := call_bind_returns.mp ran
  obtain ⟨absent, rfl⟩ := call_lift_returns.mp required
  rw [require_eq_ok, ← same] at absent
  rw [writePte, if_pos high] at ran
  cases call_modify_returns.mp ran
  generalize vaddr / pgSize = page at *
  have new : page ∉ mine := by
    intro member
    have present := (accounts.mapped page member).1
    rw [absent] at present
    cases present
  refine ⟨new, ⟨?_, ?_⟩, rfl⟩
  · refine accounts.balanced.transfer (.page page) ?_ fun _ _ => rfl
    intro owner addr'
    cases owner with
    | page page' =>
        by_cases same : page' = page
        · cases same
          simp [Owns, new]
        · simp [Owns, same]
    | table pdeIdx => simp [Owns]
    | user page => simp [Owns]
    | pending => simp [Owns]
  · intro page' member
    dsimp only
    by_cases same : page' = page
    · cases same
      rw [Function.update_self]
      exact ⟨rfl, inKernel⟩
    · rw [Function.update_of_ne same]
      exact accounts.mapped page' ((Finset.mem_insert.mp member).resolve_left same)

/-- What does not change about a process that runs. -/
def Space.identity (space : Space) : Nat × Nat × Nat × Option Nat × Bool :=
  (space.pcb, space.pgdir, space.bits, space.parentPid, space.hanging)

/-- The account of a child with its own page tables. -/
def ChildAccounts (s₀ s : Pages pools) (child : Nat)
    (identity : Nat × Nat × Nat × Option Nat × Bool)
    (mine : Finset Nat) (pending : Option Nat) : Prop :=
  ∃ space, s.space child = some space ∧ space.identity = identity ∧
    Accounts s₀ s (some space.tables) mine pending

theorem page_of_vaddr : vaddr / pgSize / 1024 = vaddr / 0x400000 := by
  unfold pgSize
  rw [Nat.div_div_eq_div_mul]

theorem setSpace_space {pid : Nat} : (s.setSpace pid space).space pid = some space := by
  simp [Pages.setSpace]

/-- A page table that is added holds one frame, and maps nothing. -/
theorem addTable_accounts (known : s.space cur = some space)
    (accounts : Accounts s₀ s (some space.tables) mine pending) (low : vaddr < kernelBase)
    (absent : (space.pde (vaddr / 0x400000)).present = false)
    (ran : (addTable cur vaddr).run s = .ok ((), s')) :
    ∃ frame, s'.space cur = some (space.addTable (vaddr / 0x400000) frame) ∧
      Accounts s₀ s' (some (space.addTable (vaddr / 0x400000) frame).tables) mine pending := by
  have user : vaddr / 0x400000 < 768 := by
    unfold kernelBase at low
    omega
  obtain ⟨found, middle, allocated, ran⟩ := call_bind_returns.mp ran
  obtain ⟨b, rfl, small, free, rfl⟩ := palloc_returns allocated
  obtain ⟨space', _, read, ran⟩ := call_bind_returns.mp ran
  obtain ⟨found, rfl⟩ := spaceOf_returns read
  cases known.symm.trans found
  cases call_modify_returns.mp ran
  generalize vaddr / 0x400000 = pdeIdx at *
  refine ⟨frameAddr pools .kernel b, setSpace_space, ⟨?_, accounts.mapped⟩⟩
  refine accounts.balanced.alloc (.table pdeIdx) small free ?_ fun _ _ => rfl
  intro owner addr
  cases owner with
  | page page => simp [Owns, Pages.setFrame, Pages.setSpace]
  | table pdeIdx' =>
      by_cases same : pdeIdx' = pdeIdx
      · cases same
        simp only [Owns, Space.tables, Space.addTable, Option.some.injEq, exists_eq_left', user,
          absent, Function.update_self, true_and, Bool.false_eq_true, false_and, false_or]
        exact eq_comm
      · simp [Owns, Space.tables, Space.addTable, same]
  | user page =>
      by_cases same : page / 1024 = pdeIdx
      · simp [Owns, Space.tables, Space.addTable, Tables.Maps, same, absent, Pte.zero]
      · simp [Owns, Space.tables, Space.addTable, Tables.Maps, same]
  | pending => simp [Owns]

/-- A page of the child is mapped to the pending frame. -/
theorem writePte_accounts {addr : Nat} (known : s.space cur = some space)
    (accounts : Accounts s₀ s (some space.tables) mine (some addr)) (low : vaddr < kernelBase)
    (present : (space.pde (vaddr / 0x400000)).present = true)
    (absent : (space.pte (vaddr / pgSize)).present = false)
    (ran : (writePte cur vaddr ⟨addr, true⟩).run s = .ok ((), s')) :
    ChildAccounts s₀ s' cur space.identity mine none := by
  have user : vaddr / pgSize < 768 * 1024 := by
    unfold kernelBase at low
    unfold pgSize
    omega
  rw [writePte, if_neg (not_high low), if_neg (Nat.not_le.mpr low)] at ran
  obtain ⟨space', _, read, ran⟩ := call_bind_returns.mp ran
  obtain ⟨found, rfl⟩ := spaceOf_returns read
  cases known.symm.trans found
  cases call_modify_returns.mp ran
  rw [← page_of_vaddr] at present
  generalize vaddr / pgSize = page at *
  refine ⟨_, setSpace_space, rfl, ⟨?_, accounts.mapped⟩⟩
  refine accounts.balanced.transfer (.user page) ?_ fun _ _ => rfl
  intro owner addr'
  cases owner with
  | page page' => simp [Owns, Pages.setSpace]
  | table pdeIdx => simp [Owns, Space.tables]
  | user page' =>
      by_cases same : page' = page
      · cases same
        simp [Owns, Space.tables, Tables.Maps, user, present, absent]
      · simp [Owns, Space.tables, Tables.Maps, same]
  | pending => simp [Owns]

/-- The low megabyte is mapped. -/
theorem pageTableAdd_low {addr : Nat} (below : vaddr < kHeapStart)
    (ran : (pageTableAdd cur vaddr addr).run s = .ok ((), s')) : vaddr < kernelBase := by
  by_contra high
  rw [pageTableAdd, if_neg high] at ran
  obtain ⟨entry, _, read, ran⟩ := call_bind_returns.mp ran
  rw [readPte, if_neg (Nat.not_le.mpr below), if_pos (Nat.not_lt.mp high)] at read
  obtain ⟨rfl, rfl⟩ := call_pure_returns.mp read
  obtain ⟨_, _, required, ran⟩ := call_bind_returns.mp ran
  obtain ⟨absent, -⟩ := call_lift_returns.mp required
  rw [require_eq_ok] at absent
  cases absent

/-- `page_table_add` of a user page. -/
theorem addUserPage_accounts {addr : Nat} {identity : Nat × Nat × Nat × Option Nat × Bool}
    (below : vaddr < kHeapStart) (accounts : ChildAccounts s₀ s cur identity mine (some addr))
    (ran : (pageTableAdd cur vaddr addr).run s = .ok ((), s')) :
    vaddr < kernelBase ∧ ChildAccounts s₀ s' cur identity mine none := by
  have low := pageTableAdd_low below ran
  refine ⟨low, ?_⟩
  obtain ⟨space, known, rfl, accounts⟩ := accounts
  rw [pageTableAdd, if_pos low] at ran
  obtain ⟨space', _, read, ran⟩ := call_bind_returns.mp ran
  obtain ⟨found, rfl⟩ := spaceOf_returns read
  cases known.symm.trans found
  have rest : ∀ {space' : Space} {middle : Pages pools}, middle.space cur = some space' →
      space'.identity = space.identity →
      Accounts s₀ middle (some space'.tables) mine (some addr) →
      (do require ((← readPte cur vaddr).present = false)
          writePte cur vaddr ⟨addr, true⟩ : PageCall pools Unit).run middle = .ok ((), s') →
      ChildAccounts s₀ s' cur space.identity mine none := by
    intro space' middle known' same accounts' ran
    obtain ⟨entry, _, read, ran⟩ := call_bind_returns.mp ran
    obtain ⟨present, rfl, rfl⟩ := readPte_user low known' read
    obtain ⟨_, _, required, ran⟩ := call_bind_returns.mp ran
    obtain ⟨absent, rfl⟩ := call_lift_returns.mp required
    rw [require_eq_ok] at absent
    rw [← same]
    exact writePte_accounts known' accounts' low present absent ran
  by_cases present : (space.pde (vaddr / 0x400000)).present = true
  · rw [if_neg (not_not.mpr present)] at ran
    exact rest known rfl accounts ran
  · rw [if_pos present] at ran
    obtain ⟨_, middle, added, ran⟩ := call_bind_returns.mp ran
    obtain ⟨frame, known', accounts'⟩ := addTable_accounts known accounts low
      (Bool.eq_false_iff.mpr present) added
    exact rest known' rfl accounts' ran

/-- The account depends on the bitmaps of the pools and on the kernel's page tables. -/
theorem Accounts.congr (accounts : Accounts s₀ s tables mine pending)
    (same : s'.poolBitmap = s.poolBitmap) (entries : s'.kernelPte = s.kernelPte) :
    Accounts s₀ s' tables mine pending := by
  constructor
  · rw [entries]
    refine accounts.balanced.congr (fun _ _ => Iff.rfl) fun pf b => ?_
    rw [Pages.taken, same]
    rfl
  · rw [entries]
    exact accounts.mapped

/-- The bitmap of the kernel's virtual pages does not matter. -/
theorem Accounts.setVaddr (accounts : Accounts s₀ s tables mine pending)
    (btmp : Bitmap (pools.btmpBytesLen .kernel)) :
    Accounts s₀ { s with kernelVaddr := btmp } tables mine pending :=
  accounts.congr rfl rfl

/-- The other records of processes do not matter. -/
theorem Accounts.setProcs (accounts : Accounts s₀ s tables mine pending)
    (procs : Nat → Option Space) : Accounts s₀ { s with space := procs } tables mine pending :=
  accounts.congr rfl rfl

/-- The bitmap of the child's virtual pages does not matter. -/
theorem Accounts.setBitmap (accounts : Accounts s₀ s (some space.tables) mine pending) (cur : Nat)
    (btmp : Bitmap userBtmpBytesLen) :
    ChildAccounts s₀ (s.setSpace cur { space with vaddrBitmap := btmp }) cur space.identity mine
      pending :=
  ⟨_, setSpace_space, rfl, accounts.congr rfl rfl⟩

/-- The pages that begin at an address. -/
def pagesFrom (vaddr cnt : Nat) : Finset Nat :=
  (Finset.range cnt).image fun k => vaddr / pgSize + k

theorem mem_pagesFrom {page cnt : Nat} :
    page ∈ pagesFrom vaddr cnt ↔ ∃ k < cnt, vaddr / pgSize + k = page := by
  simp [pagesFrom]

theorem next_page : (vaddr + pgSize) / pgSize = vaddr / pgSize + 1 :=
  Nat.add_div_right vaddr (show 0 < pgSize by decide)

theorem pagesFrom_succ {cnt : Nat} :
    pagesFrom vaddr (cnt + 1) = insert (vaddr / pgSize) (pagesFrom (vaddr + pgSize) cnt) := by
  ext page
  rw [Finset.mem_insert, mem_pagesFrom, mem_pagesFrom, next_page]
  constructor
  · intro member
    obtain ⟨k, small, rfl⟩ := member
    cases k with
    | zero => exact .inl rfl
    | succ k => exact .inr ⟨k, by omega, by omega⟩
  · intro member
    rcases member with rfl | ⟨k, small, rfl⟩
    · exact ⟨0, by omega, rfl⟩
    · exact ⟨k + 1, by omega, by omega⟩

/-- The loop of `malloc_page` for pages of the kernel. -/
theorem mapPages_kernel {cnt : Nat} {done : Bool} (high : kHeapStart ≤ vaddr)
    (accounts : Accounts s₀ s tables mine none)
    (ran : (mapPages cur .kernel vaddr cnt).run s = .ok (done, s')) :
    done = true ∧ Disjoint (pagesFrom vaddr cnt) mine ∧
      Accounts s₀ s' tables (pagesFrom vaddr cnt ∪ mine) none ∧ s'.space = s.space := by
  induction cnt generalizing s vaddr mine with
  | zero =>
      obtain ⟨rfl, rfl⟩ := call_pure_returns.mp ran
      refine ⟨rfl, by simp [pagesFrom], ?_, rfl⟩
      simpa [pagesFrom] using accounts
  | succ cnt ih =>
      obtain ⟨found, middle, allocated, ran⟩ := call_bind_returns.mp ran
      obtain ⟨b, small, rfl, pending, -, same⟩ := palloc_accounts accounts allocated
      obtain ⟨_, middle', added, ran⟩ := call_bind_returns.mp ran
      obtain ⟨new, accounts', same'⟩ :=
        addKernelPage_accounts pending ⟨b, small, rfl⟩ high added
      obtain ⟨done, apart, accounts'', same''⟩ :=
        ih (Nat.le_trans high (Nat.le_add_right _ _)) accounts' ran
      rw [Finset.disjoint_insert_right] at apart
      rw [pagesFrom_succ]
      refine ⟨done, ?_, ?_, same''.trans (same'.trans same)⟩
      · rw [Finset.disjoint_insert_left]
        exact ⟨new, apart.2⟩
      · rwa [Finset.insert_union, ← Finset.union_insert]

/-- The loop of `malloc_page` for pages of the child. -/
theorem mapPages_user {cnt : Nat} {done : Bool} {identity : Nat × Nat × Nat × Option Nat × Bool}
    (below : vaddr < kHeapStart) (accounts : ChildAccounts s₀ s cur identity mine none)
    (ran : (mapPages cur .user vaddr cnt).run s = .ok (done, s')) :
    ChildAccounts s₀ s' cur identity mine none := by
  induction cnt generalizing s vaddr with
  | zero =>
      obtain ⟨rfl, rfl⟩ := call_pure_returns.mp ran
      exact accounts
  | succ cnt ih =>
      obtain ⟨found, middle, allocated, ran⟩ := call_bind_returns.mp ran
      obtain ⟨space, known, same, accounts⟩ := accounts
      obtain ⟨b, -, rfl, pending, -, unchanged⟩ := palloc_accounts accounts allocated
      obtain ⟨_, middle', added, ran⟩ := call_bind_returns.mp ran
      have pending' : ChildAccounts s₀ middle cur identity mine
          (some (frameAddr pools .user b)) := ⟨space, unchanged ▸ known, same, pending⟩
      obtain ⟨low, accounts'⟩ := addUserPage_accounts below pending' added
      have next : vaddr + pgSize < kHeapStart := by
        unfold kernelBase at low
        unfold kHeapStart pgSize
        omega
      exact ih next accounts' ran

/-- `malloc_page` for pages of the kernel gives the child new ones. -/
theorem mallocPage_kernel {cnt : Nat} {found : Option Nat}
    (accounts : Accounts s₀ s tables mine none)
    (ran : (mallocPage cur .kernel cnt).run s = .ok (found, s')) :
    s'.space = s.space ∧ ∀ start, found = some start →
      kHeapStart ≤ start ∧ Disjoint (pagesFrom start cnt) mine ∧
        Accounts s₀ s' tables (pagesFrom start cnt ∪ mine) none := by
  obtain ⟨_, _, required, ran⟩ := call_bind_returns.mp ran
  obtain ⟨-, rfl⟩ := call_lift_returns.mp required
  obtain ⟨start, middle, got, ran⟩ := call_bind_returns.mp ran
  obtain ⟨_, _, read, got⟩ := call_bind_returns.mp got
  obtain ⟨rfl, rfl⟩ := call_get_returns.mp read
  obtain ⟨bit, _, scanned, got⟩ := call_bind_returns.mp got
  obtain ⟨-, rfl⟩ := call_lift_returns.mp scanned
  cases bit with
  | none =>
      obtain ⟨rfl, rfl⟩ := call_pure_returns.mp got
      obtain ⟨rfl, rfl⟩ := call_pure_returns.mp ran
      refine ⟨rfl, fun _ none => ?_⟩
      cases none
  | some bit =>
      obtain ⟨_, _, set, got⟩ := call_bind_returns.mp got
      cases call_modify_returns.mp set
      obtain ⟨rfl, rfl⟩ := call_pure_returns.mp got
      have accounts' := accounts.setVaddr (setBits s.kernelVaddr bit true cnt)
      obtain ⟨done, middle', mapped, ran⟩ := call_bind_returns.mp ran
      obtain ⟨rfl, apart, accounts'', same⟩ :=
        mapPages_kernel (Nat.le_add_right _ _) accounts' mapped
      obtain ⟨rfl, rfl⟩ := call_pure_returns.mp ran
      refine ⟨same, fun start found => ?_⟩
      cases found
      exact ⟨Nat.le_add_right _ _, apart, accounts''⟩

/-- `malloc_page` for pages of the child. -/
theorem mallocPage_user {cnt : Nat} {found : Option Nat}
    {identity : Nat × Nat × Nat × Option Nat × Bool}
    (accounts : ChildAccounts s₀ s cur identity mine none)
    (ran : (mallocPage cur .user cnt).run s = .ok (found, s')) :
    ChildAccounts s₀ s' cur identity mine none := by
  obtain ⟨_, _, required, ran⟩ := call_bind_returns.mp ran
  obtain ⟨-, rfl⟩ := call_lift_returns.mp required
  obtain ⟨start, middle, got, ran⟩ := call_bind_returns.mp ran
  obtain ⟨space, known, rfl, accounts⟩ := accounts
  obtain ⟨space', _, read, got⟩ := call_bind_returns.mp got
  obtain ⟨found, rfl⟩ := spaceOf_returns read
  cases known.symm.trans found
  obtain ⟨bit, _, scanned, got⟩ := call_bind_returns.mp got
  obtain ⟨-, rfl⟩ := call_lift_returns.mp scanned
  cases bit with
  | none =>
      obtain ⟨rfl, rfl⟩ := call_pure_returns.mp got
      obtain ⟨rfl, rfl⟩ := call_pure_returns.mp ran
      exact ⟨space, known, rfl, accounts⟩
  | some bit =>
      obtain ⟨_, _, set, got⟩ := call_bind_returns.mp got
      cases call_modify_returns.mp set
      obtain ⟨_, _, required, got⟩ := call_bind_returns.mp got
      obtain ⟨below, rfl⟩ := call_lift_returns.mp required
      obtain ⟨rfl, rfl⟩ := call_pure_returns.mp got
      obtain ⟨done, middle', mapped, ran⟩ := call_bind_returns.mp ran
      rw [require_eq_ok] at below
      have low : userVaddrStart + bit * pgSize < kHeapStart := by
        unfold kernelBase pgSize at below
        unfold kHeapStart pgSize
        omega
      have after := mapPages_user low
        (accounts.setBitmap cur (setBits space.vaddrBitmap bit true cnt)) mapped
      cases done with
      | true =>
          obtain ⟨rfl, rfl⟩ := call_pure_returns.mp ran
          exact after
      | false =>
          obtain ⟨rfl, rfl⟩ := call_pure_returns.mp ran
          exact after

/-! ## Unmapping pages -/

/-- One page of the kernel is unmapped. -/
theorem unmapPage_kernel {addr : Nat} (high : kHeapStart ≤ vaddr) (member : vaddr / pgSize ∈ mine)
    (accounts : Accounts s₀ s tables mine none)
    (entry : (s.kernelPte (vaddr / pgSize)).addr = addr)
    (ran : (do pfree addr; pageTablePteRemove cur vaddr : PageCall pools Unit).run s =
      .ok ((), s')) :
    Accounts s₀ s' tables (mine.erase (vaddr / pgSize)) none ∧ s'.space = s.space := by
  obtain ⟨-, b, small, held⟩ := accounts.mapped _ member
  rw [entry] at held
  rw [held] at entry ran
  obtain ⟨_, middle, freed, ran⟩ := call_bind_returns.mp ran
  have same := freeAPhyPage_returns small freed
  cases same
  obtain ⟨pte, _, read, ran⟩ := call_bind_returns.mp ran
  obtain ⟨known, rfl⟩ := readPte_kernel high read
  rw [writePte, if_pos high] at ran
  cases call_modify_returns.mp ran
  generalize vaddr / pgSize = page at *
  refine ⟨⟨?_, fun page' member' => ?_⟩, rfl⟩
  · refine accounts.balanced.release (.page page) small (fun addr => ?_) (fun owner addr => ?_)
      fun _ _ => rfl
    · simp only [Owns, member, true_and, entry]
      exact eq_comm
    · cases owner with
      | page page' =>
          by_cases same : page' = page
          · simp [Owns, same]
          · simp [Owns, same, Pages.setFrame]
      | table pdeIdx => simp [Owns]
      | user page' => simp [Owns]
      | pending => simp [Owns]
  · obtain ⟨other, member'⟩ := Finset.mem_erase.mp member'
    dsimp only
    rw [Function.update_of_ne other]
    exact accounts.mapped page' member'

/-- The loop of `mfree_page` over pages of the kernel. -/
theorem unmapPages_kernel {cnt : Nat} {branch : Bool} (high : kHeapStart ≤ vaddr)
    (aligned : vaddr % pgSize = 0) (members : pagesFrom vaddr cnt ⊆ mine)
    (accounts : Accounts s₀ s tables mine none)
    (ran : (unmapPages cur branch vaddr cnt).run s = .ok ((), s')) :
    Accounts s₀ s' tables (mine \ pagesFrom vaddr cnt) none ∧ s'.space = s.space := by
  induction cnt generalizing s vaddr mine with
  | zero =>
      obtain ⟨-, rfl⟩ := call_pure_returns.mp ran
      exact ⟨by simpa [pagesFrom] using accounts, rfl⟩
  | succ cnt ih =>
      rw [pagesFrom_succ] at members
      obtain ⟨addr, _, translated, ran⟩ := call_bind_returns.mp ran
      obtain ⟨pte, _, read, translated⟩ := call_bind_returns.mp translated
      obtain ⟨entry, rfl⟩ := readPte_kernel high read
      obtain ⟨rfl, rfl⟩ := call_pure_returns.mp translated
      obtain ⟨_, _, required, ran⟩ := call_bind_returns.mp ran
      obtain ⟨-, rfl⟩ := call_lift_returns.mp required
      obtain ⟨_, middle, freed, ran⟩ := call_bind_returns.mp ran
      obtain ⟨_, middle', removed, ran⟩ := call_bind_returns.mp ran
      have body : (do pfree (pte.addr + vaddr % pgSize); pageTablePteRemove cur vaddr :
          PageCall pools Unit).run s = .ok ((), middle') :=
        call_bind_returns.mpr ⟨(), middle, freed, removed⟩
      obtain ⟨accounts', same⟩ := unmapPage_kernel high
        (members (Finset.mem_insert_self _ _)) accounts (by rw [entry, aligned]; rfl) body
      have members' : pagesFrom (vaddr + pgSize) cnt ⊆ mine.erase (vaddr / pgSize) := by
        intro page member
        refine Finset.mem_erase.mpr ⟨?_, members (Finset.mem_insert_of_mem member)⟩
        obtain ⟨k, -, rfl⟩ := mem_pagesFrom.mp member
        rw [next_page]
        omega
      obtain ⟨accounts'', same'⟩ := ih (Nat.le_trans high (Nat.le_add_right _ _))
        (by rw [Nat.add_mod_right, aligned]) members' accounts' ran
      refine ⟨?_, same'.trans same⟩
      rwa [pagesFrom_succ, Finset.sdiff_insert, ← Finset.erase_sdiff_comm]

/-- `mfree_page` for pages of the kernel. -/
theorem mfreePage_kernel {cnt : Nat} (high : kHeapStart ≤ vaddr)
    (members : pagesFrom vaddr cnt ⊆ mine) (accounts : Accounts s₀ s tables mine none)
    (ran : (mfreePage cur .kernel vaddr cnt).run s = .ok ((), s')) :
    Accounts s₀ s' tables (mine \ pagesFrom vaddr cnt) none ∧ s'.space = s.space := by
  obtain ⟨_, _, required, ran⟩ := call_bind_returns.mp ran
  obtain ⟨sane, rfl⟩ := call_lift_returns.mp required
  rw [require_eq_ok] at sane
  obtain ⟨addr, _, translated, ran⟩ := call_bind_returns.mp ran
  obtain ⟨pte, _, read, translated⟩ := call_bind_returns.mp translated
  obtain ⟨-, rfl⟩ := readPte_kernel high read
  obtain ⟨rfl, rfl⟩ := call_pure_returns.mp translated
  obtain ⟨_, _, required, ran⟩ := call_bind_returns.mp ran
  obtain ⟨-, rfl⟩ := call_lift_returns.mp required
  obtain ⟨_, middle, unmapped, ran⟩ := call_bind_returns.mp ran
  obtain ⟨accounts', same⟩ := unmapPages_kernel high sane.2 members accounts unmapped
  cases call_modify_returns.mp ran
  exact ⟨accounts'.setVaddr _, same⟩

/-- The record of a process after a page was unmapped. -/
def Space.unmap (space : Space) (page addr : Nat) : Space :=
  { space with pte := Function.update space.pte page ⟨addr, false⟩ }

/-- One page of the child is unmapped. -/
theorem unmapPage_user {addr : Nat} (low : vaddr < kernelBase) (known : s.space cur = some space)
    (maps : space.Maps (vaddr / pgSize)) (accounts : Accounts s₀ s (some space.tables) mine none)
    (entry : (space.pte (vaddr / pgSize)).addr = addr)
    (ran : (do pfree addr; pageTablePteRemove cur vaddr : PageCall pools Unit).run s =
      .ok ((), s')) :
    s'.space cur = some (space.unmap (vaddr / pgSize) addr) ∧
      Accounts s₀ s' (some (space.unmap (vaddr / pgSize) addr).tables) mine none := by
  obtain ⟨pf, b, small, held, -⟩ := accounts.balanced.frame (.user (vaddr / pgSize)) addr
    ⟨space.tables, rfl, maps, entry⟩
  rw [held] at entry ran ⊢
  obtain ⟨_, middle, freed, ran⟩ := call_bind_returns.mp ran
  have same := freeAPhyPage_returns small freed
  cases same
  have known' : (s.setFrame pf b false).space cur = some space := known
  obtain ⟨pte, _, read, ran⟩ := call_bind_returns.mp ran
  obtain ⟨-, rfl, rfl⟩ := readPte_user low known' read
  rw [writePte, if_neg (not_high low), if_neg (Nat.not_le.mpr low)] at ran
  obtain ⟨space', _, read', ran⟩ := call_bind_returns.mp ran
  obtain ⟨found, rfl⟩ := spaceOf_returns read'
  cases known'.symm.trans found
  cases call_modify_returns.mp ran
  generalize vaddr / pgSize = page at *
  rw [entry]
  refine ⟨setSpace_space, ⟨?_, accounts.mapped⟩⟩
  refine accounts.balanced.release (.user page) small (fun addr => ?_) (fun owner addr => ?_)
    fun _ _ => rfl
  · simp only [Owns, Option.some.injEq, exists_eq_left']
    have mapped : space.tables.Maps page := maps
    have held' : (space.tables.pte page).addr = frameAddr pools pf b := entry
    rw [and_iff_right mapped, held']
    exact eq_comm
  · cases owner with
    | page page' => simp [Owns, Pages.setFrame, Pages.setSpace]
    | table pdeIdx => simp [Owns, Space.tables, Space.unmap]
    | user page' =>
        by_cases same : page' = page
        · simp [Owns, Tables.Maps, same, Space.tables, Space.unmap]
        · simp [Owns, Tables.Maps, same, Space.tables, Space.unmap]
    | pending => simp [Owns]

/-- The loop of `mfree_page` over pages that the child has mapped. -/
theorem unmapPages_user {cnt : Nat} {branch : Bool} (aligned : vaddr % pgSize = 0)
    (known : s.space cur = some space) (maps : ∀ k < cnt, space.Maps (vaddr / pgSize + k))
    (accounts : Accounts s₀ s (some space.tables) mine none)
    (ran : (unmapPages cur branch vaddr cnt).run s = .ok ((), s')) :
    ChildAccounts s₀ s' cur space.identity mine none := by
  induction cnt generalizing s vaddr space with
  | zero =>
      obtain ⟨-, rfl⟩ := call_pure_returns.mp ran
      exact ⟨space, known, rfl, accounts⟩
  | succ cnt ih =>
      have first := maps 0 (Nat.succ_pos cnt)
      rw [Nat.add_zero] at first
      have low : vaddr < kernelBase := by
        have small := first.1
        unfold pgSize at small
        unfold kernelBase
        omega
      obtain ⟨addr, _, translated, ran⟩ := call_bind_returns.mp ran
      obtain ⟨pte, _, read, translated⟩ := call_bind_returns.mp translated
      obtain ⟨-, entry, rfl⟩ := readPte_user low known read
      obtain ⟨rfl, rfl⟩ := call_pure_returns.mp translated
      obtain ⟨_, _, required, ran⟩ := call_bind_returns.mp ran
      obtain ⟨-, rfl⟩ := call_lift_returns.mp required
      obtain ⟨_, middle, freed, ran⟩ := call_bind_returns.mp ran
      obtain ⟨_, middle', removed, ran⟩ := call_bind_returns.mp ran
      have body : (do pfree (pte.addr + vaddr % pgSize); pageTablePteRemove cur vaddr :
          PageCall pools Unit).run s = .ok ((), middle') :=
        call_bind_returns.mpr ⟨(), middle, freed, removed⟩
      obtain ⟨known', accounts'⟩ := unmapPage_user low known first accounts
        (by rw [entry, aligned]; rfl) body
      have others : ∀ k < cnt, (space.unmap (vaddr / pgSize) (pte.addr + vaddr % pgSize)).Maps
          ((vaddr + pgSize) / pgSize + k) := by
        intro k small
        obtain ⟨inside, present, mapped⟩ := maps (k + 1) (by omega)
        rw [next_page, show vaddr / pgSize + 1 + k = vaddr / pgSize + (k + 1) by omega]
        refine ⟨inside, present, ?_⟩
        dsimp only [Space.unmap]
        rwa [Function.update_of_ne (by omega)]
      have after := ih (by rw [Nat.add_mod_right, aligned]) known' others accounts' ran
      exact after

/-- `mfree_page` for pages that the child has mapped. -/
theorem mfreePage_user {cnt : Nat} (known : s.space cur = some space)
    (maps : ∀ k < cnt, space.Maps (vaddr / pgSize + k))
    (accounts : Accounts s₀ s (some space.tables) mine none)
    (ran : (mfreePage cur .user vaddr cnt).run s = .ok ((), s')) :
    ChildAccounts s₀ s' cur space.identity mine none := by
  obtain ⟨_, _, required, ran⟩ := call_bind_returns.mp ran
  obtain ⟨sane, rfl⟩ := call_lift_returns.mp required
  rw [require_eq_ok] at sane
  have low : vaddr < kernelBase := by
    have small := (maps 0 sane.1).1
    unfold pgSize at small
    unfold kernelBase
    omega
  obtain ⟨addr, _, translated, ran⟩ := call_bind_returns.mp ran
  obtain ⟨pte, _, read, translated⟩ := call_bind_returns.mp translated
  obtain ⟨-, -, rfl⟩ := readPte_user low known read
  obtain ⟨rfl, rfl⟩ := call_pure_returns.mp translated
  obtain ⟨_, _, required, ran⟩ := call_bind_returns.mp ran
  obtain ⟨-, rfl⟩ := call_lift_returns.mp required
  obtain ⟨_, middle, unmapped, ran⟩ := call_bind_returns.mp ran
  obtain ⟨space', known', same, accounts'⟩ :=
    unmapPages_user sane.2 known maps accounts unmapped
  obtain ⟨space'', _, read, ran⟩ := call_bind_returns.mp ran
  obtain ⟨found, rfl⟩ := spaceOf_returns read
  cases known'.symm.trans found
  cases call_modify_returns.mp ran
  rw [← same]
  exact accounts'.setBitmap cur _

/-! ## The copy of the parent -/

/-- The copy of one page. -/
theorem copyPage_accounts {identity : Nat × Nat × Nat × Option Nat × Bool}
    (below : vaddr < kHeapStart) (accounts : ChildAccounts s₀ s cur identity mine none)
    (ran : (getAPageWithoutOpvaddrbitmap cur vaddr).run s = .ok ((), s')) :
    ChildAccounts s₀ s' cur identity mine none := by
  obtain ⟨space, known, same, accounts⟩ := accounts
  obtain ⟨found, middle, allocated, ran⟩ := call_bind_returns.mp ran
  obtain ⟨b, -, rfl, pending, -, unchanged⟩ := palloc_accounts accounts allocated
  exact (addUserPage_accounts below ⟨space, unchanged ▸ known, same, pending⟩ ran).2

/-- The copies of the pages of one byte of the bitmap. -/
theorem copyByte_accounts {identity : Nat × Nat × Nat × Option Nat × Bool} {idxByte : Nat}
    {byte : Byte} {left : Nat} (inside : idxByte < userBtmpBytesLen) (small : left ≤ 8)
    (accounts : ChildAccounts s₀ s cur identity mine none)
    (ran : (copyByte cur idxByte byte left).run s = .ok ((), s')) :
    ChildAccounts s₀ s' cur identity mine none := by
  induction left generalizing s with
  | zero =>
      obtain ⟨-, rfl⟩ := call_pure_returns.mp ran
      exact accounts
  | succ left ih =>
      have below : (idxByte * 8 + (8 - (left + 1))) * pgSize + userVaddrStart < kHeapStart := by
        unfold userBtmpBytesLen kernelBase userVaddrStart pgSize at inside
        unfold kHeapStart userVaddrStart pgSize
        omega
      dsimp only [copyByte] at ran
      by_cases used : byte.getLsbD (8 - (left + 1)) = true
      · rw [if_pos used] at ran
        obtain ⟨_, middle, copied, ran⟩ := call_bind_returns.mp ran
        exact ih (by omega) (copyPage_accounts below accounts copied) ran
      · rw [if_neg used] at ran
        exact ih (by omega) accounts ran

/-- The copies of all pages of the parent. -/
theorem copyBytes_accounts {identity : Nat × Nat × Nat × Option Nat × Bool}
    {parentBits : Memory} {bytes : List Nat}
    (inside : ∀ idxByte ∈ bytes, idxByte < userBtmpBytesLen)
    (accounts : ChildAccounts s₀ s cur identity mine none)
    (ran : (copyBytes cur parentBits bytes).run s = .ok ((), s')) :
    ChildAccounts s₀ s' cur identity mine none := by
  induction bytes generalizing s with
  | nil =>
      obtain ⟨-, rfl⟩ := call_pure_returns.mp ran
      exact accounts
  | cons idxByte rest ih =>
      have first := inside idxByte List.mem_cons_self
      have others : ∀ idxByte ∈ rest, idxByte < userBtmpBytesLen := fun idxByte member =>
        inside idxByte (List.mem_cons_of_mem _ member)
      rw [copyBytes] at ran
      by_cases empty : parentBits idxByte ≠ 0
      · rw [if_pos empty] at ran
        obtain ⟨_, middle, copied, ran⟩ := call_bind_returns.mp ran
        exact ih others (copyByte_accounts first (Nat.le_refl 8) accounts copied) ran
      · rw [if_neg empty] at ran
        exact ih others accounts ran

/-! ## The walk through the page tables -/

/-- Exactly the frames at the given addresses are freed, and nothing else is changed. -/
structure Frees (s s' : Pages pools) (freed : Nat → Prop) : Prop where
  kernelPte : s'.kernelPte = s.kernelPte
  space : s'.space = s.space
  taken : ∀ pf b, b < pools.frames pf → (s'.taken pf b = true ↔
    s.taken pf b = true ∧ ¬ freed (frameAddr pools pf b))

namespace Frees

theorem none : Frees s s fun _ => False :=
  ⟨rfl, rfl, fun _ _ _ => by simp⟩

theorem trans {freed freed' all : Nat → Prop} (first : Frees s s' freed)
    (second : Frees s' s'' freed') (both : ∀ addr, all addr ↔ freed addr ∨ freed' addr) :
    Frees s s'' all where
  kernelPte := second.kernelPte.trans first.kernelPte
  space := second.space.trans first.space
  taken := fun pf b small => by
    rw [second.taken pf b small, first.taken pf b small, both, not_or, and_assoc]

theorem one {addr : Nat} (isFrame : ∃ pf b, b < pools.frames pf ∧ addr = frameAddr pools pf b)
    (ran : (freeAPhyPage addr).run s = .ok ((), s')) : Frees s s' fun x => x = addr := by
  obtain ⟨pf, b, small, rfl⟩ := isFrame
  have same := freeAPhyPage_returns small ran
  cases same
  refine ⟨rfl, rfl, fun pf' b' small' => ?_⟩
  rw [Pages.taken_setFrame]
  by_cases same : pf' = pf ∧ b' = b
  · obtain ⟨rfl, rfl⟩ := same
    simp
  · rw [if_neg same]
    exact (and_iff_left fun equal => same (frameAddr_inj small' small equal)).symm

end Frees

/-- The frames of the entries of a page table. -/
theorem freePages_frees {list : List Nat}
    (frames : ∀ page ∈ list, (space.pte page).present = true →
      ∃ pf b, b < pools.frames pf ∧ (space.pte page).addr = frameAddr pools pf b)
    (ran : (freePages space list).run s = .ok ((), s')) :
    Frees s s' fun addr => ∃ page ∈ list, (space.pte page).present = true ∧
      addr = (space.pte page).addr := by
  induction list generalizing s with
  | nil =>
      obtain ⟨-, rfl⟩ := call_pure_returns.mp ran
      simpa using Frees.none
  | cons page rest ih =>
      have others : ∀ page ∈ rest, (space.pte page).present = true → ∃ pf b,
          b < pools.frames pf ∧ (space.pte page).addr = frameAddr pools pf b :=
        fun page member => frames page (List.mem_cons_of_mem _ member)
      rw [freePages] at ran
      by_cases present : (space.pte page).present = true
      · rw [if_pos present] at ran
        obtain ⟨_, middle, freed, ran⟩ := call_bind_returns.mp ran
        refine (Frees.one (frames page List.mem_cons_self present) freed).trans
          (ih others ran) fun addr => ?_
        simp [present]
      · rw [if_neg present] at ran
        refine Frees.none.trans (ih others ran) fun addr => ?_
        simp [present]

/-- The addresses of the frames of some page tables and of the pages they map. -/
def Space.Holds (space : Space) (list : List Nat) (addr : Nat) : Prop :=
  ∃ pdeIdx ∈ list, (space.pde pdeIdx).present = true ∧
    (addr = (space.pde pdeIdx).addr ∨ ∃ page, page / 1024 = pdeIdx ∧
      (space.pte page).present = true ∧ addr = (space.pte page).addr)

/-- The walk frees the frames of the page tables and of the pages they map. -/
theorem freeTables_frees {list : List Nat}
    (tables : ∀ pdeIdx ∈ list, (space.pde pdeIdx).present = true →
      ∃ pf b, b < pools.frames pf ∧ (space.pde pdeIdx).addr = frameAddr pools pf b)
    (frames : ∀ page, page / 1024 ∈ list → (space.pde (page / 1024)).present = true →
      (space.pte page).present = true →
      ∃ pf b, b < pools.frames pf ∧ (space.pte page).addr = frameAddr pools pf b)
    (ran : (freeTables space list).run s = .ok ((), s')) :
    Frees s s' (space.Holds list) := by
  induction list generalizing s with
  | nil =>
      obtain ⟨-, rfl⟩ := call_pure_returns.mp ran
      exact Frees.none.trans Frees.none fun addr => by simp [Space.Holds]
  | cons pdeIdx rest ih =>
      have otherTables := fun i member => tables i (List.mem_cons_of_mem _ member)
      have otherFrames := fun page member => frames page (List.mem_cons_of_mem _ member)
      rw [freeTables] at ran
      by_cases present : (space.pde pdeIdx).present = true
      · rw [if_pos present] at ran
        obtain ⟨_, middle, entries, ran⟩ := call_bind_returns.mp ran
        obtain ⟨_, middle', freed, ran⟩ := call_bind_returns.mp ran
        have inTable : ∀ page, page ∈ List.range' (pdeIdx * 1024) 1024 ↔ page / 1024 = pdeIdx := by
          intro page
          rw [List.mem_range'_1]
          omega
        have first := freePages_frees (fun page member mapped => by
          have here := (inTable page).mp member
          exact frames page (by rw [here]; exact List.mem_cons_self) (by rwa [here]) mapped) entries
        have second := Frees.one (tables pdeIdx List.mem_cons_self present) freed
        refine (first.trans second fun addr => Iff.rfl).trans (ih otherTables otherFrames ran)
          fun addr => ?_
        simp only [Space.Holds, List.mem_cons, exists_eq_or_imp, present, true_and, inTable]
        exact or_congr_left or_comm
      · rw [if_neg present] at ran
        refine Frees.none.trans (ih otherTables otherFrames ran) fun addr => ?_
        simp [Space.Holds, present]

/-- After the walk the child holds its pages of the kernel only. -/
theorem freeTables_accounts (accounts : Accounts s₀ s (some space.tables) mine none)
    (ran : (freeTables space (List.range 768)).run s = .ok ((), s')) :
    Accounts s₀ s' none mine none ∧ s'.space = s.space := by
  have frees := freeTables_frees (fun pdeIdx member present => by
    obtain ⟨pf, b, small, held, -⟩ := accounts.balanced.frame (.table pdeIdx) _
      ⟨space.tables, rfl, List.mem_range.mp member, present, rfl⟩
    exact ⟨pf, b, small, held⟩) (fun page member present mapped => by
    obtain ⟨pf, b, small, held, -⟩ := accounts.balanced.frame (.user page) _
      ⟨space.tables, rfl, ⟨by have := List.mem_range.mp member; omega, present, mapped⟩, rfl⟩
    exact ⟨pf, b, small, held⟩) ran
  have holder : ∀ addr, space.Holds (List.range 768) addr → ∃ owner,
      (∀ page, owner ≠ .page page) ∧ Owns s.kernelPte (some space.tables) mine none owner addr := by
    intro addr freed
    obtain ⟨pdeIdx, member, present, rfl | ⟨page, rfl, mapped, rfl⟩⟩ := freed
    · exact ⟨.table pdeIdx, by simp, space.tables, rfl, List.mem_range.mp member, present, rfl⟩
    · have inside := List.mem_range.mp member
      exact ⟨.user page, by simp, space.tables, rfl, ⟨by omega, present, mapped⟩, rfl⟩
  refine ⟨⟨?_, ?_⟩, frees.space⟩
  · rw [frees.kernelPte]
    refine accounts.balanced.free _ (fun addr freed => ?_) (fun owner addr => ?_) frees.taken
    · obtain ⟨owner, -, holds⟩ := holder addr freed
      exact ⟨owner, holds⟩
    · cases owner with
      | page page =>
          refine (and_iff_left_of_imp fun holds freed => ?_).symm
          obtain ⟨owner, other, holds'⟩ := holder addr freed
          exact other page (accounts.balanced.exclusive owner _ addr holds' holds)
      | table pdeIdx =>
          simp only [Owns, reduceCtorEq, false_and, exists_false, false_iff, not_and, not_not]
          intro held
          obtain ⟨_, same, inside, present, rfl⟩ := held
          cases same
          exact ⟨pdeIdx, List.mem_range.mpr inside, present, .inl rfl⟩
      | user page =>
          simp only [Owns, reduceCtorEq, false_and, exists_false, false_iff, not_and, not_not]
          intro held
          obtain ⟨_, same, ⟨inside, present, mapped⟩, rfl⟩ := held
          cases same
          exact ⟨page / 1024, List.mem_range.mpr (by omega), present,
            .inr ⟨page, rfl, mapped, rfl⟩⟩
      | pending => simp [Owns]
  · rw [frees.kernelPte]
    exact accounts.mapped

end

/-! ## The life of a child -/

section

variable {parent child pcb pgdir bits : Nat}

/-- The pages of the kernel that a process takes. -/
def kernelPages (pcb pgdir bits : Nat) : Finset Nat :=
  insert (pcb / pgSize) (insert (pgdir / pgSize) (pagesFrom bits bitmapPgCnt))

/-- These pages are pages of the kernel's heap, and different ones. -/
structure Apart (pcb pgdir bits : Nat) : Prop where
  pcb_high : kHeapStart ≤ pcb
  pgdir_high : kHeapStart ≤ pgdir
  bits_high : kHeapStart ≤ bits
  pcb_pgdir : pcb / pgSize ≠ pgdir / pgSize
  pcb_bits : pcb / pgSize ∉ pagesFrom bits bitmapPgCnt
  pgdir_bits : pgdir / pgSize ∉ pagesFrom bits bitmapPgCnt

theorem pagesFrom_one {vaddr : Nat} : pagesFrom vaddr 1 = {vaddr / pgSize} := by
  simp [pagesFrom]

/-- The tables of a new process map nothing. -/
theorem Accounts.zeroTables (accounts : Accounts s₀ s none mine pending) :
    Accounts s₀ s (some ⟨fun _ => Pte.zero, fun _ => Pte.zero⟩) mine pending := by
  refine ⟨accounts.balanced.congr (fun owner addr => ?_) fun _ _ => rfl, accounts.mapped⟩
  cases owner <;> simp [Owns, Tables.Maps, Pte.zero]

/-- A new process with empty tables. -/
theorem Accounts.newSpace (accounts : Accounts s₀ s none mine pending) (child : Nat) (space : Space)
    (empty : space.tables = ⟨fun _ => Pte.zero, fun _ => Pte.zero⟩) :
    ChildAccounts s₀ (s.setSpace child space) child space.identity mine pending :=
  ⟨space, setSpace_space, rfl, empty ▸ accounts.zeroTables.congr rfl rfl⟩

/-- **What a fork takes.** A fork that succeeds gives the child a control block, a page
directory and a bitmap; its account is opened with these and the copies of the parent's
pages. -/
theorem sysFork_accounts {done : Bool} (ran : (sysFork parent child).run s = .ok (done, s')) :
    done = false ∧ s'.space = s.space ∨ ∃ pcb pgdir bits, Apart pcb pgdir bits ∧
      ChildAccounts s s' child (pcb, pgdir, bits, some parent, false)
        (kernelPages pcb pgdir bits) none := by
  obtain ⟨found, s₁, got, ran⟩ := call_bind_returns.mp ran
  obtain ⟨same₁, pcbFound⟩ := mallocPage_kernel accounts_nothing got
  cases found with
  | none =>
      obtain ⟨rfl, rfl⟩ := call_pure_returns.mp ran
      exact .inl ⟨rfl, same₁⟩
  | some pcb =>
  obtain ⟨pcbHigh, -, account₁⟩ := pcbFound pcb rfl
  obtain ⟨parentSpace, _, read, ran⟩ := call_bind_returns.mp ran
  obtain ⟨-, rfl⟩ := spaceOf_returns read
  obtain ⟨found, s₂, got, ran⟩ := call_bind_returns.mp ran
  obtain ⟨same₂, bufFound⟩ := mallocPage_kernel account₁ got
  cases found with
  | none =>
      obtain ⟨rfl, rfl⟩ := call_pure_returns.mp ran
      exact .inl ⟨rfl, same₂.trans same₁⟩
  | some bufPage =>
  obtain ⟨bufHigh, bufApart, account₂⟩ := bufFound bufPage rfl
  obtain ⟨found, s₃, got, ran⟩ := call_bind_returns.mp ran
  obtain ⟨same₃, bitsFound⟩ := mallocPage_kernel account₂ got
  cases found with
  | none =>
      obtain ⟨rfl, rfl⟩ := call_pure_returns.mp ran
      exact .inl ⟨rfl, same₃.trans (same₂.trans same₁)⟩
  | some bits =>
  obtain ⟨bitsHigh, bitsApart, account₃⟩ := bitsFound bits rfl
  obtain ⟨found, s₄, got, ran⟩ := call_bind_returns.mp ran
  obtain ⟨same₄, pgdirFound⟩ := mallocPage_kernel account₃ got
  cases found with
  | none =>
      obtain ⟨rfl, rfl⟩ := call_pure_returns.mp ran
      exact .inl ⟨rfl, same₄.trans (same₃.trans (same₂.trans same₁))⟩
  | some pgdir =>
  obtain ⟨pgdirHigh, pgdirApart, account₄⟩ := pgdirFound pgdir rfl
  obtain ⟨_, s₅, made, ran⟩ := call_bind_returns.mp ran
  cases call_modify_returns.mp made
  obtain ⟨_, s₆, copied, ran⟩ := call_bind_returns.mp ran
  have account₅ := account₄.newSpace child ⟨pcb, pgdir, bits, parentSpace.vaddrBitmap,
    fun _ => Pte.zero, fun _ => Pte.zero, some parent, false⟩ rfl
  unfold copyBodyStack3 at copied
  obtain ⟨space, known, same, account₆⟩ := copyBytes_accounts
    (fun _ member => List.mem_range.mp member) account₅ copied
  obtain ⟨_, s₇, freed, ran⟩ := call_bind_returns.mp ran
  obtain ⟨rfl, rfl⟩ := call_pure_returns.mp ran
  simp only [pagesFrom_one, Finset.union_empty, Finset.disjoint_singleton_left,
    Finset.mem_singleton, Finset.disjoint_union_right,
      Finset.disjoint_singleton_right] at bufApart bitsApart pgdirApart
  obtain ⟨account₇, same₇⟩ := mfreePage_kernel bufHigh (by simp [pagesFrom_one]) account₆ freed
  refine .inr ⟨pcb, pgdir, bits, ⟨pcbHigh, pgdirHigh, bitsHigh, fun equal =>
    pgdirApart.2.2 equal, bitsApart.2, pgdirApart.1⟩, space, same₇ ▸ known, same, ?_⟩
  -- Only the buffer is given back.
  have left : (pagesFrom pgdir 1 ∪ (pagesFrom bits bitmapPgCnt ∪ (pagesFrom bufPage 1 ∪
      (pagesFrom pcb 1 ∪ ∅)))) \ pagesFrom bufPage 1 = kernelPages pcb pgdir bits := by
    ext page
    simp only [pagesFrom_one, kernelPages, Finset.mem_sdiff, Finset.mem_union,
      Finset.mem_singleton, Finset.mem_insert, Finset.notMem_empty, or_false]
    constructor
    · grind
    · intro member
      refine ⟨by grind, ?_⟩
      rintro rfl
      rcases member with equal | equal | inBits
      · exact bufApart equal.symm
      · exact pgdirApart.2.1 equal
      · exact bitsApart.1 inBits
  rwa [left] at account₇

/-- **What exit leaves.** When the child has exited, it holds its control block, its page
directory and the last page of its bitmap. -/
theorem sysExit_accounts (apart : Apart pcb pgdir bits)
    (accounts : ChildAccounts s₀ s child (pcb, pgdir, bits, some parent, false)
      (kernelPages pcb pgdir bits) none)
    (ran : (sysExit child).run s = .ok ((), s')) :
    (∃ space, s'.space child = some space ∧ space.pcb = pcb ∧ space.pgdir = pgdir) ∧
      Accounts s₀ s' none (kernelPages pcb pgdir bits \ pagesFrom bits freedBitmapPgCnt) none := by
  obtain ⟨space, known, same, accounts⟩ := accounts
  obtain ⟨_, s₁, adopted, ran⟩ := call_bind_returns.mp ran
  cases call_modify_returns.mp adopted
  obtain ⟨_, s₂, released, ran⟩ := call_bind_returns.mp ran
  obtain ⟨space', _, read, released⟩ := call_bind_returns.mp released
  obtain ⟨found, rfl⟩ := spaceOf_returns read
  have changed : space.adopted child = space' := by
    dsimp only at found
    rw [known] at found
    exact Option.some.inj found
  have tables : space'.tables = space.tables ∧ space'.pcb = pcb ∧ space'.pgdir = pgdir ∧
      space'.bits = bits := by
    simp only [Space.identity, Prod.mk.injEq] at same
    obtain ⟨samePcb, samePgdir, sameBits, -⟩ := same
    rw [← changed]
    unfold Space.adopted
    split <;> exact ⟨rfl, samePcb, samePgdir, sameBits⟩
  obtain ⟨sameTables, rfl, rfl, rfl⟩ := tables
  rw [← sameTables] at accounts
  obtain ⟨_, s₃, walked, released⟩ := call_bind_returns.mp released
  obtain ⟨accounts', same'⟩ := freeTables_accounts (accounts.setProcs _) walked
  obtain ⟨accounts'', same''⟩ := mfreePage_kernel apart.bits_high (fun page member => by
    obtain ⟨k, small, rfl⟩ := mem_pagesFrom.mp member
    have inside : k < bitmapPgCnt := Nat.lt_trans small (by decide)
    exact Finset.mem_insert_of_mem (Finset.mem_insert_of_mem (mem_pagesFrom.mpr ⟨k, inside, rfl⟩)))
    accounts' released
  obtain ⟨space'', _, read, ran⟩ := call_bind_returns.mp ran
  obtain ⟨found', rfl⟩ := spaceOf_returns read
  cases call_modify_returns.mp ran
  rw [same'', same', found] at found'
  cases found'
  exact ⟨⟨_, setSpace_space, rfl, rfl⟩, accounts''.congr rfl rfl⟩

/-- What is left of the pages of a child that was reaped. -/
theorem leaked (apart : Apart pcb pgdir bits) :
    ((kernelPages pcb pgdir bits \ pagesFrom bits freedBitmapPgCnt) \ pagesFrom pgdir 1) \
      pagesFrom pcb 1 = {bits / pgSize + freedBitmapPgCnt} := by
  have count : bitmapPgCnt = freedBitmapPgCnt + 1 := by decide
  have last : bits / pgSize + freedBitmapPgCnt ∈ pagesFrom bits bitmapPgCnt :=
    mem_pagesFrom.mpr ⟨freedBitmapPgCnt, by omega, rfl⟩
  ext page
  simp only [pagesFrom_one, kernelPages, Finset.mem_sdiff, Finset.mem_singleton,
    Finset.mem_insert]
  constructor
  · intro member
    obtain ⟨⟨⟨taken, kept⟩, notPgdir⟩, notPcb⟩ := member
    obtain ⟨k, small, rfl⟩ := mem_pagesFrom.mp ((taken.resolve_left notPcb).resolve_left notPgdir)
    by_contra other
    exact kept (mem_pagesFrom.mpr ⟨k, by omega, rfl⟩)
  · rintro rfl
    refine ⟨⟨⟨.inr (.inr last), fun kept => ?_⟩, fun same => ?_⟩, fun same => ?_⟩
    · obtain ⟨k, small, same⟩ := mem_pagesFrom.mp kept
      omega
    · exact apart.pgdir_bits (same ▸ last)
    · exact apart.pcb_bits (same ▸ last)

/-- The account is closed when the child is reaped. -/
theorem threadExit_accounts (apart : Apart pcb pgdir bits)
    (known : ∃ space, s.space child = some space ∧ space.pcb = pcb ∧ space.pgdir = pgdir)
    (accounts : Accounts s₀ s none (kernelPages pcb pgdir bits \ pagesFrom bits freedBitmapPgCnt)
      none) (ran : (threadExit parent child).run s = .ok ((), s')) :
    Accounts s₀ s' none {bits / pgSize + freedBitmapPgCnt} none := by
  obtain ⟨space, known, rfl, rfl⟩ := known
  obtain ⟨space', _, read, ran⟩ := call_bind_returns.mp ran
  obtain ⟨found, rfl⟩ := spaceOf_returns read
  cases known.symm.trans found
  obtain ⟨_, s₁, freed, ran⟩ := call_bind_returns.mp ran
  have notFreed : ∀ {page : Nat}, page ∉ pagesFrom bits bitmapPgCnt →
      page ∉ pagesFrom bits freedBitmapPgCnt := fun outside member => by
    obtain ⟨k, small, rfl⟩ := mem_pagesFrom.mp member
    exact outside (mem_pagesFrom.mpr ⟨k, Nat.lt_trans small (by decide), rfl⟩)
  have accounts' := (mfreePage_kernel apart.pgdir_high (by
    simp [pagesFrom_one, kernelPages, notFreed apart.pgdir_bits]) accounts freed).1
  obtain ⟨_, s₂, freed', ran⟩ := call_bind_returns.mp ran
  have accounts'' := (mfreePage_kernel apart.pcb_high (by
    simp [pagesFrom_one, kernelPages, notFreed apart.pcb_bits, apart.pcb_pgdir]) accounts' freed').1
  cases call_modify_returns.mp ran
  rw [leaked apart] at accounts''
  exact accounts''.congr rfl rfl

/-- One frame of the kernel's pool that the account still holds is missing. -/
theorem freeFrames_of_accounts {page : Nat} (accounts : Accounts s₀ s none {page} none) :
    s.freeFrames .kernel + 1 = s₀.freeFrames .kernel ∧
      s.freeFrames .user = s₀.freeFrames .user := by
  obtain ⟨-, b, small, held⟩ := accounts.mapped page (Finset.mem_singleton_self page)
  have owned : ∀ owner addr, Owns s.kernelPte none {page} none owner addr ↔
      owner = .page page ∧ addr = frameAddr pools .kernel b := by
    intro owner addr
    cases owner with
    | page page' =>
        simp only [Owns, Finset.mem_singleton, Owner.page.injEq]
        refine and_congr_right fun same => ?_
        rw [same, held]
        exact eq_comm
    | table pdeIdx => simp [Owns]
    | user page' => simp [Owns]
    | pending => simp [Owns]
  have free : s₀.taken .kernel b = false := by
    obtain ⟨pf, b', small', same, free⟩ := accounts.balanced.frame _ _ ((owned _ _).mpr ⟨rfl, rfl⟩)
    obtain ⟨rfl, rfl⟩ := frameAddr_inj small small' same
    exact free
  have exact : ∀ pf b', b' < pools.frames pf → (s.taken pf b' = false ↔
      s₀.taken pf b' = false ∧ ¬ (pf = .kernel ∧ b' = b)) := by
    intro pf b' small'
    rw [← Bool.not_eq_true, accounts.balanced.exact pf b' small', not_or, Bool.not_eq_true]
    refine and_congr_right fun _ => not_congr ⟨fun held => ?_, fun same => ?_⟩
    · obtain ⟨owner, holds⟩ := held
      exact frameAddr_inj small' small ((owned _ _).mp holds).2
    · obtain ⟨rfl, rfl⟩ := same
      exact ⟨.page page, (owned _ _).mpr ⟨rfl, rfl⟩⟩
  constructor
  · have erased :
        (Finset.range (pools.frames .kernel)).filter (fun b' => s.taken .kernel b' = false) =
        ((Finset.range (pools.frames .kernel)).filter fun b' =>
          s₀.taken .kernel b' = false).erase b := by
      ext b'
      simp only [Finset.mem_filter, Finset.mem_range, Finset.mem_erase]
      constructor
      · intro member
        obtain ⟨inside, free'⟩ := member
        obtain ⟨before, other⟩ := (exact .kernel b' inside).mp free'
        exact ⟨fun same => other ⟨rfl, same⟩, inside, before⟩
      · intro member
        obtain ⟨other, inside, before⟩ := member
        exact ⟨inside, (exact .kernel b' inside).mpr ⟨before, fun same => other same.2⟩⟩
    unfold Pages.freeFrames
    rw [erased, Finset.card_erase_add_one]
    exact Finset.mem_filter.mpr ⟨Finset.mem_range.mpr small, free⟩
  · unfold Pages.freeFrames
    refine congrArg Finset.card (Finset.filter_congr fun b' inside => ?_)
    rw [exact .user b' (Finset.mem_range.mp inside)]
    exact and_iff_left fun same => by cases same.1

/-- A call with which a process changes its own pages. -/
def PageOp.OfHeap (cur : Nat) : PageOp → Prop
  | malloc pid _ => pid = cur
  | mfree pid _ _ => pid = cur
  | _ => False

/-- Frames of both pools and virtual pages of the kernel are as many free ones as before. -/
def SameFree (s s' : Pages pools) : Prop :=
  s'.freeFrames .kernel = s.freeFrames .kernel ∧ s'.freeFrames .user = s.freeFrames .user ∧
    s'.freeKernelPages = s.freeKernelPages

/-- The account stays open while the child allocates and frees pages. -/
theorem heapCalls_accounts {identity : Nat × Nat × Nat × Option Nat × Bool} {ops : List PageOp}
    {first last : Pages pools} (accounts : ChildAccounts s₀ first child identity mine none)
    (ran : ((pages pools).under fun _ op => op.OfHeap child).Steps first ops last) :
    ChildAccounts s₀ last child identity mine none := by
  induction ran with
  | nil => exact accounts
  | snoc op _ taken ih =>
      obtain ⟨ofHeap, enabled, ran⟩ := taken
      cases op with
      | fork parent child' => exact ofHeap.elim
      | malloc cur pgCnt =>
          cases ofHeap
          obtain ⟨found, _, got, ran⟩ := call_bind_returns.mp ran
          obtain ⟨-, rfl⟩ := call_pure_returns.mp ran
          exact mallocPage_user ih got
      | mfree cur vaddr pgCnt =>
          cases ofHeap
          obtain ⟨-, space, known, maps⟩ := enabled
          obtain ⟨space', known', rfl, accounts'⟩ := ih
          cases known.symm.trans known'
          exact mfreePage_user known maps accounts' ran
      | exit cur => exact ofHeap.elim
      | wait parent child' => exact ofHeap.elim

theorem not_lives (none : s.space child = none) : ¬ s.Lives child := by
  intro lives
  obtain ⟨space, known, -⟩ := lives
  rw [none] at known
  cases known

/-- A process that does not exist makes no calls. -/
theorem heapCalls_none {ops : List PageOp} {first last : Pages pools}
    (none : first.space child = none)
    (ran : ((pages pools).under fun _ op => op.OfHeap child).Steps first ops last) :
    last.space child = Option.none := by
  induction ran with
  | nil => exact none
  | snoc op _ taken ih =>
      obtain ⟨ofHeap, enabled, -⟩ := taken
      cases op with
      | fork parent child' => exact ofHeap.elim
      | malloc cur pgCnt =>
          cases ofHeap
          exact (not_lives ih enabled).elim
      | mfree cur vaddr pgCnt =>
          cases ofHeap
          exact (not_lives ih enabled.1).elim
      | exit cur => exact ofHeap.elim
      | wait parent child' => exact ofHeap.elim

/-- **A child costs a frame.** Whatever pages a child allocates and frees between the fork and
its exit, when it has been reaped the kernel's pool has one free frame less than before the
fork, and so the free frames and pages are never as many as before. -/
theorem child_costs_one_frame {s₁ s₂ s₃ s₄ : Pages pools} {ops : List PageOp}
    (forked : (pages pools).step s (.fork parent child) s₁)
    (lived : ((pages pools).under fun _ op => op.OfHeap child).Steps s₁ ops s₂)
    (exited : (pages pools).step s₂ (.exit child) s₃)
    (reaped : (pages pools).step s₃ (.wait parent child) s₄) :
    ¬ SameFree s s₄ ∧ s₄.freeFrames .kernel + 1 = s.freeFrames .kernel ∧
      s₄.freeFrames .user = s.freeFrames .user := by
  obtain ⟨⟨-, new⟩, ran⟩ := forked
  obtain ⟨done, _, made, skip⟩ := call_bind_returns.mp ran
  obtain ⟨-, rfl⟩ := call_pure_returns.mp skip
  rcases sysFork_accounts made with ⟨-, same⟩ | ⟨pcb, pgdir, bits, apart, accounts⟩
  · -- A fork that failed made no child that could exit.
    have none := heapCalls_none (same ▸ new) lived
    obtain ⟨⟨space, known, -⟩, -⟩ := exited
    rw [none] at known
    cases known
  · have accounts' := heapCalls_accounts accounts lived
    obtain ⟨known, accounts''⟩ := sysExit_accounts apart accounts' exited.2
    have closed := threadExit_accounts apart known accounts'' reaped.2
    obtain ⟨kernel, user⟩ := freeFrames_of_accounts closed
    refine ⟨fun same => ?_, kernel, user⟩
    rw [same.1] at kernel
    omega

end

/-! ## A process with one page -/

section

variable {cur pid child vaddr : Nat} {space : Space} {btmp : Bitmap userBtmpBytesLen}

/-- The process has the given bitmap. -/
def Pages.HasBitmap (s : Pages pools) (pid : Nat) (btmp : Bitmap userBtmpBytesLen) : Prop :=
  ∃ space, s.space pid = some space ∧ space.vaddrBitmap = btmp

/-- `palloc` leaves the processes alone. -/
theorem palloc_space {found : Option Nat} (ran : (palloc pf).run s = .ok (found, s')) :
    s'.space = s.space := by
  obtain ⟨b, -, -, -, rfl⟩ := palloc_returns ran
  rfl

/-- A new page table leaves the bitmap alone. -/
theorem addTable_bitmap (has : s.HasBitmap cur btmp)
    (ran : (addTable cur vaddr).run s = .ok ((), s')) : s'.HasBitmap cur btmp := by
  obtain ⟨found, middle, allocated, ran⟩ := call_bind_returns.mp ran
  obtain ⟨space, _, read, ran⟩ := call_bind_returns.mp ran
  obtain ⟨known, rfl⟩ := spaceOf_returns read
  cases call_modify_returns.mp ran
  obtain ⟨space', known', same⟩ := has
  rw [palloc_space allocated, known'] at known
  cases known
  exact ⟨_, setSpace_space, same⟩

/-- Mapping a page of a process leaves its bitmap alone. -/
theorem pageTableAdd_bitmap {addr : Nat} (low : vaddr < kernelBase) (has : s.HasBitmap cur btmp)
    (ran : (pageTableAdd cur vaddr addr).run s = .ok ((), s')) : s'.HasBitmap cur btmp := by
  rw [pageTableAdd, if_pos low] at ran
  have rest : ∀ {middle : Pages pools}, middle.HasBitmap cur btmp →
      (do require ((← readPte cur vaddr).present = false)
          writePte cur vaddr ⟨addr, true⟩ : PageCall pools Unit).run middle = .ok ((), s') →
      s'.HasBitmap cur btmp := by
    intro middle has ran
    obtain ⟨entry, _, read, ran⟩ := call_bind_returns.mp ran
    obtain rfl := readPte_same read
    obtain ⟨_, _, required, ran⟩ := call_bind_returns.mp ran
    obtain ⟨-, rfl⟩ := call_lift_returns.mp required
    rw [writePte, if_neg (not_high low), if_neg (Nat.not_le.mpr low)] at ran
    obtain ⟨space, _, read, ran⟩ := call_bind_returns.mp ran
    obtain ⟨known, rfl⟩ := spaceOf_returns read
    cases call_modify_returns.mp ran
    obtain ⟨space', known', same⟩ := has
    cases known.symm.trans known'
    exact ⟨_, setSpace_space, same⟩
  obtain ⟨space, _, read, ran⟩ := call_bind_returns.mp ran
  obtain ⟨-, rfl⟩ := spaceOf_returns read
  split at ran
  case isTrue =>
      obtain ⟨_, middle, added, ran⟩ := call_bind_returns.mp ran
      exact rest (addTable_bitmap has added) ran
  case isFalse => exact rest has ran

/-- The bitmap of a process whose only page is that of its stack. -/
def stackBitmap : Bitmap userBtmpBytesLen :=
    (⟨Memory.zeros⟩ : Bitmap userBtmpBytesLen).set 753591 true

/-- A process starts with its stack. -/
theorem processExecute_bitmap (ran : (processExecute pid).run s = .ok ((), s')) :
    s'.HasBitmap pid stackBitmap := by
  obtain ⟨pcb, s₁, -, ran⟩ := call_bind_returns.mp ran
  obtain ⟨bits, s₂, -, ran⟩ := call_bind_returns.mp ran
  obtain ⟨pgdir, s₃, -, ran⟩ := call_bind_returns.mp ran
  split at ran
  case h_2 => exact (call_throw_returns ran).elim
  case h_1 =>
    obtain ⟨_, s₄, made, ran⟩ := call_bind_returns.mp ran
    cases call_modify_returns.mp made
    obtain ⟨_, s₅, got, ran⟩ := call_bind_returns.mp ran
    obtain ⟨-, rfl⟩ := call_pure_returns.mp ran
    obtain ⟨space, _, read, got⟩ := call_bind_returns.mp got
    obtain ⟨known, rfl⟩ := spaceOf_returns read
    rw [setSpace_space] at known
    cases known
    obtain ⟨_, _, required, got⟩ := call_bind_returns.mp got
    obtain ⟨-, rfl⟩ := call_lift_returns.mp required
    obtain ⟨_, s₆, marked, got⟩ := call_bind_returns.mp got
    cases call_modify_returns.mp marked
    obtain ⟨found, s₇, allocated, got⟩ := call_bind_returns.mp got
    obtain ⟨b, rfl, -, -, rfl⟩ := palloc_returns allocated
    obtain ⟨_, s₈, added, got⟩ := call_bind_returns.mp got
    obtain ⟨-, rfl⟩ := call_pure_returns.mp got
    have low : userStack3Vaddr < kernelBase := by decide
    refine pageTableAdd_bitmap low ?_ added
    exact ⟨_, setSpace_space, rfl⟩

/-- Bytes of the bitmap that are zero are passed. -/
theorem copyBytes_zeros {parentBits : Memory} {bytes rest : List Nat}
    (zeros : ∀ idxByte ∈ bytes, parentBits idxByte = 0) :
    (copyBytes child parentBits (bytes ++ rest) : PageCall pools Unit) =
      copyBytes child parentBits rest := by
  induction bytes with
  | nil => rfl
  | cons idxByte bytes ih =>
      rw [List.forall_mem_cons] at zeros
      rw [List.cons_append, copyBytes, if_neg (not_not.mpr zeros.1), ih zeros.2]

/-- The stack is in the last byte. -/
theorem stackBitmap_body (stack : space.vaddrBitmap = stackBitmap) :
    (copyBodyStack3 child space : PageCall pools Unit) =
      copyBytes child stackBitmap.bits [94198] := by
  have all : List.range userBtmpBytesLen = List.range 94198 ++ [94198] := List.range_succ
  rw [copyBodyStack3, all, stack]
  refine copyBytes_zeros fun idxByte member => ?_
  have less := List.mem_range.mp member
  change Function.update Memory.zeros 94198 _ idxByte = 0
  rw [Function.update_of_ne (by omega)]
  rfl

end

/-! ## A run -/

instance (s : Pages pools) (pid : Nat) : Decidable (s.Lives pid) :=
  inferInstanceAs (Decidable (∃ space ∈ s.space pid, space.hanging = false))

instance (space : Space) (page : Nat) : Decidable (space.Maps page) :=
  inferInstanceAs (Decidable (_ ∧ _ ∧ _))

instance (s : Pages pools) (pid : Nat) : Decidable (s.space pid = none) :=
  decidable_of_iff ((s.space pid).isNone = true) Option.isNone_iff_eq_none

instance (s : Pages pools) : (op : PageOp) → Decidable (PageEnabled s op)
  | .fork parent child => inferInstanceAs (Decidable (s.Lives parent ∧ s.space child = none))
  | .malloc cur _ => inferInstanceAs (Decidable (s.Lives cur))
  | .mfree cur vaddr pgCnt => inferInstanceAs (Decidable (s.Lives cur ∧
      ∃ space ∈ s.space cur, ∀ k < pgCnt, space.Maps (vaddr / pgSize + k)))
  | .exit cur => inferInstanceAs (Decidable (s.Lives cur))
  | .wait parent child => inferInstanceAs (Decidable (s.Lives parent ∧
      ∃ space ∈ s.space child, space.hanging = true ∧ space.parentPid = some parent))

/-- One call, if it can be made. -/
def pageStep (s : Pages pools) (op : PageOp) : Option (Pages pools) :=
  if PageEnabled s op then ((pageExec op).run s).toOption.map Prod.snd else none

theorem pageStep_sound {op : PageOp} (stepped : pageStep s op = some s') :
    (pages pools).step s op s' := by
  unfold pageStep at stepped
  split_ifs at stepped with enabled
  cases ran : (pageExec op).run s with
  | error fault =>
      rw [ran] at stepped
      cases stepped
  | ok result =>
      rw [ran] at stepped
      cases stepped
      exact ⟨enabled, ran⟩

/-- A machine with three megabytes of memory. -/
def somePools : Pools := memPoolSizes 0x300000

/-- The state that a call leaves, or the one before it where it stopped the machine. -/
def pagesAfter {α : Type} (call : PageCall somePools α) (s : Pages somePools) : Pages somePools :=
  ((call.run s).toOption.map Prod.snd).getD s

theorem run_pagesAfter {α : Type} {call : PageCall somePools α} {s : Pages somePools} {a : α}
    (returned : valueOf call s = some a) : call.run s = .ok (a, pagesAfter call s) := by
  obtain ⟨s', ran⟩ := exists_of_valueOf returned
  rw [pagesAfter, ran]
  rfl

/-- The pages when the first process runs. -/
def firstPages : Pages somePools := pagesAfter (processExecute 1) memPoolInit

theorem firstPages_initial : (processExecute 1).run memPoolInit = .ok ((), firstPages) :=
  run_pagesAfter (by decide +kernel)

theorem firstSpace_known : (firstPages.space 1).isSome = true := by decide +kernel

/-- The first process. -/
def firstSpace : Space := (firstPages.space 1).get firstSpace_known

theorem firstSpace_stack : firstSpace.vaddrBitmap = stackBitmap := by
  obtain ⟨space, known, stack⟩ := processExecute_bitmap firstPages_initial
  rw [← stack]
  exact congrArg Space.vaddrBitmap (Option.get_of_eq_some _ known)

/-- The pages when the control block of the child is allocated. -/
def pcbPages : Pages somePools := pagesAfter (getKernelPages 1 1) firstPages

theorem pcbPages_returned : (getKernelPages 1 1).run firstPages =
    .ok (some (kHeapStart + 25 * pgSize), pcbPages) :=
  run_pagesAfter (by decide +kernel)

theorem pcbPages_space : (spaceOf 1).run pcbPages = .ok (firstSpace, pcbPages) := by
  have same := (mallocPage_kernel accounts_nothing pcbPages_returned).1
  rw [spaceOf, call_bind_of (call_get_returns.mpr ⟨rfl, rfl⟩), same,
    ← Option.some_get firstSpace_known]
  rfl

/-- The first process forks; the child allocates three pages, frees two of them and exits, and
is reaped. -/
theorem someLife : ∃ s s₁ m s₂ s₃ s₄ : Pages somePools, (pages somePools).initial s ∧
    (pages somePools).step s (.fork 1 2) s₁ ∧ (pages somePools).step s₁ (.malloc 2 3) m ∧
    (pages somePools).step m (.mfree 2 0x8049000 2) s₂ ∧
    (pages somePools).step s₂ (.exit 2) s₃ ∧ (pages somePools).step s₃ (.wait 1 2) s₄ ∧
    s.freeFrames .kernel = 38 ∧ s₄.freeFrames .kernel = 37 := by
  have enabled : PageEnabled firstPages (.fork 1 2) := by decide +kernel
  have forks : (sysFork 1 2).run firstPages =
      (copyProcess 1 2 (kHeapStart + 25 * pgSize)).run pcbPages := by
    rw [sysFork, call_bind_of pcbPages_returned]
  have ran : ((pageStep firstPages (.fork 1 2)).bind fun s₁ =>
      (pageStep s₁ (.malloc 2 3)).bind fun m =>
      (pageStep m (.mfree 2 0x8049000 2)).bind fun s₂ => (pageStep s₂ (.exit 2)).bind fun s₃ =>
      (pageStep s₃ (.wait 1 2)).map fun s₄ => s₄.freeFrames .kernel) = some 37 := by
    -- The loop over the bytes of the bitmap passes all but the last.
    rw [pageStep, if_pos enabled, pageExec, StateT.run_bind, forks, copyProcess,
      call_bind_of pcbPages_space]
    simp only [stackBitmap_body firstSpace_stack]
    decide +kernel
  obtain ⟨s₁, forked, ran⟩ := Option.bind_eq_some_iff.mp ran
  obtain ⟨m, got, ran⟩ := Option.bind_eq_some_iff.mp ran
  obtain ⟨s₂, freed, ran⟩ := Option.bind_eq_some_iff.mp ran
  obtain ⟨s₃, exited, ran⟩ := Option.bind_eq_some_iff.mp ran
  obtain ⟨s₄, reaped, after⟩ := Option.map_eq_some_iff.mp ran
  have before : firstPages.freeFrames .kernel = 38 := by decide +kernel
  exact ⟨firstPages, s₁, m, s₂, s₃, s₄, firstPages_initial, pageStep_sound forked,
    pageStep_sound got, pageStep_sound freed, pageStep_sound exited, pageStep_sound reaped,
    before, after⟩

/-- The theorem for a child that allocates three pages and frees two. -/
theorem child_costs_one_frame_some : ∃ s s₄ : Pages somePools,
    s₄.freeFrames .kernel + 1 = s.freeFrames .kernel := by
  obtain ⟨s, s₁, m, s₂, s₃, s₄, -, forked, got, freed, exited, reaped, -⟩ := someLife
  have none : ((pages somePools).under fun _ op => op.OfHeap 2).Steps s₁ [] s₁ := .nil
  have first : PageOp.OfHeap 2 (.malloc 2 3) := rfl
  have second : PageOp.OfHeap 2 (.mfree 2 0x8049000 2) := rfl
  have lived := (none.snoc (.malloc 2 3) ⟨first, got⟩).snoc (.mfree 2 0x8049000 2) ⟨second, freed⟩
  exact ⟨s, s₄, (child_costs_one_frame forked lived exited reaped).2.1⟩

/-- After the life of a child, from the first state on, a frame is missing. -/
theorem frame_missing : ∃ s s₁ m s₂ s₃ s₄ : Pages somePools, (pages somePools).initial s ∧
    (pages somePools).step s (.fork 1 2) s₁ ∧ (pages somePools).step s₁ (.malloc 2 3) m ∧
    (pages somePools).step m (.mfree 2 0x8049000 2) s₂ ∧
    (pages somePools).step s₂ (.exit 2) s₃ ∧ (pages somePools).step s₃ (.wait 1 2) s₄ ∧
    ¬ SameFree s s₄ := by
  obtain ⟨s, s₁, m, s₂, s₃, s₄, start, forked, got, freed, exited, reaped, before, after⟩ :=
    someLife
  refine ⟨s, s₁, m, s₂, s₃, s₄, start, forked, got, freed, exited, reaped, fun same => ?_⟩
  have equal := same.1
  rw [before, after] at equal
  cases equal

end UKernel.Paging
