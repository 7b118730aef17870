import UKernel.Memory.Arena

/-! # The invariant of the heap

The invariant is about the heap of one task: its free lists, the arenas in its address space
and its live blocks. The free list of a class holds the blocks of the task's own arenas of
that class that are not live, each once, and an arena counts its blocks on that list. An arena
whose descriptor belongs to another task only has to keep to its page.
-/

namespace UKernel.Memory

open UKernel.Library

/-! ## Address arithmetic -/

section Arithmetic

variable {p q b b' : Nat} {c c' : DescIdx} {i j : Nat}

theorem blockSize_le (c : DescIdx) : 16 ≤ blockSize c ∧ blockSize c ≤ 1024 := by
  revert c
  decide

theorem blocksPerArena_le (c : DescIdx) : 0 < blocksPerArena c ∧ blocksPerArena c ≤ 255 := by
  revert c
  decide

theorem blocks_fit (c : DescIdx) : blocksPerArena c * blockSize c + arenaSize ≤ pgSize := by
  revert c
  decide

/-- Block `i` lies in its page, past the header. -/
theorem arena2block_bounds (inside : i < blocksPerArena c) :
    p + arenaSize ≤ arena2block p c i ∧ arena2block p c i + blockSize c ≤ p + pgSize := by
  have row : (i + 1) * blockSize c ≤ blocksPerArena c * blockSize c :=
    Nat.mul_le_mul_right _ inside
  have fit := blocks_fit c
  have next : (i + 1) * blockSize c = i * blockSize c + blockSize c := Nat.succ_mul _ _
  simp only [arena2block, arenaSize, pgSize] at *
  omega

/-- Blocks with different indices do not overlap. -/
theorem arena2block_apart (before : i < j) :
    arena2block p c i + blockSize c ≤ arena2block p c j := by
  have row : (i + 1) * blockSize c ≤ j * blockSize c := Nat.mul_le_mul_right _ before
  have next : (i + 1) * blockSize c = i * blockSize c + blockSize c := Nat.succ_mul _ _
  unfold arena2block
  omega

theorem arena2block_injective : Function.Injective (arena2block p c) := by
  intro i j same
  have positive := (blockSize_le c).1
  by_contra distinct
  rcases Nat.lt_or_gt_of_ne distinct with before | after
  · have := arena2block_apart (p := p) (c := c) before
    omega
  · have := arena2block_apart (p := p) (c := c) after
    omega

/-- An address inside an aligned page is masked to the start of the page. -/
theorem block2arena_eq (aligned : p % pgSize = 0) (low : p ≤ b) (high : b < p + pgSize) :
    block2arena b = p := by
  simp only [block2arena, pgSize] at *
  omega

/-- The address is a block of an arena of the given class at the given page. -/
def IsBlock (p : Nat) (c : DescIdx) (b : Nat) : Prop :=
  ∃ i < blocksPerArena c, b = arena2block p c i

theorem mem_arenaBlocks : b ∈ arenaBlocks p c ↔ IsBlock p c b := by
  simp only [arenaBlocks, List.mem_map, List.mem_range, IsBlock]
  exact exists_congr fun i => and_congr_right fun _ => eq_comm

theorem arenaBlocks_nodup : (arenaBlocks p c).Nodup :=
  List.nodup_range.map arena2block_injective

theorem arenaBlocks_length : (arenaBlocks p c).length = blocksPerArena c := by
  simp [arenaBlocks]

theorem IsBlock.bounds (block : IsBlock p c b) :
    p + arenaSize ≤ b ∧ b + blockSize c ≤ p + pgSize := by
  obtain ⟨i, inside, rfl⟩ := block
  exact arena2block_bounds inside

theorem IsBlock.page (block : IsBlock p c b) (aligned : p % pgSize = 0) : block2arena b = p := by
  obtain ⟨low, high⟩ := block.bounds
  have positive := (blockSize_le c).1
  exact block2arena_eq aligned (Nat.le_of_add_right_le low) (by omega)

theorem IsBlock.apart (block : IsBlock p c b) (block' : IsBlock p c b') (distinct : b ≠ b') :
    b + blockSize c ≤ b' ∨ b' + blockSize c ≤ b := by
  obtain ⟨i, -, rfl⟩ := block
  obtain ⟨j, -, rfl⟩ := block'
  have : i ≠ j := fun same => distinct (congrArg _ same)
  exact (Nat.lt_or_gt_of_ne this).imp arena2block_apart arena2block_apart

end Arithmetic

/-! ## The two loops over the blocks of an arena -/

/-- Appending distinct new blocks. -/
theorem appendBlocks_ok {list blocks : List Nat} (distinct : (list ++ blocks).Nodup) :
    appendBlocks list blocks = .ok (list ++ blocks) := by
  induction blocks generalizing list with
  | nil => simp [appendBlocks]
  | cons b blocks ih =>
      have absent : b ∉ list := by
        intro member
        exact List.disjoint_of_nodup_append distinct member (List.mem_cons_self ..)
      have next : (list ++ [b] ++ blocks).Nodup := by simpa using distinct
      simp [appendBlocks, require_of absent, ih next]

/-- Removing distinct blocks that are all on the list. -/
theorem removeBlocks_ok {list blocks : List Nat} (nodup : list.Nodup) (distinct : blocks.Nodup)
    (listed : ∀ b ∈ blocks, b ∈ list) :
    removeBlocks list blocks = .ok (list.filter (· ∉ blocks)) := by
  induction blocks generalizing list with
  | nil => simp [removeBlocks]
  | cons b blocks ih =>
      obtain ⟨absent, rest⟩ := List.nodup_cons.mp distinct
      have still : ∀ x ∈ blocks, x ∈ list.erase b := fun x member =>
        (nodup.mem_erase_iff).mpr
          ⟨fun same => absent (same ▸ member), listed x (List.mem_cons_of_mem _ member)⟩
      have here : b ∈ list := listed b (List.mem_cons_self ..)
      simp only [removeBlocks, require_of here, except_ok_bind, ih (nodup.erase b) rest still]
      rw [nodup.erase_eq_filter, List.filter_filter]
      congr 1
      refine List.filter_congr fun x _ => ?_
      by_cases same : x = b <;> simp [same]

/-! ## The invariant -/

section Invariant

variable {Task : Type}

/-- A live block of the given size fits an arena: it is one of its small blocks, or all of
its pages past the header. -/
def Arena.Fits (a : Arena Task) (p b size : Nat) : Prop :=
  match a.desc with
  | some desc => IsBlock p desc.2 b ∧ size ≤ blockSize desc.2
  | none => b = p + arenaSize ∧ size + arenaSize ≤ a.cnt * pgSize

/-- The invariant of one task's heap. -/
structure HeapInv (pool : Pool) (t : Task) (lists : DescIdx → List Nat)
    (arena : Nat → Option (Arena Task)) (live : Nat → Option Nat) : Prop where
  pages : ∀ p a, arena p = some a → p % pgSize = 0 ∧ pool.vaddrStart ≤ p ∧
    p + a.pages * pgSize ≤ 2 ^ 32 ∧ 1 ≤ a.pages
  apart : ∀ p q a a', arena p = some a → arena q = some a' → p ≠ q →
    p + a.pages * pgSize ≤ q ∨ q + a'.pages * pgSize ≤ p
  shape : ∀ p a, arena p = some a → (a.desc = none ↔ a.large = true)
  free_nodup : ∀ c, (lists c).Nodup
  free_exact : ∀ c b, b ∈ lists c ↔
    (∃ p a, arena p = some a ∧ a.desc = some (t, c) ∧ IsBlock p c b) ∧ live b = none
  count : ∀ p a c, arena p = some a → a.desc = some (t, c) →
    a.cnt = ((lists c).filter (block2arena · = p)).length
  live_fits : ∀ b size, live b = some size → ∃ p a, arena p = some a ∧ a.Fits p b size

/-- No arena of the task is entirely free. -/
def NoneUnused (t : Task) (arena : Nat → Option (Arena Task)) : Prop :=
  ∀ p a c, arena p = some a → a.desc = some (t, c) → a.cnt < blocksPerArena c

variable {pool : Pool} {t : Task} {lists : DescIdx → List Nat}
  {arena : Nat → Option (Arena Task)} {live : Nat → Option Nat} {p b size : Nat}
  {a : Arena Task} {c : DescIdx}

theorem Arena.pages_small (small : a.large = false) : a.pages = 1 := by
  simp [Arena.pages, small]

theorem Arena.pages_large (large : a.large = true) : a.pages = a.cnt := by
  simp [Arena.pages, large]

/-- A block that fits an arena determines the arena's page. -/
theorem Arena.Fits.page (fits : a.Fits p b size) (aligned : p % pgSize = 0) :
    block2arena b = p := by
  unfold Arena.Fits at fits
  split at fits
  · exact fits.1.page aligned
  · rw [fits.1]
    exact block2arena_eq aligned (Nat.le_add_right _ _) (by simp [pgSize, arenaSize])

namespace HeapInv

/-- Nothing is live in a page without an arena. -/
theorem live_none (inv : HeapInv pool t lists arena live) (absent : arena p = none)
    (inside : block2arena b = p) : live b = none := by
  by_contra something
  obtain ⟨size, alive⟩ := Option.ne_none_iff_exists'.mp something
  obtain ⟨q, a, present, fits⟩ := inv.live_fits b size alive
  have page := fits.page (inv.pages q a present).1
  rw [← page, inside, absent] at present
  cases present

/-- The arena at a page is small if it has a descriptor. -/
theorem small (inv : HeapInv pool t lists arena live) (present : arena p = some a)
    {desc : Task × DescIdx} (described : a.desc = some desc) : a.large = false := by
  have shape := inv.shape p a present
  rw [described] at shape
  simpa using shape

/-- The blocks of an arena that are on a free list are blocks of that arena. -/
theorem filter_subset (inv : HeapInv pool t lists arena live) :
    ((lists c).filter (block2arena · = p)) ⊆ arenaBlocks p c := by
  intro b member
  obtain ⟨listed, inside⟩ := List.mem_filter.mp member
  obtain ⟨⟨q, a', present', -, block⟩, -⟩ := (inv.free_exact c b).mp listed
  have page := block.page (inv.pages q a' present').1
  have same : q = p := page.symm.trans (by simpa using inside)
  exact mem_arenaBlocks.mpr (same ▸ block)

/-- An arena counts at most all of its blocks. -/
theorem count_le (inv : HeapInv pool t lists arena live) (present : arena p = some a)
    (described : a.desc = some (t, c)) : a.cnt ≤ blocksPerArena c := by
  rw [inv.count p a c present described, ← arenaBlocks_length (p := p)]
  exact (List.subperm_of_subset ((inv.free_nodup c).filter _)
    inv.filter_subset).length_le

/-- An arena that counts all of its blocks has all of them on the free list. -/
theorem all_free (inv : HeapInv pool t lists arena live) (present : arena p = some a)
    (described : a.desc = some (t, c)) (full : a.cnt = blocksPerArena c)
    (block : IsBlock p c b) : b ∈ lists c := by
  have nodup : ((lists c).filter (block2arena · = p)).Nodup := (inv.free_nodup c).filter _
  have same : ((lists c).filter (block2arena · = p)).Perm (arenaBlocks p c) := by
    refine (List.subperm_of_subset nodup inv.filter_subset).perm_of_length_le ?_
    rw [arenaBlocks_length, ← full]
    exact Nat.le_of_eq (inv.count p a c present described)
  exact (List.mem_filter.mp (same.mem_iff.mpr (mem_arenaBlocks.mpr block))).1

/-- An arena with a live block does not count all of its blocks. -/
theorem count_lt (inv : HeapInv pool t lists arena live) (present : arena p = some a)
    (described : a.desc = some (t, c)) (block : IsBlock p c b) (alive : live b = some size) :
    a.cnt < blocksPerArena c := by
  refine Nat.lt_of_le_of_ne (inv.count_le present described) fun full => ?_
  have listed := inv.all_free present described full block
  have := ((inv.free_exact c b).mp listed).2
  rw [alive] at this
  cases this

end HeapInv

/-! ## What the operations do to the invariant -/

/-- An unheld page carries no arena. -/
theorem Unheld.absent {pgCnt : Nat} (unheld : Unheld pool arena p pgCnt)
    (positive : 0 < pgCnt) (inv : HeapInv pool t lists arena live) : arena p = none := by
  by_contra something
  obtain ⟨a, present⟩ := Option.ne_none_iff_exists'.mp something
  have held := (inv.pages p a present).2.2.2
  have outside := unheld.2.2.2 p a present
  simp only [pgSize] at outside
  omega

section Pages

variable (header : Arena Task)

/-- The facts about pages survive a new arena on unheld pages. -/
theorem HeapInv.pages_add (inv : HeapInv pool t lists arena live)
    (unheld : Unheld pool arena p header.pages) (positive : 1 ≤ header.pages) :
    (∀ q a, Function.update arena p (some header) q = some a → q % pgSize = 0 ∧
      pool.vaddrStart ≤ q ∧ q + a.pages * pgSize ≤ 2 ^ 32 ∧ 1 ≤ a.pages) ∧
    (∀ q q' a a', Function.update arena p (some header) q = some a →
      Function.update arena p (some header) q' = some a' → q ≠ q' →
      q + a.pages * pgSize ≤ q' ∨ q' + a'.pages * pgSize ≤ q) := by
  refine ⟨fun q a present => ?_, fun q q' a a' present present' distinct => ?_⟩
  · by_cases same : q = p
    · subst same
      rw [Function.update_self] at present
      cases present
      exact ⟨unheld.1, unheld.2.1, unheld.2.2.1, positive⟩
    · rw [Function.update_of_ne same] at present
      exact inv.pages q a present
  · by_cases same : q = p
    · subst same
      rw [Function.update_self] at present
      rw [Function.update_of_ne distinct.symm] at present'
      cases present
      exact unheld.2.2.2 q' a' present'
    · rw [Function.update_of_ne same] at present
      by_cases same' : q' = p
      · subst same'
        rw [Function.update_self] at present'
        cases present'
        exact (unheld.2.2.2 q a present).symm
      · rw [Function.update_of_ne same'] at present'
        exact inv.apart q q' a a' present present' distinct

/-- A header rewritten with the same extent keeps the facts about pages. -/
theorem HeapInv.pages_set (inv : HeapInv pool t lists arena live) (present : arena p = some a)
    (extent : header.pages = a.pages) :
    (∀ q a, Function.update arena p (some header) q = some a → q % pgSize = 0 ∧
      pool.vaddrStart ≤ q ∧ q + a.pages * pgSize ≤ 2 ^ 32 ∧ 1 ≤ a.pages) ∧
    (∀ q q' a a', Function.update arena p (some header) q = some a →
      Function.update arena p (some header) q' = some a' → q ≠ q' →
      q + a.pages * pgSize ≤ q' ∨ q' + a'.pages * pgSize ≤ q) := by
  have before : ∀ q b, Function.update arena p (some header) q = some b →
      ∃ old, arena q = some old ∧ b.pages = old.pages := by
    intro q b found
    by_cases same : q = p
    · subst same
      rw [Function.update_self] at found
      cases found
      exact ⟨a, present, extent⟩
    · rw [Function.update_of_ne same] at found
      exact ⟨b, found, rfl⟩
  refine ⟨fun q b found => ?_, fun q q' b b' found found' distinct => ?_⟩
  · obtain ⟨old, was, equal⟩ := before q b found
    rw [equal]
    exact inv.pages q old was
  · obtain ⟨old, was, equal⟩ := before q b found
    obtain ⟨old', was', equal'⟩ := before q' b' found'
    rw [equal, equal']
    exact inv.apart q q' old old' was was' distinct

end Pages

/-- A large block on unheld pages. -/
theorem HeapInv.addLarge (inv : HeapInv pool t lists arena live) {cnt : Nat}
    (unheld : Unheld pool arena p cnt) (positive : 0 < cnt)
    (room : size + arenaSize ≤ cnt * pgSize) :
    HeapInv pool t lists (Function.update arena p (some ⟨none, cnt, true⟩))
      (Function.update live (p + arenaSize) (some size)) := by
  have absent := unheld.absent positive inv
  have elsewhere : ∀ q a, arena q = some a → q ≠ p := by
    rintro q a present rfl
    simp [absent] at present
  have inside : block2arena (p + arenaSize) = p :=
    block2arena_eq unheld.1 (Nat.le_add_right _ _) (by simp [pgSize, arenaSize])
  obtain ⟨pages, apart⟩ := inv.pages_add ⟨none, cnt, true⟩ unheld positive
  refine ⟨pages, apart, fun q a present => ?_, inv.free_nodup, fun c b => ?_,
    fun q a c present described => ?_, fun b n alive => ?_⟩
  · by_cases same : q = p
    · subst same
      rw [Function.update_self] at present
      cases present
      simp
    · rw [Function.update_of_ne same] at present
      exact inv.shape q a present
  · rw [inv.free_exact]
    constructor
    · rintro ⟨⟨q, a, present, described, block⟩, dead⟩
      have other := elsewhere q a present
      refine ⟨⟨q, a, by rwa [Function.update_of_ne other], described, block⟩, ?_⟩
      rw [Function.update_of_ne]
      · exact dead
      · rintro rfl
        exact other ((block.page (inv.pages q a present).1).symm.trans inside)
    · rintro ⟨⟨q, a, present, described, block⟩, dead⟩
      have other : q ≠ p := by
        rintro rfl
        rw [Function.update_self] at present
        cases present
        cases described
      rw [Function.update_of_ne other] at present
      refine ⟨⟨q, a, present, described, block⟩, ?_⟩
      by_cases same : b = p + arenaSize
      · rw [same, Function.update_self] at dead
        cases dead
      · rwa [Function.update_of_ne same] at dead
  · have other : q ≠ p := by
      rintro rfl
      rw [Function.update_self] at present
      cases present
      cases described
    rw [Function.update_of_ne other] at present
    exact inv.count q a c present described
  · by_cases same : b = p + arenaSize
    · rw [same, Function.update_self] at alive
      cases alive
      exact ⟨p, _, Function.update_self .., same, room⟩
    · rw [Function.update_of_ne same] at alive
      obtain ⟨q, a, present, fits⟩ := inv.live_fits b n alive
      exact ⟨q, a, by rwa [Function.update_of_ne (elsewhere q a present)], fits⟩

/-- A fresh page split into blocks, when the free list of the class is empty. -/
theorem HeapInv.addSmall (inv : HeapInv pool t lists arena live) (empty : lists c = [])
    (unheld : Unheld pool arena p 1) :
    HeapInv pool t (Function.update lists c (arenaBlocks p c))
      (Function.update arena p (some ⟨some (t, c), blocksPerArena c, false⟩)) live := by
  have absent := unheld.absent Nat.one_pos inv
  have elsewhere : ∀ q a, arena q = some a → q ≠ p := by
    rintro q a present rfl
    simp [absent] at present
  obtain ⟨pages, apart⟩ := inv.pages_add
    ⟨some (t, c), blocksPerArena c, false⟩ unheld (Nat.le_refl 1)
  refine ⟨pages, apart, fun q a present => ?_, fun d => ?_, fun d b => ?_,
    fun q a d present described => ?_, fun b n alive => ?_⟩
  · by_cases same : q = p
    · subst same
      rw [Function.update_self] at present
      cases present
      simp
    · rw [Function.update_of_ne same] at present
      exact inv.shape q a present
  · by_cases same : d = c
    · subst same
      rw [Function.update_self]
      exact arenaBlocks_nodup
    · rw [Function.update_of_ne same]
      exact inv.free_nodup d
  · have known := inv.free_exact d b
    constructor
    · intro listed
      by_cases same : d = c
      · subst same
        rw [Function.update_self] at listed
        have block := mem_arenaBlocks.mp listed
        exact ⟨⟨p, _, Function.update_self .., rfl, block⟩,
          inv.live_none absent (block.page unheld.1)⟩
      · rw [Function.update_of_ne same] at listed
        obtain ⟨⟨q, a, present, described, block⟩, dead⟩ := known.mp listed
        exact ⟨⟨q, a, by rwa [Function.update_of_ne (elsewhere q a present)], described, block⟩,
          dead⟩
    · rintro ⟨⟨q, a, present, described, block⟩, dead⟩
      by_cases here : q = p
      · subst here
        rw [Function.update_self] at present
        cases present
        cases described
        rw [Function.update_self]
        exact mem_arenaBlocks.mpr block
      · rw [Function.update_of_ne here] at present
        have listed := known.mpr ⟨⟨q, a, present, described, block⟩, dead⟩
        by_cases same : d = c
        · subst same
          rw [empty] at listed
          cases listed
        · rwa [Function.update_of_ne same]
  · by_cases here : q = p
    · subst here
      rw [Function.update_self] at present
      cases present
      cases described
      rw [Function.update_self, List.filter_eq_self.mpr, arenaBlocks_length]
      intro b member
      simpa using (mem_arenaBlocks.mp member).page unheld.1
    · rw [Function.update_of_ne here] at present
      have counted := inv.count q a d present described
      by_cases same : d = c
      · subst same
        rw [Function.update_self, counted, empty, List.filter_nil, eq_comm, List.length_nil,
          List.length_eq_zero_iff, List.filter_eq_nil_iff]
        intro b member
        rw [(mem_arenaBlocks.mp member).page unheld.1]
        simpa using Ne.symm here
      · rwa [Function.update_of_ne same]
  · obtain ⟨q, a, present, fits⟩ := inv.live_fits b n alive
    exact ⟨q, a, by rwa [Function.update_of_ne (elsewhere q a present)], fits⟩

/-- One block of an own arena becomes live or free, and the arena counts it. -/
theorem HeapInv.retally (inv : HeapInv pool t lists arena live) (present : arena p = some a)
    (described : a.desc = some (t, c)) (block : IsBlock p c b) (list : List Nat)
    (state : Option Nat) (nodup : list.Nodup)
    (others : ∀ x, x ≠ b → (x ∈ list ↔ x ∈ lists c)) (here : b ∈ list ↔ state = none)
    (room : ∀ size, state = some size → size ≤ blockSize c)
    (tail : ∀ q, q ≠ p → list.filter (block2arena · = q) = (lists c).filter (block2arena · = q)) :
    HeapInv pool t (Function.update lists c list)
      (Function.update arena p
        (some { a with cnt := (list.filter (block2arena · = p)).length }))
      (Function.update live b state) := by
  have small := inv.small present described
  have inside := block.page (inv.pages p a present).1
  obtain ⟨pages, apart⟩ := inv.pages_set
    { a with cnt := (list.filter (block2arena · = p)).length } present
    (by simp [Arena.pages, small])
  -- Every header keeps its descriptor.
  have before : ∀ q a', Function.update arena p
      (some { a with cnt := (list.filter (block2arena · = p)).length }) q = some a' →
      ∃ old, arena q = some old ∧ a'.desc = old.desc ∧ a'.large = old.large := by
    intro q a' found
    by_cases same : q = p
    · subst same
      rw [Function.update_self] at found
      cases found
      exact ⟨a, present, rfl, rfl⟩
    · rw [Function.update_of_ne same] at found
      exact ⟨a', found, rfl, rfl⟩
  have after : ∀ q old, arena q = some old → ∃ a', Function.update arena p
      (some { a with cnt := (list.filter (block2arena · = p)).length }) q = some a' ∧
      a'.desc = old.desc ∧ (old.desc = none → a' = old) := by
    intro q old found
    by_cases same : q = p
    · subst same
      cases present.symm.trans found
      exact ⟨_, Function.update_self .., rfl, by simp [described]⟩
    · exact ⟨old, by rwa [Function.update_of_ne same], rfl, fun _ => rfl⟩
  refine ⟨pages, apart, fun q a' found => ?_, fun d => ?_, fun d x => ?_,
    fun q a' d found desc => ?_, fun x n alive => ?_⟩
  · obtain ⟨old, was, desc, large⟩ := before q a' found
    rw [desc, large]
    exact inv.shape q old was
  · by_cases same : d = c
    · subst same
      rwa [Function.update_self]
    · rw [Function.update_of_ne same]
      exact inv.free_nodup d
  · have headers : (∃ q a', Function.update arena p
        (some { a with cnt := (list.filter (block2arena · = p)).length }) q = some a' ∧
        a'.desc = some (t, d) ∧ IsBlock q d x) ↔
        (∃ q a', arena q = some a' ∧ a'.desc = some (t, d) ∧ IsBlock q d x) := by
      constructor
      · rintro ⟨q, a', found, desc, isBlock⟩
        obtain ⟨old, was, same, -⟩ := before q a' found
        exact ⟨q, old, was, same ▸ desc, isBlock⟩
      · rintro ⟨q, old, was, desc, isBlock⟩
        obtain ⟨a', found, same, -⟩ := after q old was
        exact ⟨q, a', found, same ▸ desc, isBlock⟩
    rw [headers]
    have known := inv.free_exact d x
    by_cases this : x = b
    · subst this
      rw [Function.update_self]
      by_cases same : d = c
      · subst same
        rw [Function.update_self, here]
        exact ⟨fun free => ⟨⟨p, a, present, described, block⟩, free⟩, And.right⟩
      · rw [Function.update_of_ne same]
        -- A block belongs to one class only, the class of its arena.
        have otherClass : ¬ ∃ q a', arena q = some a' ∧ a'.desc = some (t, d) ∧
            IsBlock q d x := by
          rintro ⟨q, a', found, desc, isBlock⟩
          have page := isBlock.page (inv.pages q a' found).1
          rw [← page, inside, present] at found
          cases found
          rw [described] at desc
          cases desc
          exact same rfl
        exact iff_of_false (fun listed => otherClass (known.mp listed).1)
          (fun both => otherClass both.1)
    · rw [Function.update_of_ne this, ← known]
      by_cases same : d = c
      · subst same
        rw [Function.update_self]
        exact others x this
      · rw [Function.update_of_ne same]
  · by_cases here' : q = p
    · subst here'
      rw [Function.update_self] at found
      cases found
      cases described.symm.trans desc
      rw [Function.update_self]
    · rw [Function.update_of_ne here'] at found
      rw [inv.count q a' d found desc]
      by_cases same : d = c
      · subst same
        rw [Function.update_self, tail q here']
      · rw [Function.update_of_ne same]
  · by_cases this : x = b
    · subst this
      rw [Function.update_self] at alive
      refine ⟨p, _, Function.update_self .., ?_⟩
      simp only [Arena.Fits, described]
      exact ⟨block, room n alive⟩
    · rw [Function.update_of_ne this] at alive
      obtain ⟨q, old, was, fits⟩ := inv.live_fits x n alive
      obtain ⟨a', found, desc, unchanged⟩ := after q old was
      refine ⟨q, a', found, ?_⟩
      cases kind : old.desc with
      | none => rwa [unchanged kind]
      | some _ => simpa only [Arena.Fits, desc, kind] using fits

/-- An arena without live blocks is given back, its blocks off the free lists. -/
theorem HeapInv.remove (inv : HeapInv pool t lists arena live)
    {lists' : DescIdx → List Nat} {live' : Nat → Option Nat}
    (filtered : ∀ c, lists' c = (lists c).filter (block2arena · ≠ p))
    (dead : ∀ b, block2arena b = p → live' b = none)
    (others : ∀ b, block2arena b ≠ p → live' b = live b) :
    HeapInv pool t lists' (Function.update arena p none) live' := by
  have before : ∀ q a, Function.update arena p none q = some a → q ≠ p ∧ arena q = some a := by
    intro q a found
    by_cases same : q = p
    · rw [same, Function.update_self] at found
      cases found
    · rw [Function.update_of_ne same] at found
      exact ⟨same, found⟩
  refine ⟨fun q a found => inv.pages q a (before q a found).2,
    fun q q' a a' found found' => inv.apart q q' a a' (before q a found).2 (before q' a' found').2,
    fun q a found => inv.shape q a (before q a found).2,
    fun c => filtered c ▸ (inv.free_nodup c).filter _, fun c b => ?_,
    fun q a c found described => ?_, fun b n alive => ?_⟩
  · rw [filtered, List.mem_filter, inv.free_exact]
    constructor
    · rintro ⟨⟨⟨q, a, present, described, block⟩, free⟩, outside⟩
      have page := block.page (inv.pages q a present).1
      have apart : block2arena b ≠ p := by simpa using outside
      have other : q ≠ p := fun same => apart (page.trans same)
      exact ⟨⟨q, a, by rwa [Function.update_of_ne other], described, block⟩,
        (others b apart).trans free⟩
    · rintro ⟨⟨q, a, found, described, block⟩, free⟩
      obtain ⟨other, present⟩ := before q a found
      have page := block.page (inv.pages q a present).1
      have apart : block2arena b ≠ p := fun same => other (page.symm.trans same)
      exact ⟨⟨⟨q, a, present, described, block⟩, (others b apart).symm.trans free⟩,
        by simpa using apart⟩
  · obtain ⟨other, present⟩ := before q a found
    rw [inv.count q a c present described, filtered, List.filter_filter]
    congr 1
    refine List.filter_congr fun b _ => ?_
    by_cases same : block2arena b = q <;> simp [same, other]
  · have outside : block2arena b ≠ p := by
      intro inside
      rw [dead b inside] at alive
      cases alive
    rw [others b outside] at alive
    obtain ⟨q, a, present, fits⟩ := inv.live_fits b n alive
    have page := fits.page (inv.pages q a present).1
    have other : q ≠ p := fun same => outside (page.trans same)
    exact ⟨q, a, by rwa [Function.update_of_ne other], fits⟩

end Invariant

end UKernel.Memory
