import UKernel.Memory.HeapCalls

/-! # The heap of one task

Over any sequence of calls, live blocks do not overlap and lie in their pages, and the free
lists and the counters of the arenas agree.
-/

namespace UKernel.Memory

open UKernel.Library

variable {Task : Type} {pool : Pool} {s next : HeapState Task} {t : Task} {size ptr : Nat}
  {answer : PageAnswer}

/-- The invariant of a task's heap between two calls. -/
structure HeapOk (pool : Pool) (s : HeapState Task) (t : Task) : Prop where
  inv : HeapInv pool t (s.freeList t) (s.arena t) (s.live t)
  unused : NoneUnused t (s.arena t)
  whole : ∀ c, s.torn t c = false

/-- Every descriptor in the task's address space is its own. -/
def NoForeign (s : HeapState Task) (t : Task) : Prop :=
  ∀ p a desc, s.arena t p = some a → a.desc = some desc → desc.1 = t

/-- The number of bytes of each block of an arena. -/
def Arena.extent (a : Arena Task) : Nat :=
  match a.desc with
  | some desc => blockSize desc.2
  | none => a.pages * pgSize - arenaSize

theorem blockDescInit_ok (pool : Pool) (t : Task) : HeapOk pool blockDescInit t where
  inv :=
    { pages := by simp [blockDescInit]
      apart := by simp [blockDescInit]
      shape := by simp [blockDescInit]
      free_nodup := fun _ => List.nodup_nil
      free_exact := fun c b => by simp [blockDescInit]
      count := by simp [blockDescInit]
      live_fits := by simp [blockDescInit] }
  unused := by simp [NoneUnused, blockDescInit]
  whole := fun _ => rfl

namespace HeapOk

/-- A live block lies in the pages of its arena past the header. -/
theorem inside (ok : HeapOk pool s t) (alive : s.live t ptr = some size) :
    ∃ a, s.arena t (block2arena ptr) = some a ∧ a.Fits (block2arena ptr) ptr size ∧
      size ≤ a.extent ∧ block2arena ptr + arenaSize ≤ ptr ∧
      ptr + a.extent ≤ block2arena ptr + a.pages * pgSize := by
  obtain ⟨p, a, present, fits⟩ := ok.inv.live_fits ptr size alive
  have page := fits.page (ok.inv.pages p a present).1
  rw [page]
  refine ⟨a, present, fits, ?_⟩
  cases kind : a.desc with
  | none =>
      simp only [Arena.Fits, Arena.extent, kind] at fits ⊢
      have large := Arena.pages_large ((ok.inv.shape p a present).mp kind)
      simp only [large, arenaSize, pgSize] at *
      omega
  | some desc =>
      simp only [Arena.Fits, Arena.extent, kind] at fits ⊢
      have bounds := fits.1.bounds
      have single := Arena.pages_small (ok.inv.small present kind)
      simp only [single, Nat.one_mul]
      exact ⟨fits.2, bounds⟩

/-- Two live blocks do not overlap. -/
theorem disjoint (ok : HeapOk pool s t) {ptr' size' : Nat} {a a' : Arena Task}
    (alive : s.live t ptr = some size) (alive' : s.live t ptr' = some size')
    (distinct : ptr ≠ ptr') (present : s.arena t (block2arena ptr) = some a)
    (present' : s.arena t (block2arena ptr') = some a') :
    ptr + a.extent ≤ ptr' ∨ ptr' + a'.extent ≤ ptr := by
  obtain ⟨b, found, fits, -, low, high⟩ := ok.inside alive
  obtain ⟨b', found', fits', -, low', high'⟩ := ok.inside alive'
  cases present.symm.trans found
  cases present'.symm.trans found'
  by_cases same : block2arena ptr = block2arena ptr'
  · rw [same] at present fits
    cases present.symm.trans present'
    cases kind : a.desc with
    | none =>
        simp only [Arena.Fits, kind] at fits fits'
        exact absurd (fits.1.trans fits'.1.symm) distinct
    | some desc =>
        simp only [Arena.Fits, Arena.extent, kind] at fits fits' ⊢
        exact fits.1.apart fits'.1 distinct
  · simp only [arenaSize] at low low'
    rcases ok.inv.apart _ _ a a' present present' same with before | after
    · exact .inl (by omega)
    · exact .inr (by omega)

/-- An arena counts its blocks on the free list of its class. -/
theorem counts (ok : HeapOk pool s t) {p : Nat} {a : Arena Task} {c : DescIdx}
    (present : s.arena t p = some a) (described : a.desc = some (t, c)) :
    a.cnt = ((s.freeList t c).filter (· ∈ arenaBlocks p c)).length := by
  rw [ok.inv.count p a c present described]
  congr 1
  refine List.filter_congr fun b listed => decide_eq_decide.mpr ⟨fun here => ?_, fun here => ?_⟩
  · exact ok.inv.filter_subset (List.mem_filter.mpr ⟨listed, by simpa using here⟩)
  · exact (mem_arenaBlocks.mp here).page (ok.inv.pages p a present).1

/-- Every block on a free list belongs to an arena. -/
theorem listed_page (ok : HeapOk pool s t) {c : DescIdx} (listed : ptr ∈ s.freeList t c) :
    ∃ a, s.arena t (block2arena ptr) = some a := by
  obtain ⟨⟨p, a, present, -, block⟩, -⟩ := (ok.inv.free_exact c ptr).mp listed
  exact ⟨a, (block.page (ok.inv.pages p a present).1).symm ▸ present⟩

end HeapOk

section Calls

variable [DecidableEq Task]

/-- A request restores the invariant and touches nothing of another task. -/
theorem heapExec_malloc_ok (ok : HeapOk pool s t) (asks : Asks pool size)
    (granted : Granted pool s.toHeap t size answer)
    (enabled : HeapEnabled pool s (.malloc t size answer)) :
    ∃ next, heapExec pool s (.malloc t size answer) = .ok next ∧ HeapOk pool next t ∧
      Framed t s.toHeap next.toHeap ∧ ∀ u, u ≠ t → next.live u = s.live u := by
  obtain ⟨block, h, ran, framed, unused, failed, kept⟩ :=
    sysMalloc_ok ok.whole ok.inv ok.unused asks granted enabled.1
  have whole : ∀ c, h.torn t c = false := fun c => by rw [framed.torn, ok.whole c]
  cases block with
  | none =>
      refine ⟨{ s with toHeap := h }, by simp [heapExec, ran], ⟨?_, unused, whole⟩, framed,
        fun _ _ => rfl⟩
      rw [failed rfl]
      exact ok.inv
  | some b =>
      refine ⟨⟨h, Function.update s.live t (Function.update (s.live t) b (some size))⟩,
        by simp [heapExec, ran], ⟨?_, unused, whole⟩, framed,
        fun u other => Function.update_of_ne other ..⟩
      simpa using kept b rfl

/-- A request returns only if `malloc_page` accepts the number of pages. -/
theorem asks_of_ok (ran : heapExec pool s (.malloc t size answer) = .ok next) :
    Asks pool size := by
  intro large inPool
  obtain ⟨⟨block, h⟩, called, -⟩ := except_bind_eq_ok.mp ran
  have served : 0 < size ∧ size < pool.poolSize := ⟨by omega, inPool⟩
  have more : size > 1024 := large
  simp only [sysMalloc, served, more, not_true, if_true, if_false, and_self, mallocLarge,
    mallocPage, except_bind_eq_ok, require_eq_ok] at called
  obtain ⟨-, ⟨⟨⟩, ⟨-, few⟩, -⟩, -⟩ := called
  exact few

/-- A request returns only if `malloc_page` does not stop. -/
theorem granted_of_ok (ran : heapExec pool s (.malloc t size answer) = .ok next) :
    Granted pool s.toHeap t size answer := by
  rintro ⟨served, needs⟩ rfl
  obtain ⟨⟨block, h⟩, called, -⟩ := except_bind_eq_ok.mp ran
  rw [sysMalloc, if_neg (not_not.mpr served)] at called
  by_cases large : size > 1024
  · rw [if_pos large] at called
    obtain ⟨_, asked, -⟩ := except_bind_eq_ok.mp called
    obtain ⟨_, -, stops⟩ := except_bind_eq_ok.mp asked
    cases stops
  · obtain ⟨c, selected, empty⟩ := needs.resolve_left large
    rw [if_neg large, mallocSmall, selected] at called
    dsimp only at called
    split at called
    · cases called
    obtain ⟨_, refilled, -⟩ := except_bind_eq_ok.mp called
    rw [refill, if_pos empty] at refilled
    obtain ⟨_, asked, -⟩ := except_bind_eq_ok.mp refilled
    obtain ⟨_, -, stops⟩ := except_bind_eq_ok.mp asked
    cases stops

/-- Freeing an own block restores the invariant and touches nothing of another task; the
page of an arena whose last block this was is given back. -/
theorem heapExec_free_ok (ok : HeapOk pool s t) (alive : s.live t ptr = some size)
    (owns : OwnsBlock t (s.arena t) ptr) :
    ∃ next, heapExec pool s (.free t ptr) = .ok next ∧ HeapOk pool next t ∧
      Framed t s.toHeap next.toHeap ∧ (∀ u, u ≠ t → next.live u = s.live u) ∧
      ∀ a c, s.arena t (block2arena ptr) = some a → a.desc = some (t, c) →
        a.cnt + 1 = blocksPerArena c → next.arena t (block2arena ptr) = none := by
  obtain ⟨h, ran, framed, unused, kept, gone⟩ := sysFree_ok ok.whole ok.inv ok.unused alive owns
  have whole : ∀ c, h.torn t c = false := fun c => by rw [framed.torn, ok.whole c]
  refine ⟨⟨h, Function.update s.live t (Function.update (s.live t) ptr none)⟩,
    by simp [heapExec, ran], ⟨?_, unused, whole⟩, framed,
    fun u other => Function.update_of_ne other .., gone⟩
  simpa using kept

/-- A task without foreign descriptors does not get any. -/
theorem NoForeign.step (own : NoForeign s t) (framed : Framed t s.toHeap next.toHeap) :
    NoForeign next t := by
  intro p a desc present described
  by_contra other
  exact other (own p a desc ((framed.foreign p a desc described other).mp present) described)

/-- **The run lemma.** -/
theorem reachable_heapOk (reachable : (heap pool t).Reachable s) :
    HeapOk pool s t ∧ NoForeign s t := by
  refine reachable.invariant (fun s => HeapOk pool s t ∧ NoForeign s t) ?_ ?_
  · rintro _ rfl
    exact ⟨blockDescInit_ok pool t, by simp [NoForeign, blockDescInit]⟩
  · rintro before op after - ⟨ok, own⟩ ⟨caller, enabled, ran⟩
    cases op with
    | malloc u size answer =>
        obtain rfl : u = t := caller
        obtain ⟨next, ran', ok', framed, -⟩ :=
          heapExec_malloc_ok ok (asks_of_ok ran) (granted_of_ok ran) enabled
        cases ran.symm.trans ran'
        exact ⟨ok', own.step framed⟩
    | free u ptr =>
        obtain rfl : u = t := caller
        obtain ⟨size, alive⟩ := enabled
        obtain ⟨next, ran', ok', framed, -⟩ :=
          heapExec_free_ok ok alive fun a desc present => own _ a desc present
        cases ran.symm.trans ran'
        exact ⟨ok', own.step framed⟩

/-- **The heap is safe.** After any sequence of calls of one task: each live block is as large
as requested and lies in its pages past the header; live blocks do not overlap; every small
arena counts its blocks on the free list of its class, where each stands once; and a call of
`sys_free` with which the count reaches `blocks_per_arena` gives the page back, with none of
its blocks on any free list. -/
theorem heap_safe (reachable : (heap pool t).Reachable s) :
    (∀ b size, s.live t b = some size → ∃ a, s.arena t (block2arena b) = some a ∧
      size ≤ a.extent ∧ block2arena b + arenaSize ≤ b ∧
      b + a.extent ≤ block2arena b + a.pages * pgSize) ∧
    (∀ b b' size size' a a', s.live t b = some size → s.live t b' = some size' → b ≠ b' →
      s.arena t (block2arena b) = some a → s.arena t (block2arena b') = some a' →
      b + a.extent ≤ b' ∨ b' + a'.extent ≤ b) ∧
    (∀ p a, s.arena t p = some a → a.large = false → ∃ c, a.desc = some (t, c) ∧
      a.cnt = ((s.freeList t c).filter (· ∈ arenaBlocks p c)).length) ∧
    (∀ c, (s.freeList t c).Nodup) ∧
    (∀ b size, s.live t b = some size → ∃ next, heapExec pool s (.free t b) = .ok next ∧
      ∀ a c, s.arena t (block2arena b) = some a → a.desc = some (t, c) →
        a.cnt + 1 = blocksPerArena c → next.arena t (block2arena b) = none ∧
        ∀ d, ∀ x ∈ next.freeList t d, block2arena x ≠ block2arena b) := by
  obtain ⟨ok, own⟩ := reachable_heapOk reachable
  refine ⟨fun b size alive => ?_, fun b b' size size' a a' alive alive' distinct present present' =>
    ok.disjoint alive alive' distinct present present', fun p a present small => ?_,
    ok.inv.free_nodup, fun b size alive => ?_⟩
  · obtain ⟨a, present, -, room, low, high⟩ := ok.inside alive
    exact ⟨a, present, room, low, high⟩
  · cases kind : a.desc with
    | none =>
        have large := (ok.inv.shape p a present).mp kind
        simp [small] at large
    | some desc =>
        obtain ⟨o, c⟩ := desc
        obtain rfl : o = t := own p a _ present kind
        exact ⟨c, rfl, ok.counts present kind⟩
  · obtain ⟨next, ran, ok', -, -, gone⟩ :=
      heapExec_free_ok ok alive fun a desc present => own _ a desc present
    refine ⟨next, ran, fun a c present described last => ?_⟩
    have absent := gone a c present described last
    refine ⟨absent, fun d x listed page => ?_⟩
    obtain ⟨a', present'⟩ := ok'.listed_page listed
    rw [page, absent] at present'
    cases present'

/-- Safety after a request that splits a page into three blocks. -/
theorem heap_safe_after_malloc :
    ∃ s : HeapState Unit, (heap ⟨false, 2 ^ 20, by decide⟩ ()).Reachable s ∧
      s.freeList () 6 = [0x804840c, 0x804880c] ∧ s.live () 0x804800c = some 1000 ∧
      ∀ c, (s.freeList () c).Nodup := by
  have start : (heap ⟨false, 2 ^ 20, by decide⟩ ()).Reachable blockDescInit := .initial rfl
  have unheld : HeapEnabled ⟨false, 2 ^ 20, by decide⟩ (blockDescInit : HeapState Unit)
      (.malloc () 1000 (.pages 0x8048000)) := by
    refine ⟨?_, fun null => by cases null⟩
    rintro _ ⟨⟩
    exact ⟨by decide, by decide, by decide, by simp [blockDescInit]⟩
  have reachable := start.step (.malloc () 1000 (.pages 0x8048000)) ⟨rfl, unheld, rfl⟩
  exact ⟨_, reachable, by decide, by decide, (heap_safe reachable).2.2.2.1⟩

end Calls

end UKernel.Memory
