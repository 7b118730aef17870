import UKernel.Memory.HeapSafety

/-! # The heaps of a family of processes

`sys_fork` copies every page of the parent, arena headers included, and gives the child empty
descriptors of its own. The header of a copied small arena still points to the descriptor of the
process that split the page, so the heaps of all processes are independent as long as none of them
frees a small block of a page that was copied to it (`UKernel.Memory.forked_isolated`).

A process is one from its fork on: one that gets the control block of a process that has exited is
another process. A process that has exited makes no more calls.
-/

namespace UKernel.Memory

open UKernel.Library

variable {Task : Type} [DecidableEq Task] {pool : Pool} {parent child t u : Task} {ptr : Nat}

/-- The part of `copy_process` that makes the child's heap: `block_desc_init` on its control
block, and the copies of the parent's pages. The blocks that are live in the parent are live
in the child, in its own copies. -/
def forkHeap (s : HeapState Task) (parent child : Task) : HeapState Task where
  freeList := Function.update s.freeList child fun _ => []
  torn := Function.update s.torn child fun _ => false
  arena := Function.update s.arena child (s.arena parent)
  live := Function.update s.live child (s.live parent)

/-- The heaps of the processes, and which processes there were so far. -/
structure Family (Task : Type) extends HeapState Task where
  made : Set Task

/-- A call of a process, or a fork. -/
inductive FamilyOp (Task : Type) where
  | call (op : HeapOp Task)
  | fork (parent child : Task)

/-- Any number of processes that allocate, free and fork in any order. -/
def family (pool : Pool) : TransitionSystem (Family Task) (FamilyOp Task) where
  initial s := s.toHeapState = blockDescInit
  step s op next :=
    match op with
    | .call op => op.task ∈ s.made ∧ HeapEnabled pool s.toHeapState op ∧
        heapExec pool s.toHeapState op = .ok next.toHeapState ∧ next.made = s.made
    | .fork parent child => parent ∈ s.made ∧ child ∉ s.made ∧
        next = ⟨forkHeap s.toHeapState parent child, insert child s.made⟩

/-- The blocks that `sys_malloc` can hand out to a task next. -/
def Offers (pool : Pool) (s : HeapState Task) (t : Task) : Set Nat :=
  { b | ∃ size answer h, HeapEnabled pool s (.malloc t size answer) ∧
    sysMalloc pool s.toHeap t size answer = .ok (some b, h) }

/-- The heaps are isolated in a state, for the calls that satisfy a condition: every call returns,
and changes of no other process the free lists or what it can be handed out. -/
def Isolated (pool : Pool) (condition : HeapOp Task → Prop) (s : Family Task) : Prop :=
  ∀ op, op.task ∈ s.made → HeapEnabled pool s.toHeapState op → condition op →
    ∃ next, heapExec pool s.toHeapState op = .ok next ∧ ∀ u, u ≠ op.task →
      next.freeList u = s.freeList u ∧ Offers pool next u = Offers pool s.toHeapState u

/-- The block lies in a page that another process split into small blocks, and that was copied at a
fork. -/
def InheritedSmall (s : HeapState Task) (t : Task) (ptr : Nat) : Prop :=
  ∃ a desc, s.arena t (block2arena ptr) = some a ∧ a.desc = some desc ∧ desc.1 ≠ t

/-- The calls that keep the heaps apart: no process frees a small block that it inherited, and no
request exceeds what `malloc_page` accepts or finds it out of addresses or frames. -/
def KeepsApart (pool : Pool) (s : HeapState Task) : HeapOp Task → Prop
  | .malloc t size answer => Asks pool size ∧ Granted pool s.toHeap t size answer
  | .free t ptr => ¬ InheritedSmall s t ptr

/-- The steps of a family that keep the heaps apart. -/
def StaysApart (pool : Pool) (s : Family Task) : FamilyOp Task → Prop
  | .call op => KeepsApart pool s.toHeapState op
  | .fork _ _ => True

/-! ## What a task can be handed out depends on its own heap -/

section Offers

variable {s s' : HeapState Task} {h h' : Heap Task}

/-- `popBlock` reads only the caller's heap. -/
theorem popBlock_local (lists : h.freeList t = h'.freeList t) (arenas : h.arena t = h'.arena t)
    {c : DescIdx} {b : Option Nat} {after : Heap Task} (ran : popBlock h t c = .ok (b, after)) :
    ∃ after', popBlock h' t c = .ok (b, after') := by
  cases list : h.freeList t c with
  | nil =>
      unfold popBlock at ran
      rw [list] at ran
      cases ran
  | cons first rest =>
      cases found : h.arena t (block2arena first) with
      | none =>
          unfold popBlock at ran
          rw [list] at ran
          simp only [Heap.header, found] at ran
          cases ran
      | some a =>
          rw [popBlock_cons list found] at ran
          rw [popBlock_cons (lists ▸ list) (arenas ▸ found)]
          cases ran
          exact ⟨_, rfl⟩

/-- `refill` reads only the caller's heap. -/
theorem refill_local (lists : h.freeList t = h'.freeList t) (arenas : h.arena t = h'.arena t)
    {c : DescIdx} {answer : PageAnswer} {filled : Heap Task}
    (ran : refill h t c answer = .ok (some filled)) :
    ∃ filled', refill h' t c answer = .ok (some filled') ∧
      filled.freeList t = filled'.freeList t ∧ filled.arena t = filled'.arena t := by
  unfold refill at ran ⊢
  rw [← lists]
  by_cases empty : h.freeList t c = []
  · simp only [empty, if_true, except_bind_eq_ok] at ran ⊢
    obtain ⟨got, called, rest⟩ := ran
    cases got with
    | none => simp at rest
    | some a =>
        simp only [except_bind_eq_ok, except_pure_eq, Except.ok.injEq, Option.some.injEq] at rest
        obtain ⟨list, appended, rfl⟩ := rest
        refine ⟨_, ⟨some a, called, by simp [appended]; rfl⟩, ?_, ?_⟩
        · rw [Heap.setFreeList_freeList, Heap.setFreeList_freeList]
          simp [lists]
        · simp [arenas]
  · simp only [empty, if_false, except_pure_eq, Except.ok.injEq, Option.some.injEq] at ran ⊢
    cases ran
    exact ⟨h', rfl, lists, arenas⟩

/-- The block `sys_malloc` returns depends only on the caller's heap. -/
theorem sysMalloc_local (lists : h.freeList t = h'.freeList t) (torn : h.torn t = h'.torn t)
    (arenas : h.arena t = h'.arena t) {size b : Nat} {answer : PageAnswer} {after : Heap Task}
    (ran : sysMalloc pool h t size answer = .ok (some b, after)) :
    ∃ after', sysMalloc pool h' t size answer = .ok (some b, after') := by
  unfold sysMalloc at ran ⊢
  by_cases served : 0 < size ∧ size < pool.poolSize
  · rw [if_neg (not_not.mpr served)] at ran ⊢
    by_cases large : size > 1024
    · rw [if_pos large] at ran ⊢
      obtain ⟨got, called, rest⟩ := except_bind_eq_ok.mp ran
      cases got with
      | none => cases rest
      | some a =>
          cases rest
          exact ⟨_, except_bind_eq_ok.mpr ⟨some a, called, rfl⟩⟩
    · rw [if_neg large] at ran ⊢
      unfold mallocSmall at ran ⊢
      cases selected : descFor size with
      | none =>
          rw [selected] at ran
          cases ran
      | some c =>
          rw [selected] at ran
          dsimp only at ran ⊢
          rw [← torn]
          by_cases isTorn : h.torn t c = true
          · rw [if_pos isTorn] at ran
            cases ran
          rw [if_neg isTorn] at ran ⊢
          obtain ⟨got, refilled, rest⟩ := except_bind_eq_ok.mp ran
          cases got with
          | none => cases rest
          | some filled =>
              obtain ⟨filled', refilled', lists', arenas'⟩ := refill_local lists arenas refilled
              obtain ⟨after', popped⟩ := popBlock_local lists' arenas' rest
              exact ⟨after', except_bind_eq_ok.mpr ⟨some filled', refilled', popped⟩⟩
  · rw [if_pos served] at ran
    cases ran

omit [DecidableEq Task] in
/-- Whether a request comes to `malloc_page` depends only on the caller's lists. -/
theorem needsPages_congr (lists : h.freeList t = h'.freeList t) {size : Nat} :
    NeedsPages pool h t size ↔ NeedsPages pool h' t size := by
  unfold NeedsPages
  rw [lists]

/-- One half of `offers_congr`. -/
theorem offers_subset (lists : s.freeList t = s'.freeList t) (torn : s.torn t = s'.torn t)
    (arenas : s.arena t = s'.arena t) : Offers pool s t ⊆ Offers pool s' t := by
  rintro b ⟨size, answer, h, enabled, ran⟩
  obtain ⟨h', ran'⟩ := sysMalloc_local lists torn arenas ran
  refine ⟨size, answer, h', ⟨fun a given => arenas ▸ enabled.1 a given, fun null needs => ?_⟩, ran'⟩
  exact enabled.2 null ((needsPages_congr lists).mpr needs)

/-- What a task can be handed out depends only on its own heap. -/
theorem offers_congr (lists : s.freeList t = s'.freeList t) (torn : s.torn t = s'.torn t)
    (arenas : s.arena t = s'.arena t) : Offers pool s t = Offers pool s' t :=
  Set.Subset.antisymm (offers_subset lists torn arenas)
    (offers_subset lists.symm torn.symm arenas.symm)

end Offers

/-! ## Runs of a family -/

/-- Every process has a consistent heap, and the descriptors in its pages are those of processes
that there were. -/
structure FamilyOk (pool : Pool) (s : Family Task) : Prop where
  heaps : ∀ t ∈ s.made, HeapOk pool s.toHeapState t
  known : ∀ t ∈ s.made, ∀ p a desc, s.arena t p = some a → a.desc = some desc → desc.1 ∈ s.made

section Step

variable {s next : HeapState Task}

omit [DecidableEq Task] in
/-- A call leaves the heaps of the others consistent. -/
theorem HeapOk.frame (ok : HeapOk pool s u) (framed : Framed t s.toHeap next.toHeap) (other : u ≠ t)
    (lives : next.live u = s.live u) : HeapOk pool next u where
  inv := by
    rw [framed.freeList u other, framed.arena u other, lives]
    exact ok.inv
  unused := by
    rw [framed.arena u other]
    exact ok.unused
  whole c := by
    rw [framed.torn]
    exact ok.whole c

/-- **One call**: it returns, restores the heap of its process, and changes nothing of the
others. -/
theorem heapExec_apart {op : HeapOp Task} (ok : HeapOk pool s op.task)
    (enabled : HeapEnabled pool s op) (apart : KeepsApart pool s op) :
    ∃ next, heapExec pool s op = .ok next ∧ HeapOk pool next op.task ∧
      Framed op.task s.toHeap next.toHeap ∧ ∀ u, u ≠ op.task → next.live u = s.live u := by
  cases op with
  | malloc t size answer => exact heapExec_malloc_ok ok apart.1 apart.2 enabled
  | free t ptr =>
      obtain ⟨size, alive⟩ := enabled
      have owns : OwnsBlock t (s.arena t) ptr := by
        intro a desc present described
        by_contra other
        exact apart ⟨a, desc, present, described, other⟩
      obtain ⟨next, ran, ok', framed, lives, -⟩ := heapExec_free_ok ok alive owns
      exact ⟨next, ran, ok', framed, lives⟩

end Step

variable {s next : Family Task}

/-- A call keeps the invariant. -/
theorem FamilyOk.call (ok : FamilyOk pool s) {op : HeapOp Task} (member : op.task ∈ s.made)
    (enabled : HeapEnabled pool s.toHeapState op) (apart : KeepsApart pool s.toHeapState op)
    (ran : heapExec pool s.toHeapState op = .ok next.toHeapState) (same : next.made = s.made) :
    FamilyOk pool next := by
  obtain ⟨after, ran', own, framed, lives⟩ := heapExec_apart (ok.heaps _ member) enabled apart
  cases ran.symm.trans ran'
  refine ⟨fun u isMade => ?_, fun u isMade p a desc present described => ?_⟩ <;> rw [same] at *
  · by_cases here : u = op.task
    · rwa [here]
    · exact (ok.heaps u isMade).frame framed here (lives u here)
  · by_cases here : u = op.task
    · rw [here] at present
      by_cases mine : desc.1 = op.task
      · rwa [mine]
      · exact ok.known _ member p a desc ((framed.foreign p a desc described mine).mp present)
          described
    · rw [framed.arena u here] at present
      exact ok.known u isMade p a desc present described

/-- The child of a fork has a consistent heap: no page has a descriptor of its own. -/
theorem forkHeap_child {s : HeapState Task} (ok : HeapOk pool s parent)
    (foreign : ∀ p a c, s.arena parent p = some a → a.desc ≠ some (child, c)) :
    HeapOk pool (forkHeap s parent child) child where
  inv := by
    simp only [forkHeap, Function.update_self]
    refine ⟨ok.inv.pages, ok.inv.apart, ok.inv.shape, fun _ => List.nodup_nil, fun c b => ?_,
      fun p a c present described => absurd described (foreign p a c present), ok.inv.live_fits⟩
    simp only [List.not_mem_nil, false_iff]
    rintro ⟨⟨p, a, present, described, -⟩, -⟩
    exact foreign p a c present described
  unused := by
    simp only [forkHeap, Function.update_self]
    exact fun p a c present described => absurd described (foreign p a c present)
  whole c := by simp [forkHeap]

/-- A fork leaves the heaps of the others as they are. -/
theorem forkHeap_other {s : HeapState Task} (ok : HeapOk pool s u) (other : u ≠ child) :
    HeapOk pool (forkHeap s parent child) u where
  inv := by simpa [forkHeap, other] using ok.inv
  unused := by simpa [forkHeap, other] using ok.unused
  whole c := by simpa [forkHeap, other] using ok.whole c

/-- A fork keeps the invariant. -/
theorem FamilyOk.fork (ok : FamilyOk pool s) (member : parent ∈ s.made) (fresh : child ∉ s.made) :
    FamilyOk pool ⟨forkHeap s.toHeapState parent child, insert child s.made⟩ := by
  refine ⟨fun u isMade => ?_, fun u isMade p a desc present described => ?_⟩
  · rcases isMade with rfl | isMade
    · refine forkHeap_child (ok.heaps parent member) fun p a c present described => fresh ?_
      exact ok.known parent member p a _ present described
    · refine forkHeap_other (ok.heaps u isMade) ?_
      rintro rfl
      exact fresh isMade
  · refine .inr ?_
    by_cases here : u = child
    · simp only [here, forkHeap, Function.update_self] at present
      exact ok.known parent member p a desc present described
    · simp only [forkHeap, Function.update_of_ne here] at present
      exact ok.known u (isMade.resolve_left here) p a desc present described

/-- **The run lemma.** -/
theorem reachable_familyOk (reachable : ((family pool).under (StaysApart pool)).Reachable s) :
    FamilyOk pool s := by
  refine reachable.invariant (FamilyOk pool) ?_ ?_
  · intro s empty
    refine ⟨fun t _ => ?_, fun t _ p a desc present _ => ?_⟩
    · rw [show s.toHeapState = blockDescInit from empty]
      exact blockDescInit_ok pool t
    · rw [show s.toHeapState = blockDescInit from empty] at present
      cases present
  · rintro before op after - ok ⟨apart, stepped⟩
    cases op with
    | call op =>
        obtain ⟨member, enabled, ran, same⟩ := stepped
        exact ok.call member enabled apart ran same
    | fork parent child =>
        obtain ⟨member, fresh, rfl⟩ := stepped
        exact ok.fork member fresh

/-- **Isolation of forked heaps.** Any number of processes allocate, free and fork, in any order,
and none frees a small block that it inherited, asks `malloc_page` for more than it accepts, or
finds it out of addresses or frames. Then every such call returns, and changes neither the free
lists of any other process nor what that can be handed out: of the parent, for a call of the child,
and the other way around. -/
theorem forked_isolated (reachable : ((family pool).under (StaysApart pool)).Reachable s) :
    Isolated pool (KeepsApart pool s.toHeapState) s := by
  have ok := reachable_familyOk reachable
  intro op member enabled apart
  obtain ⟨next, ran, -, framed, -⟩ := heapExec_apart (ok.heaps _ member) enabled apart
  refine ⟨next, ran, fun u other => ⟨framed.freeList u other, ?_⟩⟩
  exact offers_congr (framed.freeList u other) (congrFun framed.torn u) (framed.arena u other)

/-! ## A child that frees what it inherited -/

/-- A user pool of a megabyte. -/
def somePool : Pool := ⟨false, 2 ^ 20, by decide⟩

/-- The first process, with nothing allocated. -/
def firstFamily : Family Nat := ⟨blockDescInit, {1}⟩

/-- A request for a kilobyte, with a free page in case the free list is empty. -/
theorem page_enabled {s : HeapState Nat} (t page : Nat) (aligned : page % pgSize = 0)
    (low : 0x8048000 ≤ page) (high : page + pgSize ≤ 2 ^ 32)
    (held : ∀ q a, s.arena t q = some a → page + pgSize ≤ q ∨ q + a.pages * pgSize ≤ page) :
    HeapEnabled somePool s (.malloc t 1000 (.pages page)) := by
  refine ⟨?_, fun null => by cases null⟩
  rintro _ ⟨⟩
  exact ⟨aligned, low, high, fun q a present => by simpa [pagesFor] using held q a present⟩

/-- A request for a kilobyte that finds a free block. -/
theorem block_enabled {s : HeapState Nat} (t : Nat) (listed : s.freeList t 6 ≠ []) :
    HeapEnabled somePool s (.malloc t 1000 .null) := by
  refine ⟨fun a wrong => (by cases wrong), fun _ needs => ?_⟩
  obtain large | ⟨c, selected, empty⟩ := needs.2
  · exact absurd large (by decide)
  · cases (show some 6 = some c from selected)
    exact absurd empty listed

/-- The runs that keep the heaps apart. -/
abbrev apartFamily : TransitionSystem (Family Nat) (FamilyOp Nat) :=
  (family somePool).under (StaysApart somePool)

section

variable {s : Family Nat} {h : HeapState Nat}

/-- A process gets a block of a kilobyte. -/
theorem apart_request (reachable : apartFamily.Reachable s) (t : Nat) (answer : PageAnswer)
    (member : t ∈ s.made) (given : answer ≠ .stops)
    (enabled : HeapEnabled somePool s.toHeapState (.malloc t 1000 answer))
    (ran : heapExec somePool s.toHeapState (.malloc t 1000 answer) = .ok h) :
    apartFamily.Reachable ⟨h, s.made⟩ := by
  refine reachable.step (.call (.malloc t 1000 answer)) ⟨?_, member, enabled, ran, rfl⟩
  exact ⟨fun large => absurd large (by decide), fun _ => given⟩

/-- A process forks. -/
theorem apart_fork (reachable : apartFamily.Reachable s) (parent child : Nat)
    (member : parent ∈ s.made) (fresh : child ∉ s.made) :
    apartFamily.Reachable ⟨forkHeap s.toHeapState parent child, insert child s.made⟩ :=
  reachable.step (.fork parent child) ⟨trivial, member, fresh, rfl⟩

end

/-- The first process gets a block of a kilobyte. -/
theorem first_request : ∃ h : HeapState Nat, apartFamily.Reachable ⟨h, {1}⟩ ∧
    heapExec somePool blockDescInit (.malloc 1 1000 (.pages 0x8048000)) = .ok h := by
  have start : apartFamily.Reachable firstFamily := .initial rfl
  have free := page_enabled (s := blockDescInit) 1 0x8048000 rfl le_rfl (by decide)
    fun q a present => by cases present
  exact ⟨_, apart_request start 1 _ rfl (by decide) free rfl, rfl⟩

/-- The heaps are isolated after a process has allocated and forked, and its child too: the youngest
holds the block of the first, which its parent inherited. -/
theorem forked_isolated_after_malloc : ∃ s : Family Nat, 3 ∈ s.made ∧
    s.live 3 0x804800c = some 1000 ∧ s.live 3 0x804900c = some 1000 ∧
    Isolated somePool (KeepsApart somePool s.toHeapState) s := by
  obtain ⟨h, one, ran⟩ := first_request
  have two := apart_fork one 1 2 rfl (by simp)
  have free : HeapEnabled somePool (forkHeap h 1 2) (.malloc 2 1000 (.pages 0x8049000)) := by
    refine page_enabled 2 0x8049000 rfl (by decide) (by decide) fun q a present => .inr ?_
    cases ran
    by_cases here : q = 0x8048000
    · subst here
      cases present
      decide
    · exfalso
      have page : block2arena (arena2block 0x8048000 6 0) = 0x8048000 := rfl
      simp [forkHeap, page, here, blockDescInit] at present
  cases ran
  have three := apart_request two 2 (.pages 0x8049000) (.inl rfl) (by decide) free rfl
  have four := apart_fork three 2 3 (.inl rfl) (by simp)
  exact ⟨_, Set.mem_insert _ _, rfl, rfl, forked_isolated four⟩

/-- A child that frees a block that it inherited changes the free lists of its parent. -/
theorem inherited_free_leaks :
    ¬ ∀ s : Family Nat, (family somePool).Reachable s → Isolated somePool (fun _ => True) s := by
  intro isolated
  obtain ⟨h, one, ran⟩ := first_request
  cases ran
  have two := apart_request one 1 .null rfl (by decide) (block_enabled 1 (by decide)) rfl
  have three := apart_request two 1 .null rfl (by decide) (block_enabled 1 (by decide)) rfl
  have four := apart_fork three 1 2 rfl (by simp)
  obtain ⟨next, ran, kept⟩ := isolated _ four.of_under (.free 2 0x804800c) (.inl rfl)
    ⟨1000, rfl⟩ trivial
  have lists := congrFun (kept 1 (by decide)).1 6
  cases ran
  exact absurd lists (by decide)

end UKernel.Memory
