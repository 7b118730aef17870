import UKernel.Memory.HeapInvariant

/-! # The calls keep the invariant

`sys_malloc` and `sys_free` return from every state that satisfies the invariant and restore
it, touch nothing of another task, and leave the arenas of other tasks' descriptors as they
are. What `sys_free` needs for this is that the descriptor of the freed block's arena is the
caller's own (`UKernel.Memory.OwnsBlock`).
-/

namespace UKernel.Memory

open UKernel.Library

variable {Task : Type} [DecidableEq Task] {pool : Pool} {t : Task} {size : Nat}
  {answer : PageAnswer} {live : Nat → Option Nat} {c : DescIdx}

/-- The request does not exceed what `malloc_page` accepts. -/
def Asks (pool : Pool) (size : Nat) : Prop :=
  1024 < size → size < pool.poolSize → pageCnt size < 3840

/-- If the request comes to `malloc_page`, there are free addresses and free frames. -/
def Granted (pool : Pool) (h : Heap Task) (t : Task) (size : Nat) (answer : PageAnswer) : Prop :=
  NeedsPages pool h t size → answer ≠ .stops

/-- What a call leaves as it was: the heaps of other tasks, and the arenas whose descriptor
belongs to another task. No list is torn. -/
structure Framed (t : Task) (h next : Heap Task) : Prop where
  freeList : ∀ u, u ≠ t → next.freeList u = h.freeList u
  torn : next.torn = h.torn
  arena : ∀ u, u ≠ t → next.arena u = h.arena u
  foreign : ∀ p a desc, a.desc = some desc → desc.1 ≠ t →
    (next.arena t p = some a ↔ h.arena t p = some a)

omit [DecidableEq Task] in
theorem Framed.refl (h : Heap Task) : Framed t h h :=
  ⟨fun _ _ => rfl, rfl, fun _ _ => rfl, fun _ _ _ _ _ => Iff.rfl⟩

omit [DecidableEq Task] in
theorem Framed.trans {h₁ h₂ h₃ : Heap Task} (first : Framed t h₁ h₂) (second : Framed t h₂ h₃) :
    Framed t h₁ h₃ where
  freeList u other := (second.freeList u other).trans (first.freeList u other)
  torn := second.torn.trans first.torn
  arena u other := (second.arena u other).trans (first.arena u other)
  foreign p a desc described other :=
    (second.foreign p a desc described other).trans (first.foreign p a desc described other)

/-- Rewriting an own list touches nothing of another task. -/
theorem Framed.setFreeList (h : Heap Task) (list : List Nat) :
    Framed t h (h.setFreeList (t, c) list) where
  freeList _ other := Heap.setFreeList_other list other
  torn := rfl
  arena _ _ := rfl
  foreign _ _ _ _ _ := Iff.rfl

/-- Rewriting a header that is not foreign, neither before nor after. -/
theorem Framed.setArena (h : Heap Task) {p : Nat} {header : Option (Arena Task)}
    (old : ∀ a desc, h.arena t p = some a → a.desc = some desc → desc.1 = t)
    (new : ∀ a desc, header = some a → a.desc = some desc → desc.1 = t) :
    Framed t h (h.setArena t p header) where
  freeList _ _ := rfl
  torn := rfl
  arena _ other := Heap.setArena_other header other
  foreign q a desc described other := by
    rw [Heap.setArena_arena]
    by_cases same : q = p
    · rw [same, Function.update_self]
      exact ⟨fun now => absurd (new a desc now described) other,
        fun was => absurd (old a desc was described) other⟩
    · rw [Function.update_of_ne same]

/-- The descriptor that `sys_malloc` selects has blocks of the requested size. -/
theorem descFor_ok (small : size ≤ 1024) : ∃ c, descFor size = some c ∧ size ≤ blockSize c := by
  cases found : descFor size with
  | none =>
      have none := List.find?_eq_none.mp found 6 (List.mem_finRange _)
      exact absurd (decide_eq_true (show size ≤ blockSize 6 from small)) none
  | some c => exact ⟨c, rfl, by simpa using List.find?_some found⟩

/-- The pages of a large block hold the block and the header. -/
theorem pageCnt_ok (size : Nat) : 0 < pageCnt size ∧ size + arenaSize ≤ pageCnt size * pgSize := by
  simp only [pageCnt, arenaSize, pgSize]
  omega

/-- A large request. -/
theorem mallocLarge_ok {h : Heap Task}
    (inv : HeapInv pool t (h.freeList t) (h.arena t) live) (unused : NoneUnused t (h.arena t))
    (asks : pageCnt size < 3840) (granted : answer ≠ .stops)
    (unheld : ∀ a, answer = .pages a → Unheld pool (h.arena t) a (pageCnt size)) :
    ∃ block next, mallocLarge h t size answer = .ok (block, next) ∧ Framed t h next ∧
      NoneUnused t (next.arena t) ∧ (block = none → next = h) ∧
      ∀ b, block = some b → HeapInv pool t (next.freeList t) (next.arena t)
        (Function.update live b (some size)) := by
  obtain ⟨positive, room⟩ := pageCnt_ok size
  cases answer with
  | stops => exact absurd rfl granted
  | null =>
      exact ⟨none, h, by simp [mallocLarge, mallocPage, require_of, positive, asks], .refl h,
        unused, fun _ => rfl, by simp⟩
  | pages p =>
      have fresh := unheld p rfl
      have absent := fresh.absent positive inv
      refine ⟨some (p + arenaSize), h.setArena t p (some ⟨none, pageCnt size, true⟩),
        by simp [mallocLarge, mallocPage, require_of, positive, asks],
        .setArena h (fun a desc present => ?_) (fun a desc present described => ?_),
        fun q a d present described => ?_, by simp, ?_⟩
      · rw [absent] at present
        cases present
      · cases present
        cases described
      · rw [Heap.setArena_arena] at present
        by_cases same : q = p
        · rw [same, Function.update_self] at present
          cases present
          cases described
        · rw [Function.update_of_ne same] at present
          exact unused q a d present described
      · rintro _ ⟨⟩
        rw [Heap.setArena_arena, Heap.setArena_freeList]
        exact inv.addLarge fresh positive room

/-- After `refill` the free list of the class is not empty, and an arena all of whose blocks
are free is the one that was just split. -/
theorem refill_ok {h : Heap Task}
    (inv : HeapInv pool t (h.freeList t) (h.arena t) live) (unused : NoneUnused t (h.arena t))
    (c : DescIdx) (granted : h.freeList t c = [] → answer ≠ .stops)
    (unheld : ∀ a, answer = .pages a → Unheld pool (h.arena t) a 1) :
    refill h t c answer = .ok none ∨
    ∃ next, refill h t c answer = .ok (some next) ∧ Framed t h next ∧
      HeapInv pool t (next.freeList t) (next.arena t) live ∧ next.freeList t c ≠ [] ∧
      ∀ q a d, next.arena t q = some a → a.desc = some (t, d) →
        a.cnt < blocksPerArena d ∨ ∀ b ∈ next.freeList t c, block2arena b = q := by
  by_cases empty : h.freeList t c = []
  · cases answer with
    | stops => exact absurd rfl (granted empty)
    | null => exact .inl (by simp [refill, empty, mallocPage, require_of])
    | pages p =>
        right
        have fresh := unheld p rfl
        have absent := fresh.absent Nat.one_pos inv
        have appended : appendBlocks [] (arenaBlocks p c) = .ok (arenaBlocks p c) :=
          appendBlocks_ok arenaBlocks_nodup
        have lists : ((h.setArena t p (some ⟨some (t, c), blocksPerArena c, false⟩)).setFreeList
            (t, c) (arenaBlocks p c)).freeList t =
            Function.update (h.freeList t) c (arenaBlocks p c) := Heap.setFreeList_freeList ..
        refine ⟨(h.setArena t p (some ⟨some (t, c), blocksPerArena c, false⟩)).setFreeList (t, c)
          (arenaBlocks p c), ?_, Framed.trans (.setArena h (fun a desc present => ?_)
          (fun a desc present described => ?_)) (.setFreeList _ _), ?_, ?_, ?_⟩
        · simp [refill, empty, mallocPage, require_of, appended]
        · rw [absent] at present
          cases present
        · cases present
          cases described
          rfl
        · rw [lists, Heap.setFreeList_arena, Heap.setArena_arena]
          exact inv.addSmall empty fresh
        · rw [lists, Function.update_self]
          refine List.ne_nil_of_length_pos ?_
          rw [arenaBlocks_length]
          exact (blocksPerArena_le c).1
        · intro q a d present described
          rw [Heap.setFreeList_arena, Heap.setArena_arena] at present
          rw [lists, Function.update_self]
          by_cases same : q = p
          · right
            rintro b member
            rw [same]
            exact (mem_arenaBlocks.mp member).page fresh.1
          · rw [Function.update_of_ne same] at present
            exact .inl (unused q a d present described)
  · exact .inr ⟨h, by simp [refill, empty], .refl h, inv, empty,
      fun q a d present described => .inl (unused q a d present described)⟩

/-- `popBlock` on a free list whose first block has an arena. -/
theorem popBlock_cons {h : Heap Task} {first : Nat} {rest : List Nat} {a : Arena Task}
    (list : h.freeList t c = first :: rest) (found : h.arena t (block2arena first) = some a) :
    popBlock h t c = .ok (some first,
      (h.setFreeList (t, c) rest).setArena t (block2arena first)
        (some { a with cnt := (a.cnt + 2 ^ 32 - 1) % 2 ^ 32 })) := by
  unfold popBlock
  rw [list]
  simp only [Heap.header_of found, except_ok_bind]
  rfl

/-- A small request with a list that is not torn. -/
theorem mallocSmall_whole {h : Heap Task} (selected : descFor size = some c)
    (whole : h.torn t c = false) : mallocSmall h t size answer = (do
      let refilled ← refill h t c answer
      match refilled with
      | none => pure (none, h)
      | some h => popBlock h t c) := by
  rw [mallocSmall, selected]
  exact if_neg (Bool.eq_false_iff.mp whole)

/-- Taking a block off a free list makes it live. -/
theorem popBlock_ok {h : Heap Task}
    (inv : HeapInv pool t (h.freeList t) (h.arena t) live) (filled : h.freeList t c ≠ [])
    (unused : ∀ q a d, h.arena t q = some a → a.desc = some (t, d) →
      a.cnt < blocksPerArena d ∨ ∀ b ∈ h.freeList t c, block2arena b = q)
    (room : size ≤ blockSize c) :
    ∃ b next, popBlock h t c = .ok (some b, next) ∧ Framed t h next ∧
      NoneUnused t (next.arena t) ∧
      HeapInv pool t (next.freeList t) (next.arena t) (Function.update live b (some size)) := by
  obtain ⟨b, rest, list⟩ := List.exists_cons_of_ne_nil filled
  have listed : b ∈ h.freeList t c := list ▸ List.mem_cons_self ..
  obtain ⟨⟨p, a, present, described, block⟩, -⟩ := (inv.free_exact c b).mp listed
  have inside := block.page (inv.pages p a present).1
  obtain ⟨absent, nodup⟩ := List.nodup_cons.mp (list ▸ inv.free_nodup c)
  have counted : a.cnt = (rest.filter (block2arena · = p)).length + 1 := by
    rw [inv.count p a c present described, list, List.filter_cons_of_pos (by simpa using inside),
      List.length_cons]
  have most := inv.count_le present described
  have few := (blocksPerArena_le c).2
  have less : (a.cnt + 2 ^ 32 - 1) % 2 ^ 32 = (rest.filter (block2arena · = p)).length := by
    omega
  have kept := inv.retally present described block rest (some size) nodup
    (fun x other => by rw [list, List.mem_cons, or_iff_right other])
    (by simpa using absent) (fun _ same => by cases same; exact room)
    (fun q other => by
      rw [list, List.filter_cons_of_neg]
      simpa [inside] using Ne.symm other)
  refine ⟨b, (h.setFreeList (t, c) rest).setArena t p
    (some { a with cnt := (rest.filter (block2arena · = p)).length }), ?_,
    Framed.trans (.setFreeList h rest) (.setArena _ (fun a' desc found desc' => ?_)
      (fun a' desc found desc' => ?_)), fun q a' d found desc => ?_, ?_⟩
  · rw [popBlock_cons list (inside.symm ▸ present), inside, less]
  · cases present.symm.trans found
    cases described.symm.trans desc'
    rfl
  · cases found
    cases described.symm.trans desc'
    rfl
  · rw [Heap.setArena_arena, Heap.setFreeList_arena] at found
    by_cases same : q = p
    · rw [same, Function.update_self] at found
      cases found
      cases described.symm.trans desc
      change (rest.filter (block2arena · = p)).length < blocksPerArena c
      omega
    · rw [Function.update_of_ne same] at found
      refine (unused q a' d found desc).resolve_right fun all => ?_
      exact same ((all b listed).symm.trans inside)
  · have lists : ((h.setFreeList (t, c) rest).setArena t p
        (some { a with cnt := (rest.filter (block2arena · = p)).length })).freeList t =
        Function.update (h.freeList t) c rest := Heap.setFreeList_freeList ..
    rw [lists, Heap.setArena_arena, Heap.setFreeList_arena]
    exact kept

/-- The block is large, or the descriptor of its arena is the task's own. -/
def OwnsBlock (t : Task) (arena : Nat → Option (Arena Task)) (ptr : Nat) : Prop :=
  ∀ a desc, arena (block2arena ptr) = some a → a.desc = some desc → desc.1 = t

/-- Freeing a small block; the page goes when all of its blocks are free. -/
theorem freeSmall_ok {h : Heap Task} {p ptr : Nat} {a : Arena Task} (whole : h.torn t c = false)
    (inv : HeapInv pool t (h.freeList t) (h.arena t) live) (unused : NoneUnused t (h.arena t))
    (present : h.arena t p = some a) (described : a.desc = some (t, c))
    (block : IsBlock p c ptr) (alive : live ptr = some size) :
    ∃ next, freeSmall h t ptr a (t, c) = .ok next ∧ Framed t h next ∧
      NoneUnused t (next.arena t) ∧
      HeapInv pool t (next.freeList t) (next.arena t) (Function.update live ptr none) ∧
      (a.cnt + 1 = blocksPerArena c → next.arena t p = none) := by
  have inside := block.page (inv.pages p a present).1
  have absent : ptr ∉ h.freeList t c := by
    intro listed
    have := ((inv.free_exact c ptr).mp listed).2
    rw [alive] at this
    cases this
  have nodup : (h.freeList t c ++ [ptr]).Nodup :=
    ((List.perm_append_singleton ptr _).nodup_iff).mpr
      (List.nodup_cons.mpr ⟨absent, inv.free_nodup c⟩)
  have counted : ((h.freeList t c ++ [ptr]).filter (block2arena · = p)).length = a.cnt + 1 := by
    rw [List.filter_append, List.filter_cons_of_pos (by simpa using inside), List.filter_nil,
      List.length_append, ← inv.count p a c present described, List.length_singleton]
  have most := inv.count_lt present described block alive
  have few := (blocksPerArena_le c).2
  have more : (a.cnt + 1) % 2 ^ 32 = a.cnt + 1 := by omega
  have kept := inv.retally present described block (h.freeList t c ++ [ptr])
    none nodup
    (fun x other => by rw [List.mem_append, List.mem_singleton, or_iff_left other])
    (by simp) (by simp)
    (fun q other => by
      rw [List.filter_append, List.filter_cons_of_neg (by simpa [inside] using Ne.symm other),
        List.filter_nil, List.append_nil])
  rw [counted] at kept
  have own : ∀ b desc, h.arena t p = some b → b.desc = some desc → desc.1 = t := by
    intro b desc found desc'
    cases present.symm.trans found
    cases described.symm.trans desc'
    rfl
  let freed := (h.setFreeList (t, c) (h.freeList t c ++ [ptr])).setArena t p
    (some { a with cnt := a.cnt + 1 })
  have lists : freed.freeList t = Function.update (h.freeList t) c (h.freeList t c ++ [ptr]) :=
    Heap.setFreeList_freeList ..
  have headers : freed.arena t = Function.update (h.arena t) p (some { a with cnt := a.cnt + 1 }) :=
    Heap.setArena_arena ..
  have framed : Framed t h freed := Framed.trans (.setFreeList h _)
    (.setArena _ own fun b desc found desc' => by
      cases found
      cases described.symm.trans desc'
      rfl)
  rw [← lists, ← headers] at kept
  by_cases last : a.cnt + 1 = blocksPerArena c
  · have written : freed.arena t p = some { a with cnt := a.cnt + 1 } := by
      rw [headers, Function.update_self]
    have listed : ∀ b ∈ arenaBlocks p c, b ∈ freed.freeList t c := fun b member =>
      kept.all_free written described last (mem_arenaBlocks.mp member)
    have removed := removeBlocks_ok (kept.free_nodup c) arenaBlocks_nodup listed
    let list := (freed.freeList t c).filter (· ∉ arenaBlocks p c)
    refine ⟨(freed.setFreeList (t, c) list).setArena t p none, ?_,
      framed.trans (Framed.trans (.setFreeList _ _) (.setArena _ (fun b desc found desc' => ?_)
        (by simp))), fun q b d found desc => ?_, ?_, fun _ => ?_⟩
    · simp only [freeSmall, whole, Heap.link_own, inside, more]
      rw [if_pos last]
      change (do
        let list ← removeBlocks (freed.freeList t c) (arenaBlocks p c)
        mfreePage (freed.setFreeList (t, c) list) t p 1) = _
      rw [removed]
      simp [mfreePage, require_of, (inv.pages p a present).1, list]
    · rw [Heap.setFreeList_arena, written] at found
      cases found
      cases described.symm.trans desc'
      rfl
    · rw [Heap.setArena_arena, Heap.setFreeList_arena, headers] at found
      by_cases same : q = p
      · rw [same, Function.update_self] at found
        cases found
      · rw [Function.update_of_ne same, Function.update_of_ne same] at found
        exact unused q b d found desc
    · have lists' : ((freed.setFreeList (t, c) list).setArena t p none).freeList t =
          Function.update (freed.freeList t) c list := Heap.setFreeList_freeList ..
      rw [lists', Heap.setArena_arena, Heap.setFreeList_arena]
      refine kept.remove (fun d => ?_) (fun b page => ?_) fun _ _ => rfl
      · by_cases same : d = c
        · subst same
          rw [Function.update_self]
          refine List.filter_congr fun b member => ?_
          obtain ⟨⟨q, a', found, desc, isBlock⟩, -⟩ := (kept.free_exact d b).mp member
          have page := isBlock.page (kept.pages q a' found).1
          refine decide_eq_decide.mpr (not_congr ⟨fun here => ?_, fun here => ?_⟩)
          · exact (mem_arenaBlocks.mp here).page (inv.pages p a present).1
          · exact mem_arenaBlocks.mpr (page.symm.trans here ▸ isBlock)
        · rw [Function.update_of_ne same, eq_comm, List.filter_eq_self]
          intro b member
          obtain ⟨⟨q, a', found, desc, isBlock⟩, -⟩ := (kept.free_exact d b).mp member
          have page := isBlock.page (kept.pages q a' found).1
          simp only [ne_eq, decide_not, Bool.not_eq_true', decide_eq_false_iff_not]
          intro here
          rw [← page, here, written] at found
          cases found
          cases described.symm.trans desc
          exact same rfl
      · -- A live block of this page would be free.
        by_contra something
        obtain ⟨n, survives⟩ := Option.ne_none_iff_exists'.mp something
        obtain ⟨q, a', found, fits⟩ := kept.live_fits b n survives
        have here := fits.page (kept.pages q a' found).1
        rw [← here, page, written] at found
        cases found
        simp only [Arena.Fits, described] at fits
        have isBlock : IsBlock p c b := page.symm.trans here ▸ fits.1
        have dead := ((kept.free_exact c b).mp (listed b (mem_arenaBlocks.mpr isBlock))).2
        rw [survives] at dead
        cases dead
    · rw [Heap.setArena_arena, Function.update_self]
  · refine ⟨freed, ?_, framed, fun q b d found desc => ?_, kept, fun full => absurd full last⟩
    · simp only [freeSmall, whole, Heap.link_own, inside, more, last, if_false]
      rfl
    · rw [headers] at found
      by_cases same : q = p
      · rw [same, Function.update_self] at found
        cases found
        cases described.symm.trans desc
        change a.cnt + 1 < blocksPerArena c
        omega
      · rw [Function.update_of_ne same] at found
        exact unused q b d found desc

/-- Freeing a large block gives its pages back. -/
theorem freeLarge_ok {h : Heap Task} {p : Nat} {a : Arena Task}
    (inv : HeapInv pool t (h.freeList t) (h.arena t) live) (unused : NoneUnused t (h.arena t))
    (present : h.arena t p = some a) (plain : a.desc = none) :
    ∃ next, mfreePage h t p a.cnt = .ok next ∧ Framed t h next ∧
      NoneUnused t (next.arena t) ∧ HeapInv pool t (next.freeList t) (next.arena t)
        (Function.update live (p + arenaSize) none) := by
  obtain ⟨aligned, -, -, positive⟩ := inv.pages p a present
  have large : a.large = true := (inv.shape p a present).mp plain
  rw [Arena.pages_large large] at positive
  refine ⟨h.setArena t p none, by simp [mfreePage, require_of, positive, aligned],
    .setArena h (fun b desc found desc' => ?_) (by simp), fun q b d found desc => ?_, ?_⟩
  · cases present.symm.trans found
    cases plain.symm.trans desc'
  · rw [Heap.setArena_arena] at found
    by_cases same : q = p
    · rw [same, Function.update_self] at found
      cases found
    · rw [Function.update_of_ne same] at found
      exact unused q b d found desc
  · rw [Heap.setArena_arena, Heap.setArena_freeList]
    have first : block2arena (p + arenaSize) = p :=
      block2arena_eq aligned (Nat.le_add_right _ _) (by simp [pgSize, arenaSize])
    refine inv.remove (fun d => ?_) (fun b page => ?_) fun b page => ?_
    · rw [eq_comm, List.filter_eq_self]
      intro b member
      obtain ⟨⟨q, a', found, desc, isBlock⟩, -⟩ := (inv.free_exact d b).mp member
      have page := isBlock.page (inv.pages q a' found).1
      simp only [ne_eq, decide_not, Bool.not_eq_true', decide_eq_false_iff_not]
      intro here
      rw [← page, here, present] at found
      cases found
      cases plain.symm.trans desc
    · by_cases same : b = p + arenaSize
      · rw [same, Function.update_self]
      · rw [Function.update_of_ne same]
        by_contra something
        obtain ⟨n, survives⟩ := Option.ne_none_iff_exists'.mp something
        obtain ⟨q, a', found, fits⟩ := inv.live_fits b n survives
        have here := fits.page (inv.pages q a' found).1
        rw [← here, page, present] at found
        cases found
        simp only [Arena.Fits, plain] at fits
        exact same (by rw [fits.1, ← here, page])
    · refine Function.update_of_ne ?_ _ _
      rintro rfl
      exact page first

/-- **`sys_free`** of a live block whose descriptor is the caller's own. -/
theorem sysFree_ok {h : Heap Task} {ptr : Nat} (whole : ∀ c, h.torn t c = false)
    (inv : HeapInv pool t (h.freeList t) (h.arena t) live) (unused : NoneUnused t (h.arena t))
    (alive : live ptr = some size) (owns : OwnsBlock t (h.arena t) ptr) :
    ∃ next, sysFree pool h t ptr = .ok next ∧ Framed t h next ∧ NoneUnused t (next.arena t) ∧
      HeapInv pool t (next.freeList t) (next.arena t) (Function.update live ptr none) ∧
      ∀ a c, h.arena t (block2arena ptr) = some a → a.desc = some (t, c) →
        a.cnt + 1 = blocksPerArena c → next.arena t (block2arena ptr) = none := by
  obtain ⟨p, a, present, fits⟩ := inv.live_fits ptr size alive
  obtain ⟨aligned, low, -⟩ := inv.pages p a present
  have inside := fits.page aligned
  rw [inside]
  have above : p + arenaSize ≤ ptr := by
    unfold Arena.Fits at fits
    split at fits
    · exact fits.1.bounds.1
    · exact Nat.le_of_eq fits.1.symm
  have nonnull : ptr ≠ 0 := by simp only [arenaSize] at above; omega
  have kernel : pool.kernel = true → kHeapStart ≤ ptr := by
    intro isKernel
    simp only [Pool.vaddrStart, isKernel, if_true] at low
    exact Nat.le_trans low (Nat.le_of_add_right_le above)
  have entered : sysFree pool h t ptr = freeBlock h t ptr a := by
    simp only [sysFree, require_of nonnull, require_of kernel, except_ok_bind, inside,
      Heap.header_of present]
  cases kind : a.desc with
  | none =>
      have large : a.large = true := (inv.shape p a present).mp kind
      simp only [Arena.Fits, kind] at fits
      obtain ⟨next, ran, framed, unused', kept⟩ := freeLarge_ok inv unused present kind
      refine ⟨next, by rw [entered, freeBlock, kind, inside]; simpa [large] using ran, framed,
        unused', fits.1 ▸ kept, fun a' c found desc => ?_⟩
      cases present.symm.trans found
      cases kind.symm.trans desc
  | some desc =>
      obtain ⟨o, c⟩ := desc
      have own : o = t := owns a (o, c) (inside ▸ present) kind
      subst own
      simp only [Arena.Fits, kind] at fits
      obtain ⟨next, ran, framed, unused', kept, gone⟩ :=
        freeSmall_ok (whole c) inv unused present kind fits.1 alive
      refine ⟨next, by rw [entered, freeBlock, kind]; exact ran, framed, unused', kept,
        fun a' d found desc full => ?_⟩
      cases present.symm.trans found
      cases kind.symm.trans desc
      exact gone full

/-- **`sys_malloc`.** -/
theorem sysMalloc_ok {h : Heap Task} (whole : ∀ c, h.torn t c = false)
    (inv : HeapInv pool t (h.freeList t) (h.arena t) live) (unused : NoneUnused t (h.arena t))
    (asks : Asks pool size) (granted : Granted pool h t size answer)
    (unheld : ∀ a, answer = .pages a → Unheld pool (h.arena t) a (pagesFor size)) :
    ∃ block next, sysMalloc pool h t size answer = .ok (block, next) ∧ Framed t h next ∧
      NoneUnused t (next.arena t) ∧ (block = none → next = h) ∧
      ∀ b, block = some b → HeapInv pool t (next.freeList t) (next.arena t)
        (Function.update live b (some size)) := by
  by_cases served : 0 < size ∧ size < pool.poolSize
  · by_cases large : size > 1024
    · simp only [pagesFor, large, if_true] at unheld
      obtain ⟨block, next, ran, rest⟩ := mallocLarge_ok inv unused (asks large served.2)
        (granted ⟨served, .inl large⟩) unheld
      exact ⟨block, next, by simp only [sysMalloc, served, large, ran, not_true, if_true,
        if_false, and_self], rest⟩
    · simp only [pagesFor, large, if_false] at unheld
      obtain ⟨c, selected, room⟩ := descFor_ok (Nat.le_of_not_gt large)
      have entered : sysMalloc pool h t size answer = mallocSmall h t size answer := by
        simp only [sysMalloc, served, large, not_true, if_false, and_self]
      rcases refill_ok inv unused c (fun empty => granted ⟨served, .inr ⟨c, selected, empty⟩⟩)
        unheld
        with nothing | ⟨refilled, ran, framed, inv', filled, most⟩
      · refine ⟨none, h, ?_, .refl h, unused, fun _ => rfl, by simp⟩
        rw [entered, mallocSmall_whole selected (whole c), nothing]
        rfl
      · obtain ⟨b, next, popped, framed', unused', kept⟩ := popBlock_ok inv' filled most room
        refine ⟨some b, next, ?_, framed.trans framed', unused', by simp, ?_⟩
        · rw [entered, mallocSmall_whole selected (whole c), ran, except_ok_bind]
          exact popped
        · rintro _ ⟨⟩
          exact kept
  · exact ⟨none, h, by simp only [sysMalloc, served, not_false_eq_true, if_true], .refl h, unused,
      fun _ => rfl, by simp⟩

end UKernel.Memory
