import UKernel.Memory.ForkCopy
import UKernel.Memory.PageRequest

/-! # A failing fork

`sys_fork` with the numbers of processes and the lists of tasks. `bitmap_scan` for one bit returns
one or stops the kernel, so that of all requests only the one for the bitmap of the child, which
has 23 pages, can return NULL. By then the control block, the page for copying and the number of the
child are taken, and nothing gives them back (`UKernel.SysFork.sysFork_restores_iff`).

The locks are free, as interrupts are off.
-/

namespace UKernel.SysFork

open UKernel.Library UKernel.Fs UKernel.Memory UKernel.Paging UKernel.Fork

/-! ## The machine -/

/-- The pages and contents of frames, the interrupt flag, `pid_bitmap`, and the lists of tasks by
their control blocks. -/
structure System (pools : Pools) where
  machine : Machine pools
  intrOff : Bool
  pidBitmap : Bitmap 128
  threadReadyList : List Nat
  threadAllList : List Nat

variable {pools : Pools}

/-- A call on the system. -/
abbrev SystemCall (pools : Pools) (α : Type) := Call (System pools) α

/-- A call on the pages and frames. -/
def onMachine {α : Type} (call : MachineCall pools α) : SystemCall pools α :=
  onPart System.machine (fun sys m => { sys with machine := m }) call

/-- `allocate_pid`, which is `fork_pid`. -/
def allocatePid : SystemCall pools Nat := do
  match ← (← get).pidBitmap.scan 1 with
  | none => throw .outOfBounds
  | some bitIdx =>
      modify fun sys => { sys with pidBitmap := sys.pidBitmap.set bitIdx true }
      return bitIdx + 1

/-- `copy_pcb_vaddrbitmap_stack0`: the number of the child and its bitmap. -/
def copyPcbVaddrbitmapStack0 : SystemCall pools (Option (Nat × Nat)) := do
  let pid ← allocatePid
  match ← onMachine (Fork.getKernelPages bitmapPgCnt) with
  | none => return none
  | some vaddrBtmp => return some (pid, vaddrBtmp)

/-- `copy_process`; the result is the number of the child. -/
def copyProcess (parent pcb : Nat) : SystemCall pools (Option Nat) := do
  let parentSpace ← onMachine (onPages (spaceOf parent))
  match ← onMachine (Fork.getKernelPages 1) with
  | none => return none
  | some bufPage =>
      match ← copyPcbVaddrbitmapStack0 with
      | none => return none
      | some (child, bits) =>
          match ← onMachine (Fork.createPageDir child) with
          | none => return none
          | some pgdir =>
              onMachine (copyInto parent child pcb bufPage bits pgdir parentSpace)
              return some child

/-- `list_append` of a task that must not be in the list. -/
def appendTask (list : List Nat) (pcb : Nat) : Except Fault (List Nat) := do
  require (pcb ∉ list)
  return list ++ [pcb]

/-- `sys_fork`; `none` is the result -1. -/
def sysFork : SystemCall pools (Option Nat) := do
  let parent := (← get).machine.active
  match ← onMachine (Fork.getKernelPages 1) with
  | none => return none
  | some pcb =>
      let sys ← get
      require (sys.intrOff ∧ (sys.machine.pages.space parent).isSome)
      match ← copyProcess parent pcb with
      | none => return none
      | some child =>
          let ready ← appendTask (← get).threadReadyList pcb
          modify fun sys => { sys with threadReadyList := ready }
          let all ← appendTask (← get).threadAllList pcb
          modify fun sys => { sys with threadAllList := all }
          return some child

/-- Nothing was taken and no task was added. -/
structure Restored (sys sys' : System pools) : Prop where
  kernelPool : sys'.machine.pages.poolBitmap .kernel = sys.machine.pages.poolBitmap .kernel
  userPool : sys'.machine.pages.poolBitmap .user = sys.machine.pages.poolBitmap .user
  kernelVaddr : sys'.machine.pages.kernelVaddr = sys.machine.pages.kernelVaddr
  pidBitmap : sys'.pidBitmap = sys.pidBitmap
  readyList : sys'.threadReadyList = sys.threadReadyList
  allList : sys'.threadAllList = sys.threadAllList

/-- If `sys_fork` returns -1, everything is as it was. -/
def RestoresOnFailure (sys : System pools) : Prop :=
  ∀ sys', sysFork.run sys = .ok (none, sys') → Restored sys sys'

/-! ## The condition -/

/-- The first free bit of a bitmap. -/
structure FirstBit {len : Nat} (btmp : Bitmap len) (bitIdx : Nat) : Prop where
  small : bitIdx < 8 * len
  free : btmp.test bitIdx = false
  least : ∀ earlier < bitIdx, btmp.test earlier = true

/-- A free bit, but no run of free bits that a scan finds. -/
structure NoRun {len : Nat} (btmp : Bitmap len) (cnt : Nat) : Prop where
  free : ∃ bitIdx < 8 * len, btmp.test bitIdx = false
  short : ∀ start, btmp.FirstFree cnt start → Bitmap.scanned len cnt < start + cnt

/-- The virtual page and the frame for a request of one page of the kernel. -/
structure NextPage (s : Pages pools) (page frame : Nat) : Prop where
  firstPage : FirstBit s.kernelVaddr page
  firstFrame : FirstBit (s.poolBitmap .kernel) frame
  unmapped : (s.kernelPte (kHeapStart / pgSize + page)).present = false

/-- A page of the kernel is taken and mapped to a frame. -/
def takePage (s : Pages pools) (page frame : Nat) : Pages pools :=
  { s.setFrame .kernel frame true with
    kernelVaddr := s.kernelVaddr.set page true
    kernelPte := Function.update s.kernelPte (kHeapStart / pgSize + page)
      ⟨frameAddr pools .kernel frame, true⟩ }

/-- A process is running, two pages and a process number are there, but no run of pages for the
bitmap of the child. -/
structure Fragmented (sys : System pools) : Prop where
  intrOff : sys.intrOff = true
  process : ∃ space, sys.machine.pages.space sys.machine.active = some space
  pid : ∃ bitIdx < 8 * 128, sys.pidBitmap.test bitIdx = false
  pages : ∃ pcb frame buf frame', NextPage sys.machine.pages pcb frame ∧
    NextPage (takePage sys.machine.pages pcb frame) buf frame' ∧
    NoRun ((sys.machine.pages.kernelVaddr.set pcb true).set buf true) bitmapPgCnt

variable {s s' : Pages pools} {m m' : Machine pools} {sys sys' : System pools}
  {cur cnt page frame : Nat} {found : Option Nat}

/-! ## One page of the kernel -/

theorem scan_one_iff {len bitIdx : Nat} {btmp : Bitmap len} :
    btmp.scan 1 = .ok (some bitIdx) ↔ FirstBit btmp bitIdx := by
  constructor
  · intro ran
    obtain ⟨k, same, small, free, least⟩ := Bitmap.scan_returns ran
    cases same
    exact ⟨small, free, least⟩
  · rintro ⟨small, free, least⟩
    obtain ⟨k, ran, _, free', least'⟩ := Bitmap.scan_free ⟨bitIdx, small, free⟩
    have same : k = bitIdx := by
      rcases Nat.lt_trichotomy k bitIdx with before | same | after
      · rw [least k before] at free'
        cases free'
      · exact same
      · rw [least' bitIdx after] at free
        cases free
    rw [ran, same]

theorem scan_one_some {len : Nat} {btmp : Bitmap len} (ran : btmp.scan 1 = .ok found) :
    ∃ bitIdx, found = some bitIdx ∧ FirstBit btmp bitIdx := by
  obtain ⟨k, rfl, small, free, least⟩ := Bitmap.scan_returns ran
  exact ⟨k, rfl, small, free, least⟩

theorem page_of_bit : (kHeapStart + page * pgSize) / pgSize = kHeapStart / pgSize + page :=
  Nat.add_mul_div_right _ _ (by decide)

theorem high_of_bit : kHeapStart ≤ kHeapStart + page * pgSize := Nat.le_add_right _ _

theorem readPte_runs (cur : Nat) {vaddr : Nat} (high : kHeapStart ≤ vaddr) :
    (readPte cur vaddr).run s = .ok (s.kernelPte (vaddr / pgSize), s) := by
  rw [readPte, if_pos high, call_bind_of (call_get_returns.mpr ⟨rfl, rfl⟩)]
  rfl

theorem pageTableAdd_kernel_iff {vaddr addr : Nat} (high : kHeapStart ≤ vaddr) :
    (pageTableAdd cur vaddr addr).run s = .ok ((), s') ↔
      (s.kernelPte (vaddr / pgSize)).present = false ∧
        s' = { s with kernelPte := Function.update s.kernelPte (vaddr / pgSize) ⟨addr, true⟩ } := by
  have notUser : ¬ vaddr < kernelBase := fun low => not_high low high
  rw [pageTableAdd, if_neg notUser, call_bind_of (readPte_runs cur high), writePte, if_pos high]
  constructor
  · intro ran
    obtain ⟨_, _, required, ran⟩ := call_bind_returns.mp ran
    obtain ⟨absent, rfl⟩ := call_lift_returns.mp required
    exact ⟨require_eq_ok.mp absent, (call_modify_returns.mp ran).symm⟩
  · rintro ⟨absent, rfl⟩
    exact call_bind_returns.mpr ⟨(), s, call_lift_returns.mpr ⟨require_of absent, rfl⟩,
      call_modify_returns.mpr rfl⟩

/-- A request for one page of the kernel. -/
theorem mallocPage_one_iff : (Paging.mallocPage cur .kernel 1).run s = .ok (found, s') ↔
    ∃ page frame, NextPage s page frame ∧ found = some (kHeapStart + page * pgSize) ∧
      s' = takePage s page frame := by
  have few : (liftM (require (0 < 1 ∧ 1 < 3840)) : PageCall pools Unit).run s = .ok ((), s) :=
    call_lift_returns.mpr ⟨require_of (by decide), rfl⟩
  rw [Paging.mallocPage, call_bind_of few]
  constructor
  · intro ran
    obtain ⟨vaddr, mid, got, ran⟩ := call_bind_returns.mp ran
    obtain ⟨_, _, read, got⟩ := call_bind_returns.mp got
    obtain ⟨rfl, rfl⟩ := call_get_returns.mp read
    obtain ⟨start, _, scanned, got⟩ := call_bind_returns.mp got
    obtain ⟨scan, rfl⟩ := call_lift_returns.mp scanned
    obtain ⟨page, rfl, first⟩ := scan_one_some scan
    obtain ⟨_, _, set, got⟩ := call_bind_returns.mp got
    cases call_modify_returns.mp set
    obtain ⟨rfl, rfl⟩ := call_pure_returns.mp got
    obtain ⟨done, _, mapped, ran⟩ := call_bind_returns.mp ran
    have all := mapPages_true mapped
    subst all
    obtain ⟨rfl, rfl⟩ := call_pure_returns.mp ran
    obtain ⟨addr, _, taken, mapped⟩ := call_bind_returns.mp mapped
    obtain ⟨_, _, read, taken⟩ := call_bind_returns.mp taken
    obtain ⟨rfl, rfl⟩ := call_get_returns.mp read
    obtain ⟨bit, _, scanned, taken⟩ := call_bind_returns.mp taken
    obtain ⟨scan, rfl⟩ := call_lift_returns.mp scanned
    obtain ⟨frame, rfl, free⟩ := scan_one_some scan
    obtain ⟨_, _, set, taken⟩ := call_bind_returns.mp taken
    cases call_modify_returns.mp set
    obtain ⟨rfl, rfl⟩ := call_pure_returns.mp taken
    obtain ⟨_, _, added, mapped⟩ := call_bind_returns.mp mapped
    obtain ⟨absent, rfl⟩ := (pageTableAdd_kernel_iff high_of_bit).mp added
    obtain ⟨-, rfl⟩ := call_pure_returns.mp mapped
    rw [page_of_bit] at absent ⊢
    exact ⟨page, frame, ⟨first, free, absent⟩, rfl, rfl⟩
  · rintro ⟨page, frame, ⟨first, free, absent⟩, rfl, rfl⟩
    have found : (vaddrGet cur .kernel 1).run s = .ok (some (kHeapStart + page * pgSize),
        { s with kernelVaddr := s.kernelVaddr.set page true }) :=
      call_bind_returns.mpr ⟨s, s, call_get_returns.mpr ⟨rfl, rfl⟩,
        call_bind_returns.mpr ⟨some page, s,
          call_lift_returns.mpr ⟨scan_one_iff.mpr first, rfl⟩, rfl⟩⟩
    have taken : (palloc .kernel).run { s with kernelVaddr := s.kernelVaddr.set page true } =
        .ok (some (frameAddr pools .kernel frame), Pages.setFrame
          { s with kernelVaddr := s.kernelVaddr.set page true } .kernel frame true) :=
      call_bind_returns.mpr ⟨_, _, call_get_returns.mpr ⟨rfl, rfl⟩,
        call_bind_returns.mpr ⟨some frame, _,
          call_lift_returns.mpr ⟨scan_one_iff.mpr free, rfl⟩, rfl⟩⟩
    rw [← page_of_bit] at absent
    have added := (@pageTableAdd_kernel_iff pools (Pages.setFrame
      { s with kernelVaddr := s.kernelVaddr.set page true } .kernel frame true) _ cur _
      (frameAddr pools .kernel frame) high_of_bit).mpr ⟨absent, rfl⟩
    rw [call_bind_of found]
    dsimp only
    rw [mapPages]
    rw [bind_assoc, call_bind_of taken]
    dsimp only
    rw [bind_assoc, call_bind_of added, page_of_bit]
    rfl

/-- A page of the kernel is taken and set to zero. -/
def takeCleared (m : Machine pools) (page frame : Nat) : Machine pools :=
  { m with
    pages := takePage m.pages page frame
    frame := Function.update m.frame (frameAddr pools .kernel frame) Memory.zeros }

theorem clearPages_taken : (clearPages (kHeapStart + page * pgSize) 1).run
    { m with pages := takePage m.pages page frame } = .ok ((), takeCleared m page frame) := by
  have pte : (takePage m.pages page frame).kernelPte ((kHeapStart + page * pgSize) / pgSize) =
      ⟨frameAddr pools .kernel frame, true⟩ := by
    rw [page_of_bit]
    exact Function.update_self ..
  have read : (frameOf (kHeapStart + page * pgSize)).run
      { m with pages := takePage m.pages page frame } =
      .ok (frameAddr pools .kernel frame, { m with pages := takePage m.pages page frame }) := by
    rw [frameOf, call_bind_of (call_get_returns.mpr ⟨rfl, rfl⟩),
      call_bind_of (onPages_returns.mpr ⟨_, readPte_runs m.active high_of_bit, rfl⟩), pte]
    rfl
  rw [clearPages, call_bind_of read]
  rfl

/-- `get_kernel_pages` of one page. -/
theorem getKernelPages_one_iff : (Fork.getKernelPages 1).run m = .ok (found, m') ↔
    ∃ page frame, NextPage m.pages page frame ∧ found = some (kHeapStart + page * pgSize) ∧
      m' = takeCleared m page frame := by
  rw [Fork.getKernelPages, call_bind_of (call_get_returns.mpr ⟨rfl, rfl⟩)]
  constructor
  · intro ran
    obtain ⟨got, _, mapped, ran⟩ := call_bind_returns.mp ran
    obtain ⟨pages, made, rfl⟩ := onPages_returns.mp mapped
    obtain ⟨page, frame, next, rfl, rfl⟩ := mallocPage_one_iff.mp made
    rw [call_bind_of clearPages_taken] at ran
    obtain ⟨rfl, rfl⟩ := call_pure_returns.mp ran
    exact ⟨page, frame, next, rfl, rfl⟩
  · rintro ⟨page, frame, next, rfl, rfl⟩
    have made : (onPages (Paging.getKernelPages m.active 1)).run m =
        .ok (some (kHeapStart + page * pgSize), { m with pages := takePage m.pages page frame }) :=
      onPages_returns.mpr ⟨_, mallocPage_one_iff.mpr ⟨page, frame, next, rfl, rfl⟩, rfl⟩
    rw [call_bind_of made]
    dsimp only
    rw [call_bind_of clearPages_taken]
    rfl

/-! ## A request that is not answered -/

theorem scan_none_iff {len : Nat} {btmp : Bitmap len} (positive : 0 < cnt) :
    btmp.scan cnt = .ok none ↔ NoRun btmp cnt := by
  constructor
  · intro ran
    have free := Bitmap.exists_free_of_scan ran
    obtain ⟨found, ran', first⟩ := Bitmap.scan_first positive free
    rw [ran] at ran'
    cases ran'
    refine ⟨free, fun start run => ?_⟩
    by_contra inside
    cases (first start).mpr ⟨run, Nat.not_lt.mp inside⟩
  · rintro ⟨free, short⟩
    obtain ⟨found, ran, first⟩ := Bitmap.scan_first positive free
    cases found with
    | none => exact ran
    | some start =>
        obtain ⟨run, inside⟩ := (first start).mp rfl
        exact absurd inside (Nat.not_le.mpr (short start run))

/-- `malloc_page` returns NULL exactly when there is no run of virtual pages. -/
theorem mallocPage_none_iff (few : 0 < cnt ∧ cnt < 3840) :
    (Paging.mallocPage cur .kernel cnt).run s = .ok (none, s') ↔
      NoRun s.kernelVaddr cnt ∧ s' = s := by
  have required : (liftM (require (0 < cnt ∧ cnt < 3840)) : PageCall pools Unit).run s =
      .ok ((), s) := call_lift_returns.mpr ⟨require_of few, rfl⟩
  rw [Paging.mallocPage, call_bind_of required]
  constructor
  · intro ran
    obtain ⟨vaddr, mid, got, ran⟩ := call_bind_returns.mp ran
    cases vaddr with
    | none =>
        obtain ⟨-, rfl⟩ := call_pure_returns.mp ran
        obtain ⟨_, _, read, got⟩ := call_bind_returns.mp got
        obtain ⟨rfl, rfl⟩ := call_get_returns.mp read
        obtain ⟨start, _, scanned, got⟩ := call_bind_returns.mp got
        obtain ⟨scan, rfl⟩ := call_lift_returns.mp scanned
        cases start with
        | none =>
            obtain ⟨-, rfl⟩ := call_pure_returns.mp got
            exact ⟨(scan_none_iff few.1).mp scan, rfl⟩
        | some start =>
            obtain ⟨_, _, -, got⟩ := call_bind_returns.mp got
            cases (call_pure_returns.mp got).1
    | some vaddr =>
        obtain ⟨done, _, mapped, ran⟩ := call_bind_returns.mp ran
        have all := mapPages_true mapped
        subst all
        cases (call_pure_returns.mp ran).1
  · rintro ⟨noRun, rfl⟩
    have got : (vaddrGet cur .kernel cnt).run s' = .ok (none, s') :=
      call_bind_returns.mpr ⟨s', s', call_get_returns.mpr ⟨rfl, rfl⟩,
        call_bind_returns.mpr ⟨none, s',
          call_lift_returns.mpr ⟨(scan_none_iff few.1).mpr noRun, rfl⟩, rfl⟩⟩
    rw [call_bind_of got]
    rfl

/-- `get_kernel_pages` returns NULL and leaves the machine as it is. -/
theorem getKernelPages_none_iff (few : 0 < cnt ∧ cnt < 3840) :
    (Fork.getKernelPages cnt).run m = .ok (none, m') ↔
      NoRun m.pages.kernelVaddr cnt ∧ m' = m := by
  rw [Fork.getKernelPages, call_bind_of (call_get_returns.mpr ⟨rfl, rfl⟩)]
  constructor
  · intro ran
    obtain ⟨got, _, mapped, ran⟩ := call_bind_returns.mp ran
    obtain ⟨pages, made, rfl⟩ := onPages_returns.mp mapped
    cases got with
    | none =>
        obtain ⟨-, rfl⟩ := call_pure_returns.mp ran
        obtain ⟨noRun, rfl⟩ := (mallocPage_none_iff few).mp made
        exact ⟨noRun, rfl⟩
    | some vaddr =>
        obtain ⟨_, _, -, ran⟩ := call_bind_returns.mp ran
        cases (call_pure_returns.mp ran).1
  · rintro ⟨noRun, rfl⟩
    have made : (onPages (Paging.getKernelPages m'.active cnt)).run m' = .ok (none, m') :=
      onPages_returns.mpr ⟨_, (mallocPage_none_iff few).mpr ⟨noRun, rfl⟩, rfl⟩
    rw [call_bind_of made]
    rfl

/-! ## The fork -/

theorem allocatePid_iff {pid : Nat} : (allocatePid : SystemCall pools Nat).run sys =
    .ok (pid, sys') ↔
    ∃ bitIdx, FirstBit sys.pidBitmap bitIdx ∧ pid = bitIdx + 1 ∧
      sys' = { sys with pidBitmap := sys.pidBitmap.set bitIdx true } := by
  rw [allocatePid, call_bind_of (call_get_returns.mpr ⟨rfl, rfl⟩)]
  constructor
  · intro ran
    obtain ⟨found, _, scanned, ran⟩ := call_bind_returns.mp ran
    obtain ⟨scan, rfl⟩ := call_lift_returns.mp scanned
    obtain ⟨bitIdx, rfl, first⟩ := scan_one_some scan
    obtain ⟨_, _, set, ran⟩ := call_bind_returns.mp ran
    cases call_modify_returns.mp set
    obtain ⟨rfl, rfl⟩ := call_pure_returns.mp ran
    exact ⟨bitIdx, first, rfl, rfl⟩
  · rintro ⟨bitIdx, first, rfl, rfl⟩
    rw [call_bind_of (call_lift_returns.mpr ⟨scan_one_iff.mpr first, rfl⟩)]
    rfl

theorem bitmapPgCnt_few : 0 < bitmapPgCnt ∧ bitmapPgCnt < 3840 := by decide

/-- `copy_pcb_vaddrbitmap_stack0` fails with the number of the child taken. -/
theorem copyPcb_none_iff :
    (copyPcbVaddrbitmapStack0 : SystemCall pools _).run sys = .ok (none, sys') ↔
      ∃ bitIdx, FirstBit sys.pidBitmap bitIdx ∧
        NoRun sys.machine.pages.kernelVaddr bitmapPgCnt ∧
        sys' = { sys with pidBitmap := sys.pidBitmap.set bitIdx true } := by
  constructor
  · intro ran
    obtain ⟨pid, _, numbered, ran⟩ := call_bind_returns.mp ran
    obtain ⟨bitIdx, first, rfl, rfl⟩ := allocatePid_iff.mp numbered
    obtain ⟨got, _, requested, ran⟩ := call_bind_returns.mp ran
    cases got with
    | none =>
        obtain ⟨-, rfl⟩ := call_pure_returns.mp ran
        obtain ⟨after, made, rfl⟩ := onPart_returns.mp requested
        obtain ⟨noRun, rfl⟩ := (getKernelPages_none_iff bitmapPgCnt_few).mp made
        exact ⟨bitIdx, first, noRun, rfl⟩
    | some vaddrBtmp => cases (call_pure_returns.mp ran).1
  · rintro ⟨bitIdx, first, noRun, rfl⟩
    have requested : (onMachine (Fork.getKernelPages bitmapPgCnt)).run
        { sys with pidBitmap := sys.pidBitmap.set bitIdx true } =
        .ok (none, { sys with pidBitmap := sys.pidBitmap.set bitIdx true }) :=
      onPart_returns.mpr
        ⟨_, (getKernelPages_none_iff bitmapPgCnt_few).mpr ⟨noRun, rfl⟩, rfl⟩
    rw [copyPcbVaddrbitmapStack0,
      call_bind_of (allocatePid_iff.mpr ⟨bitIdx, first, rfl, rfl⟩), call_bind_of requested]
    rfl

/-- `copy_process` fails where the pages for the bitmap are requested. -/
theorem copyProcess_none_iff {parent pcb : Nat} :
    (copyProcess parent pcb).run sys = .ok (none, sys') ↔
      (∃ space, sys.machine.pages.space parent = some space) ∧
      ∃ buf frame bitIdx, NextPage sys.machine.pages buf frame ∧ FirstBit sys.pidBitmap bitIdx ∧
        NoRun (sys.machine.pages.kernelVaddr.set buf true) bitmapPgCnt ∧
        sys' = { sys with
          machine := takeCleared sys.machine buf frame
          pidBitmap := sys.pidBitmap.set bitIdx true } := by
  constructor
  · intro ran
    obtain ⟨space, _, looked, ran⟩ := call_bind_returns.mp ran
    obtain ⟨after, read, rfl⟩ := onPart_returns.mp looked
    obtain ⟨pages, found, rfl⟩ := onPages_returns.mp read
    obtain ⟨known, rfl⟩ := spaceOf_returns found
    obtain ⟨buf, _, requested, ran⟩ := call_bind_returns.mp ran
    obtain ⟨after, made, rfl⟩ := onPart_returns.mp requested
    obtain ⟨page, frame, next, rfl, rfl⟩ := getKernelPages_one_iff.mp made
    refine ⟨⟨space, known⟩, ?_⟩
    obtain ⟨copied, _, pcbCopied, ran⟩ := call_bind_returns.mp ran
    cases copied with
    | none =>
        obtain ⟨-, rfl⟩ := call_pure_returns.mp ran
        obtain ⟨bitIdx, first, noRun, rfl⟩ := copyPcb_none_iff.mp pcbCopied
        exact ⟨page, frame, bitIdx, next, first, noRun, rfl⟩
    | some made =>
        obtain ⟨dir, _, created, ran⟩ := call_bind_returns.mp ran
        cases dir with
        | none =>
            obtain ⟨after, made, rfl⟩ := onPart_returns.mp created
            obtain ⟨got, _, requested, made⟩ := call_bind_returns.mp made
            obtain ⟨_, _, -, rfl, -⟩ := getKernelPages_one_iff.mp requested
            obtain ⟨_, _, -, made⟩ := call_bind_returns.mp made
            cases (call_pure_returns.mp made).1
        | some pgdir =>
            obtain ⟨_, _, -, ran⟩ := call_bind_returns.mp ran
            cases (call_pure_returns.mp ran).1
  · rintro ⟨⟨space, known⟩, buf, frame, bitIdx, next, first, noRun, rfl⟩
    have looked : (onMachine (onPages (spaceOf parent))).run sys = .ok (space, sys) :=
      onPart_returns.mpr ⟨_, onPages_returns.mpr ⟨_, spaceOf_runs known, rfl⟩, rfl⟩
    have requested : (onMachine (Fork.getKernelPages 1)).run sys =
        .ok (some (kHeapStart + buf * pgSize),
          { sys with machine := takeCleared sys.machine buf frame }) :=
      onPart_returns.mpr ⟨_, getKernelPages_one_iff.mpr ⟨buf, frame, next, rfl, rfl⟩, rfl⟩
    rw [copyProcess, call_bind_of looked, call_bind_of requested]
    dsimp only
    rw [call_bind_of ((@copyPcb_none_iff pools
      { sys with machine := takeCleared sys.machine buf frame } _).mpr
        ⟨bitIdx, first, noRun, rfl⟩)]
    rfl

/-- When `sys_fork` returns -1, and what it leaves. -/
theorem sysFork_none_iff : sysFork.run sys = .ok (none, sys') ↔
    sys.intrOff = true ∧ (∃ space, sys.machine.pages.space sys.machine.active = some space) ∧
    ∃ pcb frame buf frame' bitIdx, NextPage sys.machine.pages pcb frame ∧
      NextPage (takePage sys.machine.pages pcb frame) buf frame' ∧
      FirstBit sys.pidBitmap bitIdx ∧
      NoRun ((sys.machine.pages.kernelVaddr.set pcb true).set buf true) bitmapPgCnt ∧
      sys' = { sys with
        machine := takeCleared (takeCleared sys.machine pcb frame) buf frame'
        pidBitmap := sys.pidBitmap.set bitIdx true } := by
  rw [sysFork, call_bind_of (call_get_returns.mpr ⟨rfl, rfl⟩)]
  constructor
  · intro ran
    obtain ⟨found, _, requested, ran⟩ := call_bind_returns.mp ran
    obtain ⟨after, made, rfl⟩ := onPart_returns.mp requested
    obtain ⟨pcb, frame, next, rfl, rfl⟩ := getKernelPages_one_iff.mp made
    obtain ⟨_, _, read, ran⟩ := call_bind_returns.mp ran
    obtain ⟨rfl, rfl⟩ := call_get_returns.mp read
    obtain ⟨_, _, required, ran⟩ := call_bind_returns.mp ran
    obtain ⟨asserted, rfl⟩ := call_lift_returns.mp required
    obtain ⟨intrOff, process⟩ := require_eq_ok.mp asserted
    obtain ⟨copied, _, process', ran⟩ := call_bind_returns.mp ran
    cases copied with
    | none =>
        obtain ⟨-, rfl⟩ := call_pure_returns.mp ran
        obtain ⟨-, buf, frame', bitIdx, next', first, noRun, rfl⟩ :=
          copyProcess_none_iff.mp process'
        exact ⟨intrOff, Option.isSome_iff_exists.mp process, pcb, frame, buf, frame', bitIdx,
          next, next', first, noRun, rfl⟩
    | some child =>
        obtain ⟨_, _, -, ran⟩ := call_bind_returns.mp ran
        obtain ⟨_, _, -, ran⟩ := call_bind_returns.mp ran
        obtain ⟨_, _, -, ran⟩ := call_bind_returns.mp ran
        obtain ⟨_, _, -, ran⟩ := call_bind_returns.mp ran
        obtain ⟨_, _, -, ran⟩ := call_bind_returns.mp ran
        obtain ⟨_, _, -, ran⟩ := call_bind_returns.mp ran
        cases (call_pure_returns.mp ran).1
  · rintro ⟨intrOff, ⟨space, known⟩, pcb, frame, buf, frame', bitIdx, next, next', first, noRun,
      rfl⟩
    have requested : (onMachine (Fork.getKernelPages 1)).run sys =
        .ok (some (kHeapStart + pcb * pgSize),
          { sys with machine := takeCleared sys.machine pcb frame }) :=
      onPart_returns.mpr ⟨_, getKernelPages_one_iff.mpr ⟨pcb, frame, next, rfl, rfl⟩, rfl⟩
    have asserted : sys.intrOff = true ∧
        ((takeCleared sys.machine pcb frame).pages.space sys.machine.active).isSome :=
      ⟨intrOff, Option.isSome_iff_exists.mpr ⟨space, known⟩⟩
    rw [call_bind_of requested]
    dsimp only
    rw [call_bind_of (call_get_returns.mpr ⟨rfl, rfl⟩),
      call_bind_of (call_lift_returns.mpr ⟨require_of asserted, rfl⟩),
      call_bind_of ((@copyProcess_none_iff pools
        { sys with machine := takeCleared sys.machine pcb frame } _ _ _).mpr
          ⟨⟨space, known⟩, buf, frame', bitIdx, next', first, noRun, rfl⟩)]
    rfl

/-- A failing fork keeps the number of the child. -/
theorem not_restores_of_fragmented (fragmented : Fragmented sys) : ¬ RestoresOnFailure sys := by
  intro restores
  obtain ⟨intrOff, process, pid, pcb, frame, buf, frame', next, next', noRun⟩ := fragmented
  obtain ⟨bitIdx, -, small, free, least⟩ := Bitmap.scan_free pid
  have restored := restores _ (sysFork_none_iff.mpr ⟨intrOff, process, pcb, frame, buf, frame',
    bitIdx, next, next', ⟨small, free, least⟩, noRun, rfl⟩)
  have same := congrArg (fun btmp => btmp.test bitIdx) restored.pidBitmap
  dsimp only at same
  rw [Bitmap.test_set, if_pos rfl, free] at same
  cases same

/-- **A failing fork.** If `sys_fork` returns -1 then the pools, the bitmaps and the lists are as
they were, if and only if it is not the case that two pages and a process number are there but no
run of pages for the bitmap of the child. -/
theorem sysFork_restores_iff : RestoresOnFailure sys ↔ ¬ Fragmented sys := by
  constructor
  · exact fun restores fragmented => not_restores_of_fragmented fragmented restores
  · intro whole sys' ran
    obtain ⟨intrOff, process, pcb, frame, buf, frame', bitIdx, next, next', first, noRun, -⟩ :=
      sysFork_none_iff.mp ran
    exact absurd ⟨intrOff, process, ⟨bitIdx, first.small, first.free⟩, pcb, frame, buf, frame',
      next, next', noRun⟩ whole

/-! ## A fragmented kernel -/

/-- One process runs, and other tasks have pages on both sides of the free ones, of which there are
fifteen. -/
def apartPages : Pages somePools :=
  { (oneMachine kernelInode).pages with
    poolBitmap := fun
      | .kernel => setBits ⟨Memory.zeros⟩ 0 true 50
      | .user => setBits ⟨Memory.zeros⟩ 0 true 1
    kernelVaddr := setBits (setBits ⟨Memory.zeros⟩ 0 true 25) 40 true 24
    kernelPte := fun page =>
      if 0xc0100 ≤ page ∧ page < 0xc0100 + 25 then
        ⟨frameAddr somePools .kernel (page - 0xc0100), true⟩
      else if 0xc0100 + 40 ≤ page ∧ page < 0xc0100 + 64 then
        ⟨frameAddr somePools .kernel (page - 0xc0100 - 14), true⟩
      else Pte.zero }

/-- Interrupts are off, and one process number is taken. -/
def apartSystem : System somePools where
  machine := { oneMachine kernelInode with pages := apartPages }
  intrOff := true
  pidBitmap := (⟨Memory.zeros⟩ : Bitmap 128).set 0 true
  threadReadyList := []
  threadAllList := [kHeapStart]

theorem apartSystem_fragmented : Fragmented apartSystem where
  intrOff := rfl
  process := ⟨oneSpace, rfl⟩
  pid := ⟨1, by decide, by decide⟩
  pages := by
    refine ⟨25, 50, 26, 51, ⟨scan_one_iff.mp ?_, scan_one_iff.mp ?_, ?_⟩,
      ⟨scan_one_iff.mp ?_, scan_one_iff.mp ?_, ?_⟩, (scan_none_iff bitmapPgCnt_few.1).mp ?_⟩
    all_goals decide +kernel

theorem apartSystem_not_restored : ¬ RestoresOnFailure apartSystem :=
  not_restores_of_fragmented apartSystem_fragmented

end UKernel.SysFork
