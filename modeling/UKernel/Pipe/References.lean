import UKernel.Pipe.Descriptor

/-! # The reference count of a pipe

`fd_pos` of a pipe counts the descriptors that refer to it, and the ring's page is given back
with the last of them, in every run whose calls count what they do
(`UKernel.Pipe.pipe_references_counted`): a redirection neither makes nor drops a
reference, no `sys_lseek` moves the count to 0, and the caller of `sys_pipe` has two
free entries.
-/

namespace UKernel.Pipe

open UKernel.Library UKernel.Fs

variable {s s' : PipeState} {cur child : Pid} {localFd globalFd g : Nat}

namespace PipeState

/-- The number of pairs of a live process and an entry of its `fd_table` that refer to a slot
of the file table. -/
def references (s : PipeState) (globalFd : Nat) : Nat :=
  countOf (s.live ×ˢ Finset.range maxFilesOpenPerProc) (fun r => s.fdTable r.1 r.2) (some globalFd)

/-- The slot belongs to a pipe. -/
def IsPipeSlot (s : PipeState) (globalFd : Nat) : Prop :=
  (s.fileTable globalFd).fdFlag = pipeFlag

instance (s : PipeState) (globalFd : Nat) : Decidable (s.IsPipeSlot globalFd) :=
  inferInstanceAs (Decidable ((s.fileTable globalFd).fdFlag = pipeFlag))

theorem references_congr (live : s'.live = s.live) (fdTable : s'.fdTable = s.fdTable) :
    s'.references g = s.references g := by
  rw [references, references, live, fdTable]

/-- Rewriting an entry moves one reference. -/
theorem references_setFd (alive : cur ∈ s.live) (small : localFd < maxFilesOpenPerProc)
    (new : Option Nat) :
    (s.setFd cur localFd new).references g + (if s.fdTable cur localFd = some g then 1 else 0) =
      s.references g + (if new = some g then 1 else 0) := by
  have updated : (fun r : Pid × Nat => (s.setFd cur localFd new).fdTable r.1 r.2) =
      Function.update (fun r : Pid × Nat => s.fdTable r.1 r.2) (cur, localFd) new := by
    funext r
    simp only [fdTable_setFd, Function.update_apply, Prod.ext_iff]
  have member : (cur, localFd) ∈ s.live ×ˢ Finset.range maxFilesOpenPerProc :=
    Finset.mem_product.mpr ⟨alive, Finset.mem_range.mpr small⟩
  have counted := count_update (f := fun r : Pid × Nat => s.fdTable r.1 r.2) member new (some g)
  rw [← updated] at counted
  exact counted

/-- No descriptor refers to the slot. -/
theorem references_eq_zero : s.references g = 0 ↔
    ∀ pid ∈ s.live, ∀ fd < maxFilesOpenPerProc, s.fdTable pid fd ≠ some g := by
  rw [references, countOf_eq_zero]
  constructor
  · intro none pid alive fd small
    exact none (pid, fd) (Finset.mem_product.mpr ⟨alive, Finset.mem_range.mpr small⟩)
  · intro none r member
    obtain ⟨alive, small⟩ := Finset.mem_product.mp member
    exact none r.1 alive r.2 (Finset.mem_range.mp small)

/-- There are no more references than pairs. -/
theorem references_le (few : ∀ pid ∈ s.live, pid < 1024) : s.references g ≤ 8192 := by
  have live : s.live.card ≤ 1024 := by
    have bound := Finset.card_le_card (show s.live ⊆ Finset.range 1024 from
      fun pid alive => Finset.mem_range.mpr (few pid alive))
    rwa [Finset.card_range] at bound
  calc s.references g
      ≤ (s.live ×ˢ Finset.range maxFilesOpenPerProc).card := Finset.card_filter_le _ _
    _ = s.live.card * 8 := by rw [Finset.card_product, Finset.card_range]
    _ ≤ 8192 := by omega

end PipeState

open PipeState

/-- The descriptors and the pipes agree. -/
structure Accounted (s : PipeState) : Prop where
  /-- The count is the number of references. -/
  counted : ∀ g, s.IsPipeSlot g → (s.fileTable g).fdPos.toNat = s.references g
  /-- A pipe has a ring as long as there are references. -/
  open_iff : ∀ g, s.IsPipeSlot g → ((s.fileTable g).fdInode = none ↔ s.references g = 0)
  /-- The ring of a pipe was not given back. -/
  held : ∀ g page, s.IsPipeSlot g → (s.fileTable g).fdInode = some page → page ∈ s.rings
  /-- A ring that was not given back belongs to a pipe. -/
  owned : ∀ page ∈ s.rings, ∃ g, s.IsPipeSlot g ∧ (s.fileTable g).fdInode = some page
  /-- Two pipes have different rings. -/
  apart : ∀ g g' page, s.IsPipeSlot g → s.IsPipeSlot g' → (s.fileTable g).fdInode = some page →
    (s.fileTable g').fdInode = some page → g = g'
  /-- The other slots are not in use. -/
  unused : ∀ g, ¬ s.IsPipeSlot g → (s.fileTable g).fdInode = none
  /-- The first three slots belong to no pipe. -/
  standard : ∀ g, s.IsPipeSlot g → 3 ≤ g
  /-- A descriptor refers to one of the first three slots or to a pipe. -/
  entries : ∀ pid ∈ s.live, ∀ fd < maxFilesOpenPerProc, ∀ g, s.fdTable pid fd = some g →
    g < 3 ∨ s.IsPipeSlot g
  /-- The standard descriptors refer to no pipe. -/
  terminal : ∀ pid ∈ s.live, ∀ fd < 3, ∀ g, s.fdTable pid fd = some g → g < 3
  few : ∀ pid ∈ s.live, pid < 1024

/-! ## One reference less -/

theorem toNat_pred {w : Word} (positive : 0 < w.toNat) : (w - 1).toNat = w.toNat - 1 := by
  have bound := w.isLt
  rw [BitVec.toNat_sub, show (1 : Word).toNat = 1 from rfl]
  omega

/-- `dropReference` counts down, and gives the ring back with the last reference. -/
theorem dropReference_returns (ran : (dropReference globalFd).run s = .ok ((), s')) :
    s'.live = s.live ∧ s'.fdTable = s.fdTable ∧
      (∀ g, s'.fileTable g = if g = globalFd then { s.fileTable globalFd with
        fdPos := (s.fileTable globalFd).fdPos - 1
        fdInode := if (s.fileTable globalFd).fdPos - 1 = 0 then none
          else (s.fileTable globalFd).fdInode } else s.fileTable g) ∧
      ((s.fileTable globalFd).fdPos - 1 = 0 → ∃ page,
        (s.fileTable globalFd).fdInode = some page ∧ s'.rings = s.rings.erase page) ∧
      ((s.fileTable globalFd).fdPos - 1 ≠ 0 → s'.rings = s.rings) := by
  rw [dropReference, call_bind_of (call_get_returns.mpr ⟨rfl, rfl⟩)] at ran
  by_cases last : (s.fileTable globalFd).fdPos - 1 = 0
  · rw [if_pos last] at ran
    simp only [if_pos last]
    cases ring : (s.fileTable globalFd).fdInode with
    | none =>
        rw [ring] at ran
        exact (call_throw_returns ran).elim
    | some page =>
        rw [ring] at ran
        cases call_modify_returns.mp ran
        exact ⟨rfl, rfl, fun g => fileTable_setSlot, fun _ => ⟨page, rfl, rfl⟩,
          fun more => absurd last more⟩
  · rw [if_neg last] at ran
    simp only [if_neg last]
    cases call_modify_returns.mp ran
    exact ⟨rfl, rfl, fun g => fileTable_setSlot, fun zero => absurd zero last, fun _ => rfl⟩

/-- Dropping a reference reads no descriptor. -/
theorem dropReference_fdTable (ran : (dropReference globalFd).run s = .ok ((), s'))
    (fdTable : Pid → Nat → Option Nat) :
    (dropReference globalFd).run { s with fdTable := fdTable } =
      .ok ((), { s' with fdTable := fdTable }) := by
  rw [dropReference, call_bind_of (call_get_returns.mpr ⟨rfl, rfl⟩)] at ran ⊢
  by_cases last : (s.fileTable globalFd).fdPos - 1 = 0
  · rw [if_pos last] at ran ⊢
    cases ring : (s.fileTable globalFd).fdInode with
    | none =>
        rw [ring] at ran
        exact (call_throw_returns ran).elim
    | some page =>
        rw [ring] at ran
        cases call_modify_returns.mp ran
        rfl
  · rw [if_neg last] at ran ⊢
    cases call_modify_returns.mp ran
    rfl

/-- One slot of the file table changes with the descriptors that refer to it, and the rings
with that slot. -/
theorem Accounted.update (accounted : Accounted s) {globalFd : Nat}
    (live : s'.live = s.live)
    (slots : ∀ g, g ≠ globalFd → s'.fileTable g = s.fileTable g)
    (pipe : s'.IsPipeSlot globalFd) (low : 3 ≤ globalFd)
    (others : ∀ g, g ≠ globalFd → s'.references g = s.references g)
    (counted : (s'.fileTable globalFd).fdPos.toNat = s'.references globalFd)
    (open_iff : (s'.fileTable globalFd).fdInode = none ↔ s'.references globalFd = 0)
    (rings : ∀ page, page ∈ s'.rings ↔ (s'.fileTable globalFd).fdInode = some page ∨
      page ∈ s.rings ∧ (s.fileTable globalFd).fdInode ≠ some page)
    (alone : ∀ g, g ≠ globalFd → ∀ page, s.IsPipeSlot g → (s.fileTable g).fdInode = some page →
      (s'.fileTable globalFd).fdInode ≠ some page)
    (entries : ∀ pid ∈ s.live, ∀ fd < maxFilesOpenPerProc, ∀ g, s'.fdTable pid fd = some g →
      s.fdTable pid fd = some g ∨ g = globalFd ∧ 3 ≤ fd) : Accounted s' := by
  have isPipe : ∀ g, g ≠ globalFd → (s'.IsPipeSlot g ↔ s.IsPipeSlot g) := by
    intro g other
    rw [IsPipeSlot, IsPipeSlot, slots g other]
  refine ⟨fun g isSlot => ?_, fun g isSlot => ?_, fun g page isSlot ring => ?_,
    fun page member => ?_, fun g g' page isSlot isSlot' ring ring' => ?_, fun g noSlot => ?_,
    fun g isSlot => ?_, fun pid alive fd small g refers => ?_,
    fun pid alive fd small g refers => ?_, fun pid alive => accounted.few pid (live ▸ alive)⟩
  · by_cases here : g = globalFd
    · rw [here, counted]
    · rw [slots g here, others g here]
      exact accounted.counted g ((isPipe g here).mp isSlot)
  · by_cases here : g = globalFd
    · rw [here, open_iff]
    · rw [slots g here, others g here]
      exact accounted.open_iff g ((isPipe g here).mp isSlot)
  · rw [rings]
    by_cases here : g = globalFd
    · exact .inl (here ▸ ring)
    · rw [slots g here] at ring
      have old := (isPipe g here).mp isSlot
      refine .inr ⟨accounted.held g page old ring, fun same => here ?_⟩
      by_cases wasPipe : s.IsPipeSlot globalFd
      · exact accounted.apart g globalFd page old wasPipe ring same
      · rw [accounted.unused globalFd wasPipe] at same
        cases same
  · rcases (rings page).mp member with new | ⟨old, other⟩
    · exact ⟨globalFd, pipe, new⟩
    · obtain ⟨g, isSlot, ring⟩ := accounted.owned page old
      have here : g ≠ globalFd := fun same => other (same ▸ ring)
      exact ⟨g, (isPipe g here).mpr isSlot, by rw [slots g here, ring]⟩
  · by_cases here : g = globalFd
    · by_cases here' : g' = globalFd
      · rw [here, here']
      · rw [slots g' here'] at ring'
        exact absurd (here ▸ ring) (alone g' here' page ((isPipe g' here').mp isSlot') ring')
    · rw [slots g here] at ring
      by_cases here' : g' = globalFd
      · exact absurd (here' ▸ ring') (alone g here page ((isPipe g here).mp isSlot) ring)
      · rw [slots g' here'] at ring'
        exact accounted.apart g g' page ((isPipe g here).mp isSlot)
          ((isPipe g' here').mp isSlot') ring ring'
  · by_cases here : g = globalFd
    · exact absurd (here ▸ pipe) noSlot
    · rw [slots g here]
      exact accounted.unused g fun old => noSlot ((isPipe g here).mpr old)
  · by_cases here : g = globalFd
    · rwa [here]
    · exact accounted.standard g ((isPipe g here).mp isSlot)
  · by_cases here : g = globalFd
    · exact .inr (here ▸ pipe)
    · rcases entries pid (live ▸ alive) fd small g refers with old | ⟨same, -⟩
      · exact (accounted.entries pid (live ▸ alive) fd small g old).imp_right (isPipe g here).mpr
      · exact absurd same here
  · rcases entries pid (live ▸ alive) fd (Nat.lt_trans small (by decide)) g refers with
      old | ⟨-, high⟩
    · exact accounted.terminal pid (live ▸ alive) fd small g old
    · omega

/-- A descriptor of a pipe goes, and the reference it was is dropped. -/
theorem Accounted.drop (accounted : Accounted s) (alive : cur ∈ s.live)
    (small : localFd < maxFilesOpenPerProc) (entry : s.fdTable cur localFd = some globalFd)
    (pipe : s.IsPipeSlot globalFd) (ran : (dropReference globalFd).run s = .ok ((), s')) :
    Accounted (s'.setFd cur localFd none) := by
  obtain ⟨live, fdTable, slots, last, more⟩ := dropReference_returns ran
  have moved : ∀ g, (s'.setFd cur localFd none).references g +
      (if globalFd = g then 1 else 0) = s.references g := by
    intro g
    have counted := references_setFd (g := g) (show cur ∈ s'.live from live ▸ alive) small none
    rw [fdTable, entry, references_congr live fdTable] at counted
    simpa using counted
  have here := moved globalFd
  rw [if_pos rfl] at here
  have positive := accounted.counted globalFd pipe
  have less : ((s.fileTable globalFd).fdPos - 1).toNat =
      (s'.setFd cur localFd none).references globalFd := by
    rw [toNat_pred (by omega)]
    omega
  have zero : (s.fileTable globalFd).fdPos - 1 = 0 ↔
      (s'.setFd cur localFd none).references globalFd = 0 := by
    rw [← less, ← BitVec.toNat_inj]
    rfl
  have slot := slots globalFd
  rw [if_pos rfl] at slot
  have held : (s.fileTable globalFd).fdInode ≠ none := by
    intro null
    have closed := (accounted.open_iff globalFd pipe).mp null
    omega
  obtain ⟨page, ring⟩ := Option.ne_none_iff_exists'.mp held
  apply accounted.update (show (s'.setFd cur localFd none).live = s.live from live)
  · intro g other
    rw [fileTable_setFd, slots, if_neg other]
  · rw [IsPipeSlot, fileTable_setFd, slot]
    exact pipe
  · exact accounted.standard globalFd pipe
  · intro g other
    have there := moved g
    rwa [if_neg (Ne.symm other), Nat.add_zero] at there
  · rw [fileTable_setFd, slot]
    exact less
  · rw [fileTable_setFd, slot, ← zero, ring]
    split_ifs with closes
    · exact iff_of_true rfl closes
    · exact iff_of_false id closes
  · intro other
    rw [fileTable_setFd, rings_setFd, slot, ring]
    by_cases closes : (s.fileTable globalFd).fdPos - 1 = 0
    · obtain ⟨freed, isRing, rings⟩ := last closes
      rw [ring] at isRing
      cases isRing
      rw [rings, if_pos closes, Finset.mem_erase]
      simp [and_comm, eq_comm]
    · rw [more closes, if_neg closes]
      by_cases same : page = other
      · rw [← same]
        simp [accounted.held globalFd page pipe ring]
      · simp [same]
  · intro g other owned isSlot isRing same
    rw [fileTable_setFd, slot] at same
    by_cases closes : (s.fileTable globalFd).fdPos - 1 = 0
    · rw [if_pos closes] at same
      cases same
    · rw [if_neg closes] at same
      exact other (accounted.apart g globalFd owned isSlot pipe isRing same)
  · intro pid alive fd small g refers
    rw [fdTable_setFd, fdTable] at refers
    split_ifs at refers
    exact .inl refers

/-! ## The calls -/

/-- A descriptor that `fd_local2global` accepts. -/
theorem fdLocal2global_returns (ran : (fdLocal2global cur localFd).run s = .ok (globalFd, s')) :
    localFd < maxFilesOpenPerProc ∧ s.fdTable cur localFd = some globalFd ∧ s = s' := by
  obtain ⟨entry, middle, read, ran⟩ := call_bind_returns.mp ran
  unfold fdEntry at read
  by_cases small : localFd < maxFilesOpenPerProc
  · rw [if_pos small] at read
    cases read
    cases found : s.fdTable cur localFd with
    | none =>
        rw [found] at ran
        exact (call_throw_returns ran).elim
    | some global =>
        rw [found] at ran
        obtain ⟨_, middle, checked, ran⟩ := call_bind_returns.mp ran
        obtain ⟨-, rfl⟩ := call_lift_returns.mp checked
        obtain ⟨rfl, rfl⟩ := call_pure_returns.mp ran
        exact ⟨small, rfl, rfl⟩
  · rw [if_neg small] at read
    exact (call_throw_returns read).elim

/-- `fd_local2global` of a descriptor that refers to a slot of the file table. -/
theorem fdLocal2global_run (entry : s.fdTable cur localFd = some globalFd)
    (small : localFd < maxFilesOpenPerProc) (inside : globalFd < maxFileOpen) :
    (fdLocal2global cur localFd).run s = .ok (globalFd, s) := by
  have read : (fdEntry cur localFd).run s = .ok (some globalFd, s) := by
    rw [fdEntry, if_pos small, call_bind_of (call_get_returns.mpr ⟨rfl, rfl⟩), entry]
    rfl
  rw [fdLocal2global, call_bind_of read,
    call_bind_of (call_lift_returns.mpr ⟨require_of inside, rfl⟩)]
  rfl

/-- `is_pipe` of a descriptor that refers to a slot of the file table. -/
theorem isPipe_run (entry : s.fdTable cur localFd = some globalFd)
    (small : localFd < maxFilesOpenPerProc) (inside : globalFd < maxFileOpen) :
    (isPipe cur localFd).run s =
      .ok (decide ((s.fileTable globalFd).fdFlag = pipeFlag), s) := by
  rw [isPipe, call_bind_of (fdLocal2global_run entry small inside),
    call_bind_of (call_get_returns.mpr ⟨rfl, rfl⟩)]
  rfl

/-- `is_pipe` reads the flag of the slot the descriptor refers to. -/
theorem isPipe_returns {answer : Bool} (ran : (isPipe cur localFd).run s = .ok (answer, s')) :
    s = s' ∧ localFd < maxFilesOpenPerProc ∧ ∃ globalFd, s.fdTable cur localFd = some globalFd ∧
      (answer = true ↔ s.IsPipeSlot globalFd) := by
  obtain ⟨globalFd, middle, found, ran⟩ := call_bind_returns.mp ran
  obtain ⟨small, entry, rfl⟩ := fdLocal2global_returns found
  rw [call_bind_of (call_get_returns.mpr ⟨rfl, rfl⟩)] at ran
  obtain ⟨rfl, rfl⟩ := call_pure_returns.mp ran
  exact ⟨rfl, small, globalFd, entry, decide_eq_true_iff⟩

/-- Closing a descriptor of a slot without an inode does not return. -/
theorem fileClose_stops (null : (s.fileTable globalFd).fdInode = none) :
    (fileClose globalFd).run s ≠ .ok ((), s') := by
  intro ran
  rw [fileClose, call_bind_of (call_get_returns.mpr ⟨rfl, rfl⟩), if_pos null] at ran
  exact call_throw_returns ran

/-- `sys_close` of a descriptor that was opened is that of a pipe. -/
theorem sysClose_returns (unused : ∀ g, ¬ s.IsPipeSlot g → (s.fileTable g).fdInode = none)
    {fd result : Int} (opened : 2 < fd)
    (ran : (sysClose cur fd).run s = .ok (result, s')) :
    fd.toNat < maxFilesOpenPerProc ∧ ∃ globalFd dropped, s.fdTable cur fd.toNat = some globalFd ∧
      s.IsPipeSlot globalFd ∧ (dropReference globalFd).run s = .ok ((), dropped) ∧
      s' = dropped.setFd cur fd.toNat none := by
  rw [sysClose, if_pos opened] at ran
  obtain ⟨globalFd, middle, found, ran⟩ := call_bind_returns.mp ran
  obtain ⟨small, entry, rfl⟩ := fdLocal2global_returns found
  obtain ⟨answer, after, asked, ran⟩ := call_bind_returns.mp ran
  obtain ⟨rfl, -, again, entry', flag⟩ := isPipe_returns asked
  rw [entry] at entry'
  cases entry'
  cases answer with
  | true =>
      obtain ⟨_, dropped, drop, ran⟩ := call_bind_returns.mp ran
      obtain ⟨_, closed, set, ran⟩ := call_bind_returns.mp ran
      cases call_modify_returns.mp set
      obtain ⟨-, rfl⟩ := call_pure_returns.mp ran
      exact ⟨small, globalFd, dropped, entry, flag.mp rfl, drop, rfl⟩
  | false =>
      obtain ⟨_, closed, close, ran⟩ := call_bind_returns.mp ran
      have noPipe : ¬ s.IsPipeSlot globalFd := fun pipe => by
        cases flag.mpr pipe
      exact (fileClose_stops (unused globalFd noPipe) close).elim

/-- `sys_close` drops the reference of the descriptor it closes. -/
theorem sysClose_accounted (accounted : Accounted s) (alive : cur ∈ s.live) {fd result : Int}
    (ran : (sysClose cur fd).run s = .ok (result, s')) : Accounted s' := by
  by_cases opened : 2 < fd
  · obtain ⟨small, globalFd, dropped, entry, pipe, drop, rfl⟩ :=
      sysClose_returns accounted.unused opened ran
    exact accounted.drop alive small entry pipe drop
  · rw [sysClose, if_neg opened] at ran
    obtain ⟨-, rfl⟩ := call_pure_returns.mp ran
    exact accounted

/-- The state with another `fd_table` for one process. `release_prog_resource` leaves the
entries of the process as they are, so its proof clears them in this one. -/
def withTable (s : PipeState) (cur : Pid) (table : Nat → Option Nat) : PipeState :=
  { s with fdTable := Function.update s.fdTable cur table }

theorem fdTable_withTable {table : Nat → Option Nat} {pid : Pid} :
    (withTable s cur table).fdTable pid = if pid = cur then table else s.fdTable pid :=
  Function.update_apply s.fdTable cur table pid

/-- The loop of `release_prog_resource` drops the reference of each entry it passes. -/
theorem releaseFds_accounted {fds : List Nat} (nodup : fds.Nodup) (high : ∀ fd ∈ fds, 2 < fd)
    {table : Nat → Option Nat} (agrees : ∀ fd ∈ fds, table fd = s.fdTable cur fd)
    (accounted : Accounted (withTable s cur table)) (alive : cur ∈ s.live)
    (ran : (releaseFds cur fds).run s = .ok ((), s')) :
    ∃ table', (∀ fd ∈ fds, table' fd = none) ∧ (∀ fd, fd ∉ fds → table' fd = table fd) ∧
      Accounted (withTable s' cur table') ∧ s'.live = s.live ∧ s'.fdTable = s.fdTable := by
  induction fds generalizing s table with
  | nil =>
      obtain ⟨-, rfl⟩ := call_pure_returns.mp ran
      exact ⟨table, fun fd member => (List.not_mem_nil member).elim, fun _ _ => rfl, accounted,
        rfl, rfl⟩
  | cons fd rest ih =>
      obtain ⟨fresh, nodup⟩ := List.nodup_cons.mp nodup
      have agrees_rest : ∀ fd' ∈ rest, table fd' = s.fdTable cur fd' :=
        fun fd' member => agrees fd' (List.mem_cons_of_mem fd member)
      have high_rest : ∀ fd' ∈ rest, 2 < fd' :=
        fun fd' member => high fd' (List.mem_cons_of_mem fd member)
      rw [releaseFds, call_bind_of (call_get_returns.mpr ⟨rfl, rfl⟩)] at ran
      by_cases closed : s.fdTable cur fd = none
      · simp only [closed, ne_eq, not_true_eq_false, if_false] at ran
        obtain ⟨table', cleared, others, kept⟩ := ih nodup high_rest agrees_rest accounted alive ran
        refine ⟨table', fun fd' member => ?_, fun fd' outside => ?_, kept⟩
        · rcases List.mem_cons.mp member with rfl | later
          · rw [others fd' fresh, agrees fd' List.mem_cons_self, closed]
          · exact cleared fd' later
        · exact others fd' fun later => outside (List.mem_cons_of_mem fd later)
      · simp only [ne_eq, closed, not_false_eq_true, if_true] at ran
        obtain ⟨answer, middle, asked, ran⟩ := call_bind_returns.mp ran
        obtain ⟨rfl, small, globalFd, entry, flag⟩ := isPipe_returns asked
        cases answer with
        | true =>
            obtain ⟨again, middle, found, ran⟩ := call_bind_returns.mp ran
            obtain ⟨-, entry', rfl⟩ := fdLocal2global_returns found
            rw [entry] at entry'
            cases entry'
            obtain ⟨_, dropped, drop, ran⟩ := call_bind_returns.mp ran
            obtain ⟨live, fdTable, -⟩ := dropReference_returns drop
            have entry_here : (withTable s cur table).fdTable cur fd = some globalFd := by
              rw [fdTable_withTable, if_pos rfl, agrees fd List.mem_cons_self, entry]
            have dropped_here := accounted.drop alive small entry_here (flag.mp rfl)
              (dropReference_fdTable drop _)
            have cleared_here : withTable dropped cur (Function.update table fd none) =
                ({ dropped with fdTable := Function.update s.fdTable cur table } :
                  PipeState).setFd cur fd none := by
              simp [withTable, setFd, fdTable]
            rw [← cleared_here] at dropped_here
            have agrees' : ∀ fd' ∈ rest, Function.update table fd none fd' =
                dropped.fdTable cur fd' := by
              intro fd' member
              have other : fd' ≠ fd := fun same => fresh (same ▸ member)
              rw [Function.update_of_ne other, fdTable]
              exact agrees_rest fd' member
            obtain ⟨table', cleared, others, kept, live', fdTable'⟩ :=
              ih nodup high_rest agrees' dropped_here (live ▸ alive) ran
            refine ⟨table', fun fd' member => ?_, fun fd' outside => ?_, kept,
              live'.trans live, fdTable'.trans fdTable⟩
            · rcases List.mem_cons.mp member with rfl | later
              · rw [others fd' fresh, Function.update_self]
              · exact cleared fd' later
            · rw [List.mem_cons, not_or] at outside
              rw [others fd' outside.2, Function.update_of_ne outside.1]
        | false =>
            obtain ⟨result, middle, close, ran⟩ := call_bind_returns.mp ran
            have opened : (2 : Int) < fd := by
              exact_mod_cast high fd List.mem_cons_self
            obtain ⟨-, again, -, entry', pipe, -⟩ :=
              sysClose_returns (s := s) accounted.unused opened close
            rw [Int.toNat_natCast, entry] at entry'
            cases entry'
            cases flag.mpr pipe

/-- A process whose descriptors refer to no pipe goes. -/
theorem Accounted.leave (accounted : Accounted s)
    (gone : ∀ fd < maxFilesOpenPerProc, ∀ g, s.fdTable cur fd = some g → g < 3)
    (live : s'.live = s.live.erase cur) (slots : s'.fileTable = s.fileTable)
    (rings : s'.rings = s.rings) (others : ∀ pid, pid ≠ cur → s'.fdTable pid = s.fdTable pid) :
    Accounted s' := by
  have isPipe : ∀ g, s'.IsPipeSlot g ↔ s.IsPipeSlot g := fun g => by
    rw [IsPipeSlot, IsPipeSlot, slots]
  have stays : ∀ pid ∈ s'.live, pid ∈ s.live ∧ pid ≠ cur := fun pid alive => by
    rw [live, Finset.mem_erase] at alive
    exact ⟨alive.2, alive.1⟩
  have references : ∀ g, s.IsPipeSlot g → s'.references g = s.references g := by
    intro g pipe
    apply congrArg Finset.card
    ext r
    obtain ⟨pid, fd⟩ := r
    simp only [Finset.mem_filter, Finset.mem_product, Finset.mem_range]
    constructor
    · rintro ⟨⟨alive, small⟩, refers⟩
      obtain ⟨alive, other⟩ := stays pid alive
      rw [others pid other] at refers
      exact ⟨⟨alive, small⟩, refers⟩
    · rintro ⟨⟨alive, small⟩, refers⟩
      have other : pid ≠ cur := by
        rintro rfl
        have low := gone fd small g refers
        have high := accounted.standard g pipe
        omega
      rw [live, Finset.mem_erase, others pid other]
      exact ⟨⟨⟨other, alive⟩, small⟩, refers⟩
  refine ⟨fun g pipe => ?_, fun g pipe => ?_, ?_, ?_, ?_, ?_, ?_, ?_, ?_, ?_⟩
  · rw [slots, references g ((isPipe g).mp pipe)]
    exact accounted.counted g ((isPipe g).mp pipe)
  · rw [slots, references g ((isPipe g).mp pipe)]
    exact accounted.open_iff g ((isPipe g).mp pipe)
  · simp only [isPipe, slots, rings]
    exact accounted.held
  · simp only [isPipe, slots, rings]
    exact accounted.owned
  · simp only [isPipe, slots]
    exact accounted.apart
  · simp only [isPipe, slots]
    exact accounted.unused
  · simp only [isPipe]
    exact accounted.standard
  · intro pid alive fd small g refers
    obtain ⟨alive, other⟩ := stays pid alive
    rw [others pid other] at refers
    exact (accounted.entries pid alive fd small g refers).imp_right (isPipe g).mpr
  · intro pid alive fd small g refers
    obtain ⟨alive, other⟩ := stays pid alive
    rw [others pid other] at refers
    exact accounted.terminal pid alive fd small g refers
  · exact fun pid alive => accounted.few pid (stays pid alive).1

/-- `sys_exit` drops the references of the process. -/
theorem sysExit_accounted (accounted : Accounted s) (alive : cur ∈ s.live)
    (ran : (sysExit cur).run s = .ok ((), s')) : Accounted s' := by
  obtain ⟨_, released, release, ran⟩ := call_bind_returns.mp ran
  cases call_modify_returns.mp ran
  have start : withTable s cur (s.fdTable cur) = s := by
    simp [withTable]
  obtain ⟨table', cleared, others, kept, live, -⟩ := releaseFds_accounted (by decide)
    (by decide) (show ∀ fd ∈ openedFds, s.fdTable cur fd = s.fdTable cur fd from fun _ _ => rfl)
    (start.symm ▸ accounted) alive release
  have others_same : ∀ pid, pid ≠ cur →
      released.fdTable pid = (withTable released cur table').fdTable pid := by
    intro pid other
    rw [fdTable_withTable, if_neg other]
  refine kept.leave (fun fd small g refers => ?_) rfl rfl rfl others_same
  rw [fdTable_withTable, if_pos rfl] at refers
  by_cases opened : fd ∈ openedFds
  · rw [cleared fd opened] at refers
    cases refers
  · rw [others fd opened] at refers
    refine accounted.terminal cur alive fd ?_ g refers
    by_contra high
    exact opened (List.mem_range'_1.mpr ⟨by omega, by omega⟩)

/-- The loop of `update_inode_open_cnts` counts each entry it passes, and changes nothing
else. -/
theorem updateInodeOpenCnts_returns {fds : List Nat}
    (ran : (updateInodeOpenCnts cur fds).run s = .ok ((), s')) :
    s'.live = s.live ∧ s'.fdTable = s.fdTable ∧ s'.rings = s.rings ∧
      ∀ g, (s'.fileTable g).fdFlag = (s.fileTable g).fdFlag ∧
        (s'.fileTable g).fdInode = (s.fileTable g).fdInode ∧
        (s.IsPipeSlot g → (s'.fileTable g).fdPos = (s.fileTable g).fdPos +
          BitVec.ofNat 32 (fds.countP fun fd => s.fdTable cur fd = some g)) := by
  induction fds generalizing s with
  | nil =>
      obtain ⟨-, rfl⟩ := call_pure_returns.mp ran
      exact ⟨rfl, rfl, rfl, fun g => ⟨rfl, rfl, fun _ => by simp⟩⟩
  | cons fd rest ih =>
      rw [updateInodeOpenCnts, call_bind_of (call_get_returns.mpr ⟨rfl, rfl⟩)] at ran
      cases entry : s.fdTable cur fd with
      | none =>
          simp only [entry] at ran
          obtain ⟨live, fdTable, rings, slots⟩ := ih ran
          refine ⟨live, fdTable, rings, fun g => ⟨(slots g).1, (slots g).2.1, fun pipe => ?_⟩⟩
          rw [List.countP_cons_of_neg (by simp [entry])]
          exact (slots g).2.2 pipe
      | some globalFd =>
          simp only [entry] at ran
          obtain ⟨_, middle, checked, ran⟩ := call_bind_returns.mp ran
          obtain ⟨-, rfl⟩ := call_lift_returns.mp checked
          rw [call_bind_of (call_get_returns.mpr ⟨rfl, rfl⟩)] at ran
          obtain ⟨answer, middle, asked, ran⟩ := call_bind_returns.mp ran
          obtain ⟨rfl, small, again, entry', flag⟩ := isPipe_returns asked
          rw [entry] at entry'
          cases entry'
          cases answer with
          | true =>
              obtain ⟨_, middle, set, ran⟩ := call_bind_returns.mp ran
              cases call_modify_returns.mp set
              obtain ⟨live, fdTable, rings, slots⟩ := ih ran
              refine ⟨live, fdTable, rings, fun g => ?_⟩
              obtain ⟨sameFlag, sameInode, count⟩ := slots g
              have isPipe : (s.setSlot globalFd { s.fileTable globalFd with
                  fdPos := (s.fileTable globalFd).fdPos + 1 }).IsPipeSlot g ↔
                    s.IsPipeSlot g := by
                rw [IsPipeSlot, IsPipeSlot, fileTable_setSlot]
                split_ifs with here <;> simp [here]
              rw [isPipe] at count
              rw [fileTable_setSlot] at sameFlag sameInode count
              by_cases here : g = globalFd
              · subst here
                rw [if_pos rfl] at sameFlag sameInode count
                refine ⟨sameFlag, sameInode, fun pipe => (count pipe).trans ?_⟩
                rw [List.countP_cons_of_pos (by simp [entry]), BitVec.ofNat_add,
                  BitVec.add_comm (BitVec.ofNat 32 _), ← BitVec.add_assoc]
                rfl
              · rw [if_neg here] at sameFlag sameInode count
                refine ⟨sameFlag, sameInode, fun pipe => (count pipe).trans ?_⟩
                rw [List.countP_cons_of_neg (by simp [entry, Ne.symm here])]
                rfl
          | false =>
              by_cases null : (s.fileTable globalFd).fdInode = none
              · simp only [null, Bool.false_eq_true, if_false, if_true] at ran
                obtain ⟨_, middle, stopped, -⟩ := call_bind_returns.mp ran
                exact (call_throw_returns stopped).elim
              · simp only [null, Bool.false_eq_true, if_false] at ran
                obtain ⟨live, fdTable, rings, slots⟩ := ih ran
                refine ⟨live, fdTable, rings, fun g => ⟨(slots g).1, (slots g).2.1, fun pipe => ?_⟩⟩
                have other : globalFd ≠ g := by
                  rintro rfl
                  cases flag.mpr pipe
                rw [List.countP_cons_of_neg (by simp [entry, other])]
                exact (slots g).2.2 pipe

/-- The entries of a process that refer to a pipe are among those it opened. -/
theorem Accounted.countOf_opened (accounted : Accounted s) (alive : cur ∈ s.live)
    (pipe : s.IsPipeSlot g) :
    countOf (Finset.range maxFilesOpenPerProc) (s.fdTable cur) (some g) =
      openedFds.countP fun fd => s.fdTable cur fd = some g := by
  have standard : ∀ fd < 3, s.fdTable cur fd ≠ some g := by
    intro fd small refers
    have low := accounted.terminal cur alive fd small g refers
    have high := accounted.standard g pipe
    omega
  rw [countOf_eq_sum]
  simp only [maxFilesOpenPerProc, Finset.sum_range_succ, Finset.sum_range_zero,
    standard 0 (by decide), standard 1 (by decide), standard 2 (by decide), if_false]
  simp only [openedFds, maxFilesOpenPerProc, List.range', List.countP_cons, List.countP_nil,
    decide_eq_true_eq, Nat.reduceAdd]
  ring

/-- `sys_fork` counts the references that the child gets. -/
theorem sysFork_accounted (accounted : Accounted s) (alive : cur ∈ s.live)
    (fresh : child ∉ s.live) (few : child < 1024)
    (ran : (sysFork cur child).run s = .ok ((), s')) : Accounted s' := by
  obtain ⟨_, counted, count, ran⟩ := call_bind_returns.mp ran
  cases call_modify_returns.mp ran
  obtain ⟨live, fdTable, rings, slots⟩ := updateInodeOpenCnts_returns count
  generalize isNext : ({ counted with
    live := insert child counted.live
    fdTable := Function.update counted.fdTable child (counted.fdTable cur) } : PipeState) = next
  have nextLive : next.live = insert child s.live := by rw [← isNext, ← live]
  have nextTable : ∀ pid, next.fdTable pid =
      if pid = child then s.fdTable cur else s.fdTable pid := by
    intro pid
    rw [← isNext, ← fdTable]
    exact Function.update_apply ..
  have nextSlots : next.fileTable = counted.fileTable := by rw [← isNext]
  have nextRings : next.rings = s.rings := by rw [← isNext, ← rings]
  have isPipe : ∀ g, next.IsPipeSlot g ↔ s.IsPipeSlot g := fun g => by
    rw [IsPipeSlot, IsPipeSlot, nextSlots, (slots g).1]
  have sameInode : ∀ g, (next.fileTable g).fdInode = (s.fileTable g).fdInode := fun g => by
    rw [nextSlots, (slots g).2.1]
  have references : ∀ g, s.IsPipeSlot g → next.references g = s.references g +
      openedFds.countP fun fd => s.fdTable cur fd = some g := by
    intro g pipe
    have others : ∀ pid ∈ s.live, next.fdTable pid = s.fdTable pid := by
      intro pid alive
      have other : pid ≠ child := fun same => fresh (same ▸ alive)
      rw [nextTable, if_neg other]
    have grown := count_product_insert (Finset.range maxFilesOpenPerProc) (some g) fresh others
    rw [nextTable child, if_pos rfl, accounted.countOf_opened alive pipe] at grown
    rw [PipeState.references, nextLive]
    exact grown
  -- The child shares only what the caller refers to already.
  have shared : ∀ g, s.references g = 0 →
      (openedFds.countP fun fd => s.fdTable cur fd = some g) = 0 := by
    intro g none
    rw [List.countP_eq_zero]
    intro fd member
    have small := List.mem_range'_1.mp member
    simpa using references_eq_zero.mp none cur alive fd (by omega)
  have rows : ∀ pid ∈ next.live, ∃ old ∈ s.live, next.fdTable pid = s.fdTable old := by
    intro pid member
    rw [nextLive, Finset.mem_insert] at member
    by_cases isChild : pid = child
    · exact ⟨cur, alive, by rw [nextTable, if_pos isChild]⟩
    · exact ⟨pid, member.resolve_left isChild, by rw [nextTable, if_neg isChild]⟩
  refine ⟨fun g pipe => ?_, fun g pipe => ?_, ?_, ?_, ?_, ?_, ?_, fun pid member => ?_,
    fun pid member => ?_, fun pid member => ?_⟩
  · rw [isPipe] at pipe
    have bound := references_le (g := g) accounted.few
    have length := List.countP_le_length (p := fun fd => decide (s.fdTable cur fd = some g))
      (l := openedFds)
    rw [show openedFds.length = 5 from rfl] at length
    rw [nextSlots, (slots g).2.2 pipe, references g pipe, BitVec.toNat_add,
      accounted.counted g pipe, BitVec.toNat_ofNat]
    omega
  · rw [isPipe] at pipe
    rw [sameInode, accounted.open_iff g pipe, references g pipe]
    constructor
    · intro none
      rw [none, shared g none]
    · intro none
      omega
  · simp only [isPipe, sameInode, nextRings]
    exact accounted.held
  · simp only [isPipe, sameInode, nextRings]
    exact accounted.owned
  · simp only [isPipe, sameInode]
    exact accounted.apart
  · simp only [isPipe, sameInode]
    exact accounted.unused
  · simp only [isPipe]
    exact accounted.standard
  · obtain ⟨old, alive, row⟩ := rows pid member
    simp only [isPipe, row]
    exact accounted.entries old alive
  · obtain ⟨old, alive, row⟩ := rows pid member
    rw [row]
    exact accounted.terminal old alive
  · rw [nextLive, Finset.mem_insert] at member
    rcases member with rfl | old
    · exact few
    · exact accounted.few pid old

/-- `pcb_fd_install` finds a free entry if there is one. -/
theorem pcbFdInstall_returns {entry : Option Nat}
    (room : ∃ a, 3 ≤ a ∧ a < maxFilesOpenPerProc ∧ s.fdTable cur a = none)
    (ran : (pcbFdInstall cur globalFd).run s = .ok (entry, s')) :
    ∃ a, 3 ≤ a ∧ a < maxFilesOpenPerProc ∧ s.fdTable cur a = none ∧
      s' = s.setFd cur a (some globalFd) := by
  rw [pcbFdInstall, call_bind_of (call_get_returns.mpr ⟨rfl, rfl⟩)] at ran
  unfold Fs.pcbFdInstall at ran
  cases found : freeLocalFd (s.fdTable cur) with
  | none =>
      obtain ⟨a, low, small, free⟩ := room
      exact absurd free (freeLocalFd_none found a low small)
  | some localFd =>
      rw [found] at ran
      obtain ⟨_, middle, set, ran⟩ := call_bind_returns.mp ran
      cases call_modify_returns.mp set
      obtain ⟨-, rfl⟩ := call_pure_returns.mp ran
      obtain ⟨low, small, free⟩ := freeLocalFd_some found
      exact ⟨localFd, low, small, free, rfl⟩

/-- A reference is installed in a free entry. -/
theorem references_install (alive : cur ∈ s.live) (small : localFd < maxFilesOpenPerProc)
    (free : s.fdTable cur localFd = none) :
    (s.setFd cur localFd (some globalFd)).references g =
      s.references g + if globalFd = g then 1 else 0 := by
  have counted := references_setFd (g := g) alive small (some globalFd)
  rw [free] at counted
  simpa using counted

/-- `sys_pipe` makes the two references it counts, if the caller has two free entries. -/
theorem sysPipe_accounted (accounted : Accounted s) (alive : cur ∈ s.live) {page : Option Nat}
    (fresh : ∀ ring, page = some ring → ring ∉ s.rings)
    (room : ∃ a b, 3 ≤ a ∧ a < b ∧ b < maxFilesOpenPerProc ∧ s.fdTable cur a = none ∧
      s.fdTable cur b = none) {ends : Option Nat × Option Nat}
    (ran : (sysPipe cur page).run s = .ok (ends, s')) : Accounted s' := by
  rw [sysPipe, call_bind_of (call_get_returns.mpr ⟨rfl, rfl⟩)] at ran
  cases slot : getFreeSlotInGlobal fun g => (s.fileTable g).fdInode.isNone with
  | none =>
      rw [slot] at ran
      exact (call_throw_returns ran).elim
  | some globalFd =>
      rw [slot] at ran
      obtain ⟨low, -, free⟩ := getFreeSlotInGlobal_some slot
      cases page with
      | none => exact (call_throw_returns ran).elim
      | some ring =>
          obtain ⟨_, opened, set, ran⟩ := call_bind_returns.mp ran
          have isOpened := call_modify_returns.mp set
          obtain ⟨readEnd, middle, read, ran⟩ := call_bind_returns.mp ran
          obtain ⟨writeEnd, last, write, ran⟩ := call_bind_returns.mp ran
          obtain ⟨-, rfl⟩ := call_pure_returns.mp ran
          have live : opened.live = s.live := by rw [← isOpened, live_setSlot]
          have table : opened.fdTable = s.fdTable := by rw [← isOpened, fdTable_setSlot]
          have slots : ∀ g, opened.fileTable g = if g = globalFd then
              { fdPos := 2, fdFlag := pipeFlag, fdInode := some ring } else s.fileTable g := by
            intro g
            rw [← isOpened]
            exact fileTable_setSlot
          have rings : opened.rings = insert ring s.rings := by rw [← isOpened]
          obtain ⟨first, second, firstLow, order, secondSmall, firstFree, secondFree⟩ := room
          rw [← table] at firstFree secondFree
          obtain ⟨a, aLow, aSmall, aFree, rfl⟩ :=
            pcbFdInstall_returns ⟨first, firstLow, by omega, firstFree⟩ read
          have roomLeft : ∃ b, 3 ≤ b ∧ b < maxFilesOpenPerProc ∧
              (opened.setFd cur a (some globalFd)).fdTable cur b = none := by
            by_cases taken : first = a
            · refine ⟨second, by omega, secondSmall, ?_⟩
              rw [fdTable_setFd, if_neg (by omega), secondFree]
            · refine ⟨first, firstLow, by omega, ?_⟩
              rw [fdTable_setFd, if_neg fun same => taken same.2, firstFree]
          obtain ⟨b, bLow, bSmall, bFree, rfl⟩ := pcbFdInstall_returns roomLeft write
          have noRefs : s.references globalFd = 0 := by
            by_cases pipe : s.IsPipeSlot globalFd
            · exact (accounted.open_iff globalFd pipe).mp (Option.isNone_iff_eq_none.mp free)
            · rw [references_eq_zero]
              intro pid alive fd small refers
              rcases accounted.entries pid alive fd small globalFd refers with wrong | wrong
              · omega
              · exact pipe wrong
          have counts : ∀ g, ((opened.setFd cur a (some globalFd)).setFd cur b
              (some globalFd)).references g = s.references g +
                (if globalFd = g then 1 else 0) + if globalFd = g then 1 else 0 := by
            intro g
            rw [references_install (live.symm ▸ alive) bSmall bFree,
              references_install (live.symm ▸ alive) aSmall aFree, references_congr live table]
          have here := counts globalFd
          rw [if_pos rfl, noRefs] at here
          have slot := slots globalFd
          rw [if_pos rfl] at slot
          have null : (s.fileTable globalFd).fdInode = none := Option.isNone_iff_eq_none.mp free
          have slotAt : ∀ g, ((opened.setFd cur a (some globalFd)).setFd cur b
              (some globalFd)).fileTable g = opened.fileTable g := fun g => rfl
          apply accounted.update (show ((opened.setFd cur a (some globalFd)).setFd cur b
            (some globalFd)).live = s.live from live)
          · intro g other
            rw [slotAt, slots, if_neg other]
          · rw [IsPipeSlot, slotAt, slot]
          · exact low
          · intro g other
            rw [counts, if_neg (Ne.symm other), Nat.add_zero]
          · rw [slotAt, slot, here]
            rfl
          · rw [slotAt, slot, here]
            exact iff_of_false (Option.some_ne_none ring) (by decide)
          · intro other
            rw [slotAt, slot, rings_setFd, rings_setFd, rings, Finset.mem_insert, null]
            simp [eq_comm]
          · intro g other owned isSlot isRing same
            rw [slotAt, slot] at same
            cases same
            exact fresh ring rfl (accounted.held g ring isSlot isRing)
          · intro pid alive fd small g refers
            rw [fdTable_setFd, fdTable_setFd, table] at refers
            split_ifs at refers with isB isA
            · cases refers
              exact .inr ⟨rfl, by omega⟩
            · cases refers
              exact .inr ⟨rfl, by omega⟩
            · exact .inl refers

/-- The same pipes with the same counts, and other descriptors. -/
theorem Accounted.descriptors (accounted : Accounted s) (live : s'.live = s.live)
    (slots : s'.fileTable = s.fileTable) (rings : s'.rings = s.rings)
    (references : ∀ g, s.IsPipeSlot g → s'.references g = s.references g)
    (entries : ∀ pid ∈ s.live, ∀ fd < maxFilesOpenPerProc, ∀ g, s'.fdTable pid fd = some g →
      (g < 3 ∨ s.IsPipeSlot g) ∧ (fd < 3 → g < 3)) : Accounted s' := by
  have isPipe : ∀ g, s'.IsPipeSlot g ↔ s.IsPipeSlot g := fun g => by
    rw [IsPipeSlot, IsPipeSlot, slots]
  refine ⟨fun g pipe => ?_, fun g pipe => ?_, ?_, ?_, ?_, ?_, ?_,
    fun pid alive fd small g refers => ?_, fun pid alive fd small g refers => ?_,
    fun pid alive => accounted.few pid (live ▸ alive)⟩
  · rw [slots, references g ((isPipe g).mp pipe)]
    exact accounted.counted g ((isPipe g).mp pipe)
  · rw [slots, references g ((isPipe g).mp pipe)]
    exact accounted.open_iff g ((isPipe g).mp pipe)
  · simp only [isPipe, slots, rings]
    exact accounted.held
  · simp only [isPipe, slots, rings]
    exact accounted.owned
  · simp only [isPipe, slots]
    exact accounted.apart
  · simp only [isPipe, slots]
    exact accounted.unused
  · simp only [isPipe]
    exact accounted.standard
  · exact (entries pid (live ▸ alive) fd small g refers).1.imp_right (isPipe g).mpr
  · exact (entries pid (live ▸ alive) fd (Nat.lt_trans small (by decide)) g refers).2 small

/-- `sys_fd_redirect` that neither makes nor drops a reference to a pipe. -/
theorem sysFdRedirect_accounted (accounted : Accounted s) (alive : cur ∈ s.live)
    {oldLocalFd newLocalFd : Nat}
    (keeps : ∀ g, s.IsPipeSlot g → (s.fdTable cur oldLocalFd = some g ↔
      redirectTarget s cur newLocalFd = some g))
    (ran : (sysFdRedirect cur oldLocalFd newLocalFd).run s = .ok ((), s')) : Accounted s' := by
  unfold sysFdRedirect at ran
  by_cases small : oldLocalFd < maxFilesOpenPerProc ∧ newLocalFd < maxFilesOpenPerProc
  · rw [if_pos small] at ran
    cases call_modify_returns.mp ran
    refine accounted.descriptors rfl rfl rfl (fun g pipe => ?_) ?_
    · have moved := references_setFd (g := g) alive small.1 (redirectTarget s cur newLocalFd)
      simp only [keeps g pipe] at moved
      omega
    · intro pid alive' fd small' g refers
      rw [fdTable_setFd] at refers
      split_ifs at refers with here
      · obtain ⟨rfl, rfl⟩ := here
        have target : g < 3 ∨ s.IsPipeSlot g := by
          unfold redirectTarget at refers
          split_ifs at refers with standard
          · cases refers
            exact .inl standard
          · exact accounted.entries pid alive newLocalFd small.2 g refers
        refine ⟨target, fun terminal => ?_⟩
        rcases target with low | pipe
        · exact low
        · exact accounted.terminal pid alive fd terminal g ((keeps g pipe).mpr refers)
      · exact ⟨accounted.entries pid alive' fd small' g refers,
          fun terminal => accounted.terminal pid alive' fd terminal g refers⟩
  · rw [if_neg small] at ran
    exact (call_throw_returns ran).elim

/-- `sys_lseek` can move the count of a pipe only to zero. -/
theorem sysLseek_accounted (accounted : Accounted s) {fd result : Int} {offset : Word}
    {whence : Nat}
    (keeps : 0 ≤ fd → ∀ g, s.fdTable cur fd.toNat = some g → s.IsPipeSlot g →
      lseekTarget (s.fileTable g).fdPos offset ringISize whence ≠ 0)
    (ran : (sysLseek cur fd offset whence).run s = .ok (result, s')) : Accounted s' := by
  unfold sysLseek at ran
  by_cases negative : fd < 0
  · simp only [negative, if_true] at ran
    obtain ⟨-, rfl⟩ := call_pure_returns.mp ran
    exact accounted
  · simp only [negative, if_false] at ran
    obtain ⟨_, middle, checked, ran⟩ := call_bind_returns.mp ran
    obtain ⟨-, rfl⟩ := call_lift_returns.mp checked
    obtain ⟨globalFd, middle, found, ran⟩ := call_bind_returns.mp ran
    obtain ⟨small, entry, rfl⟩ := fdLocal2global_returns found
    rw [call_bind_of (call_get_returns.mpr ⟨rfl, rfl⟩)] at ran
    by_cases null : (s.fileTable globalFd).fdInode = none
    · simp only [null, if_true] at ran
      obtain ⟨_, middle, stopped, -⟩ := call_bind_returns.mp ran
      exact (call_throw_returns stopped).elim
    · have pipe : s.IsPipeSlot globalFd := by
        by_contra noPipe
        exact null (accounted.unused globalFd noPipe)
      have nonzero := keeps (by omega) globalFd entry pipe
      simp only [null, if_false] at ran
      generalize lseekTarget (s.fileTable globalFd).fdPos offset ringISize whence = newPos
        at ran nonzero
      by_cases outside : newPos.toInt < 0 ∨ newPos.toInt > ringISize.toInt - 1
      · rw [if_pos outside] at ran
        obtain ⟨-, rfl⟩ := call_pure_returns.mp ran
        exact accounted
      · have one : ringISize.toInt = 1 := rfl
        refine absurd (BitVec.eq_of_toInt_eq ?_) nonzero
        rw [show (0 : Word).toInt = 0 from rfl]
        omega

/-! ## Every run -/

/-- The calls that count the references they make and drop: those with descriptors that are entries
of `fd_table`; `sys_pipe` by a process with two free entries, `sys_fd_redirect` that replaces no
reference to a pipe and stores none, and `sys_lseek` that does not compute the position 0 for a
pipe. -/
def CountsReferences (s : PipeState) : PipeOp → Prop
  | .pipe cur _ => ∃ a b, 3 ≤ a ∧ a < b ∧ b < maxFilesOpenPerProc ∧ s.fdTable cur a = none ∧
      s.fdTable cur b = none
  | .close _ fd => fd < maxFilesOpenPerProc
  | .fdRedirect cur oldLocalFd newLocalFd =>
      (oldLocalFd < maxFilesOpenPerProc ∧ newLocalFd < maxFilesOpenPerProc) ∧
        ∀ g, s.IsPipeSlot g →
          (s.fdTable cur oldLocalFd = some g ↔ redirectTarget s cur newLocalFd = some g)
  | .lseek cur fd offset whence => fd < maxFilesOpenPerProc ∧
      (0 ≤ fd → ∀ g, s.fdTable cur fd.toNat = some g →
        s.IsPipeSlot g → lseekTarget (s.fileTable g).fdPos offset ringISize whence ≠ 0)
  | _ => True

/-- **One step.** A call that counts its references keeps the accounts. -/
theorem pipeExec_accounted (accounted : Accounted s) {op : PipeOp} (alive : op.caller ∈ s.live)
    (fresh : op.Fresh s) (counts : CountsReferences s op)
    (ran : (pipeExec op).run s = .ok ((), s')) : Accounted s' := by
  cases op with
  | pipe cur page =>
      obtain ⟨ends, middle, called, ran⟩ := call_bind_returns.mp ran
      obtain ⟨-, rfl⟩ := call_pure_returns.mp ran
      refine sysPipe_accounted accounted alive (fun ring isRing => ?_) counts called
      subst isRing
      exact fresh
  | fork cur child =>
      cases child with
      | none =>
          obtain ⟨-, rfl⟩ := call_pure_returns.mp ran
          exact accounted
      | some child => exact sysFork_accounted accounted alive fresh.1 fresh.2 ran
  | close cur fd =>
      obtain ⟨result, middle, called, ran⟩ := call_bind_returns.mp ran
      obtain ⟨-, rfl⟩ := call_pure_returns.mp ran
      exact sysClose_accounted accounted alive called
  | fdRedirect cur oldLocalFd newLocalFd =>
      exact sysFdRedirect_accounted accounted alive counts.2 ran
  | lseek cur fd offset whence =>
      obtain ⟨result, middle, called, ran⟩ := call_bind_returns.mp ran
      obtain ⟨-, rfl⟩ := call_pure_returns.mp ran
      exact sysLseek_accounted accounted counts.2 called
  | exit cur => exact sysExit_accounted accounted alive ran

/-- The state before the first pipe has nothing to count. -/
theorem noPipes_accounted {live : Finset Pid} (few : ∀ pid ∈ live, pid < 1024) :
    Accounted (noPipes live) := by
  have noSlot : ∀ g, ¬ (noPipes live).IsPipeSlot g := by
    intro g pipe
    have wrong : (0 : Word) = pipeFlag := pipe
    revert wrong
    decide
  refine ⟨fun g pipe => (noSlot g pipe).elim, fun g pipe => (noSlot g pipe).elim,
    fun g _ pipe => (noSlot g pipe).elim, fun page member => (Finset.notMem_empty page member).elim,
    fun g _ _ pipe => (noSlot g pipe).elim, fun _ _ => rfl, fun g pipe => (noSlot g pipe).elim,
    fun pid _ fd _ g refers => ?_, fun pid _ fd small g refers => ?_, few⟩
  · refine .inl ?_
    simp only [noPipes, standardFds] at refers
    split_ifs at refers with small
    cases refers
    exact small
  · simp only [noPipes, standardFds, if_pos small] at refers
    cases refers
    exact small

/-- **A pipe counts its descriptors.** In every state reached by calls that count the
references they make and drop, for each slot of the file table that belongs to a pipe: `fd_pos`
is the number of pairs of a live process and a descriptor of it that refer to the slot; the
slot holds a ring that was not given back exactly as long as this number is not zero; and so
no live descriptor refers to a ring that was given back. And each ring that was not given back
belongs to such a slot. -/
theorem pipe_references_counted (reachable : (descriptors.under CountsReferences).Reachable s) :
    (∀ g, s.IsPipeSlot g → (s.fileTable g).fdPos.toNat = s.references g ∧
      ((∃ page ∈ s.rings, (s.fileTable g).fdInode = some page) ↔ s.references g ≠ 0) ∧
      ∀ pid ∈ s.live, ∀ fd < maxFilesOpenPerProc, s.fdTable pid fd = some g →
        ∃ page ∈ s.rings, (s.fileTable g).fdInode = some page) ∧
    ∀ page ∈ s.rings, ∃ g, s.IsPipeSlot g ∧ (s.fileTable g).fdInode = some page ∧
      s.references g ≠ 0 := by
  have accounted : Accounted s := by
    refine reachable.invariant Accounted ?_ ?_
    · rintro _ ⟨live, few, rfl⟩
      exact noPipes_accounted few
    · rintro before op after - accounted ⟨counts, alive, fresh, ran⟩
      exact pipeExec_accounted accounted alive fresh counts ran
  have ring_iff : ∀ g, s.IsPipeSlot g →
      ((∃ page ∈ s.rings, (s.fileTable g).fdInode = some page) ↔ s.references g ≠ 0) := by
    intro g pipe
    rw [ne_eq, ← accounted.open_iff g pipe]
    constructor
    · rintro ⟨page, -, ring⟩ null
      rw [ring] at null
      cases null
    · intro holds
      obtain ⟨page, ring⟩ := Option.ne_none_iff_exists'.mp holds
      exact ⟨page, accounted.held g page pipe ring, ring⟩
  refine ⟨fun g pipe => ⟨accounted.counted g pipe, ring_iff g pipe,
    fun pid alive fd small refers => ?_⟩, fun page member => ?_⟩
  · rw [ring_iff g pipe]
    intro none
    exact references_eq_zero.mp none pid alive fd small refers
  · obtain ⟨g, pipe, ring⟩ := accounted.owned page member
    exact ⟨g, pipe, ring, (ring_iff g pipe).mp ⟨page, member, ring⟩⟩

instance (s : PipeState) : (op : PipeOp) → Decidable (op.Fresh s)
  | .pipe _ (some page) => inferInstanceAs (Decidable (page ∉ s.rings))
  | .pipe _ none => .isTrue trivial
  | .fork _ (some child) => inferInstanceAs (Decidable (child ∉ s.live ∧ child < 1024))
  | .fork _ none => .isTrue trivial
  | .close _ _ => .isTrue trivial
  | .fdRedirect _ _ _ => .isTrue trivial
  | .lseek _ _ _ _ => .isTrue trivial
  | .exit _ => .isTrue trivial

/-- One call, if it can be made. -/
def pipeStep (s : PipeState) (op : PipeOp) : Option PipeState :=
  if op.caller ∈ s.live ∧ op.Fresh s then
    ((pipeExec op).run s).toOption.map Prod.snd
  else none

theorem pipeStep_sound {op : PipeOp} (stepped : pipeStep s op = some s') :
    descriptors.step s op s' := by
  unfold pipeStep at stepped
  split_ifs at stepped with enabled
  cases ran : (pipeExec op).run s with
  | error fault =>
      rw [ran] at stepped
      cases stepped
  | ok result =>
      rw [ran] at stepped
      cases stepped
      exact ⟨enabled.1, enabled.2, ran⟩

/-- The theorem after a process makes a pipe: both of its ends are counted. -/
theorem pipe_references_counted_first : ∃ s : PipeState, s.references 3 = 2 ∧
    (s.fileTable 3).fdPos.toNat = s.references 3 := by
  have ran : (pipeStep (noPipes {1}) (.pipe 1 (some 4096))).any (fun s : PipeState =>
      s.references 3 = 2 ∧ s.IsPipeSlot 3) = true := by
    decide +kernel
  obtain ⟨s, stepped, holds⟩ := (Option.any_eq_true _ _).mp ran
  obtain ⟨count, pipe⟩ := of_decide_eq_true holds
  have start : (descriptors.under CountsReferences).Reachable (noPipes {1}) :=
    .initial ⟨{1}, by decide, rfl⟩
  have counts : CountsReferences (noPipes {1}) (.pipe 1 (some 4096)) :=
    ⟨3, 4, by decide, by decide, by decide, rfl, rfl⟩
  have reachable := start.step (.pipe 1 (some 4096)) ⟨counts, pipeStep_sound stepped⟩
  exact ⟨s, count, ((pipe_references_counted reachable).1 3 pipe).1⟩

/-- A process redirects its standard output to the end of a pipe and closes both ends: the
ring is given back, and the redirected descriptor still refers to it. -/
theorem redirected_reference_uncounted : ∃ s : PipeState, descriptors.Reachable s ∧
    s.IsPipeSlot 3 ∧ 1 ∈ s.live ∧ s.fdTable 1 1 = some 3 ∧ s.references 3 = 1 ∧
      (s.fileTable 3).fdPos.toNat = 0 ∧ (s.fileTable 3).fdInode = none ∧ s.rings = ∅ := by
  have ran : (TransitionSystem.run pipeStep (noPipes {1})
      [.pipe 1 (some 4096), .fdRedirect 1 1 4, .close 1 3, .close 1 4]).any
        (fun s : PipeState => s.IsPipeSlot 3 ∧ 1 ∈ s.live ∧ s.fdTable 1 1 = some 3 ∧
          s.references 3 = 1 ∧ (s.fileTable 3).fdPos.toNat = 0 ∧
          (s.fileTable 3).fdInode = none ∧ s.rings = ∅) = true := by
    decide +kernel
  obtain ⟨s, ran, holds⟩ := (Option.any_eq_true _ _).mp ran
  have start : descriptors.Reachable (noPipes {1}) := .initial ⟨{1}, by decide, rfl⟩
  exact ⟨s, start.run (fun _ _ _ => pipeStep_sound) ran, of_decide_eq_true holds⟩

end UKernel.Pipe
