import UKernel.Memory.PageLeak
import UKernel.Process.UserPages

/-! # The page tables behind a program

The machine that loads a program has of each page table and page only whether it is present.
`UKernel.Paging` has the entries themselves, with the addresses of frames. A call of `get_a_page`
for a page of a process that returns there returns here as well, with the same frames taken and the
same pages present (`UKernel.Exec.getAPage_shown`).
-/

namespace UKernel.Exec

open UKernel.Library UKernel.Fs UKernel.Memory UKernel.Paging

variable {pools : Pools} {s s' : Pages pools} {m : Machine pools} {cur : Nat} {vaddr : Word}

/-- The tables and pages of a process that are present. -/
structure ShowsSpace (space : Space) (m : Machine pools) : Prop where
  pde : ∀ pdeIdx < 768, m.pde pdeIdx = (space.pde pdeIdx).present
  pte : ∀ page < userPages, m.pte page = (space.pte page).present

/-- The machine has the frames of the pools, and of the running process the tables and pages that
are present. -/
structure Shows (cur : Nat) (s : Pages pools) (m : Machine pools) : Prop where
  frames : m.poolBitmap = s.poolBitmap
  space : ∃ space, s.space cur = some space ∧ ShowsSpace space m

/-! ## Frames -/

/-- `palloc` takes the same frame. -/
theorem palloc_shown {pf : PoolFlags} {found : Option Nat} (shows : Shows cur s m)
    (ran : (Paging.palloc pf).run s = .ok (found, s')) :
    ∃ m', Returned (palloc pf) m found.isSome m' ∧ Shows cur s' m' ∧ m'.pde = m.pde ∧
      m'.pte = m.pte := by
  obtain ⟨_, _, read, ran⟩ := call_bind_returns.mp ran
  obtain ⟨rfl, rfl⟩ := call_get_returns.mp read
  obtain ⟨scanned, _, lifted, ran⟩ := call_bind_returns.mp ran
  obtain ⟨scan, rfl⟩ := call_lift_returns.mp lifted
  have scan' : (m.poolBitmap pf).scan 1 = .ok scanned := by rwa [shows.frames]
  cases scanned with
  | none =>
      obtain ⟨rfl, rfl⟩ := call_pure_returns.mp ran
      refine ⟨m, ?_, shows, rfl, rfl⟩
      exact returned_bind.mpr ⟨m, m, returned_get.mpr ⟨rfl, rfl⟩, returned_bind.mpr
        ⟨none, m, returned_lift.mpr ⟨scan', rfl⟩, returned_pure.mpr ⟨rfl, rfl⟩⟩⟩
  | some bitIdx =>
      obtain ⟨_, _, marked, ran⟩ := call_bind_returns.mp ran
      cases call_modify_returns.mp marked
      obtain ⟨rfl, rfl⟩ := call_pure_returns.mp ran
      refine ⟨_, returned_bind.mpr ⟨m, m, returned_get.mpr ⟨rfl, rfl⟩, returned_bind.mpr
        ⟨some bitIdx, m, returned_lift.mpr ⟨scan', rfl⟩, returned_bind.mpr
          ⟨(), _, returned_modify.mpr rfl, returned_pure.mpr ⟨rfl, rfl⟩⟩⟩⟩,
        ⟨?_, ?_⟩, rfl, rfl⟩
      · change Function.update m.poolBitmap pf ((m.poolBitmap pf).set bitIdx true) = _
        rw [shows.frames]
        rfl
      · obtain ⟨space, known, tables⟩ := shows.space
        exact ⟨space, known, tables.pde, tables.pte⟩

/-! ## Page tables -/

/-- A page table that is added to both is shown. -/
theorem ShowsSpace.addTable {space : Space} {pdeIdx phyaddr : Nat} (tables : ShowsSpace space m) :
    ShowsSpace (space.addTable pdeIdx phyaddr) (m.addTable pdeIdx) := by
  constructor
  · intro other small
    unfold Machine.addTable Space.addTable
    dsimp only
    by_cases here : other = pdeIdx
    · rw [here, Function.update_self, Function.update_self]
    · rw [Function.update_of_ne here, Function.update_of_ne here, tables.pde other small]
  · intro page small
    unfold Machine.addTable Space.addTable
    dsimp only
    by_cases here : page / 1024 = pdeIdx
    · rw [if_pos here, if_pos here]
      rfl
    · rw [if_neg here, if_neg here, tables.pte page small]

/-- The part of `page_table_add` that makes sure that there is a page table. -/
theorem addTable_shown {space : Space} (user : vaddr.toNat < kernelBase) (shows : Shows cur s m)
    (known : s.space cur = some space)
    (added : if (space.pde (vaddr.toNat / 0x400000)).present then s = s'
      else (Paging.addTable cur vaddr.toNat).run s = .ok ((), s')) :
    ∃ m', Returned (addTable vaddr) m () m' ∧ Shows cur s' m' := by
  have small : vaddr.toNat / 0x400000 < 768 := by
    unfold kernelBase at user
    omega
  obtain ⟨_, known', tables⟩ := shows.space
  cases known.symm.trans known'
  have tested := tables.pde _ small
  by_cases present : (space.pde (vaddr.toNat / 0x400000)).present = true
  · rw [if_pos present] at added
    subst added
    refine ⟨m, returned_bind.mpr ⟨m, m, returned_get.mpr ⟨rfl, rfl⟩, ?_⟩, shows⟩
    rw [if_pos (tested.trans present)]
    exact returned_pure.mpr ⟨rfl, rfl⟩
  · rw [if_neg present] at added
    obtain ⟨found, s₁, allocated, ran⟩ := call_bind_returns.mp added
    obtain ⟨m₁, allocated', shows₁, pde, pte⟩ := palloc_shown shows allocated
    obtain ⟨space₁, _, read, ran⟩ := call_bind_returns.mp ran
    obtain ⟨found₁, rfl⟩ := spaceOf_returns read
    cases call_modify_returns.mp ran
    refine ⟨m₁.addTable (vaddr.toNat / 0x400000), returned_bind.mpr ⟨m, m,
      returned_get.mpr ⟨rfl, rfl⟩, ?_⟩, shows₁.frames, ?_⟩
    · rw [if_neg (fun is => present (tested.symm.trans is))]
      exact returned_bind.mpr ⟨_, m₁, allocated', returned_modify.mpr rfl⟩
    · obtain ⟨_, known₁, tables₁⟩ := shows₁.space
      cases found₁.symm.trans known₁
      exact ⟨_, setSpace_space, tables₁.addTable⟩

/-- The entry of a page is made present. -/
theorem ShowsSpace.setPte {space : Space} {addr : Nat} (user : vaddr.toNat < kernelBase)
    (tables : ShowsSpace space m) :
    ShowsSpace { space with pte := Function.update space.pte (vaddr.toNat / pgSize) ⟨addr, true⟩ }
      (m.setPte vaddr) := by
  have last : vaddr.toNat / 0x400000 ≠ 1023 := by
    unfold kernelBase at user
    omega
  rw [Machine.setPte, if_neg last]
  refine ⟨tables.pde, fun page small => ?_⟩
  dsimp only
  by_cases here : page = vaddr.toNat / pgSize
  · rw [here, Function.update_self, Function.update_self]
  · rw [Function.update_of_ne here, Function.update_of_ne here, tables.pte page small]

/-- The part of `page_table_add` behind the page table. -/
theorem mapEntry_shown {addr : Nat} (user : vaddr.toNat < kernelBase) (shows : Shows cur s m)
    (ran : (do require ((← readPte cur vaddr.toNat).present = false)
               writePte cur vaddr.toNat ⟨addr, true⟩ : PageCall pools Unit).run s = .ok ((), s')) :
    m.ptePresent vaddr = false ∧ Shows cur s' ((m.setPte vaddr).did (.mapPage vaddr)) := by
  have last : vaddr.toNat / 0x400000 ≠ 1023 := by
    unfold kernelBase at user
    omega
  have small : vaddr.toNat / pgSize < userPages := by
    unfold kernelBase at user
    unfold pgSize userPages
    omega
  obtain ⟨space, known, tables⟩ := shows.space
  obtain ⟨entry, _, read, ran⟩ := call_bind_returns.mp ran
  obtain ⟨-, rfl, rfl⟩ := readPte_user user known read
  obtain ⟨_, _, required, ran⟩ := call_bind_returns.mp ran
  obtain ⟨absent, rfl⟩ := call_lift_returns.mp required
  rw [require_eq_ok] at absent
  rw [writePte, if_neg (not_high user), if_neg (Nat.not_le.mpr user)] at ran
  obtain ⟨space', _, read', ran⟩ := call_bind_returns.mp ran
  obtain ⟨found, rfl⟩ := spaceOf_returns read'
  cases known.symm.trans found
  cases call_modify_returns.mp ran
  have entered := @ShowsSpace.setPte _ _ _ _ addr user tables
  refine ⟨?_, ?_, _, setSpace_space, entered.pde, entered.pte⟩
  · rw [Machine.ptePresent, if_neg last, tables.pte _ small, absent]
  · rw [Machine.setPte, if_neg last]
    exact shows.frames

/-- `page_table_add` maps the same page. -/
theorem pageTableAdd_shown {addr : Nat} (user : vaddr.toNat < kernelBase) (shows : Shows cur s m)
    (ran : (Paging.pageTableAdd cur vaddr.toNat addr).run s = .ok ((), s')) :
    ∃ m', Returned (pageTableAdd vaddr) m () m' ∧ Shows cur s' m' := by
  rw [Paging.pageTableAdd, if_pos user] at ran
  obtain ⟨space, _, read, ran⟩ := call_bind_returns.mp ran
  obtain ⟨known, rfl⟩ := spaceOf_returns read
  have parts : ∃ s₁, (if (space.pde (vaddr.toNat / 0x400000)).present then s = s₁
      else (Paging.addTable cur vaddr.toNat).run s = .ok ((), s₁)) ∧
      (do require ((← readPte cur vaddr.toNat).present = false)
          writePte cur vaddr.toNat ⟨addr, true⟩ : PageCall pools Unit).run s₁ = .ok ((), s') := by
    by_cases present : (space.pde (vaddr.toNat / 0x400000)).present = true
    · rw [if_neg (not_not.mpr present)] at ran
      exact ⟨s, (if_pos present).mpr rfl, ran⟩
    · rw [if_pos present] at ran
      obtain ⟨_, s₁, added, ran⟩ := call_bind_returns.mp ran
      exact ⟨s₁, (if_neg present).mpr added, ran⟩
  obtain ⟨s₁, added, mapped⟩ := parts
  obtain ⟨m₁, added', shows₁⟩ := addTable_shown user shows known added
  obtain ⟨absent, shows'⟩ := mapEntry_shown user shows₁ mapped
  exact ⟨_, returned_bind.mpr ⟨(), m₁, added', returned_bind.mpr ⟨m₁, m₁,
    returned_get.mpr ⟨rfl, rfl⟩, returned_bind.mpr ⟨(), m₁,
      returned_lift.mpr ⟨require_of absent, rfl⟩, returned_modify.mpr rfl⟩⟩⟩, shows'⟩

/-- **A page of a program.** Where `get_a_page` returns for a page of the running process, it takes
the frames and makes the tables and pages present that the machine of `load` says. -/
theorem getAPage_shown {found : Option Nat} (above : userVaddrStart ≤ vaddr.toNat)
    (user : vaddr.toNat < kernelBase) (shows : Shows cur s m)
    (ran : (Paging.getAPage cur vaddr.toNat).run s = .ok (found, s')) :
    ∃ m', Returned (getAPage vaddr) m found.isSome m' ∧ Shows cur s' m' := by
  have behind : (vaddr - BitVec.ofNat 32 userVaddrStart).toNat = vaddr.toNat - userVaddrStart := by
    unfold userVaddrStart at above ⊢
    unfold kernelBase at user
    rw [BitVec.toNat_sub, BitVec.toNat_ofNat]
    omega
  obtain ⟨space, _, read, ran⟩ := call_bind_returns.mp ran
  obtain ⟨known, rfl⟩ := spaceOf_returns read
  obtain ⟨_, _, required, ran⟩ := call_bind_returns.mp ran
  obtain ⟨positive, rfl⟩ := call_lift_returns.mp required
  rw [require_eq_ok, ← behind] at positive
  obtain ⟨_, _, marked, ran⟩ := call_bind_returns.mp ran
  cases call_modify_returns.mp marked
  obtain ⟨_, known', tables⟩ := shows.space
  cases known.symm.trans known'
  have marks : Shows cur (s.setSpace cur { space with
        vaddrBitmap := space.vaddrBitmap.set ((vaddr.toNat - userVaddrStart) / pgSize) true })
      (m.did (.setBit ((vaddr - BitVec.ofNat 32 userVaddrStart).toNat / pgSize))) :=
    ⟨shows.frames, _, setSpace_space, tables.pde, tables.pte⟩
  obtain ⟨allocated, s₁, takes, ran⟩ := call_bind_returns.mp ran
  obtain ⟨m₁, takes', shows₁, -⟩ := palloc_shown marks takes
  have enters : ∀ {done : Bool} {m'}, Returned (if allocated.isSome then do
        pageTableAdd vaddr
        return true
      else return false : ExecCall pools Bool) m₁ done m' →
      Returned (getAPage vaddr) m done m' :=
    fun rest => returned_bind.mpr ⟨(), m, returned_lift.mpr ⟨require_of positive, rfl⟩,
      returned_bind.mpr ⟨(), _, returned_modify.mpr rfl, returned_bind.mpr ⟨_, m₁, takes', rest⟩⟩⟩
  cases allocated with
  | none =>
      obtain ⟨rfl, rfl⟩ := call_pure_returns.mp ran
      exact ⟨m₁, enters (returned_pure.mpr ⟨rfl, rfl⟩), shows₁⟩
  | some addr =>
      obtain ⟨_, s₂, mapped, ran⟩ := call_bind_returns.mp ran
      obtain ⟨rfl, rfl⟩ := call_pure_returns.mp ran
      obtain ⟨m₂, mapped', shows₂⟩ := pageTableAdd_shown user shows₁ mapped
      exact ⟨m₂, enters (returned_bind.mpr ⟨(), m₂, mapped', returned_pure.mpr ⟨rfl, rfl⟩⟩), shows₂⟩

end UKernel.Exec
