import UKernel.Library.Refinement
import UKernel.Memory.ForkCopy

/-! # The pages of a copied process

`UKernel.Fork` embeds `copy_process` with the contents of the frames, the descriptors and the page
directory that is active, and `UKernel.Paging` with the frames and page tables only. Every call of
the first that returns is one of the second (`UKernel.Fork.copyProcess_refines`), so what is proved
of the frames that a fork takes holds of the call that copies the memory.
-/

namespace UKernel.Fork

open UKernel.Library UKernel.Fs UKernel.Memory UKernel.Paging

variable {pools : Pools} {m m' : Machine pools} {s : Pages pools} {cur parent child bufPage : Nat}

/-- The machine has these pages, and the page directory of the process is active. -/
def Shows (cur : Nat) (m : Machine pools) (s : Pages pools) : Prop :=
  m.pages = s ∧ m.active = cur

/-- The same pages, and the same page directory. -/
def SamePages (m m' : Machine pools) : Prop :=
  m'.pages = m.pages ∧ m'.active = m.active

instance : Std.Refl (@SamePages pools) := ⟨fun _ => ⟨rfl, rfl⟩⟩

instance : IsTrans (Machine pools) SamePages :=
  ⟨fun _ _ _ one two => ⟨two.1.trans one.1, two.2.trans one.2⟩⟩

/-- What a machine shows does not depend on the contents of its pages. -/
theorem SamePages.shows (same : SamePages m m') (shows : Shows cur m s) : Shows cur m' s :=
  ⟨same.1.trans shows.1, same.2.trans shows.2⟩

/-! ## Steps on memory and descriptors -/

/-- Finding the frame of an address changes nothing. -/
theorem frameOf_same (vaddr : Nat) : Keeps SamePages (frameOf vaddr : MachineCall pools Nat) := by
  intro m frame m' ran
  obtain ⟨_, _, read, ran⟩ := call_bind_returns.mp ran
  obtain ⟨rfl, rfl⟩ := call_get_returns.mp read
  obtain ⟨pte, _, translated, ran⟩ := call_bind_returns.mp ran
  obtain ⟨pages, found, rfl⟩ := onPages_returns.mp translated
  obtain rfl := readPte_same found
  split at ran
  · obtain ⟨-, rfl⟩ := call_pure_returns.mp ran
    exact ⟨rfl, rfl⟩
  · exact (call_throw_returns ran).elim

/-- Copying the bytes of a page maps nothing. -/
theorem copyPage_same (dst src : Nat) :
    Keeps SamePages (copyPage dst src : MachineCall pools Unit) :=
  .bind (frameOf_same src) fun _ => .bind (frameOf_same dst) fun _ => .modify fun _ => ⟨rfl, rfl⟩

/-- Clearing the bytes of pages maps nothing. -/
theorem clearPages_same (vaddr cnt : Nat) :
    Keeps SamePages (clearPages vaddr cnt : MachineCall pools Unit) := by
  induction cnt generalizing vaddr with
  | zero => exact .pure ()
  | succ cnt ih =>
      exact .bind (frameOf_same vaddr) fun _ => .bind (.modify fun _ => ⟨rfl, rfl⟩) fun _ => ih _

/-- An open count is raised in memory. -/
theorem bumpOpenCnts_same (inode : InodeAddr) :
    Keeps SamePages (bumpOpenCnts inode : MachineCall pools Unit) := by
  unfold bumpOpenCnts
  split
  · exact .bind (frameOf_same _) fun _ => .modify fun _ => ⟨rfl, rfl⟩
  · exact .modify fun _ => ⟨rfl, rfl⟩

/-- The count of one descriptor is raised in memory. -/
theorem updateOpenCnt_same (localFd : Nat) :
    Keeps SamePages (updateOpenCnt parent child localFd : MachineCall pools Unit) := by
  refine .bind .get fun m => ?_
  split
  · exact .pure ()
  · exact .throw _
  · refine .bind (.lift _) fun _ => ?_
    split
    · exact .modify fun _ => ⟨rfl, rfl⟩
    · exact bumpOpenCnts_same _

/-- The counts of all descriptors are raised in memory. -/
theorem updateInodeOpenCnts_same (localFds : List Nat) :
    Keeps SamePages (updateInodeOpenCnts parent child localFds : MachineCall pools Unit) := by
  induction localFds with
  | nil => exact .pure ()
  | cons localFd rest ih => exact .bind (updateOpenCnt_same localFd) fun _ => ih

/-! ## Steps on the pages -/

/-- A call on the pages is the same call in both models. -/
theorem onPages_refines {α : Type} (call : PageCall pools α) :
    Refines (Shows cur) (onPages call) call (SameValue (Shows cur)) := by
  rintro m _ a m' ⟨rfl, active⟩ ran
  obtain ⟨pages, called, rfl⟩ := onPages_returns.mp ran
  exact ⟨a, pages, called, rfl, rfl, active⟩

/-- `get_kernel_pages` takes the same pages in both models. -/
theorem getKernelPages_refines (pgCnt : Nat) :
    Refines (Shows cur) (getKernelPages pgCnt : MachineCall pools _)
      (Paging.getKernelPages cur pgCnt) (SameValue (Shows cur)) := by
  rintro m s a m' shows ran
  obtain ⟨_, _, read, ran⟩ := call_bind_returns.mp ran
  obtain ⟨rfl, rfl⟩ := call_get_returns.mp read
  rw [shows.2] at ran
  refine Refines.bind_skip (onPages_refines _) (fun found found' m s a m' related ran => ?_)
    m s a m' shows ran
  obtain ⟨rfl, shows⟩ := related
  cases found with
  | none =>
      obtain ⟨rfl, rfl⟩ := call_pure_returns.mp ran
      exact ⟨rfl, shows⟩
  | some vaddr =>
      obtain ⟨_, m₁, clears, ran⟩ := call_bind_returns.mp ran
      obtain ⟨rfl, rfl⟩ := call_pure_returns.mp ran
      exact ⟨rfl, (clearPages_same _ _ _ _ _ clears).shows shows⟩

/-- `create_page_dir` takes the same page in both models. -/
theorem createPageDir_refines :
    Refines (Shows cur) (createPageDir child : MachineCall pools _) (Paging.createPageDir cur)
      (SameValue (Shows cur)) := by
  refine (getKernelPages_refines 1).bind_skip fun found found' m s a m' related ran => ?_
  obtain ⟨rfl, shows⟩ := related
  cases found with
  | none =>
      obtain ⟨rfl, rfl⟩ := call_pure_returns.mp ran
      exact ⟨rfl, shows⟩
  | some pgdir =>
      obtain ⟨_, m₁, entered, ran⟩ := call_bind_returns.mp ran
      cases call_modify_returns.mp entered
      obtain ⟨rfl, rfl⟩ := call_pure_returns.mp ran
      exact ⟨rfl, shows⟩

/-- The page directory of the child is active while its page is mapped. -/
theorem copyUserPage_refines (progVaddr : Nat) :
    Refines (Shows parent) (copyUserPage parent child bufPage progVaddr : MachineCall pools Unit)
      (getAPageWithoutOpvaddrbitmap child progVaddr) (SameValue (Shows parent)) := by
  refine .skip (fun _ => Shows parent)
    (fun m s _ m' shows ran => (copyPage_same _ _ _ _ _ ran).shows shows) fun _ => ?_
  refine .skip (fun _ => Shows child) (fun m s _ m' shows ran => ?_) fun _ => ?_
  · cases call_modify_returns.mp ran
    exact ⟨shows.1, rfl⟩
  · refine (onPages_refines _).bind_skip fun done done' m s _ m' related ran => ?_
    obtain ⟨_, m₁, copied, ran⟩ := call_bind_returns.mp ran
    have shows := (copyPage_same _ _ _ _ _ copied).shows related.2
    cases call_modify_returns.mp ran
    exact ⟨rfl, shows.1, rfl⟩

/-- The pages of a byte of the bitmap are mapped in both models. -/
theorem copyByte_refines (idxByte : Nat) (byte : Byte) (left : Nat) :
    Refines (Shows parent) (copyByte parent child bufPage idxByte byte left : MachineCall pools _)
      (Paging.copyByte child idxByte byte left) (SameValue (Shows parent)) := by
  induction left with
  | zero => exact .pure fun _ _ shows => ⟨rfl, shows⟩
  | succ left ih =>
      unfold copyByte Paging.copyByte
      dsimp only
      split
      · exact (copyUserPage_refines _).bind_same fun _ => ih
      · exact ih

/-- The pages of all bytes of the bitmap are mapped in both models. -/
theorem copyBytes_refines (parentBits : Memory) (bytes : List Nat) :
    Refines (Shows parent) (copyBytes parent child bufPage parentBits bytes : MachineCall pools _)
      (Paging.copyBytes child parentBits bytes) (SameValue (Shows parent)) := by
  induction bytes with
  | nil => exact .pure fun _ _ shows => ⟨rfl, shows⟩
  | cons idxByte rest ih =>
      unfold copyBytes Paging.copyBytes
      split
      · exact (copyByte_refines _ _ _).bind_same fun _ => ih
      · exact ih

/-- The child has its page directory, and its memory and descriptors are copied. -/
theorem copyInto_refines (pcb bits pgdir : Nat) (parentSpace : Space) :
    Refines (Shows parent)
      (copyInto parent child pcb bufPage bits pgdir parentSpace : MachineCall pools Unit)
      (do
        modify fun s => s.setSpace child
          { pcb, pgdir, bits, vaddrBitmap := parentSpace.vaddrBitmap
            pde := fun _ => Pte.zero, pte := fun _ => Pte.zero
            parentPid := some parent, hanging := false }
        Paging.copyBodyStack3 child parentSpace
        mfreePage parent .kernel bufPage 1) (SameValue (Shows parent)) := by
  refine (Refines.modify (Shows parent) fun m s shows => ?_).bind_same fun _ => ?_
  · rw [← shows.1]
    exact ⟨rfl, shows.2⟩
  · refine (copyBytes_refines _ _).bind_same fun _ => ?_
    exact .skip (fun _ => Shows parent)
      (fun m s _ m' shows ran => (updateInodeOpenCnts_same _ _ _ _ ran).shows shows)
      fun _ => onPages_refines _

/-- **Copying a process.** A call of `copy_process` that returns takes and gives back frames, and
changes page tables, as the call does that has only these. -/
theorem copyProcess_refines (pcb : Nat) :
    Refines (Shows parent) (copyProcess parent child pcb : MachineCall pools Bool)
      (Paging.copyProcess parent child pcb) (SameValue (Shows parent)) := by
  refine (onPages_refines _).bind_same fun parentSpace => ?_
  refine (getKernelPages_refines 1).bind_same fun buf => ?_
  cases buf with
  | none => exact .pure fun _ _ shows => ⟨rfl, shows⟩
  | some bufPage =>
      refine (getKernelPages_refines bitmapPgCnt).bind_same fun bits => ?_
      cases bits with
      | none => exact .pure fun _ _ shows => ⟨rfl, shows⟩
      | some bits =>
          refine createPageDir_refines.bind_same fun pgdir => ?_
          cases pgdir with
          | none => exact .pure fun _ _ shows => ⟨rfl, shows⟩
          | some pgdir =>
              intro m s done m' shows ran
              obtain ⟨_, m₁, copies, ran⟩ := call_bind_returns.mp ran
              obtain ⟨rfl, rfl⟩ := call_pure_returns.mp ran
              obtain ⟨_, s', copies', -, shows'⟩ := copyInto_refines _ _ _ _ _ _ _ _ shows copies
              obtain ⟨_, s₁, made, copies'⟩ := call_bind_returns.mp copies'
              obtain ⟨_, s₂, copied, freed⟩ := call_bind_returns.mp copies'
              exact ⟨true, s', call_bind_returns.mpr ⟨_, s₁, made, call_bind_returns.mpr
                ⟨_, s₂, copied, call_bind_returns.mpr ⟨_, s', freed, rfl⟩⟩⟩, rfl, shows'⟩

end UKernel.Fork
