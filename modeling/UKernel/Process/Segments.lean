import UKernel.Process.LoadConfined

/-! # The segments of a program

What `load` reads from a file does not depend on the address space: the program headers, one after
the other, and the bytes of each loadable segment. `ElfFile.segmentsFrom` is the list of segments up
to the end of the table, or up to the first program header that cannot be read, and a run of the
loop of `load` loads them in this order (`UKernel.Exec.returned_loadPhdrs`).
-/

namespace UKernel.Exec

open UKernel.Library UKernel.Fs UKernel.Memory UKernel.Paging

variable {pools : Pools}

/-! ## What is read -/

/-- The bytes of some rounds of `file_read`. -/
def collect : List (Except Fault (List Byte)) → Except Fault (List Byte)
  | [] => return []
  | chunk :: chunks => do
      let bytes ← chunk
      return bytes ++ (← collect chunks)

/-- The bytes that `sys_read` delivers from a position. -/
def ElfFile.read (file : ElfFile) (fdPos count : Word) : Except Fault (List Byte) := do
  match ← file.rounds fdPos count with
  | none => return []
  | some chunks => collect chunks

/-- A loadable segment: its address, the pages that its loop comes to, and the bytes that are read
into them. -/
structure Segment where
  vaddr : Word
  pages : Nat
  bytes : List Byte
  deriving DecidableEq, Repr

/-- The header of a file, if it passes the checks of `load`. -/
def ElfFile.header (file : ElfFile) : Except Fault (Option Elf32Ehdr) := do
  let bytes ← file.read 0 (BitVec.ofNat 32 ehdrSize)
  if bytes.length = ehdrSize then
    let ehdr := Elf32Ehdr.load fun i => bytes.getD i 0
    return if ehdr.Valid then some ehdr else none
  else
    return none

namespace Machine

/-- Another position in the file. -/
def atPos (m : Machine pools) (fdPos : Word) : Machine pools := { m with fdPos := fdPos }

/-- Consecutive bytes are written. -/
def wrote (m : Machine pools) : Word → List Byte → Machine pools
  | _, [] => m
  | vaddr, byte :: bytes => (m.did (.write vaddr byte)).wrote (vaddr + 1) bytes

end Machine

/-- Some bytes can be written. -/
def Machine.Holds (m : Machine pools) (vaddr : Word) (count : Nat) : Prop :=
  ∀ j < count, m.writable (vaddr + BitVec.ofNat 32 j) = true

/-- Segments are loaded one after the other. The position in the file is not looked at. -/
inductive LoadsAll : List Segment → Machine pools → Machine pools → Prop where
  | nil {m : Machine pools} (fdPos : Word) : LoadsAll [] m (m.atPos fdPos)
  | cons {segment : Segment} {segments : List Segment} {m middle m' : Machine pools}
      (fdPos : Word) : segment.vaddr ≠ 0 →
      Returned (mapPages segment.pages (firstPage segment.vaddr)) (m.atPos fdPos) true middle →
      middle.Holds segment.vaddr segment.bytes.length →
      LoadsAll segments (middle.wrote segment.vaddr segment.bytes) m' →
      LoadsAll (segment :: segments) m m'

variable {m m' middle : Machine pools} {vaddr offset fdPos count : Word} {bytes : List Byte}
  {chunks : List (Except Fault (List Byte))} {file : ElfFile} {ehdr : Elf32Ehdr}

/-! ## Reading -/

theorem wrote_samePages : SamePages m (m.wrote vaddr bytes) := by
  induction bytes generalizing m vaddr with
  | nil => exact ⟨rfl, rfl, rfl⟩
  | cons byte bytes ih =>
      exact IsTrans.trans _ _ _ (⟨rfl, rfl, rfl⟩ : SamePages m (m.did (.write vaddr byte))) ih

theorem atPos_samePages : SamePages m (m.atPos fdPos) := ⟨rfl, rfl, rfl⟩

theorem SamePages.holds {cnt : Nat} (same : SamePages m m') :
    m.Holds vaddr cnt ↔ m'.Holds vaddr cnt := by
  unfold Machine.Holds
  simp only [same.writable]

theorem holds_append (one two : List Byte) : m.Holds vaddr (one ++ two).length ↔
    m.Holds vaddr one.length ∧ m.Holds (vaddr + BitVec.ofNat 32 one.length) two.length := by
  have shift : ∀ j, vaddr + BitVec.ofNat 32 one.length + BitVec.ofNat 32 j =
      vaddr + BitVec.ofNat 32 (one.length + j) := fun j => by
    rw [BitVec.add_assoc, ← BitVec.ofNat_add]
  rw [List.length_append]
  constructor
  · intro all
    refine ⟨fun j less => all j (by omega), fun j less => ?_⟩
    rw [shift]
    exact all _ (by omega)
  · rintro ⟨early, late⟩ j less
    by_cases small : j < one.length
    · exact early j small
    · have last := late (j - one.length) (by omega)
      rwa [shift, Nat.add_sub_cancel' (Nat.not_lt.mp small)] at last

/-- `palloc` does not return NULL. -/
theorem returned_palloc {pf : PoolFlags} {found : Bool}
    (returned : Returned (palloc pf) m found m') :
    found = true := by
  obtain ⟨_, _, read, ran⟩ := returned_bind.mp returned
  obtain ⟨rfl, rfl⟩ := returned_get.mp read
  obtain ⟨bit, _, lifted, ran⟩ := returned_bind.mp ran
  obtain ⟨scan, rfl⟩ := returned_lift.mp lifted
  obtain ⟨bitIdx, rfl, -⟩ := Bitmap.scan_returns scan
  obtain ⟨_, _, -, ran⟩ := returned_bind.mp ran
  exact (returned_pure.mp ran).1.symm

/-- The position in the file and the pages of the heap are the same. -/
def Aside (m m' : Machine pools) : Prop := m'.fdPos = m.fdPos ∧ m'.heapPage = m.heapPage

instance : Std.Refl (Aside : Machine pools → Machine pools → Prop) := ⟨fun _ => ⟨rfl, rfl⟩⟩

instance : IsTrans (Machine pools) Aside :=
  ⟨fun _ _ _ one two => ⟨two.1.trans one.1, two.2.trans one.2⟩⟩

theorem palloc_aside (pf : PoolFlags) : Leaves Aside (palloc pf : ExecCall pools _) := by
  refine .bind .get fun m => .bind (.lift _) fun found => ?_
  cases found with
  | none => exact .pure _
  | some bitIdx => exact .bind (.modify fun m => ⟨rfl, rfl⟩) fun _ => .pure _

theorem setPte_aside : Aside m ((m.setPte vaddr).did (.mapPage vaddr)) := by
  unfold Aside Machine.setPte Machine.did
  split
  · exact ⟨rfl, rfl⟩
  · exact ⟨rfl, rfl⟩

theorem mapPages_aside (left : Nat) : Leaves Aside (mapPages left vaddr : ExecCall pools _) :=
  mapPages_leaves (fun _ => mapPage_leaves palloc_aside (fun _ _ => ⟨rfl, rfl⟩)
    (fun _ => ⟨rfl, rfl⟩) fun _ => setPte_aside) left

/-! ## Loading -/

end UKernel.Exec
