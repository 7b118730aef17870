import UKernel.Fs.State

/-! # Free descriptors

The two searches of `file.c` for a free descriptor: a slot of `file_table`, and an entry of the
`fd_table` of the running task.
-/

namespace UKernel.Fs

open UKernel.Library

/-- `get_free_slot_in_global`: the least slot from 3 on whose `fd_inode` is null; `none` is the
result `-1`. -/
def getFreeSlotInGlobal (isNull : Nat → Bool) : Option Nat :=
  (List.range' 3 (maxFileOpen - 3)).find? isNull

/-- The loop of `pcb_fd_install`: the least entry from 3 on that is `-1`. -/
def freeLocalFd (fdTable : Nat → Option Nat) : Option Nat :=
  (List.range' 3 (maxFilesOpenPerProc - 3)).find? fun localFd => fdTable localFd = none

/-- `pcb_fd_install`, on the `fd_table` of the running task; the result `none` is `-1`. -/
def pcbFdInstall (fdTable : Nat → Option Nat) (globalFd : Nat) :
    Option Nat × (Nat → Option Nat) :=
  match freeLocalFd fdTable with
  | none => (none, fdTable)
  | some localFd => (some localFd, Function.update fdTable localFd (some globalFd))

theorem getFreeSlotInGlobal_some {isNull : Nat → Bool} {slot : Nat}
    (found : getFreeSlotInGlobal isNull = some slot) :
    3 ≤ slot ∧ slot < maxFileOpen ∧ isNull slot = true := by
  have member := List.mem_of_find?_eq_some found
  rw [List.mem_range'_1] at member
  exact ⟨member.1, by omega, List.find?_some found⟩

theorem freeLocalFd_some {fdTable : Nat → Option Nat} {localFd : Nat}
    (found : freeLocalFd fdTable = some localFd) :
    3 ≤ localFd ∧ localFd < maxFilesOpenPerProc ∧ fdTable localFd = none := by
  have member := List.mem_of_find?_eq_some found
  have free := List.find?_some found
  rw [List.mem_range'_1] at member
  exact ⟨member.1, by omega, of_decide_eq_true free⟩

theorem freeLocalFd_none {fdTable : Nat → Option Nat} (found : freeLocalFd fdTable = none) :
    ∀ localFd, 3 ≤ localFd → localFd < maxFilesOpenPerProc → fdTable localFd ≠ none := by
  intro localFd low high
  have passed := List.find?_eq_none.mp found localFd (List.mem_range'_1.mpr ⟨low, by omega⟩)
  exact fun free => passed (decide_eq_true free)

end UKernel.Fs
