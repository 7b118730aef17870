import UKernel.Fs.Inode

/-! # Storing inodes on disk

`inode_sync` followed by `inode_open` gives the inode back, and leaves the other slots alone,
for the inode numbers that fit the `uint8_t` through which `inode_sync` passes them
(`UKernel.Fs.inode_sync_round_trip`).
-/

namespace UKernel.Fs

open UKernel.Library

variable {part : Partition} {s : FsState part} {inode : Inode} {disk disk' : Memory} {m n : Nat}

/-- A slot holds the same bytes on two disks. -/
def SameSlot (part : Partition) (disk disk' : Memory) (m : Nat) : Prop :=
  ∀ k < 76, disk (slotAddr part m + k) = disk' (slotAddr part m + k)

theorem SameSlot.slot_eq (same : SameSlot part disk disk' m) :
    slot part disk m = slot part disk' m :=
  Inode.load_congr same

/-- Writing one slot leaves another one alone. -/
theorem sameSlot_splice {src : Memory} (apart : m ≠ n) :
    SameSlot part disk (disk.splice (slotAddr part n) src 76) m := by
  intro k small
  unfold slotAddr
  rw [Memory.splice_outside (by omega)]

/-- The bytes of a slot that was written. -/
theorem slot_splice {src : Memory} {k : Nat} (small : k < 76) :
    disk.splice (slotAddr part n) src 76 (slotAddr part n + k) = src k := by
  rw [Memory.splice_inside (by omega) (by omega), Nat.add_sub_cancel_left]

/-- Loading a slot that was written. -/
theorem load_slot_splice :
    (slot part (disk.splice (slotAddr part n) inode.image 76) n).SameFile inode := by
  apply Inode.load_image
  intro k small
  exact slot_splice small

/-- Writing an inode and loading it when it is not open gives the same number, size and
sectors, and no other slot of the inode table changes. -/
def SyncRoundTrips (s : FsState part) (inode : Inode) : Prop :=
  ∃ after, (inodeSync inode).run s = .ok ((), after) ∧
    (∀ s' : FsState part, s'.disk = after.disk → NotOpen s' inode.iNo →
      ∃ ptr s'' loaded, (inodeOpen inode.iNo).run s' = .ok (ptr, s'') ∧
        s''.inodes ptr = some loaded ∧ loaded.SameFile inode) ∧
    ∀ m < 4096, m ≠ inode.iNo.toNat → SameSlot part s.disk after.disk m

/-- Loading an inode whenever it is not open gives what its slot holds. -/
theorem loads_iff (small : inode.iNo.toNat < 4096) :
    (∀ s' : FsState part, s'.disk = disk → NotOpen s' inode.iNo →
      ∃ ptr s'' loaded, (inodeOpen inode.iNo).run s' = .ok (ptr, s'') ∧
        s''.inodes ptr = some loaded ∧ loaded.SameFile inode) ↔
    (slot part disk inode.iNo.toNat).SameFile inode := by
  constructor
  · intro loads
    have start : ∃ s' : FsState part, s'.disk = disk ∧ NotOpen s' inode.iNo := by
      refine ⟨⟨disk, ⟨Memory.zeros⟩, ⟨Memory.zeros⟩, fun _ => none, 0, [], .kernel 0,
        fun _ => ⟨0, 0, none⟩, fun _ => none, false⟩, rfl, ?_⟩
      intro p listed
      cases listed
    obtain ⟨s', same, closed⟩ := start
    obtain ⟨ptr, s'', loaded, ran, found, file⟩ := loads s' same closed
    rw [inodeOpen_of_notOpen small closed] at ran
    cases ran
    simp only [FsState.loadSlot, Function.update_self, Option.some.injEq] at found
    rw [← found, same] at file
    exact file
  · intro file s' same closed
    refine ⟨_, _, _, inodeOpen_of_notOpen small closed, Function.update_self .., ?_⟩
    rw [same]
    exact file

/-- **Storing an inode.** For every inode number of the table, writing the inode and loading it
again round trips and leaves the other slots alone if and only if the number fits a `uint8_t`,
or the slot already held the inode and the slot that is overwritten already held its image. -/
theorem inode_sync_round_trip (small : inode.iNo.toNat < 4096) :
    SyncRoundTrips s inode ↔ inode.iNo.toNat < 256 ∨
      ((slot part s.disk inode.iNo.toNat).SameFile inode ∧
        ∀ k < 76, s.disk (slotAddr part (inode.iNo.toNat % 256) + k) = inode.image k) := by
  unfold SyncRoundTrips
  simp only [inodeSync_run, Except.ok.injEq, Prod.mk.injEq, true_and, exists_eq_left',
    loads_iff small]
  by_cases fits : inode.iNo.toNat < 256
  · rw [Nat.mod_eq_of_lt fits]
    have frame : ∀ m < 4096, m ≠ inode.iNo.toNat → SameSlot part s.disk
        (s.disk.splice (slotAddr part inode.iNo.toNat) inode.image 76) m :=
      fun m _ apart => sameSlot_splice apart
    exact iff_of_true ⟨load_slot_splice, frame⟩ (.inl fits)
  · have apart : inode.iNo.toNat ≠ inode.iNo.toNat % 256 := by omega
    have untouched : SameSlot part s.disk (s.disk.splice
        (slotAddr part (inode.iNo.toNat % 256)) inode.image 76) inode.iNo.toNat :=
      sameSlot_splice apart
    rw [← untouched.slot_eq, or_iff_right fits]
    refine and_congr_right fun _ => ?_
    constructor
    · intro frame k less
      have same := frame (inode.iNo.toNat % 256) (by omega) apart.symm k less
      rwa [slot_splice less] at same
    · intro image m _ other
      by_cases hit : m = inode.iNo.toNat % 256
      · intro k less
        rw [hit, image k less, slot_splice less]
      · exact sameSlot_splice hit

/-- A partition of ten megabytes. -/
def somePartition : Partition := ⟨2048, 20480, by decide, by decide⟩

/-- A mounted partition all of whose sectors are zero, with no inode open. -/
def blankState : FsState somePartition where
  disk := Memory.zeros
  blockBitmap := ⟨Memory.zeros⟩
  inodeBitmap := ⟨Memory.zeros⟩
  inodes _ := none
  nextAddr := 0
  openInodes := []
  rootDir := .kernel 0
  fileTable _ := ⟨0, 0, none⟩
  fdTable _ := none
  userProcess := false

/-- Inode 7 is stored and loaded. -/
theorem inode_sync_seven : SyncRoundTrips blankState (inodeInit 7) :=
  (inode_sync_round_trip (by decide)).mpr (.inl (by decide))

/-- Inode 256 is written over the slot of the root directory. -/
theorem inode_sync_overwrites_root : ¬ SyncRoundTrips blankState (inodeInit 256) := by
  intro holds
  obtain ⟨after, ran, -, frame⟩ := holds
  rw [inodeSync_run] at ran
  cases ran
  have root := frame 0 (by decide) (by decide) 1 (by decide)
  change blankState.disk (slotAddr somePartition 0 + 1) =
    blankState.disk.splice (slotAddr somePartition 0) (inodeInit 256).image 76
      (slotAddr somePartition 0 + 1) at root
  rw [slot_splice (by decide)] at root
  exact absurd root (by decide)

end UKernel.Fs
