import UKernel.Disk.PartitionFormat
import UKernel.Library.Marks

/-! # The search for file systems

The loop of `filesys_init` in `fs.c` that formats each partition without a superblock, on the
disks as `ide_init` scanned them. `part_idx` is set to zero once, before the first disk, so that
no partition of the second disk is looked at; and formatting a partition erases the superblock of
another that it covers. `UKernel.Ide.boot_correct_iff` says for which disks every partition gets
its superblock, where at most one of the two has an extended partition.

What `filesys_init` does after the loop, to mount a partition and to open its root directory, only
reads the disks.
-/

namespace UKernel.Ide

open UKernel.Library UKernel.Fs

/-! ## The loop -/

/-- The variables `part_idx` and `part` of `filesys_init`, and the disks by channel. The pointer
`part` is the number of a record: `prim_parts` from zero, `logic_parts` from four. -/
structure Cursor where
  partIdx : Nat
  part : Nat
  disks : Nat → Memory

/-- The record at a pointer. -/
def HardDisk.record (hd : HardDisk) (part : Nat) : PartRecord :=
  if part < 4 then hd.primParts part else hd.logicParts (part - 4)

/-- Look for a superblock, and format the partition if there is none. -/
def examine (hd : HardDisk) (part : PartRecord) (disks : Nat → Memory) :
    Except Fault (Nat → Memory) :=
  if part.secCnt ≠ 0 then do
    require (part.superLba ≤ maxLba)
    if HasMagic (disks hd.myChannel) part.superLba then return disks
    match part.myDisk with
    | none => .error .badPointer
    | some channelNo => do
        let disk ← partitionFormat part (disks channelNo)
        return Function.update disks channelNo disk
  else
    return disks

/-- The loop body for one partition. -/
def searchStep (hd : HardDisk) (cursor : Cursor) : Except Fault Cursor := do
  let part := if cursor.partIdx = 4 then 4 else cursor.part
  let disks ← examine hd (hd.record part) cursor.disks
  return ⟨cursor.partIdx + 1, part + 1, disks⟩

/-- A number of rounds of the loop over the partitions. -/
def searchLoop (hd : HardDisk) : Nat → Cursor → Except Fault Cursor
  | 0, cursor => return cursor
  | rounds + 1, cursor => do
      let cursor ← searchLoop hd rounds cursor
      searchStep hd cursor

/-- The loop body for one channel: `part` starts anew, `part_idx` does not. -/
def searchDisk (hd : HardDisk) (cursor : Cursor) : Except Fault Cursor :=
  searchLoop hd (12 - cursor.partIdx) { cursor with part := 0 }

/-- The loop over the first channels. -/
def searchChannels (ide : IdeState) (disks : Nat → Memory) : Nat → Except Fault Cursor
  | 0 => return ⟨0, 0, disks⟩
  | channelNo + 1 => do
      let cursor ← searchChannels ide disks channelNo
      searchDisk (ide.devices channelNo 1) cursor

/-- The disks that are scanned, by channel. -/
def Machine.scanned (machine : Machine) : Nat → Memory :=
  fun channelNo => machine.sectors channelNo 1

/-- The search of `filesys_init`, after `ide_init`. -/
def filesysSearch (machine : Machine) (ide : IdeState) : Except Fault Cursor :=
  searchChannels ide machine.scanned machine.channelCnt

/-! ## The property -/

/-- Every recorded partition that is not empty has a superblock. -/
def HasSuperBlocks (hd : HardDisk) (disk : Memory) : Prop :=
  ∀ part < 12, (hd.record part).secCnt ≠ 0 → HasMagic disk (hd.record part).superLba

/-- What is recorded for each scanned disk is what a scan of that disk alone records, and every
partition has a superblock after the search. -/
def BootCorrect (machine : Machine) : Prop :=
  ∀ fuel ide cursor, ideInit machine fuel = .ok ide → filesysSearch machine ide = .ok cursor →
    ∀ channelNo < machine.channelCnt,
      (∃ depth scan, partitionScan (machine.sectors channelNo 1) depth 0 (Scan.fresh channelNo) =
          .ok scan ∧ ide.devices channelNo 1 = scan.hd) ∧
        HasSuperBlocks (ide.devices channelNo 1) (cursor.disks channelNo)

/-- Formatting a partition erases the superblock of another one. -/
def Covers (part other : PartRecord) : Prop :=
  part.superLba < other.superLba ∧ other.superLba ≤ part.lastLba

/-- When a partition of the first disk is formatted, it covers the superblock of no partition that
was looked at before, unless one with the same superblock is still to come. -/
def Spared (hd : HardDisk) (disks : Nat → Memory) : Prop :=
  ∀ i j cursor, i < j → j < 12 → (hd.record i).secCnt ≠ 0 → (hd.record j).secCnt ≠ 0 →
    searchLoop hd j ⟨0, 0, disks⟩ = .ok cursor →
    ¬ HasMagic (cursor.disks hd.myChannel) (hd.record j).superLba →
    Covers (hd.record j) (hd.record i) →
    ∃ k, j < k ∧ k < 12 ∧ (hd.record k).secCnt ≠ 0 ∧
      (hd.record k).superLba = (hd.record i).superLba

/-! ## The loop over one disk -/

section

variable {hd : HardDisk} {part : PartRecord} {disks disks' : Nat → Memory}
  {cursor cursor' last : Cursor} {rounds j : Nat}

/-- What is done for one partition. -/
theorem examine_returns (ran : examine hd part disks = .ok disks') :
    (part.secCnt ≠ 0 → HasMagic (disks hd.myChannel) part.superLba) ∧ disks' = disks ∨
      part.secCnt ≠ 0 ∧ ¬ HasMagic (disks hd.myChannel) part.superLba ∧
        ∃ channelNo disk, part.myDisk = some channelNo ∧
          partitionFormat part (disks channelNo) = .ok disk ∧
          disks' = Function.update disks channelNo disk := by
  unfold examine at ran
  by_cases some_ : part.secCnt ≠ 0
  · rw [if_pos some_] at ran
    obtain ⟨_, -, ran⟩ := except_bind_eq_ok.mp ran
    by_cases magic : HasMagic (disks hd.myChannel) part.superLba
    · rw [if_pos magic] at ran
      exact .inl ⟨fun _ => magic, (Except.ok.inj ran).symm⟩
    · rw [if_neg magic] at ran
      cases owner : part.myDisk with
      | none =>
          rw [owner] at ran
          cases ran
      | some channelNo =>
          rw [owner] at ran
          obtain ⟨disk, formatted, ran⟩ := except_bind_eq_ok.mp ran
          exact .inr ⟨some_, magic, channelNo, disk, rfl, formatted, (Except.ok.inj ran).symm⟩
  · rw [if_neg some_] at ran
    exact .inl ⟨fun more => absurd more some_, (Except.ok.inj ran).symm⟩

/-- Every recorded partition that is not empty names its disk. -/
def HardDisk.Named (hd : HardDisk) : Prop :=
  ∀ part, (hd.record part).secCnt ≠ 0 → (hd.record part).myDisk = some hd.myChannel

/-- The rounds before a round. -/
theorem searchLoop_before (ran : searchLoop hd rounds cursor = .ok last) (before : j ≤ rounds) :
    ∃ middle, searchLoop hd j cursor = .ok middle := by
  induction rounds generalizing last with
  | zero =>
      obtain rfl : j = 0 := by omega
      exact ⟨last, ran⟩
  | succ rounds ih =>
      by_cases here : j = rounds + 1
      · subst here
        exact ⟨last, ran⟩
      · obtain ⟨middle, earlier, -⟩ := except_bind_eq_ok.mp ran
        exact ih earlier (by omega)

/-- The variables of the loop before a round, and the disks that it leaves alone. -/
theorem searchLoop_cursor (named : hd.Named)
    (ran : searchLoop hd rounds ⟨0, 0, disks⟩ = .ok cursor) :
    cursor.partIdx = rounds ∧ cursor.part = rounds ∧
      ∀ channelNo, channelNo ≠ hd.myChannel → cursor.disks channelNo = disks channelNo := by
  induction rounds generalizing cursor with
  | zero =>
      rw [← Except.ok.inj ran]
      exact ⟨rfl, rfl, fun _ _ => rfl⟩
  | succ rounds ih =>
      obtain ⟨middle, earlier, ran⟩ := except_bind_eq_ok.mp ran
      obtain ⟨idx, pointer, others⟩ := ih earlier
      obtain ⟨disks', examined, ran⟩ := except_bind_eq_ok.mp ran
      have same : (if middle.partIdx = 4 then 4 else middle.part) = rounds := by
        split <;> omega
      rw [same] at examined ran
      rw [← Except.ok.inj ran, idx]
      refine ⟨rfl, rfl, fun channelNo other => ?_⟩
      rw [← others channelNo other]
      cases examine_returns examined with
      | inl left => rw [left.2]
      | inr formatted =>
          obtain ⟨some_, -, owner, disk, isOwner, -, result⟩ := formatted
          have mine : owner = hd.myChannel :=
            Option.some.inj (isOwner.symm.trans (named rounds some_))
          rw [result, mine]
          exact Function.update_of_ne other ..

/-- A round of the loop. -/
theorem searchLoop_round (named : hd.Named)
    (before : searchLoop hd j ⟨0, 0, disks⟩ = .ok cursor)
    (after : searchLoop hd (j + 1) ⟨0, 0, disks⟩ = .ok cursor') :
    examine hd (hd.record j) cursor.disks = .ok cursor'.disks := by
  obtain ⟨middle, earlier, ran⟩ := except_bind_eq_ok.mp after
  have same := Except.ok.inj (earlier.symm.trans before)
  subst same
  obtain ⟨idx, pointer, -⟩ := searchLoop_cursor named before
  obtain ⟨disks', examined, ran⟩ := except_bind_eq_ok.mp ran
  have record : (if middle.partIdx = 4 then 4 else middle.part) = j := by
    split <;> omega
  rw [record] at examined ran
  rwa [← Except.ok.inj ran]

/-- The sectors of a disk with a magic number, before a round. -/
def magicBefore (hd : HardDisk) (disks : Nat → Memory) (j : Nat) : Set Nat :=
  {lba | ∃ cursor, searchLoop hd j ⟨0, 0, disks⟩ = .ok cursor ∧
    HasMagic (cursor.disks hd.myChannel) lba}

theorem magicBefore_eq (before : searchLoop hd j ⟨0, 0, disks⟩ = .ok cursor) :
    magicBefore hd disks j = {lba | HasMagic (cursor.disks hd.myChannel) lba} := by
  ext lba
  constructor
  · intro member
    obtain ⟨other, ran, magic⟩ := member
    rw [before] at ran
    exact Except.ok.inj ran ▸ magic
  · intro magic
    exact ⟨cursor, before, magic⟩

/-- The partitions take their turns to set their marks, the magic numbers of their
superblocks. -/
theorem search_marking (named : hd.Named)
    (ran : searchLoop hd 12 ⟨0, 0, disks⟩ = .ok last) :
    Marking 12 (fun j => (hd.record j).secCnt ≠ 0) (fun j => (hd.record j).superLba)
      (fun j => {lba | (hd.record j).superLba < lba ∧ lba ≤ (hd.record j).lastLba})
      (magicBefore hd disks) where
  apart := fun j _ own => Nat.lt_irrefl _ own.1
  sets := by
    intro j inside some_ absent
    obtain ⟨cursor, before⟩ := searchLoop_before ran (Nat.le_of_lt inside)
    obtain ⟨cursor', after⟩ := searchLoop_before ran inside
    rw [magicBefore_eq before] at absent ⊢
    rw [magicBefore_eq after]
    cases examine_returns (searchLoop_round named before after) with
    | inl left => exact absurd (left.1 some_) absent
    | inr formatted =>
        obtain ⟨-, -, owner, disk, isOwner, formatted, result⟩ := formatted
        have mine : owner = hd.myChannel := Option.some.inj (isOwner.symm.trans (named j some_))
        subst mine
        obtain ⟨-, magic, covered, others⟩ := partitionFormat_returns formatted
        rw [result, Function.update_self]
        ext lba
        by_cases own : lba = (hd.record j).superLba
        · subst own
          exact ⟨fun _ => Set.mem_insert .., fun _ => magic⟩
        · by_cases inside : (hd.record j).superLba < lba ∧ lba ≤ (hd.record j).lastLba
          · constructor
            · exact fun present => absurd present (covered lba inside.1 inside.2)
            · exact fun member => absurd inside (member.resolve_left own).2
          · have apart : lba < (hd.record j).superLba ∨ (hd.record j).lastLba < lba := by omega
            constructor
            · exact fun present => .inr ⟨(others lba apart).mp present, inside⟩
            · exact fun member => (others lba apart).mpr (member.resolve_left own).1
  leaves := by
    intro j inside kept
    obtain ⟨cursor, before⟩ := searchLoop_before ran (Nat.le_of_lt inside)
    obtain ⟨cursor', after⟩ := searchLoop_before ran inside
    rw [magicBefore_eq before] at kept ⊢
    rw [magicBefore_eq after]
    cases examine_returns (searchLoop_round named before after) with
    | inl left => rw [left.2]
    | inr formatted => exact absurd (kept formatted.1) formatted.2.1

/-- The partitions of the first disk have their superblocks after the search if and only if none
is erased for good. -/
theorem hasSuperBlocks_iff (named : hd.Named)
    (ran : searchLoop hd 12 ⟨0, 0, disks⟩ = .ok last) :
    HasSuperBlocks hd (last.disks hd.myChannel) ↔ Spared hd disks := by
  have marked := (search_marking named ran).all_iff
  rw [magicBefore_eq ran] at marked
  apply marked.trans
  constructor
  · intro again i j cursor before inside first second middle absent covers
    refine again i j before inside first second ?_ covers
    rwa [magicBefore_eq middle]
  · intro spared i j before inside first second absent covers
    obtain ⟨cursor, middle⟩ := searchLoop_before ran (Nat.le_of_lt inside)
    rw [magicBefore_eq middle] at absent
    exact spared i j cursor before inside first second middle absent covers

end

/-! ## Every configuration -/

section

variable {machine : Machine} {disk : Memory} {scan scan' : Scan} {ide : IdeState}
  {cursor : Cursor} {extLba : Word} {fuel channelNo : Nat}

/-- The partitions recorded so far name the disk that is scanned. -/
structure ScanNamed (channelNo : Nat) (scan : Scan) : Prop where
  channel : scan.hd.myChannel = channelNo
  prim : ∀ k, (scan.hd.primParts k).secCnt ≠ 0 → (scan.hd.primParts k).myDisk = some channelNo
  logic : ∀ k, (scan.hd.logicParts k).secCnt ≠ 0 → (scan.hd.logicParts k).myDisk = some channelNo

theorem partitionScan_named (ran : partitionScan disk fuel extLba scan = .ok scan')
    (named : ScanNamed channelNo scan) : ScanNamed channelNo scan' := by
  refine partitionScan_keeps (fun scan base named => ⟨named.channel, named.prim, named.logic⟩)
    ?_ ?_ ran named
  · intro scan scan' extLba p recorded named
    rw [(recordPrim_returns recorded).2]
    refine ⟨named.channel, fun k => ?_, named.logic⟩
    by_cases here : k = scan.pNo
    · subst here
      intro _
      change (Function.update scan.hd.primParts scan.pNo _ scan.pNo).myDisk = _
      rw [Function.update_self, named.channel]
    · change (Function.update scan.hd.primParts scan.pNo _ k).secCnt ≠ 0 →
        (Function.update scan.hd.primParts scan.pNo _ k).myDisk = _
      rw [Function.update_of_ne here]
      exact named.prim k
  · intro scan scan' extLba p recorded named
    rw [(recordLogic_returns recorded).2]
    refine ⟨named.channel, named.prim, fun k => ?_⟩
    by_cases here : k = scan.lNo
    · subst here
      intro _
      change (Function.update scan.hd.logicParts scan.lNo _ scan.lNo).myDisk = _
      rw [Function.update_self, named.channel]
    · change (Function.update scan.hd.logicParts scan.lNo _ k).secCnt ≠ 0 →
        (Function.update scan.hd.logicParts scan.lNo _ k).myDisk = _
      rw [Function.update_of_ne here]
      exact named.logic k

/-- What a scan recorded names the disk, whatever the base it started with. -/
theorem partitionScan_hd_named {base : Word}
    (ran : partitionScan disk fuel extLba ((Scan.fresh channelNo).withBase base) = .ok scan) :
    scan.hd.myChannel = channelNo ∧ scan.hd.Named := by
  have named : ScanNamed channelNo scan := by
    apply partitionScan_named ran
    exact ⟨rfl, fun _ empty => absurd rfl empty, fun _ empty => absurd rfl empty⟩
  refine ⟨named.channel, fun part => ?_⟩
  rw [named.channel, HardDisk.record]
  by_cases prim : part < 4
  · rw [if_pos prim]
    exact named.prim part
  · rw [if_neg prim]
    exact named.logic (part - 4)

/-- The search looks at the disk of the first channel only. -/
theorem filesysSearch_returns (named : (ide.devices 0 1).Named)
    (channels : machine.channelCnt = 1 ∨ machine.channelCnt = 2)
    (searched : filesysSearch machine ide = .ok cursor) :
    ∃ last, searchLoop (ide.devices 0 1) 12 ⟨0, 0, machine.scanned⟩ = .ok last ∧
      last.disks = cursor.disks := by
  unfold filesysSearch at searched
  cases channels with
  | inl one =>
      rw [one] at searched
      obtain ⟨start, begun, ran⟩ := except_bind_eq_ok.mp searched
      rw [← Except.ok.inj begun] at ran
      exact ⟨cursor, ran, rfl⟩
  | inr two =>
      rw [two] at searched
      obtain ⟨middle, first, ran⟩ := except_bind_eq_ok.mp searched
      obtain ⟨start, begun, first⟩ := except_bind_eq_ok.mp first
      rw [← Except.ok.inj begun] at first
      have loop : searchLoop (ide.devices 0 1) 12 ⟨0, 0, machine.scanned⟩ = .ok middle := first
      obtain ⟨idx, -, -⟩ := searchLoop_cursor named loop
      unfold searchDisk at ran
      rw [idx] at ran
      rw [← Except.ok.inj ran]
      exact ⟨middle, loop, rfl⟩

/-- **What booting gives.** At most one of the scanned disks has an extended partition. Then each
is scanned as if it were alone, and every recorded partition has its superblock in the end, if and
only if those of the second disk had theirs before and none of the first is erased. -/
theorem boot_correct_iff (machine : Machine)
    (oneExtended : machine.channelCnt = 2 →
      ¬ (HasExtended (machine.sectors 0 1) ∧ HasExtended (machine.sectors 1 1))) :
    BootCorrect machine ↔ ∀ fuel ide cursor, ideInit machine fuel = .ok ide →
      filesysSearch machine ide = .ok cursor →
      Spared (ide.devices 0 1) machine.scanned ∧
        (machine.channelCnt = 2 → HasSuperBlocks (ide.devices 1 1) (machine.sectors 1 1)) := by
  unfold BootCorrect
  refine forall_congr' fun fuel => forall_congr' fun ide => forall_congr' fun cursor =>
    forall_congr' fun booted => forall_congr' fun searched => ?_
  obtain ⟨first, scanned, stored, channels⟩ := ideInit_returns booted
  have begun : partitionScan (machine.sectors 0 1) fuel 0 ((Scan.fresh 0).withBase 0) =
    .ok first := scanned
  obtain ⟨mine, named⟩ := partitionScan_hd_named begun
  rw [← stored] at mine named
  obtain ⟨last, loop, same⟩ :=
    filesysSearch_returns named (channels.imp id And.left) searched
  have spared := hasSuperBlocks_iff named loop
  obtain ⟨-, -, others⟩ := searchLoop_cursor named loop
  rw [mine] at spared others
  rw [same] at spared
  have second : cursor.disks 1 = machine.sectors 1 1 := by
    rw [← same]
    exact others 1 (by decide)
  cases channels with
  | inl one =>
      rw [one]
      constructor
      · intro correct
        exact ⟨spared.mp (correct 0 (by decide)).2, fun two => absurd two (by decide)⟩
      · intro holds channelNo inside
        obtain rfl : channelNo = 0 := by omega
        exact ⟨⟨fuel, first, scanned, stored⟩, spared.mpr holds.1⟩
  | inr two =>
      obtain ⟨two, next, again, stored'⟩ := two
      obtain ⟨alone, own, hd⟩ := partitionScan_alone (oneExtended two) scanned again
      rw [two]
      constructor
      · intro correct
        refine ⟨spared.mp (correct 0 (by decide)).2, fun _ => ?_⟩
        rw [← second]
        exact (correct 1 (by decide)).2
      · intro holds channelNo inside
        by_cases main : channelNo = 0
        · subst main
          exact ⟨⟨fuel, first, scanned, stored⟩, spared.mpr holds.1⟩
        · obtain rfl : channelNo = 1 := by omega
          refine ⟨⟨fuel, alone, own, stored'.trans hd⟩, ?_⟩
          rw [second]
          exact holds.2 rfl

end

/-! ## Concrete machines -/

/-- A disk with the given entries in partition tables: the sector and the number of an entry, its
type, first sector and size. All other bytes are zero. -/
def diskWith : List (Nat × Nat × Byte × Word × Word) → Memory
  | [], _ => 0
  | (lba, partIdx, fsType, startLba, secCnt) :: rest, i =>
      let entry := 512 * lba + 446 + 16 * partIdx
      if i = entry + 4 then fsType
      else if entry + 8 ≤ i ∧ i < entry + 12 then wordByte startLba (i - (entry + 8))
      else if entry + 12 ≤ i ∧ i < entry + 16 then wordByte secCnt (i - (entry + 12))
      else diskWith rest i

/-- Four disks, two of which are scanned. -/
def fourDisks (first second : Memory) : Machine where
  hdCnt := 4
  attached := fun _ _ => true
  sectors := fun channelNo devNo =>
    if devNo = 0 then Memory.zeros else if channelNo = 0 then first else second

/-- The result of booting. -/
def bootOf (machine : Machine) (fuel : Nat) : Option (IdeState × Cursor) :=
  (ideInit machine fuel).toOption.bind fun ide =>
    (filesysSearch machine ide).toOption.map fun cursor => (ide, cursor)

theorem exists_of_bootOf {machine : Machine} {fuel : Nat} {check : IdeState × Cursor → Bool}
    (checked : (bootOf machine fuel).any check = true) :
    ∃ ide cursor, ideInit machine fuel = .ok ide ∧ filesysSearch machine ide = .ok cursor ∧
      check (ide, cursor) = true := by
  unfold bootOf at checked
  cases booted : ideInit machine fuel with
  | error fault =>
      rw [booted] at checked
      cases checked
  | ok ide =>
      rw [booted] at checked
      cases searched : filesysSearch machine ide with
      | error fault =>
          change ((filesysSearch machine ide).toOption.map _).any check = true at checked
          rw [searched] at checked
          cases checked
      | ok cursor =>
          change ((filesysSearch machine ide).toOption.map _).any check = true at checked
          rw [searched] at checked
          exact ⟨ide, cursor, rfl, searched, checked⟩

/-- A primary partition, and an extended one with one logical partition. -/
def firstDisk : Memory :=
  diskWith [(0, 0, 0x83, 10000, 5000), (0, 1, 0x5, 100, 2000), (100, 0, 0x83, 1, 1000)]

/-- An extended partition with one logical partition. -/
def extendedDisk : Memory :=
  diskWith [(0, 0, 0x5, 200, 2000), (200, 0, 0x83, 1, 1000)]

/-- One primary partition. -/
def primaryDisk : Memory :=
  diskWith [(0, 0, 0x83, 1000, 5000)]

/-- The extended partition of the second disk is looked for behind that of the first, and a
partition of the second disk is not formatted. -/
theorem boot_incorrect : ¬ BootCorrect (fourDisks firstDisk extendedDisk) ∧
    ¬ BootCorrect (fourDisks firstDisk primaryDisk) := by
  constructor
  · intro correct
    have checked : (bootOf (fourDisks firstDisk extendedDisk) 4).any (fun (ide, _) =>
        decide (((ide.devices 1 1).logicParts 0).secCnt = 0)) = true := by
      decide +kernel
    obtain ⟨ide, cursor, booted, searched, none_⟩ := exists_of_bootOf checked
    obtain ⟨⟨depth, scan, alone, same⟩, -⟩ := correct 4 ide cursor booted searched 1 (by decide)
    have own : (partitionScan extendedDisk 4 0 (Scan.fresh 1)).toOption.map
        (fun scan => (scan.hd.logicParts 0).secCnt) = some 1000 := by
      decide +kernel
    cases ran : partitionScan extendedDisk 4 0 (Scan.fresh 1) with
    | error fault =>
        rw [ran] at own
        cases own
    | ok mine =>
        rw [ran] at own
        have unique : scan = mine := partitionScan_unique alone ran
        have empty : ((ide.devices 1 1).logicParts 0).secCnt = 0 := of_decide_eq_true none_
        have some_ : (mine.hd.logicParts 0).secCnt = 1000 := Option.some.inj own
        rw [same, unique, some_] at empty
        cases empty
  · intro correct
    have checked : (bootOf (fourDisks firstDisk primaryDisk) 4).any (fun (ide, cursor) =>
        decide (((ide.devices 1 1).record 0).secCnt ≠ 0 ∧
          ¬ HasMagic (cursor.disks 1) ((ide.devices 1 1).record 0).superLba)) = true := by
      decide +kernel
    obtain ⟨ide, cursor, booted, searched, missing⟩ := exists_of_bootOf checked
    obtain ⟨some_, absent⟩ := of_decide_eq_true missing
    exact absent ((correct 4 ide cursor booted searched 1 (by decide)).2 0 (by decide) some_)

/-- Booting with an extended partition on the first disk only. -/
theorem boot_correct_four : HasExtended firstDisk ∧
    (BootCorrect (fourDisks firstDisk primaryDisk) ↔
      ∀ fuel ide cursor, ideInit (fourDisks firstDisk primaryDisk) fuel = .ok ide →
        filesysSearch (fourDisks firstDisk primaryDisk) ide = .ok cursor →
        Spared (ide.devices 0 1) (fourDisks firstDisk primaryDisk).scanned ∧
          ((fourDisks firstDisk primaryDisk).channelCnt = 2 →
            HasSuperBlocks (ide.devices 1 1) primaryDisk)) :=
  ⟨by decide +kernel, boot_correct_iff (fourDisks firstDisk primaryDisk) fun _ both =>
    absurd both.2 (show ¬ HasExtended primaryDisk by decide +kernel)⟩

end UKernel.Ide
