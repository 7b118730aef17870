import UKernel.Fs.Partition

/-! # Scanning the partition tables

`partition_scan` and `ide_init` of `ide.c`. The first extended entry that is met sets
`ext_lba_base`, and the tables of logical partitions are found by adding their entries to it.
`ide_init` sets `p_no` and `l_no` back after each disk, but not `ext_lba_base`, so that the disk
scanned second starts with the base of the first (`UKernel.Ide.ideInit_returns`).

Memory for the sectors is there, and a disk that is attached answers. What follows a table may
lead back to it: the scan has an argument that bounds its depth.
-/

namespace UKernel.Ide

open UKernel.Library UKernel.Fs

/-! ## Disks and partition tables -/

/-- `struct partition`, as far as the scan sets it; zero until then. -/
structure PartRecord where
  startLba : Word
  secCnt : Word
  /-- `my_disk`, by the number of its channel. -/
  myDisk : Option Nat
  deriving DecidableEq, Repr

/-- A partition that is not recorded. -/
def PartRecord.blank : PartRecord :=
  ⟨0, 0, none⟩

/-- `struct disk`. -/
structure HardDisk where
  myChannel : Nat
  primParts : Nat → PartRecord
  logicParts : Nat → PartRecord

/-- A disk before the scan. -/
def HardDisk.blank (channelNo : Nat) : HardDisk :=
  ⟨channelNo, fun _ => .blank, fun _ => .blank⟩

/-- `struct partition_table_entry`, as far as it is read. -/
structure TableEntry where
  fsType : Byte
  startLba : Word
  secCnt : Word
  deriving DecidableEq, Repr

/-- An entry of the partition table in `struct boot_sector`. -/
def tableEntry (bs : Memory) (partIdx : Nat) : TableEntry where
  fsType := bs (446 + 16 * partIdx + 4)
  startLba := getWord bs (446 + 16 * partIdx + 8)
  secCnt := getWord bs (446 + 16 * partIdx + 12)

/-- The partition table of a sector. -/
def partitionTable (bs : Memory) : List TableEntry :=
  [tableEntry bs 0, tableEntry bs 1, tableEntry bs 2, tableEntry bs 3]

/-- The table in the first sector of a disk has an extended entry. -/
def HasExtended (disk : Memory) : Prop :=
  ∃ p ∈ partitionTable (ideRead disk 0), p.fsType = 0x5

instance (disk : Memory) : Decidable (HasExtended disk) :=
  inferInstanceAs (Decidable (∃ p ∈ partitionTable (ideRead disk 0), p.fsType = 0x5))

/-! ## The scan -/

/-- The variables `ext_lba_base`, `p_no` and `l_no`, and the disk `hd` that is scanned. -/
structure Scan where
  extLbaBase : Word
  pNo : Nat
  lNo : Nat
  hd : HardDisk

/-- The record of `prim_parts[p_no]`, and `p_no++`. -/
def Scan.addPrim (scan : Scan) (part : PartRecord) : Scan :=
  let primParts := Function.update scan.hd.primParts scan.pNo part
  { scan with hd := { scan.hd with primParts := primParts }, pNo := scan.pNo + 1 }

/-- The record of `logic_parts[l_no]`, and `l_no++`. -/
def Scan.addLogic (scan : Scan) (part : PartRecord) : Scan :=
  let logicParts := Function.update scan.hd.logicParts scan.lNo part
  { scan with hd := { scan.hd with logicParts := logicParts }, lNo := scan.lNo + 1 }

/-- The branch of `partition_scan` for a primary partition. -/
def recordPrim (extLba : Word) (p : TableEntry) (scan : Scan) : Except Fault Scan :=
  if scan.pNo < 4 then do
    let scan := scan.addPrim ⟨extLba + p.startLba, p.secCnt, some scan.hd.myChannel⟩
    require (scan.pNo < 4)
    return scan
  else
    .error .outOfBounds

/-- The branch of `partition_scan` for a logical partition. -/
def recordLogic (extLba : Word) (p : TableEntry) (scan : Scan) : Except Fault Scan :=
  if scan.lNo < 8 then
    return scan.addLogic ⟨extLba + p.startLba, p.secCnt, some scan.hd.myChannel⟩
  else
    .error .outOfBounds

/-- The loop of `partition_scan` over the entries of a table; `scanTable` is the recursive
call. -/
def scanEntries (scanTable : Word → Scan → Except Fault Scan) (extLba : Word) :
    List TableEntry → Scan → Except Fault Scan
  | [], scan => return scan
  | p :: rest, scan =>
      if p.fsType = 0x5 then
        if scan.extLbaBase ≠ 0 then do
          let scan ← scanTable (p.startLba + scan.extLbaBase) scan
          scanEntries scanTable extLba rest scan
        else do
          let scan ← scanTable p.startLba { scan with extLbaBase := p.startLba }
          scanEntries scanTable extLba rest scan
      else if p.fsType ≠ 0 then
        if extLba = 0 then do
          let scan ← recordPrim extLba p scan
          scanEntries scanTable extLba rest scan
        else do
          let scan ← recordLogic extLba p scan
          -- the return leaves this table only, not the tables that lead to it
          if scan.lNo ≥ 8 then return scan
          scanEntries scanTable extLba rest scan
      else
        scanEntries scanTable extLba rest scan

/-- `partition_scan`, to a depth of `fuel` tables. -/
def partitionScan (disk : Memory) : Nat → Word → Scan → Except Fault Scan
  | 0, _, _ => .error .diverges
  | fuel + 1, extLba, scan => do
      require (extLba.toNat ≤ maxLba)
      let bs := ideRead disk extLba.toNat
      scanEntries (partitionScan disk fuel) extLba (partitionTable bs) scan

/-- The scan of a disk that no other scan went before. -/
def Scan.fresh (channelNo : Nat) : Scan :=
  ⟨0, 0, 0, .blank channelNo⟩

/-- A scan with another `ext_lba_base`. -/
def Scan.withBase (scan : Scan) (base : Word) : Scan :=
  { scan with extLbaBase := base }

section

variable {disk : Memory} {scanTable scanTable' : Word → Scan → Except Fault Scan}
  {extLba base : Word} {p : TableEntry} {entries : List TableEntry} {scan scan' : Scan}
  {fuel fuel' : Nat}

theorem recordPrim_returns (ran : recordPrim extLba p scan = .ok scan') :
    scan.pNo + 1 < 4 ∧
      scan' = scan.addPrim ⟨extLba + p.startLba, p.secCnt, some scan.hd.myChannel⟩ := by
  unfold recordPrim at ran
  by_cases inside : scan.pNo < 4
  · rw [if_pos inside] at ran
    obtain ⟨_, small, rest⟩ := except_bind_eq_ok.mp ran
    exact ⟨require_eq_ok.mp small, (Except.ok.inj rest).symm⟩
  · rw [if_neg inside] at ran
    cases ran

theorem recordLogic_returns (ran : recordLogic extLba p scan = .ok scan') :
    scan.lNo < 8 ∧
      scan' = scan.addLogic ⟨extLba + p.startLba, p.secCnt, some scan.hd.myChannel⟩ := by
  unfold recordLogic at ran
  by_cases inside : scan.lNo < 8
  · rw [if_pos inside] at ran
    exact ⟨inside, (Except.ok.inj ran).symm⟩
  · rw [if_neg inside] at ran
    cases ran

/-- A scan that returned read its table. -/
theorem partitionScan_returns (ran : partitionScan disk fuel extLba scan = .ok scan') :
    ∃ less, fuel = less + 1 ∧ extLba.toNat ≤ maxLba ∧
      scanEntries (partitionScan disk less) extLba
        (partitionTable (ideRead disk extLba.toNat)) scan = .ok scan' := by
  cases fuel with
  | zero => cases ran
  | succ less =>
      obtain ⟨_, small, loop⟩ := except_bind_eq_ok.mp ran
      exact ⟨less, rfl, require_eq_ok.mp small, loop⟩

/-- What setting the base, recording a partition and scanning the tables that follow keep, the
loop over the entries keeps. -/
theorem scanEntries_keeps {Inv : Scan → Prop}
    (tables : ∀ lba scan scan', scanTable lba scan = .ok scan' → Inv scan → Inv scan')
    (based : ∀ scan base, Inv scan → Inv (scan.withBase base))
    (prim : ∀ scan scan' extLba p, recordPrim extLba p scan = .ok scan' → Inv scan → Inv scan')
    (logic : ∀ scan scan' extLba p, recordLogic extLba p scan = .ok scan' → Inv scan → Inv scan')
    (ran : scanEntries scanTable extLba entries scan = .ok scan') (holds : Inv scan) :
    Inv scan' := by
  induction entries generalizing scan with
  | nil => exact Except.ok.inj ran ▸ holds
  | cons p rest ih =>
      unfold scanEntries at ran
      split at ran
      · split at ran
        · obtain ⟨next, inner, ran⟩ := except_bind_eq_ok.mp ran
          exact ih ran (tables _ _ _ inner holds)
        · obtain ⟨next, inner, ran⟩ := except_bind_eq_ok.mp ran
          exact ih ran (tables _ _ _ inner (based _ _ holds))
      · split at ran
        · split at ran
          · obtain ⟨next, recorded, ran⟩ := except_bind_eq_ok.mp ran
            exact ih ran (prim _ _ _ _ recorded holds)
          · obtain ⟨next, recorded, ran⟩ := except_bind_eq_ok.mp ran
            have kept := logic _ _ _ _ recorded holds
            split at ran
            · exact Except.ok.inj ran ▸ kept
            · exact ih ran kept
        · exact ih ran holds

/-- What setting the base and recording a partition keep, the scan keeps. -/
theorem partitionScan_keeps {Inv : Scan → Prop}
    (based : ∀ scan base, Inv scan → Inv (scan.withBase base))
    (prim : ∀ scan scan' extLba p, recordPrim extLba p scan = .ok scan' → Inv scan → Inv scan')
    (logic : ∀ scan scan' extLba p, recordLogic extLba p scan = .ok scan' → Inv scan → Inv scan')
    (ran : partitionScan disk fuel extLba scan = .ok scan') (holds : Inv scan) : Inv scan' := by
  induction fuel generalizing extLba scan scan' with
  | zero => cases ran
  | succ fuel ih =>
      obtain ⟨_, -, ran⟩ := except_bind_eq_ok.mp ran
      exact scanEntries_keeps (fun _ _ _ => ih) based prim logic ran holds

/-- The loop over the entries returns as before when the tables that follow do. -/
theorem scanEntries_mono
    (tables : ∀ lba scan scan', scanTable lba scan = .ok scan' → scanTable' lba scan = .ok scan')
    (ran : scanEntries scanTable extLba entries scan = .ok scan') :
    scanEntries scanTable' extLba entries scan = .ok scan' := by
  induction entries generalizing scan with
  | nil => exact ran
  | cons p rest ih =>
      unfold scanEntries at ran ⊢
      by_cases extended : p.fsType = 0x5
      · rw [if_pos extended] at ran ⊢
        by_cases known : scan.extLbaBase ≠ 0
        · rw [if_pos known] at ran ⊢
          obtain ⟨next, inner, ran⟩ := except_bind_eq_ok.mp ran
          exact except_bind_eq_ok.mpr ⟨next, tables _ _ _ inner, ih ran⟩
        · rw [if_neg known] at ran ⊢
          obtain ⟨next, inner, ran⟩ := except_bind_eq_ok.mp ran
          exact except_bind_eq_ok.mpr ⟨next, tables _ _ _ inner, ih ran⟩
      · rw [if_neg extended] at ran ⊢
        by_cases used : p.fsType ≠ 0
        · rw [if_pos used] at ran ⊢
          by_cases first : extLba = 0
          · rw [if_pos first] at ran ⊢
            obtain ⟨next, recorded, ran⟩ := except_bind_eq_ok.mp ran
            exact except_bind_eq_ok.mpr ⟨next, recorded, ih ran⟩
          · rw [if_neg first] at ran ⊢
            obtain ⟨next, recorded, ran⟩ := except_bind_eq_ok.mp ran
            apply except_bind_eq_ok.mpr ⟨next, recorded, ?_⟩
            by_cases full : next.lNo ≥ 8
            · rwa [if_pos full] at ran ⊢
            · rw [if_neg full] at ran ⊢
              exact ih ran
        · rw [if_neg used] at ran ⊢
          exact ih ran

/-- A scan that returned does so to any greater depth. -/
theorem partitionScan_mono (more : fuel ≤ fuel')
    (ran : partitionScan disk fuel extLba scan = .ok scan') :
    partitionScan disk fuel' extLba scan = .ok scan' := by
  induction fuel generalizing fuel' extLba scan scan' with
  | zero => cases ran
  | succ fuel ih =>
      obtain ⟨deeper, rfl⟩ : ∃ deeper, fuel' = deeper + 1 := ⟨fuel' - 1, by omega⟩
      obtain ⟨_, small, ran⟩ := except_bind_eq_ok.mp ran
      apply except_bind_eq_ok.mpr ⟨(), small, ?_⟩
      exact scanEntries_mono (fun _ _ _ => ih (by omega)) ran

/-- The depths to which two scans of a disk go make no difference, if both return. -/
theorem partitionScan_unique {first second : Scan}
    (ran : partitionScan disk fuel extLba scan = .ok first)
    (again : partitionScan disk fuel' extLba scan = .ok second) : first = second := by
  have one := partitionScan_mono (Nat.le_max_left fuel fuel') ran
  have two := partitionScan_mono (Nat.le_max_right fuel fuel') again
  exact Except.ok.inj (one.symm.trans two)

/-! ## A table without an extended entry -/

theorem recordPrim_withBase :
    recordPrim extLba p (scan.withBase base) =
      (recordPrim extLba p scan).map (Scan.withBase · base) := by
  unfold recordPrim
  change (if scan.pNo < 4 then _ else _) = _
  by_cases inside : scan.pNo < 4
  · rw [if_pos inside, if_pos inside]
    change (require (scan.pNo + 1 < 4) >>= _) = Except.map _ (require (scan.pNo + 1 < 4) >>= _)
    cases require (scan.pNo + 1 < 4) with
    | error fault => rfl
    | ok done => rfl
  · rw [if_neg inside, if_neg inside]
    rfl

theorem recordLogic_withBase :
    recordLogic extLba p (scan.withBase base) =
      (recordLogic extLba p scan).map (Scan.withBase · base) := by
  unfold recordLogic
  change (if scan.lNo < 8 then _ else _) = _
  by_cases inside : scan.lNo < 8
  · rw [if_pos inside, if_pos inside]
    rfl
  · rw [if_neg inside, if_neg inside]
    rfl

/-- Without an extended entry, `ext_lba_base` is neither read nor set. -/
theorem scanEntries_withBase (plain : ∀ p ∈ entries, p.fsType ≠ 0x5) :
    scanEntries scanTable extLba entries (scan.withBase base) =
      (scanEntries scanTable' extLba entries scan).map (Scan.withBase · base) := by
  induction entries generalizing scan with
  | nil => rfl
  | cons p rest ih =>
      have others : ∀ p ∈ rest, p.fsType ≠ 0x5 := fun q member =>
        plain q (List.mem_cons_of_mem p member)
      unfold scanEntries
      rw [if_neg (plain p List.mem_cons_self), if_neg (plain p List.mem_cons_self)]
      by_cases used : p.fsType ≠ 0
      · rw [if_pos used, if_pos used]
        by_cases first : extLba = 0
        · rw [if_pos first, if_pos first, recordPrim_withBase]
          cases recordPrim extLba p scan with
          | error fault => rfl
          | ok next => exact ih others
        · rw [if_neg first, if_neg first, recordLogic_withBase]
          cases recordLogic extLba p scan with
          | error fault => rfl
          | ok next =>
              change (if next.lNo ≥ 8 then _ else _) = Except.map _ (if next.lNo ≥ 8 then _ else _)
              by_cases full : next.lNo ≥ 8
              · rw [if_pos full, if_pos full]
                rfl
              · rw [if_neg full, if_neg full]
                exact ih others
      · rw [if_neg used, if_neg used]
        exact ih others

/-- The scan of a disk whose first sector has no extended entry. -/
theorem partitionScan_withBase (plain : ¬ HasExtended disk) :
    partitionScan disk fuel 0 (scan.withBase base) =
      (partitionScan disk fuel 0 scan).map (Scan.withBase · base) := by
  cases fuel with
  | zero => rfl
  | succ fuel =>
      apply scanEntries_withBase
      intro p member extended
      exact plain ⟨p, member, extended⟩

/-- Such a scan leaves `ext_lba_base` as it is. -/
theorem partitionScan_base (plain : ¬ HasExtended disk)
    (ran : partitionScan disk fuel 0 scan = .ok scan') : scan'.extLbaBase = scan.extLbaBase := by
  have same : partitionScan disk fuel 0 scan =
      (partitionScan disk fuel 0 scan).map (Scan.withBase · scan.extLbaBase) :=
    partitionScan_withBase plain
  rw [ran] at same
  have fixed : scan' = scan'.withBase scan.extLbaBase := Except.ok.inj same
  exact (congrArg Scan.extLbaBase fixed).trans rfl

/-! ## Scanning after another disk -/

/-- The scan of a disk after another one records what it records alone, unless both have an
extended partition. -/
theorem partitionScan_alone {disk' : Memory} {first second : Scan} {channelNo channelNo' : Nat}
    (oneExtended : ¬ (HasExtended disk ∧ HasExtended disk'))
    (ran : partitionScan disk fuel 0 (Scan.fresh channelNo) = .ok first)
    (again : partitionScan disk' fuel' 0 ((Scan.fresh channelNo').withBase first.extLbaBase) =
      .ok second) :
    ∃ scan, partitionScan disk' fuel' 0 (Scan.fresh channelNo') = .ok scan ∧
      second.hd = scan.hd := by
  by_cases extended : HasExtended disk
  · have plain : ¬ HasExtended disk' := fun other => oneExtended ⟨extended, other⟩
    rw [partitionScan_withBase plain] at again
    cases alone : partitionScan disk' fuel' 0 (Scan.fresh channelNo') with
    | error fault =>
        rw [alone] at again
        cases again
    | ok scan =>
        rw [alone] at again
        have result : scan.withBase first.extLbaBase = second := Except.ok.inj again
        exact ⟨scan, rfl, (congrArg Scan.hd result.symm).trans rfl⟩
  · rw [partitionScan_base extended ran] at again
    exact ⟨second, again, rfl⟩

/-- The first extended entry of the first sector is followed, whatever was recorded before it. -/
theorem exists_followed (extended : ∃ p ∈ entries, p.fsType = 0x5) :
    ∃ p : TableEntry, ∀ scanTable scan scan', scanEntries scanTable 0 entries scan = .ok scan' →
      ∃ start next, scanTable (p.startLba + scan.extLbaBase) start = .ok next ∧
        start.extLbaBase = if scan.extLbaBase ≠ 0 then scan.extLbaBase else p.startLba := by
  induction entries with
  | nil =>
      obtain ⟨p, member, -⟩ := extended
      cases member
  | cons p rest ih =>
      by_cases here : p.fsType = 0x5
      · refine ⟨p, fun scanTable scan scan' ran => ?_⟩
        unfold scanEntries at ran
        rw [if_pos here] at ran
        by_cases known : scan.extLbaBase ≠ 0
        · rw [if_pos known] at ran ⊢
          obtain ⟨next, inner, -⟩ := except_bind_eq_ok.mp ran
          exact ⟨scan, next, inner, rfl⟩
        · rw [if_neg known] at ran ⊢
          obtain ⟨next, inner, -⟩ := except_bind_eq_ok.mp ran
          have same : p.startLba + scan.extLbaBase = p.startLba := by
            rw [not_not.mp known]
            exact BitVec.add_zero ..
          rw [same]
          exact ⟨_, next, inner, rfl⟩
      · obtain ⟨q, member, isExtended⟩ := extended
        have later : q ∈ rest := by
          cases member with
          | head => exact absurd isExtended here
          | tail _ member => exact member
        obtain ⟨p', followed⟩ := ih ⟨q, later, isExtended⟩
        refine ⟨p', fun scanTable scan scan' ran => ?_⟩
        unfold scanEntries at ran
        rw [if_neg here] at ran
        by_cases used : p.fsType ≠ 0
        · rw [if_pos used, if_pos rfl] at ran
          obtain ⟨next, recorded, ran⟩ := except_bind_eq_ok.mp ran
          have base : next.extLbaBase = scan.extLbaBase := by
            rw [(recordPrim_returns recorded).2]
            rfl
          rw [← base]
          exact followed scanTable next scan' ran
        · rw [if_neg used] at ran
          exact followed scanTable scan scan' ran

/-- A disk with a single table at its end: an extended partition without partitions in it. -/
def emptyExtended : Memory := fun i =>
  if i = 450 then 0x5
  else if 454 ≤ i ∧ i < 458 then wordByte (BitVec.ofNat 32 maxLba) (i - 454)
  else 0

theorem emptyExtended_scan :
    ∃ first, partitionScan emptyExtended 2 0 (Scan.fresh 0) = .ok first ∧
      first.extLbaBase = BitVec.ofNat 32 maxLba := by
  have base : ((partitionScan emptyExtended 2 0 (Scan.fresh 0)).toOption.map Scan.extLbaBase) =
      some (BitVec.ofNat 32 maxLba) := by
    decide +kernel
  cases ran : partitionScan emptyExtended 2 0 (Scan.fresh 0) with
  | error fault =>
      rw [ran] at base
      cases base
  | ok first =>
      rw [ran] at base
      exact ⟨first, rfl, Option.some.inj base⟩

/-- **Scanning depends on the other disk.** What is recorded for a disk is the same after every
other disk if and only if its first sector has no extended entry. -/
theorem partitionScan_independent_iff {channelNo : Nat} {own : Scan}
    (alone : partitionScan disk fuel 0 (Scan.fresh channelNo) = .ok own) :
    (∀ other depth first, partitionScan other depth 0 (Scan.fresh 0) = .ok first →
      ∃ depth' scan, partitionScan disk depth' 0
        ((Scan.fresh channelNo).withBase first.extLbaBase) = .ok scan ∧ scan.hd = own.hd) ↔
      ¬ HasExtended disk := by
  constructor
  · intro independent extended
    obtain ⟨p, followed⟩ := exists_followed extended
    have nonzero : p.startLba ≠ 0 := by
      intro zero
      -- the table of the first sector would lead to itself, with no base set
      have never : ∀ fuel scan scan', scan.extLbaBase = 0 →
          partitionScan disk fuel 0 scan ≠ .ok scan' := by
        intro fuel
        induction fuel with
        | zero =>
            intro scan scan' _ ran
            cases ran
        | succ fuel ih =>
            intro scan scan' unset ran
            obtain ⟨_, -, loop⟩ := except_bind_eq_ok.mp ran
            obtain ⟨start, next, inner, base⟩ := followed _ _ _ loop
            rw [zero, unset] at inner
            rw [unset, if_neg (not_not.mpr rfl), zero] at base
            exact ih start next base inner
      exact never fuel _ own rfl alone
    have onDisk : p.startLba.toNat ≤ maxLba := by
      obtain ⟨_, -, -, loop⟩ := partitionScan_returns alone
      obtain ⟨start, next, inner, -⟩ := followed _ _ _ loop
      obtain ⟨_, -, small, -⟩ := partitionScan_returns inner
      rwa [show (Scan.fresh channelNo).extLbaBase = 0 from rfl,
        show p.startLba + 0 = p.startLba from BitVec.add_zero ..] at small
    -- a base at the end of the disk leads beyond it
    obtain ⟨first, ran, base⟩ := emptyExtended_scan
    obtain ⟨depth, scan, again, -⟩ := independent _ _ _ ran
    obtain ⟨_, -, -, loop⟩ := partitionScan_returns again
    obtain ⟨start, next, inner, -⟩ := followed _ _ _ loop
    obtain ⟨_, -, small, -⟩ := partitionScan_returns inner
    rw [show ((Scan.fresh channelNo).withBase first.extLbaBase).extLbaBase = first.extLbaBase
      from rfl, base] at small
    simp only [maxLba] at onDisk small
    bv_omega
  · intro plain other depth first ran
    refine ⟨fuel, own.withBase first.extLbaBase, ?_, rfl⟩
    rw [partitionScan_withBase plain, alone]
    rfl

end

/-! ## Initialisation -/

/-- The machine as `ide_init` finds it: the number of disks that the BIOS counted, and the disks
by channel and device. -/
structure Machine where
  hdCnt : Byte
  attached : Nat → Nat → Bool
  sectors : Nat → Nat → Memory

/-- `channel_cnt`. -/
def Machine.channelCnt (machine : Machine) : Nat :=
  divRoundUp machine.hdCnt.toNat 2

/-- The variables of `ide.c`. -/
structure IdeState where
  extLbaBase : Word
  pNo : Nat
  lNo : Nat
  /-- `channels[channel_no].devices[dev_no]`. -/
  devices : Nat → Nat → HardDisk

/-- The variables before `ide_init`. -/
def IdeState.boot : IdeState :=
  ⟨0, 0, 0, fun channelNo _ => .blank channelNo⟩

/-- `identify_disk`: the interrupt of a disk that is not there never comes. -/
def identifyDisk (machine : Machine) (channelNo devNo : Nat) : Except Fault Unit :=
  if machine.attached channelNo devNo then return () else .error .diverges

/-- The loop body of `ide_init` for one disk. -/
def initDisk (machine : Machine) (fuel channelNo devNo : Nat) (ide : IdeState) :
    Except Fault IdeState := do
  identifyDisk machine channelNo devNo
  let scan : Scan := ⟨ide.extLbaBase, ide.pNo, ide.lNo, ide.devices channelNo devNo⟩
  let scan ← (if devNo ≠ 0 then partitionScan (machine.sectors channelNo devNo) fuel 0 scan
    else .ok scan)
  let devices := Function.update (ide.devices channelNo) devNo scan.hd
  return ⟨scan.extLbaBase, 0, 0, Function.update ide.devices channelNo devices⟩

/-- The loop body of `ide_init` for one channel; there are two of them. -/
def initChannel (machine : Machine) (fuel channelNo : Nat) (ide : IdeState) :
    Except Fault IdeState :=
  if channelNo < 2 then do
    let ide ← initDisk machine fuel channelNo 0 ide
    initDisk machine fuel channelNo 1 ide
  else
    .error .outOfBounds

/-- The loop of `ide_init` over the first channels. -/
def initChannels (machine : Machine) (fuel : Nat) : Nat → Except Fault IdeState
  | 0 => return .boot
  | channelNo + 1 => do
      let ide ← initChannels machine fuel channelNo
      initChannel machine fuel channelNo ide

/-- `ide_init`. -/
def ideInit (machine : Machine) (fuel : Nat) : Except Fault IdeState := do
  require (machine.hdCnt.toNat > 0)
  initChannels machine fuel machine.channelCnt

section

variable {machine : Machine} {fuel channelNo devNo : Nat} {ide ide' : IdeState}

theorem initDisk_main (ran : initDisk machine fuel channelNo 0 ide = .ok ide') :
    ide' = { ide with pNo := 0, lNo := 0 } := by
  obtain ⟨_, -, ran⟩ := except_bind_eq_ok.mp ran
  obtain ⟨scan, same, ran⟩ := except_bind_eq_ok.mp ran
  rw [if_neg (by decide)] at same
  rw [← Except.ok.inj ran, ← Except.ok.inj same, Function.update_eq_self, Function.update_eq_self]

theorem initDisk_scanned (ran : initDisk machine fuel channelNo 1 ide = .ok ide') :
    ∃ scan, partitionScan (machine.sectors channelNo 1) fuel 0
        ⟨ide.extLbaBase, ide.pNo, ide.lNo, ide.devices channelNo 1⟩ = .ok scan ∧
      ide'.extLbaBase = scan.extLbaBase ∧ ide'.pNo = 0 ∧ ide'.lNo = 0 ∧
      ide'.devices channelNo 1 = scan.hd ∧
      ∀ other, other ≠ channelNo → ide'.devices other = ide.devices other := by
  obtain ⟨_, -, ran⟩ := except_bind_eq_ok.mp ran
  obtain ⟨scan, scanned, ran⟩ := except_bind_eq_ok.mp ran
  rw [if_pos (by decide)] at scanned
  have result := Except.ok.inj ran
  subst result
  refine ⟨scan, scanned, rfl, rfl, rfl, ?_, fun other different => ?_⟩
  · exact congrFun (Function.update_self ..) 1 |>.trans (Function.update_self ..)
  · exact Function.update_of_ne different ..

/-- One channel: its second disk is scanned. -/
theorem initChannel_returns (ran : initChannel machine fuel channelNo ide = .ok ide') :
    channelNo < 2 ∧ ∃ scan, partitionScan (machine.sectors channelNo 1) fuel 0
        ⟨ide.extLbaBase, 0, 0, ide.devices channelNo 1⟩ = .ok scan ∧
      ide'.extLbaBase = scan.extLbaBase ∧ ide'.devices channelNo 1 = scan.hd ∧
      ∀ other, other ≠ channelNo → ide'.devices other = ide.devices other := by
  unfold initChannel at ran
  by_cases inside : channelNo < 2
  · rw [if_pos inside] at ran
    obtain ⟨middle, first, ran⟩ := except_bind_eq_ok.mp ran
    have start := initDisk_main first
    subst start
    obtain ⟨scan, scanned, base, -, -, stored, others⟩ := initDisk_scanned ran
    exact ⟨inside, scan, scanned, base, stored, others⟩
  · rw [if_neg inside] at ran
    cases ran

/-- What a run of `ide_init` recorded: the disk of the first channel is scanned from a fresh
start, and that of the second with the base that the first left. -/
theorem ideInit_returns (ran : ideInit machine fuel = .ok ide) :
    ∃ first, partitionScan (machine.sectors 0 1) fuel 0 (Scan.fresh 0) = .ok first ∧
      ide.devices 0 1 = first.hd ∧ (machine.channelCnt = 1 ∨ machine.channelCnt = 2 ∧
        ∃ second, partitionScan (machine.sectors 1 1) fuel 0
            ((Scan.fresh 1).withBase first.extLbaBase) = .ok second ∧
          ide.devices 1 1 = second.hd) := by
  obtain ⟨_, counted, ran⟩ := except_bind_eq_ok.mp ran
  have positive := require_eq_ok.mp counted
  have some : 1 ≤ machine.channelCnt := by
    unfold Machine.channelCnt divRoundUp
    omega
  generalize machine.channelCnt = channelCnt at ran some
  match channelCnt, some with
  | 1, _ =>
      obtain ⟨_, boot, ran⟩ := except_bind_eq_ok.mp ran
      rw [← Except.ok.inj boot] at ran
      obtain ⟨-, first, scanned, -, stored, -⟩ := initChannel_returns ran
      exact ⟨first, scanned, stored, .inl rfl⟩
  | 2, _ =>
      obtain ⟨middle, before, ran⟩ := except_bind_eq_ok.mp ran
      obtain ⟨_, boot, before⟩ := except_bind_eq_ok.mp before
      rw [← Except.ok.inj boot] at before
      obtain ⟨-, first, scanned, base, stored, blank⟩ := initChannel_returns before
      obtain ⟨-, second, again, -, stored', others⟩ := initChannel_returns ran
      rw [base, blank 1 (by decide)] at again
      refine ⟨first, scanned, ?_, .inr ⟨rfl, second, again, stored'⟩⟩
      rw [others 0 (by decide), stored]
  | n + 3, _ =>
      obtain ⟨_, -, ran⟩ := except_bind_eq_ok.mp ran
      have := (initChannel_returns ran).1
      omega

end

end UKernel.Ide
