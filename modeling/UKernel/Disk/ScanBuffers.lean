import UKernel.Disk.ScanDepth

/-! # The limits of a scan

`partition_scan` with the buffers for the sectors that it reads. The assertion on `p_no` fails for
the fourth primary partition, the return after the eighth logical partition leaves its buffer
allocated, and the tables that led there go on with an index outside the array. A scan of a finite
chain of tables is right exactly for three primary and seven logical partitions at most
(`UKernel.Ide.partitionScan_limits_iff`). Memory for the buffers is there.
-/

namespace UKernel.Ide

open UKernel.Library UKernel.Fs

/-! ## The scan with its buffers -/

/-- A scan, and the number of buffers of `struct boot_sector` that are allocated. -/
structure Held where
  scan : Scan
  buffers : Nat

/-- The same buffers. -/
def Held.withScan (h : Held) (scan : Scan) : Held := { h with scan := scan }

/-- `sys_malloc` of a buffer. -/
def Held.malloc (h : Held) : Held := { h with buffers := h.buffers + 1 }

/-- `sys_free` of a buffer. -/
def Held.free (h : Held) : Held := { h with buffers := h.buffers - 1 }

/-- The loop of `partition_scan` over the entries of a table, which comes to its end (`true`) or
returns from the function. -/
def scanEntriesHeld (scanTable : Word → Held → Except Fault Held) (extLba : Word) :
    List TableEntry → Held → Except Fault (Bool × Held)
  | [], h => return (true, h)
  | p :: rest, h =>
      if p.fsType = 0x5 then
        if h.scan.extLbaBase ≠ 0 then do
          let h ← scanTable (p.startLba + h.scan.extLbaBase) h
          scanEntriesHeld scanTable extLba rest h
        else do
          let h ← scanTable p.startLba (h.withScan { h.scan with extLbaBase := p.startLba })
          scanEntriesHeld scanTable extLba rest h
      else if p.fsType ≠ 0 then
        if extLba = 0 then do
          let scan ← recordPrim extLba p h.scan
          scanEntriesHeld scanTable extLba rest (h.withScan scan)
        else do
          let scan ← recordLogic extLba p h.scan
          -- the buffer is not freed
          if scan.lNo ≥ 8 then return (false, h.withScan scan)
          scanEntriesHeld scanTable extLba rest (h.withScan scan)
      else
        scanEntriesHeld scanTable extLba rest h

/-- `partition_scan` with `sys_malloc` and `sys_free`, to a depth of `fuel` tables. -/
def partitionScanHeld (disk : Memory) : Nat → Word → Held → Except Fault Held
  | 0, _, _ => .error .diverges
  | fuel + 1, extLba, h => do
      let h := h.malloc
      require (extLba.toNat ≤ maxLba)
      let bs := ideRead disk extLba.toNat
      let (ended, h) ← scanEntriesHeld (partitionScanHeld disk fuel) extLba (partitionTable bs) h
      return if ended then h.free else h

/-- The scan of the disk returns, so that no assertion failed and no index was outside an array,
and all buffers are free again. -/
def ScanLimits (disk : Memory) (h : Held) : Prop :=
  ∃ fuel h', partitionScanHeld disk fuel 0 h = .ok h' ∧ h'.buffers = h.buffers

/-! ## The chain of tables -/

/-- The tables that the extended entries of a table lead to, with all that follow from them. -/
def chainEntries (next : Word → Word → Option (List Word)) :
    Word → List TableEntry → Option (List Word)
  | _, [] => some []
  | base, p :: rest =>
      if p.fsType = 0x5 then do
        let base' := if base ≠ 0 then base else p.startLba
        let tables ← next (if base ≠ 0 then p.startLba + base else p.startLba) base'
        let others ← chainEntries next base' rest
        return tables ++ others
      else
        chainEntries next base rest

/-- The tables of a finite chain, if it is not deeper than `depth`. -/
def chain (disk : Memory) : Nat → Word → Word → Option (List Word)
  | 0, _, _ => none
  | depth + 1, lba, base => do
      let tables ← chainEntries (chain disk depth) base (partitionTable (ideRead disk lba.toNat))
      return lba :: tables

/-- An entry describes a partition. -/
def TableEntry.isPartition (p : TableEntry) : Bool := p.fsType ≠ 0x5 ∧ p.fsType ≠ 0

/-- The primary partitions among the entries of a table. -/
def primCount (lba : Word) (entries : List TableEntry) : Nat :=
  if lba = 0 then entries.countP TableEntry.isPartition else 0

/-- The logical partitions among the entries of a table. -/
def logicCount (lba : Word) (entries : List TableEntry) : Nat :=
  if lba = 0 then 0 else entries.countP TableEntry.isPartition

/-- The primary partitions of some tables. -/
def primsOf (disk : Memory) (tables : List Word) : Nat :=
  (tables.map fun lba => primCount lba (partitionTable (ideRead disk lba.toNat))).sum

/-- The logical partitions of some tables. -/
def logicsOf (disk : Memory) (tables : List Word) : Nat :=
  (tables.map fun lba => logicCount lba (partitionTable (ideRead disk lba.toNat))).sum

variable {disk : Memory} {scanTable : Word → Held → Except Fault Held}
  {next : Word → Word → Option (List Word)} {extLba lba base : Word} {p : TableEntry}
  {entries : List TableEntry} {h h' : Held} {tables : List Word} {fuel depth : Nat}

/-- The partitions of some tables are counted table by table. -/
theorem primsOf_append (tables others : List Word) :
    primsOf disk (tables ++ others) = primsOf disk tables + primsOf disk others := by
  unfold primsOf
  rw [List.map_append, List.sum_append]

/-- The logical partitions of some tables are counted table by table. -/
theorem logicsOf_append (tables others : List Word) :
    logicsOf disk (tables ++ others) = logicsOf disk tables + logicsOf disk others := by
  unfold logicsOf
  rw [List.map_append, List.sum_append]

/-! ## One entry -/

/-- An extended entry leads to its table, and then the loop goes on. -/
theorem scanEntriesHeld_extended (extended : p.fsType = 0x5) :
    scanEntriesHeld scanTable extLba (p :: entries) h =
      (scanTable (h.scan.follow p).1 (h.withScan (h.scan.follow p).2) >>=
        scanEntriesHeld scanTable extLba entries) := by
  rw [scanEntriesHeld, if_pos extended, Scan.follow]
  split <;> rfl

/-- A partition of the first table is recorded as a primary one. -/
theorem scanEntriesHeld_prim (is : p.isPartition) :
    scanEntriesHeld scanTable 0 (p :: entries) h =
      (recordPrim 0 p h.scan >>= fun scan =>
        scanEntriesHeld scanTable 0 entries (h.withScan scan)) := by
  have used : p.fsType ≠ 0x5 ∧ p.fsType ≠ 0 := of_decide_eq_true is
  rw [scanEntriesHeld, if_neg used.1, if_pos used.2, if_pos rfl]

/-- A partition of a table further on is recorded as a logical one, and the eighth ends the loop. -/
theorem scanEntriesHeld_logic (is : p.isPartition) (follows : extLba ≠ 0) :
    scanEntriesHeld scanTable extLba (p :: entries) h =
      (recordLogic extLba p h.scan >>= fun scan =>
        if scan.lNo ≥ 8 then pure (false, h.withScan scan)
        else scanEntriesHeld scanTable extLba entries (h.withScan scan)) := by
  have used : p.fsType ≠ 0x5 ∧ p.fsType ≠ 0 := of_decide_eq_true is
  rw [scanEntriesHeld, if_neg used.1, if_pos used.2, if_neg follows]

/-- An unused entry is passed over. -/
theorem scanEntriesHeld_unused (unused : p.fsType = 0) :
    scanEntriesHeld scanTable extLba (p :: entries) h =
      scanEntriesHeld scanTable extLba entries h := by
  rw [scanEntriesHeld, if_neg (by rw [unused]; decide), if_neg (not_not.mpr unused)]

/-- An entry is extended, describes a partition or is unused. -/
theorem TableEntry.kinds (p : TableEntry) :
    p.fsType = 0x5 ∨ p.isPartition = true ∨ p.fsType = 0 := by
  by_cases extended : p.fsType = 0x5
  · exact .inl extended
  · by_cases unused : p.fsType = 0
    · exact .inr (.inr unused)
    · exact .inr (.inl (decide_eq_true ⟨extended, unused⟩))

/-- The tables behind an extended entry come before those of the entries behind it. -/
theorem chainEntries_extended {scan : Scan} (extended : p.fsType = 0x5) :
    chainEntries next scan.extLbaBase (p :: entries) =
      (next (scan.follow p).1 (scan.follow p).2.extLbaBase).bind fun tables =>
        (chainEntries next (scan.follow p).2.extLbaBase entries).bind fun others =>
          some (tables ++ others) := by
  rw [chainEntries, if_pos extended, Scan.follow]
  by_cases known : scan.extLbaBase ≠ 0
  · simp only [if_pos known]
    rfl
  · simp only [if_neg known]
    rfl

/-- A table comes first, and then those that its entries lead to. -/
theorem chain_succ : chain disk (depth + 1) lba base =
    (chainEntries (chain disk depth) base (partitionTable (ideRead disk lba.toNat))).map
      (lba :: ·) := by
  rw [chain]
  cases chainEntries (chain disk depth) base (partitionTable (ideRead disk lba.toNat)) <;> rfl

/-- An entry that is not extended leads to no table. -/
theorem chainEntries_plain (plain : p.fsType ≠ 0x5) :
    chainEntries next base (p :: entries) = chainEntries next base entries := by
  rw [chainEntries, if_neg plain]

/-! ## The buffers change nothing -/

/-- The buffers do not matter for what the loop records. -/
theorem scanEntriesHeld_scan {scanTable' : Word → Scan → Except Fault Scan}
    (same : ∀ lba h, (scanTable lba h).map Held.scan = scanTable' lba h.scan) :
    (scanEntriesHeld scanTable extLba entries h).map (fun result => result.2.scan) =
      scanEntries scanTable' extLba entries h.scan := by
  induction entries generalizing h with
  | nil => rfl
  | cons p rest ih =>
      rcases p.kinds with extended | is | unused
      · rw [scanEntriesHeld_extended extended, scanEntries_extended extended]
        have inner := same (h.scan.follow p).1 (h.withScan (h.scan.follow p).2)
        change _ = scanTable' (h.scan.follow p).1 (h.scan.follow p).2 at inner
        rw [← inner]
        cases scanTable (h.scan.follow p).1 (h.withScan (h.scan.follow p).2) with
        | error fault => rfl
        | ok middle => exact ih
      · have used : p.fsType ≠ 0x5 ∧ p.fsType ≠ 0 := of_decide_eq_true is
        rw [scanEntries, if_neg used.1, if_pos used.2]
        by_cases first : extLba = 0
        · subst first
          rw [scanEntriesHeld_prim is, if_pos rfl]
          cases recordPrim 0 p h.scan with
          | error fault => rfl
          | ok scan => exact ih
        · rw [scanEntriesHeld_logic is first, if_neg first]
          cases recordLogic extLba p h.scan with
          | error fault => rfl
          | ok scan =>
              rw [except_ok_bind, except_ok_bind]
              by_cases full : scan.lNo ≥ 8
              · rw [if_pos full, if_pos full]
                rfl
              · rw [if_neg full, if_neg full]
                exact ih
      · rw [scanEntriesHeld_unused unused, scanEntries, if_neg (by rw [unused]; decide),
          if_neg (not_not.mpr unused)]
        exact ih

/-- A call takes a buffer, goes through its table, and gives the buffer back unless it returned
early. -/
theorem partitionScanHeld_succ (small : lba.toNat ≤ maxLba) :
    partitionScanHeld disk (fuel + 1) lba h =
      (scanEntriesHeld (partitionScanHeld disk fuel) lba
        (partitionTable (ideRead disk lba.toNat)) h.malloc).map fun result =>
          if result.1 then result.2.free else result.2 := by
  rw [partitionScanHeld, require_of small, except_ok_bind]
  dsimp only
  cases scanEntriesHeld (partitionScanHeld disk fuel) lba
    (partitionTable (ideRead disk lba.toNat)) h.malloc with
  | error fault => rfl
  | ok result => rfl

/-- The scan is that of `partitionScan`. -/
theorem partitionScanHeld_scan :
    (partitionScanHeld disk fuel lba h).map Held.scan = partitionScan disk fuel lba h.scan := by
  induction fuel generalizing lba h with
  | zero => rfl
  | succ fuel ih =>
      by_cases small : lba.toNat ≤ maxLba
      · have loop := @scanEntriesHeld_scan (partitionScanHeld disk fuel) lba
          (partitionTable (ideRead disk lba.toNat)) h.malloc (partitionScan disk fuel)
          fun _ _ => ih
        rw [partitionScanHeld_succ small, partitionScan_succ small]
        refine Eq.trans ?_ loop
        cases scanEntriesHeld (partitionScanHeld disk fuel) lba
          (partitionTable (ideRead disk lba.toNat)) h.malloc with
        | error fault => rfl
        | ok result =>
            obtain ⟨ended, h'⟩ := result
            cases ended <;> rfl
      · have stops : require (lba.toNat ≤ maxLba) = .error .assertion := if_neg small
        rw [partitionScanHeld, partitionScan, stops]
        rfl

/-! ## What a scan may do -/

/-- The next partition has its place. -/
structure Within (h : Held) : Prop where
  pNo : h.scan.pNo ≤ 3
  lNo : h.scan.lNo ≤ 7

/-- A scan recorded so many partitions, and its buffers are free again. -/
structure Adds (h h' : Held) (prims logics : Nat) : Prop where
  base : h.scan.extLbaBase ≠ 0 → h'.scan.extLbaBase = h.scan.extLbaBase
  pNo : h'.scan.pNo = h.scan.pNo + prims
  lNo : h'.scan.lNo = h.scan.lNo + logics
  buffers : h'.buffers = h.buffers

/-- All tables are on the disk. -/
def OnDisk (tables : List Word) : Prop := ∀ lba ∈ tables, lba.toNat ≤ maxLba

/-- While the base is not set, the first extended entry sets it. -/
def SetsBase (base : Word) (entries : List TableEntry) : Prop :=
  base = 0 → ∀ p, entries.find? (fun p => decide (p.fsType = 0x5)) = some p → p.startLba ≠ 0

/-- A base that is known stays. -/
theorem setsBase_of_ne (known : base ≠ 0) : SetsBase base entries :=
  fun zero => absurd zero known

/-- Behind an extended entry the base is known. -/
theorem SetsBase.follow_base {scan : Scan} (sets : SetsBase scan.extLbaBase (p :: entries))
    (extended : p.fsType = 0x5) :
    (scan.follow p).2.extLbaBase ≠ 0 ∧
      (scan.extLbaBase ≠ 0 → (scan.follow p).2.extLbaBase = scan.extLbaBase) := by
  rw [Scan.follow]
  by_cases known : scan.extLbaBase ≠ 0
  · rw [if_pos known]
    exact ⟨known, fun _ => rfl⟩
  · rw [if_neg known]
    refine ⟨sets (not_not.mp known) p ?_, fun other => absurd other known⟩
    exact List.find?_cons_of_pos (by simpa using extended)

/-- An entry that is not extended does not set the base. -/
theorem SetsBase.tail (sets : SetsBase base (p :: entries)) (plain : p.fsType ≠ 0x5) :
    SetsBase base entries := by
  intro zero q found
  apply sets zero q
  rwa [List.find?_cons_of_neg (by simpa using plain)]

/-- Following an extended entry records no partition. -/
theorem follow_counts (h : Held) (p : TableEntry) :
    (h.scan.follow p).2.pNo = h.scan.pNo ∧ (h.scan.follow p).2.lNo = h.scan.lNo := by
  rw [Scan.follow]
  split <;> exact ⟨rfl, rfl⟩

/-- An entry that is no partition is not counted. -/
theorem primCount_plain (lba : Word) (plain : ¬ p.isPartition) :
    primCount lba (p :: entries) = primCount lba entries := by
  unfold primCount
  rw [List.countP_cons_of_neg plain]

/-- An entry that is no partition is not counted as a logical one. -/
theorem logicCount_plain (lba : Word) (plain : ¬ p.isPartition) :
    logicCount lba (p :: entries) = logicCount lba entries := by
  unfold logicCount
  rw [List.countP_cons_of_neg plain]

/-- The first entry is counted beside the others. -/
theorem primCount_cons (lba : Word) :
    primCount lba (p :: entries) = primCount lba entries + primCount lba [p] := by
  unfold primCount
  split
  · rw [List.countP_cons, List.countP_cons, List.countP_nil, Nat.zero_add]
  · rfl

/-- The entries of a table are counted one by one, the logical ones. -/
theorem logicCount_cons (lba : Word) :
    logicCount lba (p :: entries) = logicCount lba entries + logicCount lba [p] := by
  unfold logicCount
  split
  · rfl
  · rw [List.countP_cons, List.countP_cons, List.countP_nil, Nat.zero_add]

/-- A partition of the first table counts as a primary one. -/
theorem count_prim (is : p.isPartition) : primCount 0 [p] = 1 ∧ logicCount 0 [p] = 0 := by
  unfold primCount logicCount
  rw [if_pos rfl, if_pos rfl, List.countP_cons_of_pos is]
  exact ⟨rfl, rfl⟩

/-- A partition of a table further on counts as a logical one. -/
theorem count_logic (follows : lba ≠ 0) (is : p.isPartition) :
    primCount lba [p] = 0 ∧ logicCount lba [p] = 1 := by
  unfold primCount logicCount
  rw [if_neg follows, if_neg follows, List.countP_cons_of_pos is]
  exact ⟨rfl, rfl⟩

/-- No entry, no partition. -/
theorem count_nil (lba : Word) : primCount lba [] = 0 ∧ logicCount lba [] = 0 := by
  unfold primCount logicCount
  constructor <;> split <;> rfl

/-- An extended entry is no partition. -/
theorem not_isPartition_of_extended (extended : p.fsType = 0x5) : ¬ p.isPartition :=
  fun is => (of_decide_eq_true is).1 extended

/-- An unused entry is no partition. -/
theorem not_isPartition_of_unused (unused : p.fsType = 0) : ¬ p.isPartition :=
  fun is => (of_decide_eq_true is).2 unused

/-- An entry that is not extended is counted, and leaves a place for the next partition. -/
structure Counts (extLba : Word) (p : TableEntry) (h : Held) (scan : Scan) : Prop where
  base : scan.extLbaBase = h.scan.extLbaBase
  pNo : scan.pNo = h.scan.pNo + primCount extLba [p]
  lNo : scan.lNo = h.scan.lNo + logicCount extLba [p]
  within : Within h → Within (h.withScan scan)

/-- There is a place for a partition of the entry and for one more. -/
def Fits (extLba : Word) (p : TableEntry) (h : Held) : Prop :=
  h.scan.pNo + primCount extLba [p] ≤ 3 ∧ h.scan.lNo + logicCount extLba [p] ≤ 7

/-- A primary partition is recorded, or it is one too many. -/
theorem recordPrim_step (is : p.isPartition) :
    (¬ Fits 0 p h ∧ ∃ fault, recordPrim 0 p h.scan = .error fault) ∨
      ∃ scan, recordPrim 0 p h.scan = .ok scan ∧ Counts 0 p h scan := by
  obtain ⟨prims, logics⟩ := count_prim is
  cases ran : recordPrim 0 p h.scan with
  | error fault =>
      refine .inl ⟨fun fits => ?_, fault, rfl⟩
      have few : h.scan.pNo + 1 ≤ 3 := prims ▸ fits.1
      rw [recordPrim, if_pos (by omega)] at ran
      dsimp only at ran
      rw [require_of (show (h.scan.addPrim _).pNo < 4 from Nat.lt_succ_of_le few)] at ran
      cases ran
  | ok scan =>
      obtain ⟨few, rfl⟩ := recordPrim_returns ran
      refine .inr ⟨_, rfl, rfl, ?_, ?_, fun within => ⟨Nat.lt_succ_iff.mp few, within.lNo⟩⟩
      · rw [prims]
        rfl
      · rw [logics]
        rfl

/-- A logical partition is recorded, or it is one too many. -/
theorem recordLogic_step (follows : extLba ≠ 0) (is : p.isPartition) :
    (¬ Fits extLba p h ∧ ((∃ fault, recordLogic extLba p h.scan = .error fault) ∨
      ∃ scan, recordLogic extLba p h.scan = .ok scan ∧ 8 ≤ scan.lNo ∧
        scan.extLbaBase = h.scan.extLbaBase)) ∨
      ∃ scan, recordLogic extLba p h.scan = .ok scan ∧ scan.lNo < 8 ∧
        Counts extLba p h scan := by
  obtain ⟨prims, logics⟩ := count_logic follows is
  cases ran : recordLogic extLba p h.scan with
  | error fault =>
      refine .inl ⟨fun fits => ?_, .inl ⟨fault, rfl⟩⟩
      have few : h.scan.lNo + 1 ≤ 7 := logics ▸ fits.2
      rw [recordLogic, if_pos (by omega)] at ran
      cases ran
  | ok scan =>
      obtain ⟨-, rfl⟩ := recordLogic_returns ran
      by_cases full : 8 ≤ h.scan.lNo + 1
      · refine .inl ⟨fun fits => ?_, .inr ⟨_, rfl, full, rfl⟩⟩
        have few : h.scan.lNo + 1 ≤ 7 := logics ▸ fits.2
        omega
      · refine .inr ⟨_, rfl, Nat.not_le.mp full, rfl, ?_, ?_, fun within => ⟨within.pNo, ?_⟩⟩
        · rw [prims]
          rfl
        · rw [logics]
          rfl
        · exact Nat.le_of_lt_succ (Nat.not_le.mp full)

/-- **One entry.** An entry that is not extended stops the machine or the loop, for which there are
too many partitions, or it is counted and the loop goes on. -/
theorem scanEntriesHeld_plain (plain : p.fsType ≠ 0x5) :
    (¬ Fits extLba p h ∧
      ((∃ fault, ∀ scanTable rest,
        scanEntriesHeld scanTable extLba (p :: rest) h = .error fault) ∨
      ∃ scan, scan.extLbaBase = h.scan.extLbaBase ∧ ∀ scanTable rest,
        scanEntriesHeld scanTable extLba (p :: rest) h = .ok (false, h.withScan scan))) ∨
    ∃ scan, Counts extLba p h scan ∧ ∀ scanTable rest,
      scanEntriesHeld scanTable extLba (p :: rest) h =
        scanEntriesHeld scanTable extLba rest (h.withScan scan) := by
  rcases p.kinds with extended | is | unused
  · exact absurd extended plain
  · by_cases first : extLba = 0
    · subst first
      rcases @recordPrim_step p h is with ⟨many, fault, ran⟩ | ⟨scan, ran, counts⟩
      · refine .inl ⟨many, .inl ⟨fault, fun scanTable rest => ?_⟩⟩
        rw [scanEntriesHeld_prim is, ran]
        rfl
      · refine .inr ⟨scan, counts, fun scanTable rest => ?_⟩
        rw [scanEntriesHeld_prim is, ran]
        rfl
    · rcases @recordLogic_step extLba p h first is with
        ⟨many, ⟨fault, ran⟩ | ⟨scan, ran, full, base⟩⟩ | ⟨scan, ran, few, counts⟩
      · refine .inl ⟨many, .inl ⟨fault, fun scanTable rest => ?_⟩⟩
        rw [scanEntriesHeld_logic is first, ran]
        rfl
      · refine .inl ⟨many, .inr ⟨scan, base, fun scanTable rest => ?_⟩⟩
        rw [scanEntriesHeld_logic is first, ran, except_ok_bind, if_pos full]
        rfl
      · refine .inr ⟨scan, counts, fun scanTable rest => ?_⟩
        rw [scanEntriesHeld_logic is first, ran, except_ok_bind, if_neg (Nat.not_le.mpr few)]
  · have none := not_isPartition_of_unused unused
    refine .inr ⟨h.scan, ⟨rfl, ?_, ?_, id⟩, fun scanTable rest => scanEntriesHeld_unused unused⟩
    · rw [primCount_plain _ none, (count_nil extLba).1]
      rfl
    · rw [logicCount_plain _ none, (count_nil extLba).2]
      rfl

/-- The first entry is counted before the others. -/
theorem Adds.counted {scan : Scan} {prims logics : Nat} (counts : Counts extLba p h scan)
    (added : Adds (h.withScan scan) h' (primCount extLba entries + prims)
      (logicCount extLba entries + logics)) :
    Adds h h' (primCount extLba (p :: entries) + prims)
      (logicCount extLba (p :: entries) + logics) := by
  refine ⟨fun known => ?_, ?_, ?_, added.buffers⟩
  · exact (added.base (show scan.extLbaBase ≠ 0 from counts.base ▸ known)).trans counts.base
  · have pNo : h'.scan.pNo = scan.pNo + (primCount extLba entries + prims) := added.pNo
    rw [pNo, counts.pNo, @primCount_cons p entries]
    omega
  · have lNo : h'.scan.lNo = scan.lNo + (logicCount extLba entries + logics) := added.lNo
    rw [lNo, counts.lNo, @logicCount_cons p entries]
    omega

/-- The tables of an extended entry come before the other entries. -/
theorem Adds.followed {middle : Held} {others : List Word} (extended : p.fsType = 0x5)
    (sets : SetsBase h.scan.extLbaBase (p :: entries))
    (first : Adds (h.withScan (h.scan.follow p).2) middle (primsOf disk tables)
      (logicsOf disk tables))
    (rest : Adds middle h' (primCount extLba entries + primsOf disk others)
      (logicCount extLba entries + logicsOf disk others)) :
    Adds h h' (primCount extLba (p :: entries) + primsOf disk (tables ++ others))
      (logicCount extLba (p :: entries) + logicsOf disk (tables ++ others)) := by
  have plain := not_isPartition_of_extended extended
  obtain ⟨known, keeps⟩ := sets.follow_base extended
  obtain ⟨samePrims, sameLogics⟩ := follow_counts h p
  have base : middle.scan.extLbaBase = (h.scan.follow p).2.extLbaBase := first.base known
  refine ⟨fun other => ?_, ?_, ?_, rest.buffers.trans first.buffers⟩
  · rw [rest.base (base ▸ known), base, keeps other]
  · have pNo : middle.scan.pNo = (h.scan.follow p).2.pNo + primsOf disk tables := first.pNo
    rw [primCount_plain _ plain, primsOf_append, rest.pNo]
    omega
  · have lNo : middle.scan.lNo = (h.scan.follow p).2.lNo + logicsOf disk tables := first.lNo
    rw [logicCount_plain _ plain, logicsOf_append, rest.lNo]
    omega

/-! ## Few partitions -/

/-- The scan of a table returns when there are few partitions. -/
def ReturnsWhenFew (disk : Memory) (scanTable : Word → Held → Except Fault Held)
    (next : Word → Word → Option (List Word)) : Prop :=
  ∀ lba h tables, h.scan.extLbaBase ≠ 0 → next lba h.scan.extLbaBase = some tables →
    OnDisk tables → h.scan.pNo + primsOf disk tables ≤ 3 →
    h.scan.lNo + logicsOf disk tables ≤ 7 →
    ∃ h', scanTable lba h = .ok h' ∧ Adds h h' (primsOf disk tables) (logicsOf disk tables)

/-- **The loop over a table**, while there is room for all of the partitions. -/
theorem scanEntriesHeld_few (inner : ReturnsWhenFew disk scanTable next)
    (sets : SetsBase h.scan.extLbaBase entries)
    (finite : chainEntries next h.scan.extLbaBase entries = some tables)
    (onDisk : OnDisk tables)
    (prims : h.scan.pNo + (primCount extLba entries + primsOf disk tables) ≤ 3)
    (logics : h.scan.lNo + (logicCount extLba entries + logicsOf disk tables) ≤ 7) :
    ∃ h', scanEntriesHeld scanTable extLba entries h = .ok (true, h') ∧
      Adds h h' (primCount extLba entries + primsOf disk tables)
        (logicCount extLba entries + logicsOf disk tables) := by
  induction entries generalizing h tables with
  | nil =>
      cases finite
      refine ⟨h, rfl, fun _ => rfl, ?_, ?_, rfl⟩
      · rw [(count_nil extLba).1]
        rfl
      · rw [(count_nil extLba).2]
        rfl
  | cons p rest ih =>
      by_cases extended : p.fsType = 0x5
      · rw [chainEntries_extended extended] at finite
        obtain ⟨first, here, finite⟩ := Option.bind_eq_some_iff.mp finite
        obtain ⟨others, later, same⟩ := Option.bind_eq_some_iff.mp finite
        cases same
        have plain := not_isPartition_of_extended extended
        have known := (sets.follow_base extended).1
        obtain ⟨samePrims, sameLogics⟩ := follow_counts h p
        rw [primCount_plain _ plain, primsOf_append] at prims
        rw [logicCount_plain _ plain, logicsOf_append] at logics
        obtain ⟨middle, ran, added⟩ := inner _ (h.withScan (h.scan.follow p).2) first known here
          (fun lba member => onDisk lba (List.mem_append_left others member))
          (by change (h.scan.follow p).2.pNo + _ ≤ 3; omega)
          (by change (h.scan.follow p).2.lNo + _ ≤ 7; omega)
        have base : middle.scan.extLbaBase = (h.scan.follow p).2.extLbaBase := added.base known
        have pNo : middle.scan.pNo = (h.scan.follow p).2.pNo + primsOf disk first := added.pNo
        have lNo : middle.scan.lNo = (h.scan.follow p).2.lNo + logicsOf disk first := added.lNo
        rw [← base] at later known
        obtain ⟨h', loop, rest⟩ := @ih middle others (setsBase_of_ne known) later
          (fun lba member => onDisk lba (List.mem_append_right first member))
          (by omega) (by omega)
        refine ⟨h', ?_, added.followed extended sets rest⟩
        rw [scanEntriesHeld_extended extended, ran]
        exact loop
      · rw [chainEntries_plain extended] at finite
        rw [primCount_cons] at prims
        rw [logicCount_cons] at logics
        rcases @scanEntriesHeld_plain extLba p h extended with
          ⟨many, -⟩ | ⟨scan, counts, goes⟩
        · exact absurd ⟨by omega, by omega⟩ many
        · have pNo := counts.pNo
          have lNo := counts.lNo
          obtain ⟨h', loop, added⟩ := @ih (h.withScan scan) tables
            (counts.base ▸ sets.tail extended) (counts.base ▸ finite) onDisk
            (by change scan.pNo + _ ≤ 3; omega) (by change scan.lNo + _ ≤ 7; omega)
          exact ⟨h', (goes ..).trans loop, added.counted counts⟩

/-- One table with all that follow. -/
theorem partitionScanHeld_few_succ
    (inner : ReturnsWhenFew disk (partitionScanHeld disk depth) (chain disk depth))
    (sets : SetsBase h.scan.extLbaBase (partitionTable (ideRead disk lba.toNat)))
    (finite : chain disk (depth + 1) lba h.scan.extLbaBase = some tables)
    (onDisk : OnDisk tables) (prims : h.scan.pNo + primsOf disk tables ≤ 3)
    (logics : h.scan.lNo + logicsOf disk tables ≤ 7) :
    ∃ h', partitionScanHeld disk (depth + 1) lba h = .ok h' ∧
      Adds h h' (primsOf disk tables) (logicsOf disk tables) := by
  rw [chain_succ] at finite
  obtain ⟨others, follow, rfl⟩ := Option.map_eq_some_iff.mp finite
  obtain ⟨h', loop, added⟩ := @scanEntriesHeld_few disk _ _ lba _ h.malloc others inner sets follow
    (fun lba' member => onDisk lba' (List.mem_cons_of_mem lba member)) prims logics
  refine ⟨h'.free, ?_, added.base, added.pNo, added.lNo, ?_⟩
  · rw [partitionScanHeld_succ (onDisk lba List.mem_cons_self), loop]
    rfl
  · change h'.buffers - 1 = h.buffers
    rw [added.buffers]
    rfl

/-- A scan that finds few enough partitions returns with all of them. -/
theorem partitionScanHeld_few :
    ReturnsWhenFew disk (partitionScanHeld disk depth) (chain disk depth) := by
  induction depth with
  | zero =>
      intro lba h tables _ finite
      cases finite
  | succ depth ih =>
      intro lba h tables known finite onDisk prims logics
      exact partitionScanHeld_few_succ ih (setsBase_of_ne known) finite onDisk prims logics

/-! ## Many partitions -/

/-- A scan keeps a base that is set and the buffers that were allocated. -/
structure Kept (h h' : Held) : Prop where
  base : h.scan.extLbaBase ≠ 0 → h'.scan.extLbaBase = h.scan.extLbaBase
  buffers : h.buffers ≤ h'.buffers

/-- If a scan that returned freed its buffers, there were few partitions. -/
def Few (disk : Memory) (tables : Option (List Word)) (prims logics : Nat) (h h' : Held) : Prop :=
  Within h → h'.buffers = h.buffers → ∀ lbas ∈ tables,
    OnDisk lbas ∧ Within h' ∧ Adds h h' (prims + primsOf disk lbas) (logics + logicsOf disk lbas)

/-- What two steps keep, one after the other. -/
theorem Kept.trans {middle : Held} (first : Kept h middle) (second : Kept middle h') :
    Kept h h' := by
  refine ⟨fun known => ?_, first.buffers.trans second.buffers⟩
  have same := first.base known
  exact (second.base (same ▸ known)).trans same

/-- A partition is recorded, and the base and the buffers are kept. -/
theorem Kept.of_base {scan : Scan} (base : scan.extLbaBase = h.scan.extLbaBase) :
    Kept h (h.withScan scan) := ⟨fun _ => base, le_rfl⟩

/-- One partition more was found. -/
theorem Few.counted {scan : Scan} {chained : Option (List Word)} (counts : Counts extLba p h scan)
    (few : Few disk chained (primCount extLba entries) (logicCount extLba entries)
      (h.withScan scan) h') :
    Few disk chained (primCount extLba (p :: entries)) (logicCount extLba (p :: entries)) h h' := by
  intro fits freed lbas member
  obtain ⟨onDisk, fits', added⟩ := few (counts.within fits) freed lbas member
  exact ⟨onDisk, fits', added.counted counts⟩

/-- What the scans of the tables that follow must satisfy. -/
def FewWhenReturns (disk : Memory) (scanTable : Word → Held → Except Fault Held)
    (next : Word → Word → Option (List Word)) : Prop :=
  ∀ lba h h', h.scan.extLbaBase ≠ 0 → scanTable lba h = .ok h' →
    Kept h h' ∧ Few disk (next lba h.scan.extLbaBase) 0 0 h h'

/-- **The loop over a table**, when it returned: unless it ended early, there were few enough
partitions. -/
theorem scanEntriesHeld_returns {ended : Bool} (inner : FewWhenReturns disk scanTable next)
    (sets : SetsBase h.scan.extLbaBase entries)
    (ran : scanEntriesHeld scanTable extLba entries h = .ok (ended, h')) :
    Kept h h' ∧ (ended = true → Few disk (chainEntries next h.scan.extLbaBase entries)
      (primCount extLba entries) (logicCount extLba entries) h h') := by
  induction entries generalizing h with
  | nil =>
      cases ran
      refine ⟨⟨fun _ => rfl, le_rfl⟩, fun _ within _ lbas member => ?_⟩
      cases member
      refine ⟨(fun _ member => nomatch member), within, fun _ => rfl, ?_, ?_, rfl⟩
      · rw [(count_nil extLba).1]
        rfl
      · rw [(count_nil extLba).2]
        rfl
  | cons p rest ih =>
      by_cases extended : p.fsType = 0x5
      · rw [scanEntriesHeld_extended extended] at ran
        obtain ⟨middle, here, loop⟩ := except_bind_eq_ok.mp ran
        obtain ⟨known, keeps⟩ := sets.follow_base extended
        obtain ⟨samePrims, sameLogics⟩ := follow_counts h p
        obtain ⟨kept, few⟩ := inner _ _ _ known here
        have base : middle.scan.extLbaBase = (h.scan.follow p).2.extLbaBase := kept.base known
        have opened : Kept h (h.withScan (h.scan.follow p).2) := ⟨keeps, le_rfl⟩
        have before := opened.trans kept
        obtain ⟨keptRest, fewRest⟩ := ih (setsBase_of_ne (base ▸ known)) loop
        refine ⟨before.trans keptRest, fun finished within freed lbas member => ?_⟩
        have freedFirst : middle.buffers = h.buffers :=
          le_antisymm (keptRest.buffers.trans freed.le) before.buffers
        have freedRest : h'.buffers = middle.buffers := freed.trans freedFirst.symm
        rw [Option.mem_def, chainEntries_extended extended] at member
        obtain ⟨first, chained, member⟩ := Option.bind_eq_some_iff.mp member
        obtain ⟨others, later, same⟩ := Option.bind_eq_some_iff.mp member
        cases same
        have withinOpened : Within (h.withScan (h.scan.follow p).2) :=
          ⟨samePrims.trans_le within.pNo, sameLogics.trans_le within.lNo⟩
        obtain ⟨onDisk, withinMiddle, added⟩ := few withinOpened freedFirst first chained
        rw [← base] at later
        obtain ⟨onDiskRest, withinLast, addedRest⟩ :=
          fewRest finished withinMiddle freedRest others later
        rw [Nat.zero_add, Nat.zero_add] at added
        refine ⟨fun lba member => ?_, withinLast, added.followed extended sets addedRest⟩
        rcases List.mem_append.mp member with member | member
        · exact onDisk lba member
        · exact onDiskRest lba member
      · rw [chainEntries_plain extended]
        rcases @scanEntriesHeld_plain extLba p h extended with
          ⟨-, ⟨fault, stops⟩ | ⟨scan, base, returns⟩⟩ | ⟨scan, counts, goes⟩
        · rw [stops] at ran
          cases ran
        · rw [returns] at ran
          cases ran
          exact ⟨Kept.of_base base, fun finished => nomatch finished⟩
        · rw [goes] at ran
          obtain ⟨kept, few⟩ := @ih (h.withScan scan) (counts.base ▸ sets.tail extended) ran
          refine ⟨(Kept.of_base counts.base).trans kept, fun finished => ?_⟩
          rw [← counts.base]
          exact (few finished).counted counts

/-- The table that a scan opens, with its buffer. -/
theorem few_of_loop {ended : Bool} {others : Option (List Word)} {opened closed : Held}
    (small : lba.toNat ≤ maxLba) (start : opened = h.malloc)
    (loop : Kept opened closed ∧ (ended = true → Few disk others
      (primCount lba (partitionTable (ideRead disk lba.toNat)))
      (logicCount lba (partitionTable (ideRead disk lba.toNat))) opened closed)) :
    Kept h (if ended then closed.free else closed) ∧
      Few disk (others.map (lba :: ·)) 0 0 h (if ended then closed.free else closed) := by
  subst start
  obtain ⟨kept, few⟩ := loop
  have more : h.buffers + 1 ≤ closed.buffers := kept.buffers
  cases ended with
  | false =>
      refine ⟨⟨kept.base, Nat.le_of_succ_le more⟩, fun _ freed => ?_⟩
      change closed.buffers = h.buffers at freed
      omega
  | true =>
      refine ⟨⟨kept.base, Nat.le_sub_one_of_lt more⟩, fun within freed lbas member => ?_⟩
      change closed.buffers - 1 = h.buffers at freed
      obtain ⟨rest, chained, rfl⟩ := Option.map_eq_some_iff.mp member
      obtain ⟨onDisk, withinClosed, added⟩ := few rfl ⟨within.pNo, within.lNo⟩
        (show closed.buffers = h.buffers + 1 by omega) rest chained
      refine ⟨fun lba' member => ?_, ⟨withinClosed.pNo, withinClosed.lNo⟩, added.base, ?_, ?_,
        freed⟩
      · rcases List.mem_cons.mp member with rfl | member
        · exact small
        · exact onDisk lba' member
      · rw [Nat.zero_add]
        exact added.pNo
      · rw [Nat.zero_add]
        exact added.lNo

theorem partitionScanHeld_loop (ran : partitionScanHeld disk (fuel + 1) lba h = .ok h') :
    lba.toNat ≤ maxLba ∧ ∃ ended closed, scanEntriesHeld (partitionScanHeld disk fuel) lba
        (partitionTable (ideRead disk lba.toNat)) h.malloc = .ok (ended, closed) ∧
      h' = if ended then closed.free else closed := by
  by_cases small : lba.toNat ≤ maxLba
  · rw [partitionScanHeld_succ small] at ran
    cases loop : scanEntriesHeld (partitionScanHeld disk fuel) lba
        (partitionTable (ideRead disk lba.toNat)) h.malloc with
    | error fault =>
        rw [loop] at ran
        cases ran
    | ok result =>
        rw [loop] at ran
        exact ⟨small, result.1, result.2, rfl, (Except.ok.inj ran).symm⟩
  · have stops : require (lba.toNat ≤ maxLba) = .error .assertion := if_neg small
    rw [partitionScanHeld, stops] at ran
    cases ran

/-- One table with all that follow. -/
theorem partitionScanHeld_returns_succ
    (inner : ∀ depth, FewWhenReturns disk (partitionScanHeld disk fuel) (chain disk depth))
    (sets : SetsBase h.scan.extLbaBase (partitionTable (ideRead disk lba.toNat)))
    (ran : partitionScanHeld disk (fuel + 1) lba h = .ok h') :
    Kept h h' ∧ Few disk (chain disk depth lba h.scan.extLbaBase) 0 0 h h' := by
  obtain ⟨small, ended, closed, loop, rfl⟩ := partitionScanHeld_loop ran
  have start : SetsBase h.malloc.scan.extLbaBase
    (partitionTable (ideRead disk lba.toNat)) := sets
  cases depth with
  | zero =>
      have result := few_of_loop small rfl (scanEntriesHeld_returns (inner 0) start loop)
      exact ⟨result.1, fun _ _ lbas member => nomatch member⟩
  | succ depth =>
      rw [chain_succ]
      exact few_of_loop small rfl (scanEntriesHeld_returns (inner depth) start loop)

/-- A scan that returned with all of its buffers given back found few enough partitions. -/
theorem partitionScanHeld_returns :
    FewWhenReturns disk (partitionScanHeld disk fuel) (chain disk depth) := by
  induction fuel generalizing depth with
  | zero =>
      intro lba h h' _ ran
      cases ran
  | succ fuel ih =>
      intro lba h h' known ran
      exact partitionScanHeld_returns_succ (fun _ => ih) (setsBase_of_ne known) ran

/-! ## The condition -/

theorem chainEntries_self {next : Word → Word → Option (List Word)}
    (found : entries.find? (fun p => decide (p.fsType = 0x5)) = some p) (start : p.startLba = 0)
    (endless : next 0 0 = none) : chainEntries next 0 entries = none := by
  induction entries with
  | nil => cases found
  | cons q rest ih =>
      by_cases extended : q.fsType = 0x5
      · rw [List.find?_cons_of_pos (by simpa using extended)] at found
        cases found
        rw [chainEntries, if_pos extended]
        simp only [start, ne_eq, not_true_eq_false, if_false, endless]
        rfl
      · rw [List.find?_cons_of_neg (by simpa using extended)] at found
        rw [chainEntries_plain extended]
        exact ih found

/-- A finite chain does not begin with a table that leads to itself. -/
theorem setsBase_of_chain (finite : chain disk depth 0 base = some tables) :
    SetsBase base (partitionTable (ideRead disk 0)) := by
  rintro rfl p found start
  have endless : ∀ depth, chain disk depth 0 0 = none := by
    intro depth
    induction depth with
    | zero => rfl
    | succ depth ih =>
        rw [chain_succ]
        exact congrArg (Option.map _) (chainEntries_self found start ih)
  rw [endless] at finite
  cases finite

/-- **The limits of a scan.** The scan of a disk with a finite chain of tables fails no assertion,
stores inside the arrays and frees all its buffers if and only if the tables are on the disk and
describe three primary and seven logical partitions at most. -/
theorem partitionScan_limits_iff
    (finite : chain disk depth 0 h.scan.extLbaBase = some tables)
    (noPrim : h.scan.pNo = 0) (noLogic : h.scan.lNo = 0) :
    ScanLimits disk h ↔
      OnDisk tables ∧ primsOf disk tables ≤ 3 ∧ logicsOf disk tables ≤ 7 := by
  have sets := setsBase_of_chain finite
  constructor
  · rintro ⟨fuel, h', ran, freed⟩
    cases fuel with
    | zero => cases ran
    | succ fuel =>
        have within : Within h := ⟨by omega, by omega⟩
        obtain ⟨-, few⟩ := partitionScanHeld_returns_succ
          (fun _ => partitionScanHeld_returns) sets ran
        obtain ⟨onDisk, within', added⟩ := few within freed tables finite
        have prims := within'.pNo
        have logics := within'.lNo
        rw [added.pNo] at prims
        rw [added.lNo] at logics
        exact ⟨onDisk, by omega, by omega⟩
  · rintro ⟨onDisk, prims, logics⟩
    cases depth with
    | zero => cases finite
    | succ depth =>
        obtain ⟨h', ran, added⟩ := partitionScanHeld_few_succ partitionScanHeld_few sets finite
          onDisk (by omega) (by omega)
        exact ⟨depth + 1, h', ran, added.buffers⟩

/-- A primary partition, and a logical one in the extended partition that starts at sector 1. -/
def smallDisk : Memory := fun i =>
  if i = 450 ∨ i = 962 then 0x83 else if i = 466 then 0x5 else if i = 470 then 1 else 0

/-- The theorem on a small disk. -/
theorem partitionScan_limits_small : ScanLimits smallDisk ⟨Scan.fresh 0, 0⟩ := by
  have onDisk : OnDisk [0, 1] := by
    intro lba member
    rcases List.mem_pair.mp member with rfl | rfl
    · decide
    · decide
  have finite : chain smallDisk 2 0 0 = some [0, 1] := by decide +kernel
  exact (@partitionScan_limits_iff smallDisk ⟨Scan.fresh 0, 0⟩ [0, 1] 2 finite rfl rfl).mpr
    ⟨onDisk, by decide +kernel, by decide +kernel⟩

/-- Four primary partitions. -/
def fourPrims : Memory := fun i =>
  if i = 450 ∨ i = 466 ∨ i = 482 ∨ i = 498 then 0x83 else 0

/-- Four primary partitions in the first table are one too many. -/
theorem fourPrims_limits :
    chain fourPrims 1 0 0 = some [0] ∧ ¬ ScanLimits fourPrims ⟨Scan.fresh 0, 0⟩ := by
  have finite : chain fourPrims 1 0 0 = some [0] := by decide +kernel
  have prims : primsOf fourPrims [0] = 4 := by decide +kernel
  refine ⟨finite, ?_⟩
  rintro ⟨fuel, h', ran, freed⟩
  cases fuel with
  | zero => cases ran
  | succ fuel =>
      obtain ⟨-, few⟩ := partitionScanHeld_returns_succ (fun _ => partitionScanHeld_returns)
        (setsBase_of_chain finite) ran
      obtain ⟨-, within, added⟩ := few ⟨by decide, by decide⟩ freed [0] finite
      have count := within.pNo
      rw [added.pNo, prims] at count
      exact absurd count (by decide)

end UKernel.Ide
