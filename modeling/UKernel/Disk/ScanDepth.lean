import UKernel.Disk.PartitionScan
import UKernel.Library.Call

/-! # How deep a scan goes

`partition_scan` follows the extended entries of the disk, wherever they lead. It ends exactly if no
table that it opens lies on a loop of extended entries on which nothing is recorded
(`UKernel.Ide.partitionScan_terminates_iff`): a partition in front of such an entry is counted in
every round, and the counters stop the scan.
-/

namespace UKernel.Ide

open UKernel.Library UKernel.Fs

/-- The scan of a table comes to an end: it returns, or an assertion or an index outside an array
stops it. -/
def Terminates (disk : Memory) (extLba : Word) (scan : Scan) : Prop :=
  ∃ fuel, partitionScan disk fuel extLba scan ≠ .error .diverges

/-- The table that an extended entry leads to, and the scan with which it is opened. -/
def Scan.follow (scan : Scan) (p : TableEntry) : Word × Scan :=
  if scan.extLbaBase ≠ 0 then (p.startLba + scan.extLbaBase, scan)
  else (p.startLba, scan.withBase p.startLba)

/-! ## Loops -/

/-- Following an entry does not change the base. -/
def KeepsBase (base : Word) (p : TableEntry) : Prop := base = 0 → p.startLba = 0

/-- The tables from which a finite number of tables can be reached, all of them without
partitions. -/
inductive Barren (disk : Memory) (base : Word) : Word → Prop where
  | table {lba : Word} : lba.toNat ≤ maxLba →
      (∀ p ∈ partitionTable (ideRead disk lba.toNat), p.fsType ≠ 0 →
        p.fsType = 0x5 ∧ KeepsBase base p) →
      (∀ p ∈ partitionTable (ideRead disk lba.toNat), p.fsType ≠ 0 →
        Barren disk base (p.startLba + base)) → Barren disk base lba

/-- A used entry is an extended one that leads to a barren table. -/
def EntryBarren (disk : Memory) (base : Word) (p : TableEntry) : Prop :=
  p.fsType ≠ 0 → (p.fsType = 0x5 ∧ KeepsBase base p) ∧ Barren disk base (p.startLba + base)

/-- A table has an extended entry that leads to another table, and nothing is recorded before it. -/
def Leads (disk : Memory) (base lba lba' : Word) : Prop :=
  lba.toNat ≤ maxLba ∧ ∃ before p after,
    partitionTable (ideRead disk lba.toNat) = before ++ p :: after ∧
    (∀ q ∈ before, EntryBarren disk base q) ∧ p.fsType = 0x5 ∧ KeepsBase base p ∧
    lba' = p.startLba + base

/-! ## The tables that are opened -/

mutual

/-- What the scan of a table records, with all tables that it opens. -/
inductive Scanned (disk : Memory) : Word → Scan → Scan → Prop where
  | table {lba : Word} {scan next : Scan} : lba.toNat ≤ maxLba →
      PassesAll disk lba (partitionTable (ideRead disk lba.toNat)) scan next →
      Scanned disk lba scan next

/-- The loop over the entries of a table, to its end or to the eighth logical partition. -/
inductive PassesAll (disk : Memory) : Word → List TableEntry → Scan → Scan → Prop where
  | nil {extLba : Word} {scan : Scan} : PassesAll disk extLba [] scan scan
  | cons {extLba : Word} {p : TableEntry} {rest : List TableEntry} {scan next last : Scan} :
      Passes disk extLba p scan next → PassesAll disk extLba rest next last →
      PassesAll disk extLba (p :: rest) scan last
  | full {extLba : Word} {p : TableEntry} {rest : List TableEntry} {scan next : Scan} :
      p.fsType ≠ 0x5 → p.fsType ≠ 0 → extLba ≠ 0 → recordLogic extLba p scan = .ok next →
      8 ≤ next.lNo → PassesAll disk extLba (p :: rest) scan next

/-- An entry takes the loop from one scan to the next. -/
inductive Passes (disk : Memory) : Word → TableEntry → Scan → Scan → Prop where
  | extended {extLba : Word} {p : TableEntry} {scan next : Scan} : p.fsType = 0x5 →
      Scanned disk (scan.follow p).1 (scan.follow p).2 next → Passes disk extLba p scan next
  | prim {extLba : Word} {p : TableEntry} {scan next : Scan} : p.fsType ≠ 0x5 →
      p.fsType ≠ 0 → extLba = 0 → recordPrim extLba p scan = .ok next →
      Passes disk extLba p scan next
  | logic {extLba : Word} {p : TableEntry} {scan next : Scan} : p.fsType ≠ 0x5 →
      p.fsType ≠ 0 → extLba ≠ 0 → recordLogic extLba p scan = .ok next → next.lNo < 8 →
      Passes disk extLba p scan next
  | unused {extLba : Word} {p : TableEntry} {scan : Scan} : p.fsType = 0 →
      Passes disk extLba p scan scan

end

/-- The loop over the entries of a table opens a table. -/
inductive Opens (disk : Memory) (extLba : Word) :
    List TableEntry → Scan → Word × Scan → Prop where
  | here {p : TableEntry} {rest : List TableEntry} {scan : Scan} : p.fsType = 0x5 →
      Opens disk extLba (p :: rest) scan (scan.follow p)
  | later {p : TableEntry} {rest : List TableEntry} {scan next : Scan} {opened : Word × Scan} :
      Passes disk extLba p scan next → Opens disk extLba rest next opened →
      Opens disk extLba (p :: rest) scan opened

/-- The scan of a table opens another table. -/
def OpensFrom (disk : Memory) (table opened : Word × Scan) : Prop :=
  table.1.toNat ≤ maxLba ∧
    Opens disk table.1 (partitionTable (ideRead disk table.1.toNat)) table.2 opened

variable {disk : Memory} {scanTable scanTable' : Word → Scan → Except Fault Scan}
  {extLba base lba : Word} {p : TableEntry} {entries : List TableEntry} {scan scan' : Scan}
  {fuel fuel' : Nat}

/-! ## One entry -/

theorem scanEntries_extended (extended : p.fsType = 0x5) :
    scanEntries scanTable extLba (p :: entries) scan =
      (scanTable (scan.follow p).1 (scan.follow p).2 >>= scanEntries scanTable extLba entries) := by
  rw [scanEntries, if_pos extended, Scan.follow]
  split <;> rfl

theorem follow_of_keeps (keeps : KeepsBase scan.extLbaBase p) :
    scan.follow p = (p.startLba + scan.extLbaBase, scan) := by
  rw [Scan.follow]
  split
  · rfl
  · have zero : scan.extLbaBase = 0 := by
      by_contra other
      contradiction
    have same : scan.withBase p.startLba = scan := by
      rw [keeps zero, ← zero]
      rfl
    rw [same, zero]
    exact congrArg (·, scan) (BitVec.add_zero _).symm

theorem recordPrim_error {fault : Fault} (ran : recordPrim extLba p scan = .error fault) :
    fault ≠ .diverges := by
  rintro rfl
  unfold recordPrim at ran
  split at ran
  · exact except_bind_avoids (require_avoids (by decide)) (fun _ is => by cases is) ran
  · cases ran

theorem recordLogic_error {fault : Fault} (ran : recordLogic extLba p scan = .error fault) :
    fault ≠ .diverges := by
  rintro rfl
  unfold recordLogic at ran
  split at ran <;> cases ran

/-- An entry that is not extended stops the machine, returns from the scan of its table, or takes
the loop to the next entry, whatever follows. -/
theorem scanEntries_plain (disk : Memory) (plain : p.fsType ≠ 0x5) :
    (∃ fault, fault ≠ Fault.diverges ∧ ∀ scanTable rest,
      scanEntries scanTable extLba (p :: rest) scan = .error fault) ∨
    (∃ next, recordLogic extLba p scan = .ok next ∧
      (∀ rest, PassesAll disk extLba (p :: rest) scan next) ∧ ∀ scanTable rest,
      scanEntries scanTable extLba (p :: rest) scan = .ok next) ∨
    ∃ next, Passes disk extLba p scan next ∧ ∀ scanTable rest,
      scanEntries scanTable extLba (p :: rest) scan =
        scanEntries scanTable extLba rest next := by
  by_cases used : p.fsType ≠ 0
  · by_cases first : extLba = 0
    · have eq : ∀ scanTable rest, scanEntries scanTable extLba (p :: rest) scan =
          (recordPrim extLba p scan >>= scanEntries scanTable extLba rest) := by
        intro scanTable rest
        rw [scanEntries, if_neg plain, if_pos used, if_pos first]
      cases ran : recordPrim extLba p scan with
      | error fault =>
          refine .inl ⟨fault, recordPrim_error ran, fun scanTable rest => ?_⟩
          rw [eq, ran]
          rfl
      | ok next =>
          refine .inr (.inr ⟨next, .prim plain used first ran, fun scanTable rest => ?_⟩)
          rw [eq, ran]
          rfl
    · have eq : ∀ scanTable rest, scanEntries scanTable extLba (p :: rest) scan =
          (recordLogic extLba p scan >>= fun next =>
            if next.lNo ≥ 8 then pure next else scanEntries scanTable extLba rest next) := by
        intro scanTable rest
        rw [scanEntries, if_neg plain, if_pos used, if_neg first]
      cases ran : recordLogic extLba p scan with
      | error fault =>
          refine .inl ⟨fault, recordLogic_error ran, fun scanTable rest => ?_⟩
          rw [eq, ran]
          rfl
      | ok next =>
          by_cases full : next.lNo ≥ 8
          · refine .inr (.inl ⟨next, rfl, fun rest => .full plain used first ran full, ?_⟩)
            intro scanTable rest
            rw [eq, ran, except_ok_bind, if_pos full]
            rfl
          · refine .inr (.inr ⟨next, .logic plain used first ran (Nat.not_le.mp full), ?_⟩)
            intro scanTable rest
            rw [eq, ran, except_ok_bind, if_neg full]
  · refine .inr (.inr ⟨scan, .unused (not_not.mp used), fun scanTable rest => ?_⟩)
    rw [scanEntries, if_neg plain, if_neg used]

/-! ## More depth -/

/-- The result of a scan that did not run out of depth does not change with more depth. -/
theorem scanEntries_stable
    (tables : ∀ lba scan, scanTable lba scan ≠ .error .diverges →
      scanTable' lba scan = scanTable lba scan)
    (ends : scanEntries scanTable extLba entries scan ≠ .error .diverges) :
    scanEntries scanTable' extLba entries scan = scanEntries scanTable extLba entries scan := by
  induction entries generalizing scan with
  | nil => rfl
  | cons p rest ih =>
      by_cases extended : p.fsType = 0x5
      · rw [scanEntries_extended extended] at ends ⊢
        rw [scanEntries_extended extended]
        have inner : scanTable (scan.follow p).1 (scan.follow p).2 ≠ .error .diverges := by
          intro deep
          rw [deep] at ends
          exact ends rfl
        rw [tables _ _ inner]
        cases ran : scanTable (scan.follow p).1 (scan.follow p).2 with
        | error fault => rfl
        | ok next =>
            rw [ran] at ends
            exact ih ends
      · rcases scanEntries_plain (fun _ => 0) extended with
          ⟨fault, -, is⟩ | ⟨next, -, -, is⟩ | ⟨next, -, is⟩
        · rw [is, is]
        · rw [is, is]
        · rw [is] at ends
          rw [is, is]
          exact ih ends

theorem partitionScan_stable (more : fuel ≤ fuel')
    (ends : partitionScan disk fuel lba scan ≠ .error .diverges) :
    partitionScan disk fuel' lba scan = partitionScan disk fuel lba scan := by
  induction fuel generalizing fuel' lba scan with
  | zero => exact absurd rfl ends
  | succ fuel ih =>
      obtain ⟨deeper, rfl⟩ : ∃ deeper, fuel' = deeper + 1 := ⟨fuel' - 1, by omega⟩
      rw [partitionScan] at ends
      rw [partitionScan, partitionScan]
      cases small : require (lba.toNat ≤ maxLba) with
      | error fault => rfl
      | ok done =>
          rw [small] at ends
          exact scanEntries_stable (fun _ _ => ih (by omega)) ends

theorem partitionScan_succ (small : lba.toNat ≤ maxLba) :
    partitionScan disk (fuel + 1) lba scan = scanEntries (partitionScan disk fuel) lba
      (partitionTable (ideRead disk lba.toNat)) scan := by
  rw [partitionScan, require_of small]
  rfl

/-! ## Scans that do not end -/

theorem diverges_of_not_terminates (deep : ¬ Terminates disk lba scan) (fuel : Nat) :
    partitionScan disk fuel lba scan = .error .diverges := by
  by_contra ends
  exact deep ⟨fuel, ends⟩

/-- An entry that is not extended is passed at once. -/
theorem Passes.plain_eq {next : Scan} (passes : Passes disk extLba p scan next)
    (plain : p.fsType ≠ 0x5) : scanEntries scanTable extLba (p :: entries) scan =
      scanEntries scanTable extLba entries next := by
  cases passes with
  | extended extended => exact absurd extended plain
  | prim _ used first ran =>
      rw [scanEntries, if_neg plain, if_pos used, if_pos first, ran]
      rfl
  | logic _ used first ran few =>
      rw [scanEntries, if_neg plain, if_pos used, if_neg first, ran, except_ok_bind,
        if_neg (Nat.not_le.mpr few)]
  | unused is => rw [scanEntries, if_neg plain, if_neg (not_not.mpr is)]

mutual

/-- A scan returns with enough depth. -/
theorem Scanned.returns {disk : Memory} {lba : Word} {scan next : Scan} :
    Scanned disk lba scan next → ∃ fuel, partitionScan disk fuel lba scan = .ok next
  | .table small passes => by
      obtain ⟨fuel, ran⟩ := passes.returns
      exact ⟨fuel + 1, (partitionScan_succ small).trans ran⟩

theorem PassesAll.returns {disk : Memory} {extLba : Word} {entries : List TableEntry}
    {scan next : Scan} : PassesAll disk extLba entries scan next →
      ∃ fuel, scanEntries (partitionScan disk fuel) extLba entries scan = .ok next
  | .nil => ⟨0, rfl⟩
  | .cons passes later => by
      obtain ⟨fuel, goesOn⟩ := passes.returns
      obtain ⟨enough, ran⟩ := later.returns
      refine ⟨max fuel enough, ?_⟩
      rw [goesOn _ (Nat.le_max_left fuel enough)]
      exact scanEntries_mono (fun _ _ _ => partitionScan_mono (Nat.le_max_right fuel enough)) ran
  | .full plain used first ran full => by
      refine ⟨0, ?_⟩
      rw [scanEntries, if_neg plain, if_pos used, if_neg first, ran, except_ok_bind, if_pos full]
      rfl

theorem Passes.returns {disk : Memory} {extLba : Word} {p : TableEntry} {scan next : Scan} :
    Passes disk extLba p scan next → ∃ fuel, ∀ fuel', fuel ≤ fuel' → ∀ {entries},
      scanEntries (partitionScan disk fuel') extLba (p :: entries) scan =
        scanEntries (partitionScan disk fuel') extLba entries next
  | .extended extended scanned => by
      obtain ⟨fuel, ran⟩ := scanned.returns
      refine ⟨fuel, fun fuel' more entries => ?_⟩
      rw [scanEntries_extended extended, partitionScan_mono more ran]
      rfl
  | .prim plain used first ran => by
      have passes : Passes disk extLba p scan next := .prim plain used first ran
      exact ⟨0, fun _ _ _ => passes.plain_eq plain⟩
  | .logic plain used first ran few => by
      have passes : Passes disk extLba p scan next := .logic plain used first ran few
      exact ⟨0, fun _ _ _ => passes.plain_eq plain⟩
  | .unused is => by
      have passes : Passes disk extLba p scan scan := .unused is
      exact ⟨0, fun _ _ _ => passes.plain_eq (by rw [is]; decide)⟩

end

theorem passesAll_of_returns
    (tables : ∀ lba scan next, scanTable lba scan = .ok next → Scanned disk lba scan next)
    {next : Scan} (ran : scanEntries scanTable extLba entries scan = .ok next) :
    PassesAll disk extLba entries scan next := by
  induction entries generalizing scan with
  | nil =>
      cases ran
      exact .nil
  | cons p rest ih =>
      by_cases extended : p.fsType = 0x5
      · rw [scanEntries_extended extended] at ran
        obtain ⟨middle, inner, ran⟩ := except_bind_eq_ok.mp ran
        exact .cons (.extended extended (tables _ _ _ inner)) (ih ran)
      · rcases scanEntries_plain disk extended with
          ⟨fault, -, is⟩ | ⟨middle, -, full, is⟩ | ⟨middle, passes, is⟩
        · rw [is] at ran
          cases ran
        · rw [is] at ran
          cases ran
          exact full rest
        · rw [is] at ran
          exact .cons passes (ih ran)

/-- What a scan that returned recorded. -/
theorem scanned_of_returns {next : Scan} (ran : partitionScan disk fuel lba scan = .ok next) :
    Scanned disk lba scan next := by
  induction fuel generalizing lba scan next with
  | zero => cases ran
  | succ fuel ih =>
      obtain ⟨_, same, small, ran⟩ := partitionScan_returns ran
      cases same
      exact .table small (passesAll_of_returns (fun _ _ _ => ih) ran)

/-- An entry that a loop passes, extended or not, is passed unless the depth is too small. -/
theorem scanEntries_passes {next : Scan} (passes : Passes disk extLba p scan next) (fuel : Nat) :
    scanEntries (partitionScan disk fuel) extLba (p :: entries) scan = .error .diverges ∨
      scanEntries (partitionScan disk fuel) extLba (p :: entries) scan =
        scanEntries (partitionScan disk fuel) extLba entries next := by
  by_cases extended : p.fsType = 0x5
  · cases passes with
    | extended _ scanned =>
        obtain ⟨enough, ran⟩ := scanned.returns
        rw [scanEntries_extended extended]
        by_cases ends : partitionScan disk fuel (scan.follow p).1 (scan.follow p).2 =
            .error .diverges
        · rw [ends]
          exact .inl rfl
        · have deeper := partitionScan_stable (Nat.le_max_left fuel enough) ends
          have returned := partitionScan_mono (Nat.le_max_right fuel enough) ran
          rw [← deeper, returned]
          exact .inr rfl
    | prim plain | logic plain => exact absurd extended plain
    | unused is =>
        rw [is] at extended
        cases extended
  · exact .inr (passes.plain_eq extended)

theorem exists_opens_of_entries (deep : ∀ fuel,
    scanEntries (partitionScan disk fuel) extLba entries scan = .error .diverges) :
    ∃ opened, Opens disk extLba entries scan opened ∧ ¬ Terminates disk opened.1 opened.2 := by
  induction entries generalizing scan with
  | nil => cases deep 0
  | cons p rest ih =>
      by_cases extended : p.fsType = 0x5
      · by_cases inner : Terminates disk (scan.follow p).1 (scan.follow p).2
        · obtain ⟨enough, ends⟩ := inner
          cases ran : partitionScan disk enough (scan.follow p).1 (scan.follow p).2 with
          | error fault =>
              have stops := deep enough
              rw [scanEntries_extended extended, ran] at stops
              exact absurd (ran.trans stops) ends
          | ok next =>
              have passes : Passes disk extLba p scan next :=
                .extended extended (scanned_of_returns ran)
              have later : ∀ fuel, scanEntries (partitionScan disk fuel) extLba rest next =
                  .error .diverges := by
                intro fuel
                by_contra ends
                have stable := scanEntries_stable
                  (fun lba scan => partitionScan_stable (Nat.le_max_left fuel enough)) ends
                have stops := deep (max fuel enough)
                rw [scanEntries_extended extended,
                  partitionScan_mono (Nat.le_max_right fuel enough) ran] at stops
                exact ends (stable.symm.trans stops)
              obtain ⟨opened, opens, deep⟩ := ih later
              exact ⟨opened, .later passes opens, deep⟩
        · exact ⟨_, .here extended, inner⟩
      · rcases scanEntries_plain disk extended with
          ⟨fault, other, is⟩ | ⟨next, -, -, is⟩ | ⟨next, passes, is⟩
        · have stops := deep 0
          rw [is] at stops
          exact absurd (Except.error.inj stops) other
        · have stops := deep 0
          rw [is] at stops
          cases stops
        · obtain ⟨opened, opens, deep⟩ := ih fun fuel => (is _ _).symm.trans (deep fuel)
          exact ⟨opened, .later passes opens, deep⟩

theorem diverges_of_entries {opened : Word × Scan} (opens : Opens disk extLba entries scan opened)
    (deep : ¬ Terminates disk opened.1 opened.2) (fuel : Nat) :
    scanEntries (partitionScan disk fuel) extLba entries scan = .error .diverges := by
  induction opens with
  | here extended =>
      rw [scanEntries_extended extended, diverges_of_not_terminates deep]
      rfl
  | later passes _ ih =>
      rcases scanEntries_passes passes fuel with stops | goesOn
      · exact stops
      · exact goesOn.trans (ih deep)

/-- A table whose scan does not end opens one whose scan does not end. -/
theorem exists_opens_of_diverges {table : Word × Scan} (deep : ¬ Terminates disk table.1 table.2) :
    ∃ opened, OpensFrom disk table opened ∧ ¬ Terminates disk opened.1 opened.2 := by
  have small : table.1.toNat ≤ maxLba := by
    by_contra large
    refine deep ⟨1, ?_⟩
    rw [partitionScan, require, if_neg large]
    exact fun is => by cases is
  obtain ⟨opened, opens, inner⟩ := exists_opens_of_entries (fun fuel => by
    have stops := diverges_of_not_terminates deep (fuel + 1)
    rwa [partitionScan_succ small] at stops)
  exact ⟨opened, ⟨small, opens⟩, inner⟩

/-- A table that opens one whose scan does not end has a scan that does not end. -/
theorem diverges_of_opens {table opened : Word × Scan} (opens : OpensFrom disk table opened)
    (deep : ¬ Terminates disk opened.1 opened.2) : ¬ Terminates disk table.1 table.2 := by
  rintro ⟨fuel, ends⟩
  cases fuel with
  | zero => exact ends rfl
  | succ fuel =>
      rw [partitionScan_succ opens.1] at ends
      exact ends (diverges_of_entries opens.2 deep fuel)

theorem diverges_of_path {table opened : Word × Scan}
    (path : Relation.ReflTransGen (OpensFrom disk) table opened)
    (deep : ¬ Terminates disk opened.1 opened.2) : ¬ Terminates disk table.1 table.2 := by
  induction path using Relation.ReflTransGen.head_induction_on with
  | refl => exact deep
  | head opens _ ih => exact diverges_of_opens opens ih

/-! ## Loops do not end -/

/-- Entries that lead to barren tables are passed without a change. -/
theorem scanEntries_append {before after : List TableEntry}
    (tables : ∀ p ∈ before, p.fsType ≠ 0 → p.fsType = 0x5 ∧ KeepsBase scan.extLbaBase p ∧
      (scanTable (p.startLba + scan.extLbaBase) scan = .error .diverges ∨
        scanTable (p.startLba + scan.extLbaBase) scan = .ok scan)) :
    scanEntries scanTable extLba (before ++ after) scan = .error .diverges ∨
      scanEntries scanTable extLba (before ++ after) scan =
        scanEntries scanTable extLba after scan := by
  induction before with
  | nil => exact .inr rfl
  | cons p rest ih =>
      have others := ih fun q member => tables q (List.mem_cons_of_mem p member)
      rw [List.cons_append]
      by_cases used : p.fsType = 0
      · rw [scanEntries, if_neg (by rw [used]; decide), if_neg (not_not.mpr used)]
        exact others
      · obtain ⟨extended, keeps, result⟩ := tables p List.mem_cons_self used
        rw [scanEntries_extended extended, follow_of_keeps keeps]
        dsimp only
        rcases result with deep | same
        · rw [deep]
          exact .inl rfl
        · rw [same]
          exact others

/-- The scan of a barren table records nothing. -/
theorem partitionScan_barren (barren : Barren disk base lba) (is : scan.extLbaBase = base)
    (fuel : Nat) : partitionScan disk fuel lba scan = .error .diverges ∨
      partitionScan disk fuel lba scan = .ok scan := by
  induction barren generalizing fuel with
  | table small extended _ ih =>
      cases fuel with
      | zero => exact .inl rfl
      | succ fuel =>
          rw [partitionScan_succ small, ← List.append_nil (partitionTable _)]
          apply scanEntries_append
          intro p member used
          rw [is]
          exact ⟨(extended p member used).1, (extended p member used).2, ih p member used fuel⟩

/-- The scan of a table on a loop does not end. -/
theorem diverges_of_loop (loop : Relation.TransGen (Leads disk base) lba lba)
    (is : scan.extLbaBase = base) : ¬ Terminates disk lba scan := by
  rintro ⟨fuel, ends⟩
  apply ends
  clear ends
  induction fuel generalizing lba with
  | zero => rfl
  | succ fuel ih =>
      obtain ⟨lba', ⟨small, before, p, after, table, barren, extended, keeps, rfl⟩, back⟩ :=
        Relation.TransGen.head'_iff.mp loop
      have inner := ih (Relation.TransGen.tail' back
        ⟨small, before, p, after, table, barren, extended, keeps, rfl⟩)
      rw [partitionScan_succ small, table]
      have passed := @scanEntries_append (partitionScan disk fuel) lba scan before (p :: after)
        fun q member used => by
          rw [is]
          obtain ⟨⟨extended, keeps⟩, barren⟩ := barren q member used
          exact ⟨extended, keeps, partitionScan_barren barren is fuel⟩
      rcases passed with deep | goesOn
      · exact deep
      · rw [goesOn, scanEntries_extended extended, follow_of_keeps (is ▸ keeps), is]
        dsimp only
        rw [inner]
        rfl

/-! ## What a scan records -/

/-- The partitions that were recorded, and the base if there is one. -/
def Scan.recorded (scan : Scan) : Nat :=
  scan.pNo + scan.lNo + if scan.extLbaBase = 0 then 0 else 1

/-- The counters do not become less, and a base that was set stays. -/
structure Grows (scan scan' : Scan) : Prop where
  pNo : scan.pNo ≤ scan'.pNo
  lNo : scan.lNo ≤ scan'.lNo
  base : scan.extLbaBase ≠ 0 → scan'.extLbaBase = scan.extLbaBase

theorem Grows.refl (scan : Scan) : Grows scan scan :=
  ⟨Nat.le_refl _, Nat.le_refl _, fun _ => rfl⟩

theorem Grows.trans {next : Scan} (first : Grows scan next) (second : Grows next scan') :
    Grows scan scan' where
  pNo := first.pNo.trans second.pNo
  lNo := first.lNo.trans second.lNo
  base set := by
    have kept := first.base set
    exact (second.base (kept ▸ set)).trans kept

theorem Grows.recorded_le (grows : Grows scan scan') : scan.recorded ≤ scan'.recorded := by
  have prim := grows.pNo
  have logic := grows.lNo
  unfold Scan.recorded
  by_cases set : scan.extLbaBase = 0
  · rw [if_pos set]
    omega
  · rw [if_neg set, grows.base set, if_neg set]
    omega

/-- If nothing was recorded, the base is the same. -/
theorem Grows.base_eq (grows : Grows scan scan') (same : scan'.recorded = scan.recorded) :
    scan'.extLbaBase = scan.extLbaBase := by
  by_cases set : scan.extLbaBase = 0
  · have prim := grows.pNo
    have logic := grows.lNo
    unfold Scan.recorded at same
    rw [if_pos set] at same
    by_contra other
    rw [set] at other
    rw [if_neg other] at same
    omega
  · exact grows.base set

/-- Of two steps that record nothing together, neither does. -/
theorem Grows.split {next : Scan} (first : Grows scan next) (second : Grows next scan')
    (same : scan'.recorded = scan.recorded) :
    next.recorded = scan.recorded ∧ scan'.recorded = next.recorded := by
  have one := first.recorded_le
  have two := second.recorded_le
  omega

theorem grows_follow (scan : Scan) (p : TableEntry) : Grows scan (scan.follow p).2 := by
  rw [Scan.follow]
  split
  case isTrue => exact .refl scan
  case isFalse unset => exact ⟨Nat.le_refl _, Nat.le_refl _, fun set => absurd set unset⟩

theorem keepsBase_of_follow (same : (scan.follow p).2.recorded = scan.recorded) :
    KeepsBase scan.extLbaBase p := by
  intro zero
  have base := (grows_follow scan p).base_eq same
  rw [Scan.follow, if_neg (not_not.mpr zero)] at base
  exact base.trans zero

theorem recordPrim_grows {next : Scan} (ran : recordPrim extLba p scan = .ok next) :
    Grows scan next ∧ next.recorded = scan.recorded + 1 := by
  obtain ⟨-, rfl⟩ := recordPrim_returns ran
  refine ⟨⟨Nat.le_succ _, Nat.le_refl _, fun _ => rfl⟩, ?_⟩
  change scan.pNo + 1 + scan.lNo + (if scan.extLbaBase = 0 then 0 else 1) =
    scan.pNo + scan.lNo + (if scan.extLbaBase = 0 then 0 else 1) + 1
  omega

theorem recordLogic_grows {next : Scan} (ran : recordLogic extLba p scan = .ok next) :
    Grows scan next ∧ next.recorded = scan.recorded + 1 := by
  obtain ⟨-, rfl⟩ := recordLogic_returns ran
  refine ⟨⟨Nat.le_refl _, Nat.le_succ _, fun _ => rfl⟩, ?_⟩
  change scan.pNo + (scan.lNo + 1) + (if scan.extLbaBase = 0 then 0 else 1) =
    scan.pNo + scan.lNo + (if scan.extLbaBase = 0 then 0 else 1) + 1
  omega

/-- A table whose scan records nothing is barren. -/
def ScanGrows (disk : Memory) (lba : Word) (scan scan' : Scan) : Prop :=
  Grows scan scan' ∧ (scan'.recorded = scan.recorded → Barren disk scan.extLbaBase lba)

theorem extended_grows {next : Scan} (extended : p.fsType = 0x5)
    (inner : ScanGrows disk (scan.follow p).1 (scan.follow p).2 next) :
    Grows scan next ∧ (next.recorded = scan.recorded → EntryBarren disk scan.extLbaBase p) := by
  have start := grows_follow scan p
  refine ⟨start.trans inner.1, fun same used => ?_⟩
  obtain ⟨one, two⟩ := start.split inner.1 same
  have keeps := keepsBase_of_follow one
  have barren := inner.2 two
  rw [follow_of_keeps keeps] at barren
  exact ⟨⟨extended, keeps⟩, barren⟩

theorem plain_grows {next : Scan} (plain : p.fsType ≠ 0x5)
    (passes : Passes disk extLba p scan next) :
    Grows scan next ∧ (next.recorded = scan.recorded → EntryBarren disk scan.extLbaBase p) := by
  cases passes with
  | extended extended => exact absurd extended plain
  | prim _ _ _ recorded =>
      obtain ⟨grows, more⟩ := recordPrim_grows recorded
      exact ⟨grows, fun same => by omega⟩
  | logic _ _ _ recorded =>
      obtain ⟨grows, more⟩ := recordLogic_grows recorded
      exact ⟨grows, fun same => by omega⟩
  | unused none_ => exact ⟨.refl _, fun _ used => absurd none_ used⟩

theorem scanEntries_grows
    (tables : ∀ lba scan scan', scanTable lba scan = .ok scan' → ScanGrows disk lba scan scan')
    (ran : scanEntries scanTable extLba entries scan = .ok scan') :
    Grows scan scan' ∧ (scan'.recorded = scan.recorded →
      ∀ p ∈ entries, EntryBarren disk scan.extLbaBase p) := by
  induction entries generalizing scan with
  | nil =>
      cases ran
      exact ⟨.refl _, fun _ _ member => nomatch member⟩
  | cons p rest ih =>
      have step : ∀ next, Grows scan next →
          (next.recorded = scan.recorded → EntryBarren disk scan.extLbaBase p) →
          scanEntries scanTable extLba rest next = .ok scan' →
          Grows scan scan' ∧ (scan'.recorded = scan.recorded →
            ∀ q ∈ p :: rest, EntryBarren disk scan.extLbaBase q) := by
        intro next grows here ran
        obtain ⟨later, others⟩ := ih ran
        refine ⟨grows.trans later, fun same q member => ?_⟩
        obtain ⟨one, two⟩ := grows.split later same
        rcases List.mem_cons.mp member with rfl | member
        · exact here one
        · exact grows.base_eq one ▸ others two q member
      by_cases extended : p.fsType = 0x5
      · rw [scanEntries_extended extended] at ran
        obtain ⟨next, inner, ran⟩ := except_bind_eq_ok.mp ran
        obtain ⟨grows, here⟩ := extended_grows extended (tables _ _ _ inner)
        exact step next grows here ran
      · rcases scanEntries_plain disk extended with
          ⟨fault, -, is⟩ | ⟨next, recorded, -, is⟩ | ⟨next, passes, is⟩
        · rw [is] at ran
          cases ran
        · rw [is] at ran
          cases ran
          obtain ⟨grows, more⟩ := recordLogic_grows recorded
          exact ⟨grows, fun same => by omega⟩
        · rw [is] at ran
          obtain ⟨grows, here⟩ := plain_grows extended passes
          exact step next grows here ran

theorem partitionScan_grows (ran : partitionScan disk fuel lba scan = .ok scan') :
    ScanGrows disk lba scan scan' := by
  induction fuel generalizing lba scan scan' with
  | zero => cases ran
  | succ fuel ih =>
      obtain ⟨_, same, small, ran⟩ := partitionScan_returns ran
      cases same
      obtain ⟨grows, barren⟩ := scanEntries_grows (fun _ _ _ => ih) ran
      exact ⟨grows, fun same => .table small (fun p member used => (barren same p member used).1)
        fun p member used => (barren same p member used).2⟩

theorem passes_grows {next : Scan} (passes : Passes disk extLba p scan next) :
    Grows scan next ∧ (next.recorded = scan.recorded → EntryBarren disk scan.extLbaBase p) := by
  by_cases extended : p.fsType = 0x5
  · cases passes with
    | extended _ scanned =>
        obtain ⟨fuel, ran⟩ := scanned.returns
        exact extended_grows extended (partitionScan_grows ran)
    | prim plain | logic plain => exact absurd extended plain
    | unused none_ => exact ⟨.refl _, fun _ used => absurd none_ used⟩
  · exact plain_grows extended passes

/-- If nothing is recorded before a table is opened, the entry leads to it. -/
theorem opens_grows {opened : Word × Scan} (opens : Opens disk extLba entries scan opened) :
    Grows scan opened.2 ∧ (opened.2.recorded = scan.recorded → ∃ before p after,
      entries = before ++ p :: after ∧ (∀ q ∈ before, EntryBarren disk scan.extLbaBase q) ∧
      p.fsType = 0x5 ∧ KeepsBase scan.extLbaBase p ∧
      opened.1 = p.startLba + scan.extLbaBase) := by
  induction opens with
  | @here p rest scan extended =>
      refine ⟨grows_follow scan p, fun same => ?_⟩
      have keeps := keepsBase_of_follow same
      refine ⟨[], p, rest, rfl, (fun _ member => nomatch member), extended, keeps, ?_⟩
      rw [follow_of_keeps keeps]
  | @later p rest scan next opened passes _ ih =>
      obtain ⟨grows, here⟩ := passes_grows passes
      refine ⟨grows.trans ih.1, fun same => ?_⟩
      obtain ⟨one, two⟩ := grows.split ih.1 same
      obtain ⟨before, q, after, split, barren, extended, keeps, is⟩ := ih.2 two
      rw [grows.base_eq one] at barren keeps is
      refine ⟨p :: before, q, after, by rw [split]; rfl, fun q' member => ?_, extended, keeps, is⟩
      rcases List.mem_cons.mp member with rfl | member
      · exact here one
      · exact barren q' member

theorem opensFrom_grows {table opened : Word × Scan} (opens : OpensFrom disk table opened) :
    Grows table.2 opened.2 ∧ (opened.2.recorded = table.2.recorded →
      Leads disk table.2.extLbaBase table.1 opened.1) :=
  ⟨(opens_grows opens.2).1, fun same => ⟨opens.1, (opens_grows opens.2).2 same⟩⟩

/-! ### The counters are bounded -/

/-- The counters are below a bound, or as far as the scan may count. -/
structure Counted (bound : Nat) (scan : Scan) : Prop where
  pNo : scan.pNo ≤ bound + 4
  lNo : scan.lNo ≤ bound + 8

theorem recordPrim_counted {bound : Nat} {next : Scan} (ran : recordPrim extLba p scan = .ok next)
    (counted : Counted bound scan) : Counted bound next := by
  obtain ⟨small, rfl⟩ := recordPrim_returns ran
  refine ⟨?_, counted.lNo⟩
  change scan.pNo + 1 ≤ bound + 4
  omega

theorem recordLogic_counted {bound : Nat} {next : Scan}
    (ran : recordLogic extLba p scan = .ok next) (counted : Counted bound scan) :
    Counted bound next := by
  obtain ⟨small, rfl⟩ := recordLogic_returns ran
  refine ⟨counted.pNo, ?_⟩
  change scan.lNo + 1 ≤ bound + 8
  omega

theorem counted_withBase {bound : Nat} (counted : Counted bound scan) :
    Counted bound (scan.withBase base) := ⟨counted.pNo, counted.lNo⟩

theorem counted_follow {bound : Nat} (counted : Counted bound scan) :
    Counted bound (scan.follow p).2 := by
  rw [Scan.follow]
  split
  · exact counted
  · exact counted_withBase counted

theorem opens_counted {bound : Nat} {opened : Word × Scan}
    (opens : Opens disk extLba entries scan opened) (counted : Counted bound scan) :
    Counted bound opened.2 := by
  induction opens with
  | here => exact counted_follow counted
  | later passes _ ih =>
      apply ih
      cases passes with
      | extended _ scanned =>
          obtain ⟨fuel, ran⟩ := scanned.returns
          exact partitionScan_keeps (fun _ _ => counted_withBase)
            (fun _ _ _ _ => recordPrim_counted) (fun _ _ _ _ => recordLogic_counted) ran
            (counted_follow counted)
      | prim _ _ _ recorded => exact recordPrim_counted recorded counted
      | logic _ _ _ recorded => exact recordLogic_counted recorded counted
      | unused => exact counted

/-! ## The condition -/

/-- In a chain of scans that do not end, at last nothing more is recorded. -/
theorem exists_stable {chain : Nat → Word × Scan}
    (opens : ∀ n, OpensFrom disk (chain n) (chain (n + 1))) :
    ∃ start, ∀ n, start ≤ n → (chain n).2.recorded = (chain start).2.recorded := by
  have counted : ∀ n, Counted (max (chain 0).2.pNo (chain 0).2.lNo) (chain n).2 := by
    intro n
    induction n with
    | zero => exact ⟨by omega, by omega⟩
    | succ n ih => exact opens_counted (opens n).2 ih
  generalize max (chain 0).2.pNo (chain 0).2.lNo = bound at counted
  have bounded : ∀ n, (chain n).2.recorded < bound + 4 + (bound + 8) + 2 := by
    intro n
    have prim := (counted n).pNo
    have logic := (counted n).lNo
    unfold Scan.recorded
    split <;> omega
  have grows : Monotone fun n => (chain n).2.recorded :=
    monotone_nat_of_le_succ fun n => (opensFrom_grows (opens n)).1.recorded_le
  let recorded : ℕ →o Fin (bound + 4 + (bound + 8) + 2) :=
    ⟨fun n => ⟨(chain n).2.recorded, bounded n⟩, fun _ _ le => grows le⟩
  obtain ⟨start, stable⟩ := WellFoundedGT.monotone_chain_condition recorded
  exact ⟨start, fun n later => (congrArg Fin.val (stable n later)).symm⟩

/-- An infinite chain of tables that lead to each other comes back to one of them. -/
theorem exists_loop {chain : Nat → Word}
    (leads : ∀ n, Leads disk base (chain n) (chain (n + 1))) :
    ∃ n, Relation.TransGen (Leads disk base) (chain n) (chain n) := by
  obtain ⟨i, j, apart, same⟩ := Finite.exists_ne_map_eq_of_infinite
    fun n => (⟨(chain n).toNat, Nat.lt_succ_of_le (leads n).1⟩ : Fin (maxLba + 1))
  have same : chain i = chain j :=
    BitVec.eq_of_toNat_eq (congrArg (fun lba : Fin (maxLba + 1) => lba.val) same)
  have path : ∀ {i j : Nat}, i < j → Relation.TransGen (Leads disk base) (chain i) (chain j) :=
    fun less => Nat.rel_of_forall_rel_succ_of_lt _ (fun n => .single (leads n)) less
  rcases Nat.lt_or_gt_of_ne apart with before | after
  · exact ⟨i, by simpa only [← same] using path before⟩
  · exact ⟨i, by simpa only [same] using path after⟩

/-- **Termination of the scan.** The scan of a table comes to an end if and only if no table that it
opens, at any depth, lies on a loop of tables that lead to each other with nothing recorded on the
way. -/
theorem partitionScan_terminates_iff :
    Terminates disk lba scan ↔ ∀ opened,
      Relation.ReflTransGen (OpensFrom disk) (lba, scan) opened →
      ¬ Relation.TransGen (Leads disk opened.2.extLbaBase) opened.1 opened.1 := by
  constructor
  · intro ends opened path loop
    exact diverges_of_path path (diverges_of_loop loop rfl) ends
  · intro none_
    by_contra deep
    have next : ∀ table : { table : Word × Scan // ¬ Terminates disk table.1 table.2 },
        ∃ opened : { table : Word × Scan // ¬ Terminates disk table.1 table.2 },
          OpensFrom disk table.1 opened.1 := by
      rintro ⟨table, deep⟩
      obtain ⟨opened, opens, deep⟩ := exists_opens_of_diverges deep
      exact ⟨⟨opened, deep⟩, opens⟩
    choose follow follows using next
    let chain : Nat → Word × Scan := fun n => (follow^[n] ⟨(lba, scan), deep⟩).1
    have opens : ∀ n, OpensFrom disk (chain n) (chain (n + 1)) := by
      intro n
      change OpensFrom disk _ (follow^[n + 1] _).1
      rw [Function.iterate_succ_apply']
      exact follows _
    have reached : ∀ n, Relation.ReflTransGen (OpensFrom disk) (lba, scan) (chain n) := by
      intro n
      induction n with
      | zero => exact .refl
      | succ n ih => exact ih.tail (opens n)
    obtain ⟨start, stable⟩ := exists_stable opens
    have still : ∀ n, (chain (start + n + 1)).2.recorded = (chain (start + n)).2.recorded :=
      fun n => (stable _ (by omega)).trans (stable _ (by omega)).symm
    have base : ∀ n, (chain (start + n)).2.extLbaBase = (chain start).2.extLbaBase := by
      intro n
      induction n with
      | zero => rfl
      | succ n ih => exact ((opensFrom_grows (opens (start + n))).1.base_eq (still n)).trans ih
    have leads : ∀ n, Leads disk (chain start).2.extLbaBase (chain (start + n)).1
        (chain (start + (n + 1))).1 := by
      intro n
      rw [← base n]
      exact (opensFrom_grows (opens (start + n))).2 (still n)
    obtain ⟨n, loop⟩ := @exists_loop disk _ (fun n => (chain (start + n)).1) leads
    rw [← base n] at loop
    exact none_ _ (reached _) loop

/-! ## A record that leads to itself -/

/-- The only entry of the first sector is extended and leads to the second sector, whose only entry
is extended and leads there again. -/
def selfDisk : Memory := fun i => if i = 450 ∨ i = 962 then 0x5 else if i = 454 then 1 else 0

theorem selfDisk_diverges : ¬ Terminates selfDisk 0 (Scan.fresh 0) := by
  have start : OpensFrom selfDisk (0, Scan.fresh 0)
      ((Scan.fresh 0).follow (tableEntry (ideRead selfDisk 0) 0)) :=
    ⟨by decide, .here (by decide)⟩
  have second : ((Scan.fresh 0).follow (tableEntry (ideRead selfDisk 0) 0)).1 = 1 := by decide
  have base : ((Scan.fresh 0).follow (tableEntry (ideRead selfDisk 0) 0)).2.extLbaBase = 1 := by
    decide
  have again : Leads selfDisk 1 1 1 :=
    ⟨by decide, [], tableEntry (ideRead selfDisk 1) 0, _, rfl, (fun _ member => nomatch member),
      by decide, (fun zero => absurd zero (by decide)), by decide⟩
  exact diverges_of_opens start (diverges_of_loop (second ▸ .single again) base)

end UKernel.Ide
