import UKernel.Fs.NameBuffer
import UKernel.Shell.WashBuffer

/-! # Names that do not fit

The calls of `path_parse` that `wash_path` makes, and what all three callers of `path_parse` need of
a path so that it keeps to their buffer (`UKernel.NameBuffer.name_buffer_kept_iff`). None of them
checks it: a name of 17 characters is stored behind the buffer of each
(`UKernel.NameBuffer.name_buffer_overflows`).
-/

namespace UKernel.NameBuffer

open UKernel.Library UKernel.Fs UKernel.PathBuffer

/-! ## `wash_path` -/

section

variable {State : Type}

/-- The loop of `wash_path`. -/
def washLoop (fuel : Nat) (path : Memory) :
    Nat → Option Nat → Memory → Memory → RecordedCall State Memory
  | 0, _, _, _ => throw .diverges
  | left + 1, subPath, name, newAbsPath =>
      if name 0 = 0 then
        return newAbsPath
      else do
        let newAbsPath ← WashBuffer.washName fuel newAbsPath name
        let (subPath, name) ← nextName fuel path subPath name
        washLoop fuel path left subPath name newAbsPath

/-- `wash_path`: the object `new_abs_path` after it. -/
def washPath (fuel : Nat) (path : Memory) (oldAbsPath : Nat) (newAbsPath : Memory) :
    RecordedCall State Memory := do
  require (path oldAbsPath = slash)
  let (subPath, name) ← pathParse fuel path oldAbsPath Memory.zeros
  if name 0 = 0 then
    return Function.update (Function.update newAbsPath 0 slash) 1 0
  else do
    let newAbsPath ← Strings.strcat fuel (Function.update newAbsPath 0 0) (Strings.literal [slash])
    washLoop fuel path fuel subPath name newAbsPath

end

/-- The calls of `path_parse` that `wash_path` makes. -/
def washCalls (fuel : Nat) (path : Memory) (oldAbsPath : Nat) (newAbsPath : Memory) :
    List ParseCall :=
  (after (washPath fuel path oldAbsPath newAbsPath) (⟨(), []⟩ : Recorded Unit)).calls

section

variable {State : Type} {r : Recorded State} {path nameStore new : Memory} {p fuel left : Nat}
  {s name : List Byte} {names stack : List (List Byte)} {sub : Option (List Byte)}
  {at_ : Option Nat}

/-- Recording changes no result. -/
theorem washPath_computes : Computes (washPath fuel path p new : RecordedCall State _)
    (WashBuffer.washPath fuel path p new) := by
  have loop : ∀ left at_ name new,
      Computes (washLoop fuel path left at_ name new : RecordedCall State _)
        (WashBuffer.washLoop fuel path left at_ name new) := by
    intro left
    induction left with
    | zero => exact fun at_ name new => .throw _
    | succ left ih =>
        intro at_ name new
        rw [washLoop, WashBuffer.washLoop]
        split
        case isTrue => exact .pure _
        case isFalse =>
          exact .bind (.lift _) fun new => .bind nextName_computes fun parsed => ih _ _ _
  refine .bind (.lift _) fun _ => .bind pathParse_computes fun parsed => ?_
  dsimp only
  split
  case isTrue => exact .pure _
  case isFalse => exact .bind (.lift _) fun new => loop _ _ _ _

theorem washLoop_grows :
    Leaves Grows (washLoop fuel path left at_ nameStore new : RecordedCall State _) := by
  induction left generalizing at_ nameStore new with
  | zero => exact .throw _
  | succ left ih =>
      rw [washLoop]
      split
      case isTrue => exact .pure _
      case isFalse => exact .bind (.lift _) fun _ => .bind nextName_grows fun parsed => ih

/-- The loop of `wash_path` parses the names behind the first. -/
theorem washLoop_iff (parsed : Parsed fuel path at_ name sub names)
    (nameIn : NameIn nameStore name) (short : name.length ≤ 15)
    (newAt : new.StringAt 0 (Shell.render stack)) (each : Shell.PathNames stack)
    (others : Shell.PathNames names) (bound : names.length < left)
    (room : WashBuffer.roomOf stack + WashBuffer.roomOf names + 1 < fuel) (many : 2 < fuel) :
    (after (washLoop fuel path left at_ nameStore new) r).All ParseCall.Safe ↔
      r.All ParseCall.Safe ∧ ∀ n ∈ names.tail, n.length ≤ 15 := by
  induction left generalizing at_ name sub names nameStore new stack r with
  | zero => exact absurd bound (Nat.not_lt_zero _)
  | succ left ih =>
      rw [washLoop]
      have ends := parsed.ends_iff (nameIn.first parsed.clean)
      cases names with
      | nil =>
          rw [if_pos (ends.mpr rfl), after_pure]
          exact (and_iff_left fun n member => absurd member List.not_mem_nil).symm
      | cons name₁ names =>
          have full : ¬ nameStore 0 = 0 := fun zero => List.cons_ne_nil name₁ names (ends.mp zero)
          obtain ⟨here, later⟩ := List.forall_mem_cons.mp others
          obtain ⟨rfl, q, name', sub', buf, r₁, ran, parsed', -, nameIn', -, added⟩ :=
            nextName_returns safe_judges parsed nameStore r
          have nameAt := stringAt_of_nameIn nameIn (Nat.lt_succ_of_le short) parsed.clean
          rw [WashBuffer.roomOf_cons] at room
          obtain ⟨new₁, washed, newAt₁, kept, room₁⟩ :=
            WashBuffer.washName_kept newAt each nameAt here room many
          rw [if_neg full, after_bind_of (returned_lift.mpr ⟨washed, rfl⟩), after_bind_of ran,
            List.tail_cons, all_short_iff parsed', ← and_assoc, ← added]
          by_cases fits : name'.length ≤ 15
          · exact ih parsed' (nameIn' (Nat.le_succ_of_le fits)).1 fits newAt₁ kept later
              (Nat.lt_of_succ_lt_succ bound) room₁
          · have overrun : ¬ r₁.All ParseCall.Safe := fun all => fits (added.mp all).2
            exact iff_of_false (fun all => overrun ((washLoop_grows r₁).loses _ all))
              fun both => overrun both.1

/-- All calls that `wash_path` makes are safe if all names of its path are short. -/
theorem washCalls_iff (isAt : path.StringAt p s) (enough : s.length + 1 < fuel) (new : Memory) :
    (∀ call ∈ washCalls fuel path p new, call.Safe) ↔
      (s.head? = some slash → ∀ name ∈ pathNames s, name.length ≤ 15) := by
  have start : (⟨(), []⟩ : Recorded Unit).All ParseCall.Safe :=
    fun call member => absurd member List.not_mem_nil
  change (after (washPath fuel path p new) _).All _ ↔ _
  rw [washPath]
  by_cases absolute : s.head? = some slash
  · obtain ⟨q, name, sub, ran, parsed, -⟩ :=
      pathParse_returns isAt (Nat.lt_of_succ_lt enough) Memory.zeros (⟨(), []⟩ : Recorded Unit)
    have zeros : ∀ i < maxFileNameLen, Memory.zeros i = 0 := fun _ _ => rfl
    have judged := safe_judges Memory.zeros name zeros parsed.clean
    rw [after_bind_of (returned_lift.mpr ⟨require_of ((starts_iff isAt).mpr absolute), rfl⟩),
      after_bind_of ran]
    dsimp only
    by_cases fits : name.length ≤ 15
    · have nameIn : NameIn (overlay Memory.zeros name) name :=
        overlay_nameIn zeros (Nat.le_succ_of_le fits)
      have ends := parsed.ends_iff (nameIn.first parsed.clean)
      by_cases nothing : pathNames s = []
      · rw [if_pos (ends.mpr nothing), after_pure, Recorded.add_all, judged, and_iff_left start,
          nothing]
        exact iff_of_true fits fun _ n member => absurd member List.not_mem_nil
      · obtain ⟨⟨new₁, put, newAt⟩, bound, room, many⟩ :=
          WashBuffer.washLoop_starts absolute enough new
        have start' : Shell.PathNames [] := fun _ member => absurd member List.not_mem_nil
        have others : Shell.PathNames (pathNames s) := fun name member => mem_components member
        rw [if_neg fun zero => nothing (ends.mp zero),
          after_bind_of (returned_lift.mpr ⟨put, rfl⟩),
          washLoop_iff parsed nameIn fits newAt start' others bound room many, Recorded.add_all,
          judged, and_iff_left start, ← all_short_iff parsed]
        exact ⟨fun all _ => all, fun all => all absolute⟩
    · have grows : Leaves Grows (do
          if overlay Memory.zeros name 0 = 0 then
            return Function.update (Function.update new 0 slash) 1 0
          else do
            let new ← Strings.strcat fuel (Function.update new 0 0) (Strings.literal [slash])
            washLoop fuel path fuel q (overlay Memory.zeros name) new :
              RecordedCall Unit Memory) := by
        split
        case isTrue => exact .pure _
        case isFalse => exact .bind (.lift _) fun new => washLoop_grows
      refine iff_of_false (fun all => fits ?_) fun all => fits ?_
      · exact judged.mp (Recorded.add_all.mp ((grows _).loses _ all)).1
      · exact ((all_short_iff parsed).mp (all absolute)).1
  · have stopped : ∀ a r', ¬ Returned (liftM (require (path p = slash)) : RecordedCall Unit Unit)
        ⟨(), []⟩ a r' := by
      intro a r' returned
      exact absolute ((starts_iff isAt).mp (require_eq_ok.mp (returned_lift.mp returned).1))
    rw [after_bind_stopped stopped]
    exact iff_of_true start fun head => absurd head absolute

/-! ## The main result -/

/-- A path with a name of 17 characters. -/
def longPath : List Byte := slash :: List.replicate 17 0x61

theorem longPath_at : (Strings.literal longPath).StringAt 0 longPath :=
  Strings.literal_stringAt (by decide)

theorem pathNames_longPath : pathNames longPath = [List.replicate 17 0x61] := by
  decide +kernel

/-- Each of the three functions stores a name of 17 characters behind its buffer. -/
theorem name_buffer_overflows :
    ¬ (∀ call ∈ depthCalls 32 (Strings.literal longPath) 0 Memory.zeros, call.Fits) ∧
    (∀ (part : Partition) (fs : FsState part),
      ¬ ∀ call ∈ searchCalls 32 (Strings.literal longPath) 0 0 fs, call.Safe) ∧
    ¬ ∀ call ∈ washCalls 32 (Strings.literal longPath) 0 Memory.zeros, call.Safe := by
  have long : List.replicate 17 0x61 ∈ pathNames longPath := by
    rw [pathNames_longPath]
    exact List.mem_cons_self
  refine ⟨fun all => ?_, fun part fs all => ?_, fun all => ?_⟩
  · have fits := (depthCalls_fit_iff longPath_at (by decide) Memory.zeros).mp all _ long
    exact absurd fits (by decide)
  · have comes : ComesTo fs .root (pathNames longPath) (List.replicate 17 0x61) := by
      rw [pathNames_longPath]
      exact .first
    have fits := (searchCalls_iff longPath_at (by decide) (by decide) fs).mp all rfl _ comes
    exact absurd fits (by decide)
  · have fits := (washCalls_iff longPath_at (by decide) Memory.zeros).mp all rfl _ long
    exact absurd fits (by decide)

/-- **The buffer for a name.** `path_depth_cnt` stores no name behind its buffer exactly if no name
of the path has more than 16 characters, and leaves a string there after each call exactly if none
has more than 15 and the buffer, which it does not clear, had a zero byte behind the first. The
calls of `search_file` are safe exactly if the names to which the search comes have at most 15
characters, and those of `wash_path` exactly if all names have. -/
theorem name_buffer_kept_iff {part : Partition} (isAt : path.StringAt p s)
    (short : s.length < maxPathLen) (enough : s.length + 1 < fuel) :
    (∀ junk,
      ((∀ call ∈ depthCalls fuel path p junk, call.Fits) ↔
        ∀ name ∈ components slash s, name.length ≤ maxFileNameLen) ∧
      ((∀ call ∈ depthCalls fuel path p junk, call.Safe) ↔
        (∀ name ∈ components slash s, name.length ≤ 15) ∧
          ∃ i < maxFileNameLen, ((components slash s).headD []).length ≤ i ∧ junk i = 0)) ∧
    (∀ (junk : Word) (fs : FsState part),
      (∀ call ∈ searchCalls fuel path p junk fs, call.Safe) ↔
        (s.head? = some slash →
          ∀ name, ComesTo fs .root (components slash s) name → name.length ≤ 15)) ∧
    ∀ newAbsPath, (∀ call ∈ washCalls fuel path p newAbsPath, call.Safe) ↔
      (s.head? = some slash → ∀ name ∈ components slash s, name.length ≤ 15) := by
  have enough' : s.length < fuel := Nat.lt_of_succ_lt enough
  refine ⟨fun junk => ⟨?_, ?_⟩, fun junk fs => ?_, fun newAbsPath => ?_⟩
  · exact depthCalls_fit_iff isAt enough' junk
  · exact depthCalls_safe_iff isAt enough' junk
  · exact searchCalls_iff isAt short enough' fs
  · exact washCalls_iff isAt enough newAbsPath

/-- The buffers are kept to on `/ab/c`, whatever the file system holds. -/
theorem name_buffer_kept_small :
    (∀ call ∈ depthCalls 9 (Strings.literal [47, 97, 98, 47, 99]) 0 Memory.zeros, call.Safe) ∧
    (∀ (part : Partition) (fs : FsState part),
      ∀ call ∈ searchCalls 9 (Strings.literal [47, 97, 98, 47, 99]) 0 0 fs, call.Safe) ∧
    ∀ call ∈ washCalls 9 (Strings.literal [47, 97, 98, 47, 99]) 0 Memory.zeros, call.Safe := by
  have isAt : (Strings.literal [47, 97, 98, 47, 99]).StringAt 0 [47, 97, 98, 47, 99] :=
    Strings.literal_stringAt (by decide)
  have names : components slash ([47, 97, 98, 47, 99] : List Byte) = [[97, 98], [99]] := by
    decide +kernel
  have short : ∀ name ∈ components slash ([47, 97, 98, 47, 99] : List Byte), name.length ≤ 15 := by
    rw [names]
    decide
  have kept (part : Partition) :=
    @name_buffer_kept_iff (Strings.literal [47, 97, 98, 47, 99]) 0 9 [47, 97, 98, 47, 99] part isAt
      (by decide) (by decide)
  refine ⟨?_, fun part fs => ?_, ?_⟩
  · exact (((kept somePartition).1 Memory.zeros).2.mpr
      ⟨short, 15, by decide, by rw [names]; decide, rfl⟩)
  · exact ((kept part).2.1 0 fs).mpr fun _ name comes => short name comes.mem
  · exact ((kept somePartition).2.2 Memory.zeros).mpr fun _ => short

end

end UKernel.NameBuffer
