import UKernel.Fs.Search
import UKernel.Kernel.Strings

/-! # Paths in memory

`path_parse` on the characters of a path in memory, with the buffer that it stores a name into: it
takes apart what `UKernel.Fs.pathParse` takes apart (`UKernel.PathBuffer.pathParse_refines`). It
does not end the name; its callers clear the buffer between two calls, and stop at an empty name.
Called from its own results it stores the names of the path one after the other
(`UKernel.PathBuffer.path_parse_yields`).
-/

namespace UKernel.PathBuffer

open UKernel.Library UKernel.Fs

/-! ## The functions of the source -/

/-- The loop of `path_parse` over slashes; it steps first. -/
def skipSlashes (path : Memory) : Nat → Nat → Except Fault Nat
  | 0, _ => throw .diverges
  | fuel + 1, pathname =>
      if path (pathname + 1) = slash then skipSlashes path fuel (pathname + 1)
      else return pathname + 1

/-- The loop of `path_parse` over the characters of a name. -/
def copyName (path : Memory) : Nat → Nat → Memory → Nat → Except Fault (Nat × Memory)
  | 0, _, _, _ => throw .diverges
  | fuel + 1, pathname, nameStore, i =>
      if path pathname ≠ slash ∧ path pathname ≠ 0 then
        copyName path fuel (pathname + 1) (Function.update nameStore i (path pathname)) (i + 1)
      else
        return (pathname, nameStore)

/-- The start of `path_parse`. -/
def skipLead (fuel : Nat) (path : Memory) (pathname : Nat) : Except Fault Nat :=
  if path pathname = slash then skipSlashes path fuel pathname else return pathname

/-- `path_parse`: where the rest of the path is, `none` for the result `NULL`, and the buffer. -/
def pathParse (fuel : Nat) (path : Memory) (pathname : Nat) (nameStore : Memory) :
    Except Fault (Option Nat × Memory) := do
  let pathname ← skipLead fuel path pathname
  let (pathname, nameStore) ← copyName path fuel pathname nameStore 0
  return (if path pathname = 0 then none else some pathname, nameStore)

/-- What a loop over the names of a path does at its end: the buffer is cleared, and the next name
is parsed if there is a rest. -/
def nextName (fuel : Nat) (path : Memory) (p : Option Nat) (name : Memory) :
    Except Fault (Option Nat × Memory) :=
  let name := Strings.memset name 0 0 maxFileNameLen
  match p with
  | none => return (none, name)
  | some p => pathParse fuel path p name

/-- The loop of `path_depth_cnt`. -/
def depthLoop (fuel : Nat) (path : Memory) : Nat → Option Nat → Memory → Nat → Except Fault Nat
  | 0, _, _, _ => throw .diverges
  | left + 1, p, name, depth =>
      if name 0 = 0 then
        return depth
      else do
        let (p, name) ← nextName fuel path p name
        depthLoop fuel path left p name (depth + 1)

/-- `path_depth_cnt`, with what is in the buffer, which it does not clear at first. -/
def pathDepthCnt (fuel : Nat) (path : Memory) (pathname : Nat) (name : Memory) :
    Except Fault Nat := do
  let (p, name) ← pathParse fuel path pathname name
  depthLoop fuel path fuel p name 0

/-- The buffers that a loop over the names sees, as that of `search_file` does, and the one at which
it stops. -/
def namesLoop (fuel : Nat) (path : Memory) : Nat → Option Nat → Memory →
    Except Fault (List Memory × Memory)
  | 0, _, _ => throw .diverges
  | left + 1, p, name =>
      if name 0 = 0 then
        return ([], name)
      else do
        let (p, next) ← nextName fuel path p name
        let (names, last) ← namesLoop fuel path left p next
        return (name :: names, last)

/-- All of them, from a cleared buffer on. -/
def namesOf (fuel : Nat) (path : Memory) (pathname : Nat) :
    Except Fault (List Memory × Memory) := do
  let (p, name) ← pathParse fuel path pathname Memory.zeros
  namesLoop fuel path fuel p name

/-! ## The loops -/

section

variable {path nameStore : Memory} {p i fuel left depth : Nat}
  {s seps name name' tail rest : List Byte}
  {names : List (List Byte)} {sub : Option (List Byte)} {at_ : Option Nat}

/-- A buffer with a name stored at its start. -/
def overlay (m : Memory) (name : List Byte) : Memory := fun i => name.getD i (m i)

theorem overlay_inside (small : i < name.length) : overlay nameStore name i = name[i] := by
  simp [overlay, small]

theorem overlay_outside (large : name.length ≤ i) : overlay nameStore name i = nameStore i := by
  simp [overlay, large]

theorem overlay_snoc {c : Byte} :
    Function.update (overlay nameStore name) name.length c = overlay nameStore (name ++ [c]) := by
  funext i
  rcases Nat.lt_trichotomy i name.length with before | here | behind
  · rw [Function.update_of_ne (by omega), overlay_inside before,
      overlay_inside (by rw [List.length_append]; omega), List.getElem_append_left before]
  · subst here
    rw [Function.update_self, overlay_inside (by simp)]
    simp
  · rw [Function.update_of_ne (by omega), overlay_outside (by omega),
      overlay_outside (by rw [List.length_append, List.length_singleton]; omega)]

/-- Slashes are passed. -/
theorem skipSlashes_runs (isAt : path.StringAt (p + 1) (seps ++ rest))
    (all : ∀ c ∈ seps, c = slash) (stops : rest.head? ≠ some slash)
    (enough : seps.length < fuel) :
    skipSlashes path fuel p = .ok (p + 1 + seps.length) := by
  induction seps generalizing p fuel with
  | nil =>
      obtain ⟨fuel, rfl⟩ := Nat.exists_eq_succ_of_ne_zero (Nat.ne_zero_of_lt enough)
      have other : path (p + 1) ≠ slash := by
        cases rest with
        | nil =>
            rw [Memory.StringAt.nil_iff.mp isAt]
            decide
        | cons c rest =>
            rw [(Memory.StringAt.cons_iff.mp isAt).1]
            exact fun same => stops (same ▸ rfl)
      rw [skipSlashes, if_neg other]
      rfl
  | cons c seps ih =>
      obtain ⟨fuel, rfl⟩ := Nat.exists_eq_succ_of_ne_zero (Nat.ne_zero_of_lt enough)
      obtain ⟨first, others⟩ := List.forall_mem_cons.mp all
      obtain ⟨here, -, isAt⟩ := Memory.StringAt.cons_iff.mp isAt
      rw [skipSlashes, if_pos (here.trans first), ih isAt others (by simpa using enough),
        List.length_cons]
      congr 1
      omega

/-- The characters of a name are copied behind those that were copied before. -/
theorem copyName_runs {done : List Byte} (isAt : path.StringAt p (name ++ tail))
    (free : slash ∉ name) (stops : ∀ c ∈ tail.head?, c = slash) (enough : name.length < fuel) :
    copyName path fuel p (overlay nameStore done) done.length =
      .ok (p + name.length, overlay nameStore (done ++ name)) := by
  induction name generalizing p fuel done with
  | nil =>
      obtain ⟨fuel, rfl⟩ := Nat.exists_eq_succ_of_ne_zero (Nat.ne_zero_of_lt enough)
      have ended : ¬ (path p ≠ slash ∧ path p ≠ 0) := by
        rintro ⟨notSlash, notEnd⟩
        cases tail with
        | nil => exact notEnd (Memory.StringAt.nil_iff.mp isAt)
        | cons c tail =>
            exact notSlash ((Memory.StringAt.cons_iff.mp isAt).1.trans (stops c rfl))
      rw [copyName, if_neg ended, List.append_nil]
      rfl
  | cons c name ih =>
      obtain ⟨fuel, rfl⟩ := Nat.exists_eq_succ_of_ne_zero (Nat.ne_zero_of_lt enough)
      rw [List.mem_cons, not_or] at free
      obtain ⟨here, nonzero, isAt⟩ := Memory.StringAt.cons_iff.mp isAt
      have length : (done ++ [c]).length = done.length + 1 := by
        rw [List.length_append, List.length_singleton]
      have rest := @ih (p + 1) fuel (done ++ [c]) isAt free.2 (by simpa using enough)
      rw [length, List.append_assoc] at rest
      rw [copyName, if_pos ⟨here ▸ Ne.symm free.1, here ▸ nonzero⟩, here, overlay_snoc, rest,
        List.length_cons]
      congr 2
      omega

/-- Where the rest of a path is. -/
def RestAt (path : Memory) : Option (List Byte) → Option Nat → Prop
  | none, q => q = none
  | some rest, q => ∃ p, q = some p ∧ path.StringAt p rest

/-- The slashes at the start of a path are passed. -/
theorem skipLead_runs (isAt : path.StringAt p (seps ++ rest)) (all : ∀ c ∈ seps, c = slash)
    (stops : rest.head? ≠ some slash) (enough : seps.length < fuel) :
    skipLead fuel path p = .ok (p + seps.length) := by
  cases seps with
  | nil =>
      have other : path p ≠ slash := by
        cases rest with
        | nil =>
            rw [Memory.StringAt.nil_iff.mp isAt]
            decide
        | cons c rest =>
            rw [(Memory.StringAt.cons_iff.mp isAt).1]
            exact fun same => stops (same ▸ rfl)
      rw [skipLead, if_neg other]
      rfl
  | cons c seps =>
      obtain ⟨first, others⟩ := List.forall_mem_cons.mp all
      obtain ⟨here, -, isAt⟩ := Memory.StringAt.cons_iff.mp isAt
      rw [List.length_cons] at enough ⊢
      rw [skipLead, if_pos (here.trans first),
        skipSlashes_runs isAt others stops (Nat.lt_of_succ_lt enough)]
      congr 1
      omega

/-- The two loops of `path_parse`, over the slashes and over the characters of a name, and whether
the path ends behind them. -/
theorem loops_run (isAt : path.StringAt p (seps ++ (name ++ tail))) (all : ∀ c ∈ seps, c = slash)
    (free : slash ∉ name) (stops : ∀ c ∈ tail.head?, c = slash)
    (first : (name ++ tail).head? ≠ some slash) (enough : (seps ++ (name ++ tail)).length < fuel) :
    skipLead fuel path p = .ok (p + seps.length) ∧
    copyName path fuel (p + seps.length) nameStore 0 =
      .ok (p + seps.length + name.length, overlay nameStore name) ∧
    (path (p + seps.length + name.length) = 0 ↔ tail = []) := by
  rw [List.length_append, List.length_append] at enough
  have nameAt : path.StringAt (p + seps.length) (name ++ tail) := isAt.drop
  have tailAt : path.StringAt (p + seps.length + name.length) tail := nameAt.drop
  have copied : copyName path fuel (p + seps.length) nameStore 0 =
      .ok (p + seps.length + name.length, overlay nameStore name) :=
    @copyName_runs path nameStore (p + seps.length) fuel name tail [] nameAt free stops (by omega)
  refine ⟨skipLead_runs isAt all first (by omega), copied, ?_⟩
  cases tail with
  | nil => exact iff_of_true (Memory.StringAt.nil_iff.mp tailAt) rfl
  | cons c tail =>
      obtain ⟨here, nonzero, -⟩ := Memory.StringAt.cons_iff.mp tailAt
      exact iff_of_false (here ▸ nonzero) (List.cons_ne_nil c tail)

/-- A name does not begin with a slash. -/
theorem head_name (nonempty : name ≠ []) (free : slash ∉ name) :
    (name ++ tail).head? ≠ some slash := by
  obtain ⟨c, cs, rfl⟩ := List.exists_cons_of_ne_nil nonempty
  intro first
  exact free (Option.some.inj first ▸ List.mem_cons_self)

/-- A call of `path_parse` whose path has a name. -/
theorem pathParse_name (isAt : path.StringAt p (seps ++ (name ++ tail)))
    (all : ∀ c ∈ seps, c = slash) (nonempty : name ≠ []) (free : slash ∉ name)
    (stops : ∀ c ∈ tail.head?, c = slash) (enough : (seps ++ (name ++ tail)).length < fuel) :
    pathParse fuel path p nameStore =
      .ok (if tail = [] then none else some (p + seps.length + name.length),
        overlay nameStore name) := by
  obtain ⟨skipped, copied, ended⟩ :=
    @loops_run path nameStore p fuel seps name tail isAt all free stops (head_name nonempty free)
      enough
  rw [pathParse, skipped]
  simp only [bind, Except.bind, copied]
  rw [if_congr ended rfl rfl]
  rfl

/-- A call of `path_parse` whose path has none. -/
theorem pathParse_slashes (isAt : path.StringAt p s) (all : ∀ c ∈ s, c = slash)
    (enough : s.length < fuel) : pathParse fuel path p nameStore = .ok (none, nameStore) := by
  rw [← List.append_nil s] at isAt enough
  obtain ⟨skipped, copied, ended⟩ :=
    @loops_run path nameStore p fuel s [] [] isAt all List.not_mem_nil
      (fun c member => by cases member) (Option.some_ne_none slash).symm enough
  rw [pathParse, skipped]
  simp only [bind, Except.bind, copied]
  rw [if_pos (ended.mpr rfl)]
  rfl

/-- It finds the name, and the rest, that the other `path_parse` finds. -/
theorem pathParse_named (isAt : path.StringAt p (seps ++ (name' ++ tail)))
    (enough : (seps ++ (name' ++ tail)).length < fuel) (all : ∀ c ∈ seps, c = slash)
    (nonempty : name' ≠ []) (free : slash ∉ name') (stops : ∀ c ∈ tail.head?, c = slash)
    (ran : Fs.pathParse (seps ++ (name' ++ tail)) = .ok (name, sub)) : ∃ q,
    pathParse fuel path p nameStore = .ok (q, overlay nameStore name) ∧ RestAt path sub q ∧
      0 ∉ name ∧ (sub.getD []).length < fuel := by
  have clean : 0 ∉ name' := by
    intro member
    exact isAt.clean (List.mem_append_right seps (List.mem_append_left tail member))
  have shorter : tail.length < fuel := by
    rw [List.length_append, List.length_append] at enough
    omega
  rw [pathParse_first all nonempty free stops] at ran
  split_ifs at ran with long ends
  · cases ran
    refine ⟨_, pathParse_name isAt all nonempty free stops enough, ?_, clean, ?_⟩
    · exact if_pos ends
    · exact Nat.zero_lt_of_lt enough
  · cases ran
    refine ⟨_, pathParse_name isAt all nonempty free stops enough, ?_, clean, shorter⟩
    exact ⟨_, if_neg ends, isAt.drop.drop⟩

/-- `path_parse` in memory takes a path apart as the other one does. -/
theorem pathParse_refines (isAt : path.StringAt p s) (enough : s.length < fuel)
    (ran : Fs.pathParse s = .ok (name, sub)) : ∃ q,
    pathParse fuel path p nameStore = .ok (q, overlay nameStore name) ∧ RestAt path sub q ∧
      0 ∉ name ∧ (sub.getD []).length < fuel := by
  cases firstName slash s with
  | none all =>
      rw [pathParse_none all] at ran
      cases ran
      exact ⟨none, pathParse_slashes isAt all enough, rfl, List.not_mem_nil,
        Nat.zero_lt_of_lt enough⟩
  | last all nonempty free =>
      rename_i seps name'
      rw [← List.append_nil name'] at isAt enough ran
      exact pathParse_named isAt enough all nonempty free (fun c member => by cases member) ran
  | more all nonempty free =>
      exact pathParse_named isAt enough all nonempty free
        (fun c member => (Option.some.inj member).symm) ran

/-! ## The loops over the names -/

/-- A buffer with a name, and with zero bytes behind it. -/
def NameIn (m : Memory) (name : List Byte) : Prop :=
  m.Holds 0 (name ++ List.replicate (maxFileNameLen - name.length) 0)

/-- A call of `path_parse` has split off a name of a path; the names that a loop has before it are
this name, and those of the rest. -/
structure Parsed (fuel : Nat) (path : Memory) (q : Option Nat) (name : List Byte)
    (sub : Option (List Byte)) (names : List (List Byte)) : Prop where
  restAt : RestAt path sub q
  clean : 0 ∉ name
  enough : (sub.getD []).length < fuel
  isAhead : ahead name sub = names

/-- The first call. -/
theorem pathParse_parsed (isAt : path.StringAt p s) (enough : s.length < fuel)
    (fits : ∀ name ∈ pathNames s, name.length ≤ maxFileNameLen) (nameStore : Memory) :
    ∃ q name sub, pathParse fuel path p nameStore = .ok (q, overlay nameStore name) ∧
      Parsed fuel path q name sub (pathNames s) := by
  obtain ⟨name, sub, ran, isAhead⟩ := pathParse_fits fits
  obtain ⟨q, parsed, restAt, clean, shorter⟩ :=
    @pathParse_refines path nameStore p fuel s name sub isAt enough ran
  exact ⟨q, name, sub, parsed, restAt, clean, shorter, isAhead⟩

theorem overlay_nameIn (cleared : ∀ i < maxFileNameLen, nameStore i = 0)
    (fits : name.length ≤ maxFileNameLen) : NameIn (overlay nameStore name) name := by
  intro i small
  rw [List.length_append, List.length_replicate] at small
  rw [Nat.zero_add]
  by_cases inside : i < name.length
  · rw [overlay_inside inside, List.getElem_append_left inside]
  · rw [overlay_outside (Nat.le_of_not_lt inside), cleared i (by omega),
      List.getElem_append_right (Nat.le_of_not_lt inside), List.getElem_replicate]

theorem memset_cleared : ∀ i < maxFileNameLen, Strings.memset nameStore 0 0 maxFileNameLen i =
    0 := by
  intro i small
  rw [Strings.memset_apply, if_pos ⟨Nat.zero_le i, by omega⟩]

/-- The first byte of a buffer tells whether there is a name in it. -/
theorem NameIn.first (nameIn : NameIn nameStore name) (clean : 0 ∉ name) :
    nameStore 0 = 0 ↔ name = [] := by
  cases name with
  | nil => exact iff_of_true (nameIn 0 (by decide)) rfl
  | cons c cs =>
      have first : nameStore 0 = c := nameIn 0 (Nat.succ_pos _)
      rw [first]
      exact iff_of_false (fun zero => clean (zero ▸ List.mem_cons_self)) (List.cons_ne_nil c cs)

/-- A buffer with a short name has a string. -/
theorem stringAt_of_nameIn (nameIn : NameIn nameStore name) (short : name.length < maxFileNameLen)
    (clean : 0 ∉ name) : nameStore.StringAt 0 name := by
  obtain ⟨rest, more⟩ := Nat.exists_eq_add_of_lt short
  have behind : maxFileNameLen - name.length = rest + 1 := by omega
  rw [NameIn, behind, List.replicate_succ] at nameIn
  obtain ⟨holds, padding⟩ := Memory.holds_append.mp nameIn
  exact .of_parts holds (Memory.holds_cons.mp padding).1 clean

/-- The name that a call split off is the first of those before the loop, if there are any. -/
theorem Parsed.empty_iff (parsed : Parsed fuel path at_ name sub names) : name = [] ↔
    names = [] := by
  rw [← parsed.isAhead, ahead]
  split
  case isTrue empty => exact iff_of_true empty rfl
  case isFalse full => exact iff_of_false full (List.cons_ne_nil _ _)

/-- A loop ends where no name is before it. -/
theorem Parsed.ends_iff (parsed : Parsed fuel path at_ name sub names)
    (first : nameStore 0 = 0 ↔ name = []) : nameStore 0 = 0 ↔ names = [] :=
  first.trans parsed.empty_iff

/-- The name that a call split off, in a buffer that was clear. -/
theorem Parsed.nameIn (parsed : Parsed fuel path at_ name sub names)
    (cleared : ∀ i < maxFileNameLen, nameStore i = 0)
    (fits : ∀ name ∈ names, name.length ≤ maxFileNameLen) :
    NameIn (overlay nameStore name) name := by
  apply overlay_nameIn cleared
  by_cases empty : name = []
  · rw [empty]
    exact Nat.zero_le _
  · refine fits name ?_
    rw [← parsed.isAhead, ahead, if_neg empty]
    exact List.mem_cons_self

/-- The end of a round. -/
theorem Parsed.next {first : List Byte} (parsed : Parsed fuel path at_ name sub (first :: names))
    (fits : ∀ name ∈ names, name.length ≤ maxFileNameLen) (buf : Memory) : name = first ∧
    ∃ q name' sub' buf', nextName fuel path at_ buf = .ok (q, buf') ∧ NameIn buf' name' ∧
      Parsed fuel path q name' sub' names := by
  obtain ⟨restAt, -, enough, isAhead⟩ := parsed
  rw [ahead] at isAhead
  split_ifs at isAhead with empty
  obtain ⟨rfl, rfl⟩ := List.cons.inj isAhead
  refine ⟨rfl, ?_⟩
  cases sub with
  | none =>
      have ends : at_ = none := restAt
      subst ends
      have atMost : ([] : List Byte).length ≤ maxFileNameLen := Nat.zero_le _
      refine ⟨none, [], none, _, rfl, overlay_nameIn memset_cleared atMost, rfl,
        List.not_mem_nil, enough, ?_⟩
      rw [ahead, if_pos rfl, Option.getD_none, pathNames, components_nil]
  | some rest =>
      obtain ⟨p, rfl, isAt⟩ := restAt
      obtain ⟨q, name', sub', ran, parsed'⟩ :=
        pathParse_parsed isAt enough fits (Strings.memset buf 0 0 maxFileNameLen)
      exact ⟨q, name', sub', _, ran, parsed'.nameIn memset_cleared fits, parsed'⟩

/-- The loop of `path_depth_cnt` counts the names before it. -/
theorem depthLoop_runs (parsed : Parsed fuel path at_ name sub names)
    (first : nameStore 0 = 0 ↔ name = []) (fits : ∀ name ∈ names, name.length ≤ maxFileNameLen)
    (bound : names.length < left) :
    depthLoop fuel path left at_ nameStore depth = .ok (depth + names.length) := by
  induction left generalizing at_ name sub names nameStore depth with
  | zero => exact absurd bound (Nat.not_lt_zero _)
  | succ left ih =>
      rw [depthLoop]
      have ends := parsed.ends_iff first
      cases names with
      | nil =>
          rw [if_pos (ends.mpr rfl)]
          rfl
      | cons name₁ names =>
          have full : ¬ nameStore 0 = 0 := fun zero => List.cons_ne_nil name₁ names (ends.mp zero)
          have later := (List.forall_mem_cons.mp fits).2
          obtain ⟨-, q, name', sub', buf, ran, nameIn, parsed'⟩ := parsed.next later nameStore
          rw [if_neg full, ran]
          simp only [bind, Except.bind]
          rw [ih parsed' (nameIn.first parsed'.clean) later (Nat.lt_of_succ_lt_succ bound),
            List.length_cons]
          congr 1
          omega

/-- A loop over the names has one name after the other in its buffer, and stops with none. -/
theorem namesLoop_runs (parsed : Parsed fuel path at_ name sub names)
    (nameIn : NameIn nameStore name)
    (fits : ∀ name ∈ names, name.length ≤ maxFileNameLen) (bound : names.length < left) :
    ∃ buffers last, namesLoop fuel path left at_ nameStore = .ok (buffers, last) ∧
      List.Forall₂ NameIn buffers names ∧ NameIn last [] := by
  induction left generalizing at_ name sub names nameStore with
  | zero => exact absurd bound (Nat.not_lt_zero _)
  | succ left ih =>
      rw [namesLoop]
      have ends := parsed.ends_iff (nameIn.first parsed.clean)
      cases names with
      | nil =>
          rw [if_pos (ends.mpr rfl)]
          exact ⟨[], nameStore, rfl, .nil, parsed.empty_iff.mpr rfl ▸ nameIn⟩
      | cons name₁ names =>
          have full : ¬ nameStore 0 = 0 := fun zero => List.cons_ne_nil name₁ names (ends.mp zero)
          have later := (List.forall_mem_cons.mp fits).2
          obtain ⟨same, q, name', sub', buf, ran, nameIn', parsed'⟩ := parsed.next later nameStore
          obtain ⟨buffers, last, others, each, nothing⟩ :=
            ih parsed' nameIn' later (Nat.lt_of_succ_lt_succ bound)
          rw [if_neg full, ran]
          simp only [bind, Except.bind, others]
          exact ⟨nameStore :: buffers, last, rfl, .cons (same ▸ nameIn) each, nothing⟩

/-! ## The main result -/

/-- There are no more names in a path than characters. -/
theorem length_pathNames (s : List Byte) : (pathNames s).length ≤ s.length := by
  have room : ((pathNames s).map fun name => name.length + 1).sum ≤ s.length + 1 :=
    length_components
  have each := List.card_nsmul_le_sum ((pathNames s).map fun name => name.length + 1) 2
    fun n member => by
      obtain ⟨name, inPath, rfl⟩ := List.mem_map.mp member
      have nonempty := List.length_pos_of_ne_nil (mem_components inPath).1
      omega
  rw [smul_eq_mul, List.length_map] at each
  omega

/-- **The names of a path.** If all names of a path fit the buffer, then calls of `path_parse`, each
from the result of the one before it and with the buffer cleared in between, store the names of the
path, which are its longest runs of characters other than slashes, in their order, and then no name.
If there is a name, then `path_depth_cnt` returns the number of names, whatever was in its
buffer. -/
theorem path_parse_yields (isAt : path.StringAt p s) (named : ∃ c ∈ s, c ≠ slash)
    (fits : ∀ name ∈ components slash s, name.length ≤ maxFileNameLen) (enough : s.length < fuel) :
    (∃ buffers last, namesOf fuel path p = .ok (buffers, last) ∧
      List.Forall₂ NameIn buffers (components slash s) ∧ NameIn last []) ∧
    ∀ junk, pathDepthCnt fuel path p junk = .ok (components slash s).length := by
  have bound : (components slash s).length < fuel := lt_of_le_of_lt (length_pathNames s) enough
  constructor
  · obtain ⟨q, name, sub, ran, parsed⟩ := pathParse_parsed isAt enough fits Memory.zeros
    have nameIn := parsed.nameIn (fun _ _ => rfl) fits
    rw [namesOf, ran]
    exact namesLoop_runs parsed nameIn fits bound
  · intro junk
    obtain ⟨q, name, sub, ran, parsed⟩ := pathParse_parsed isAt enough fits junk
    have full : name ≠ [] := by
      intro empty
      obtain ⟨c, inside, other⟩ := named
      exact other (components_eq_nil (parsed.empty_iff.mp empty) c inside)
    have first : overlay junk name 0 = 0 ↔ name = [] := by
      have inside := List.length_pos_of_ne_nil full
      rw [overlay_inside inside]
      exact iff_of_false (fun zero => parsed.clean (zero ▸ List.getElem_mem inside)) full
    rw [pathDepthCnt, ran]
    simp only [bind, Except.bind]
    rw [depthLoop_runs parsed first fits bound, Nat.zero_add]

/-- `//a/bc/` has two names. -/
theorem path_parse_yields_two :
    (∃ buffers last, namesOf 9 (Strings.literal [47, 47, 97, 47, 98, 99, 47]) 0 =
      .ok (buffers, last) ∧
      List.Forall₂ NameIn buffers [[97], [98, 99]] ∧ NameIn last []) ∧
    ∀ junk, pathDepthCnt 9 (Strings.literal [47, 47, 97, 47, 98, 99, 47]) 0 junk = .ok 2 := by
  have names : components slash ([47, 47, 97, 47, 98, 99, 47] : List Byte) = [[97], [98, 99]] := by
    decide +kernel
  have clean : (0 : Byte) ∉ ([47, 47, 97, 47, 98, 99, 47] : List Byte) := by decide
  have named : ∃ c ∈ ([47, 47, 97, 47, 98, 99, 47] : List Byte), c ≠ slash :=
    ⟨97, by simp, by decide⟩
  have fits : ∀ name ∈ components slash ([47, 47, 97, 47, 98, 99, 47] : List Byte),
      name.length ≤ maxFileNameLen := by
    rw [names]
    simp [maxFileNameLen]
  have short : ([47, 47, 97, 47, 98, 99, 47] : List Byte).length < 9 := by decide
  have yields := path_parse_yields (Strings.literal_stringAt clean) named fits short
  rw [names] at yields
  exact yields

end

end UKernel.PathBuffer
