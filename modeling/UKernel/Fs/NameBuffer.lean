import UKernel.Fs.PathBuffer
import UKernel.Library.Traced

/-! # The buffer for a name

The calls of `path_parse` that `path_depth_cnt` and `search_file` make, with the number of
characters that each stores into the buffer of its caller and the buffer that it leaves.
`path_parse` has no bound, and its callers do not check the lengths of names before: whether all
calls keep to the buffer is a matter of the names that they come to
(`UKernel.NameBuffer.depthCalls_iff`, `UKernel.NameBuffer.searchCalls_iff`). But for the record they
are the functions of the other modules (`UKernel.NameBuffer.pathDepthCnt_computes`,
`UKernel.NameBuffer.searchFile_mirrors`).
-/

namespace UKernel.NameBuffer

open UKernel.Library UKernel.Fs UKernel.PathBuffer

/-! ## Recorded calls -/

/-- A call of `path_parse`: how many characters it stored, and the buffer that it left. -/
structure ParseCall where
  stores : Nat
  buffer : Memory

/-- All characters were stored into the `MAX_FILE_NAME_LEN` bytes of the buffer. -/
def ParseCall.Fits (call : ParseCall) : Prop := call.stores ≤ maxFileNameLen

/-- There is a zero byte in the buffer. -/
def ParseCall.Terminated (call : ParseCall) : Prop := ∃ i < maxFileNameLen, call.buffer i = 0

/-- The buffer was kept to, and holds a string. -/
def ParseCall.Safe (call : ParseCall) : Prop := call.Fits ∧ call.Terminated

/-- A state, with the calls of `path_parse` that were made. -/
structure Recorded (State : Type) where
  own : State
  calls : List ParseCall

namespace Recorded

variable {State : Type}

/-- A call was made. -/
def add (r : Recorded State) (call : ParseCall) : Recorded State :=
  { r with calls := call :: r.calls }

/-- A property holds of all calls that were made. -/
def All (good : ParseCall → Prop) (r : Recorded State) : Prop := ∀ call ∈ r.calls, good call

end Recorded

/-- A call that records. -/
abbrev RecordedCall (State α : Type) := Traced (Recorded State) α

section

variable {State : Type}

/-- `path_parse`. Its second loop steps both pointers for each character that it stores. -/
def pathParse (fuel : Nat) (path : Memory) (pathname : Nat) (nameStore : Memory) :
    RecordedCall State (Option Nat × Memory) := do
  let start ← skipLead fuel path pathname
  let (stop, nameStore) ← copyName path fuel start nameStore 0
  modify fun r => r.add ⟨stop - start, nameStore⟩
  return (if path stop = 0 then none else some stop, nameStore)

/-- The end of a round of a loop over the names of a path. -/
def nextName (fuel : Nat) (path : Memory) (p : Option Nat) (name : Memory) :
    RecordedCall State (Option Nat × Memory) :=
  let name := Strings.memset name 0 0 maxFileNameLen
  match p with
  | none => return (none, name)
  | some p => pathParse fuel path p name

/-- The loop of `path_depth_cnt`. -/
def depthLoop (fuel : Nat) (path : Memory) :
    Nat → Option Nat → Memory → Nat → RecordedCall State Nat
  | 0, _, _, _ => throw .diverges
  | left + 1, p, name, depth =>
      if name 0 = 0 then
        return depth
      else do
        let (p, name) ← nextName fuel path p name
        depthLoop fuel path left p name (depth + 1)

/-- `path_depth_cnt`, with what is in the buffer, which it does not clear at first. -/
def pathDepthCnt (fuel : Nat) (path : Memory) (pathname : Nat) (name : Memory) :
    RecordedCall State Nat := do
  let (p, name) ← pathParse fuel path pathname name
  depthLoop fuel path fuel p name 0

end

section

variable {part : Partition}

/-- A call on the file system. -/
def onFs {α : Type} (call : FsCall part α) : RecordedCall (FsState part) α :=
  ExceptT.mk fun r =>
    match call.run r.own with
    | .ok (a, s) => (.ok a, { r with own := s })
    | .error fault => (.error fault, r)

/-- The string in the buffer. -/
def stringIn (name : Memory) : Except Fault (List Byte) :=
  match (List.range maxFileNameLen).find? (name · = 0) with
  | none => throw .outOfBounds
  | some len => return (List.range len).map name

/-- What `search_file` does in a directory when it goes into one that it found there: the inode
number of the first, and the other one, open. -/
def enterDir (parentDir : Dir) (inodeNo : Word) : FsCall part (Word × Dir) := do
  let s ← get
  let parent ← deref (s.dirInode parentDir)
  dirClose parentDir
  let dir ← dirOpen inodeNo
  return (parent.iNo, dir)

/-- The variables of the loop of `search_file`. -/
structure SearchVars where
  name : Memory
  subPath : Option Nat
  inodeNo : Word
  parentInodeNo : Word
  record : PathSearchRecord

/-- The round of `search_file` behind the parsing of the next name, for the entry that was found. -/
def searchOn (loop : SearchVars → RecordedCall (FsState part) (Word × PathSearchRecord))
    (record : PathSearchRecord) (parentInodeNo : Word) (dirE : DirEntry) (subPath : Option Nat)
    (name : Memory) : RecordedCall (FsState part) (Word × PathSearchRecord) := do
  if dirE.fType = ftDirectory then
    let (parentInodeNo, parentDir) ← onFs (enterDir record.parentDir dirE.iNo)
    loop {
      name := name
      subPath := subPath
      inodeNo := dirE.iNo
      parentInodeNo := parentInodeNo
      record := { record with parentDir := parentDir } }
  else if dirE.fType = ftRegular then
    return (dirE.iNo, { record with fileType := ftRegular })
  else
    loop {
      name := name
      subPath := subPath
      inodeNo := dirE.iNo
      parentInodeNo := parentInodeNo
      record := record }

/-- The loop of `search_file`. -/
def searchLoop (fuel : Nat) (path : Memory) :
    Nat → SearchVars → RecordedCall (FsState part) (Word × PathSearchRecord)
  | 0, _ => throw .diverges
  | left + 1, v =>
      if v.name 0 = 0 then do
        onFs (dirClose v.record.parentDir)
        let parentDir ← onFs (dirOpen v.parentInodeNo)
        return (v.inodeNo, { v.record with parentDir := parentDir, fileType := ftDirectory })
      else do
        require (v.record.searchedPath.length < maxPathLen)
        let name ← stringIn v.name
        let record := { v.record with searchedPath := v.record.searchedPath ++ slash :: name }
        let r ← get
        match ← onFs (searchDirEntry (r.own.dirInode record.parentDir) name) with
        | none => return (notFound, record)
        | some dirE => do
            let (subPath, name) ← nextName fuel path v.subPath v.name
            searchOn (searchLoop fuel path left) record v.parentInodeNo dirE subPath name

/-- `search_file`, of the path at an address. -/
def searchFile (fuel : Nat) (path : Memory) (pathname : Nat) (junk : Word) :
    RecordedCall (FsState part) (Word × PathSearchRecord) := do
  let pathLen ← Strings.strlen fuel (path.shift pathname)
  if (List.range pathLen).map (path.shift pathname) ∈ rootPaths then
    return (0, { searchedPath := [], parentDir := .root, fileType := ftDirectory })
  else do
    require (path pathname = slash ∧ 1 < pathLen ∧ pathLen < maxPathLen)
    let (subPath, name) ← pathParse fuel path pathname Memory.zeros
    searchLoop fuel path fuel {
      name := name
      subPath := subPath
      inodeNo := junk
      parentInodeNo := 0
      record := { searchedPath := [], parentDir := .root, fileType := ftUnknown } }

end

/-! ## What a call stores -/

section

variable {State : Type} {r r' : Recorded State} {good : ParseCall → Prop}
  {path nameStore buf : Memory} {p i fuel left depth limit : Nat} {s name : List Byte}
  {names : List (List Byte)} {sub : Option (List Byte)} {at_ : Option Nat}

@[simp] theorem Recorded.add_all {call : ParseCall} : (r.add call).All good ↔
    good call ∧ r.All good :=
  List.forall_mem_cons

/-- A path is taken apart at its first name, whatever its length is. -/
theorem first_split (s : List Byte) : ∃ seps name tail, s = seps ++ (name ++ tail) ∧
    (∀ c ∈ seps, c = slash) ∧ slash ∉ name ∧ (∀ c ∈ tail.head?, c = slash) ∧
    (name ++ tail).head? ≠ some slash ∧ (name = [] → tail = []) ∧
    ahead name (if tail = [] then none else some tail) = pathNames s ∧
    Fs.pathParse s = if maxFileNameLen < name.length then throw .outOfBounds
      else .ok (name, if tail = [] then none else some tail) := by
  cases firstName slash s with
  | none all =>
      refine ⟨s, [], [], by simp, all, List.not_mem_nil, fun c member => (by cases member),
        (Option.some_ne_none slash).symm, fun _ => rfl, ?_, pathParse_none all⟩
      rw [pathNames, components_seps all]
      rfl
  | last all nonempty free =>
      rename_i seps name
      have stops : ∀ c ∈ ([] : List Byte).head?, c = slash := fun c member => (by cases member)
      have parsed := pathParse_first all nonempty free stops
      rw [List.append_nil] at parsed
      refine ⟨seps, name, [], by simp, all, free, stops, head_name nonempty free, fun _ => rfl, ?_,
        parsed⟩
      rw [pathNames, components_seps_append all, components_single nonempty free, ahead,
        if_neg nonempty]
      rfl
  | more all nonempty free =>
      rename_i seps name rest
      have stops : ∀ c ∈ (slash :: rest).head?, c = slash :=
        fun c member => (Option.some.inj member).symm
      refine ⟨seps, name, slash :: rest, rfl, all, free, stops, head_name nonempty free,
        fun empty => absurd empty nonempty, ?_, pathParse_first all nonempty free stops⟩
      rw [pathNames, components_seps_append all, components_append,
        components_single nonempty free, ahead, if_neg nonempty,
        if_neg (List.cons_ne_nil slash rest), Option.getD_some, pathNames, components_sep]
      rfl

/-- A call of `path_parse` stores the first name of its path. -/
theorem pathParse_returns (isAt : path.StringAt p s) (enough : s.length < fuel) (nameStore : Memory)
    (r : Recorded State) : ∃ q name sub,
      Returned (pathParse fuel path p nameStore) r (q, overlay nameStore name)
        (r.add ⟨name.length, overlay nameStore name⟩) ∧
      Parsed fuel path q name sub (pathNames s) ∧ (name = [] → q = none) ∧
      (name.length ≤ maxFileNameLen → Fs.pathParse s = .ok (name, sub)) := by
  obtain ⟨seps, name, tail, rfl, all, free, stops, first, lone, isAhead, parsed⟩ := first_split s
  obtain ⟨skipped, copied, ended⟩ :=
    @loops_run path nameStore p fuel seps name tail isAt all free stops first enough
  have tailAt : path.StringAt (p + seps.length + name.length) tail := isAt.drop.drop
  have clean : 0 ∉ name := fun member =>
    isAt.clean (List.mem_append_right seps (List.mem_append_left tail member))
  have shorter : tail.length < fuel := by
    rw [List.length_append, List.length_append] at enough
    omega
  refine ⟨if tail = [] then none else some (p + seps.length + name.length), name,
    if tail = [] then none else some tail, ?_, ⟨?_, clean, ?_, isAhead⟩, fun empty => ?_,
    fun fits => ?_⟩
  · refine returned_bind.mpr ⟨_, r, returned_lift.mpr ⟨skipped, rfl⟩, ?_⟩
    refine returned_bind.mpr ⟨_, r, returned_lift.mpr ⟨copied, rfl⟩, ?_⟩
    refine returned_bind.mpr ⟨(), _, returned_modify.mpr rfl, ?_⟩
    refine returned_pure.mpr ⟨?_, ?_⟩
    · rw [if_congr ended rfl rfl]
    · rw [Nat.add_sub_cancel_left]
  · by_cases ends : tail = []
    · rw [if_pos ends, if_pos ends]
      rfl
    · rw [if_neg ends, if_neg ends]
      exact ⟨_, rfl, tailAt⟩
  · by_cases ends : tail = []
    · rw [if_pos ends]
      exact Nat.zero_lt_of_lt shorter
    · rw [if_neg ends]
      exact shorter
  · rw [if_pos (lone empty)]
  · rw [parsed, if_neg (Nat.not_lt.mpr fits)]

/-- What a call of `path_parse` into a cleared buffer is good for: names up to a length. -/
def Judges (good : ParseCall → Prop) (limit : Nat) : Prop :=
  ∀ cleared name, (∀ i < maxFileNameLen, cleared i = 0) → 0 ∉ name →
    (good ⟨name.length, overlay cleared name⟩ ↔ name.length ≤ limit)

theorem fits_judges : Judges ParseCall.Fits maxFileNameLen :=
  fun _ _ _ _ => Iff.rfl

/-- A name is terminated where there is a zero byte of the buffer at its end or behind it. -/
theorem terminated_overlay (clean : 0 ∉ name) (stores : Nat) :
    (ParseCall.mk stores (overlay buf name)).Terminated ↔
      ∃ i < maxFileNameLen, name.length ≤ i ∧ buf i = 0 := by
  constructor
  · rintro ⟨i, inside, zero⟩
    rcases Nat.lt_or_ge i name.length with low | high
    · have char : name[i] = 0 := (overlay_inside low).symm.trans zero
      exact absurd (char ▸ List.getElem_mem low) clean
    · exact ⟨i, inside, high, (overlay_outside high).symm.trans zero⟩
  · rintro ⟨i, inside, high, zero⟩
    exact ⟨i, inside, (overlay_outside high).trans zero⟩

theorem safe_judges : Judges ParseCall.Safe 15 := by
  intro cleared name zeros clean
  rw [ParseCall.Safe, terminated_overlay clean]
  constructor
  · rintro ⟨-, i, inside, high, -⟩
    exact Nat.le_of_lt_succ (lt_of_le_of_lt high inside)
  · intro short
    exact ⟨Nat.le_succ_of_le short, 15, by decide, short, zeros 15 (by decide)⟩

/-- The name that a call split off is the first that a loop has before it. -/
theorem headD_eq (parsed : Parsed fuel path at_ name sub names) : names.headD [] = name := by
  rw [← parsed.isAhead, ahead]
  split
  case isTrue empty => exact empty.symm
  case isFalse full => rfl

theorem all_iff_headD (names : List (List Byte)) : (∀ n ∈ names, n.length ≤ limit) ↔
    (names.headD []).length ≤ limit ∧ ∀ n ∈ names.tail, n.length ≤ limit := by
  cases names with
  | nil => simp
  | cons n names => exact List.forall_mem_cons

/-- The lengths of the names that a loop has before it, of the first and of the others. -/
theorem all_short_iff (parsed : Parsed fuel path at_ name sub names) :
    (∀ n ∈ names, n.length ≤ limit) ↔ name.length ≤ limit ∧ ∀ n ∈ names.tail, n.length ≤ limit := by
  rw [← headD_eq parsed]
  exact all_iff_headD names

theorem head_short (parsed : Parsed fuel path at_ name sub names) :
    (∀ n ∈ names.head?, n.length ≤ limit) ↔ name.length ≤ limit := by
  rw [← headD_eq parsed]
  cases names with
  | nil => simp
  | cons n names => simp

/-- The end of a round: the next name is in the buffer. -/
theorem nextName_returns {first : List Byte} (judges : Judges good limit)
    (parsed : Parsed fuel path at_ name sub (first :: names)) (buf : Memory) (r : Recorded State) :
    name = first ∧ ∃ q name' sub' buf' r', Returned (nextName fuel path at_ buf) r (q, buf') r' ∧
      Parsed fuel path q name' sub' names ∧ (buf' 0 = 0 ↔ name' = []) ∧
      (name'.length ≤ maxFileNameLen → NameIn buf' name' ∧ pathNext sub = .ok (name', sub')) ∧
      r'.own = r.own ∧ (r'.All good ↔ r.All good ∧ name'.length ≤ limit) := by
  obtain ⟨restAt, -, enough, isAhead⟩ := parsed
  rw [ahead] at isAhead
  split_ifs at isAhead with empty
  obtain ⟨rfl, rfl⟩ := List.cons.inj isAhead
  refine ⟨rfl, ?_⟩
  have zeros : ∀ i < maxFileNameLen, Strings.memset buf 0 0 maxFileNameLen i = 0 := memset_cleared
  cases sub with
  | none =>
      have ends : at_ = none := restAt
      subst ends
      refine ⟨none, [], none, _, r, returned_pure.mpr ⟨rfl, rfl⟩,
        ⟨rfl, List.not_mem_nil, enough, ?_⟩, ?_,
        fun _ => ⟨overlay_nameIn zeros (Nat.zero_le _), rfl⟩, rfl, ?_⟩
      · rw [ahead, if_pos rfl, Option.getD_none, pathNames, components_nil]
      · exact iff_of_true (zeros 0 (by decide)) rfl
      · exact (and_iff_left (Nat.zero_le _)).symm
  | some rest =>
      obtain ⟨p, rfl, isAt⟩ := restAt
      obtain ⟨q, name', sub', ran, parsed', -, next⟩ :=
        pathParse_returns isAt enough (Strings.memset buf 0 0 maxFileNameLen) r
      refine ⟨q, name', sub', _, _, ran, parsed', ?_,
        fun fits => ⟨overlay_nameIn zeros fits, next fits⟩, rfl, ?_⟩
      · cases name' with
        | nil => exact iff_of_true (zeros 0 (by decide)) rfl
        | cons c cs =>
            refine iff_of_false (fun zero => parsed'.clean ?_) (List.cons_ne_nil c cs)
            exact (overlay_inside (Nat.succ_pos _)).symm.trans zero ▸ List.mem_cons_self
      · rw [Recorded.add_all, judges _ _ zeros parsed'.clean]
        exact and_comm

/-! ## `path_depth_cnt` -/

/-- The loop of `path_depth_cnt` parses the names behind the first. -/
theorem depthLoop_iff (judges : Judges good limit)
    (parsed : Parsed fuel path at_ name sub names) (first : nameStore 0 = 0 ↔ name = [])
    (bound : names.length < left) :
    (after (depthLoop fuel path left at_ nameStore depth) r).All good ↔
      r.All good ∧ ∀ n ∈ names.tail, n.length ≤ limit := by
  induction left generalizing at_ name sub names nameStore depth r with
  | zero => exact absurd bound (Nat.not_lt_zero _)
  | succ left ih =>
      rw [depthLoop]
      have ends := parsed.ends_iff first
      cases names with
      | nil =>
          rw [if_pos (ends.mpr rfl), after_pure]
          exact (and_iff_left fun n member => absurd member List.not_mem_nil).symm
      | cons name₁ names =>
          have full : ¬ nameStore 0 = 0 := fun zero => List.cons_ne_nil name₁ names (ends.mp zero)
          obtain ⟨-, q, name', sub', buf, r', ran, parsed', first', -, -, added⟩ :=
            nextName_returns judges parsed nameStore r
          rw [if_neg full, after_bind_of ran, ih parsed' first' (Nat.lt_of_succ_lt_succ bound),
            added, and_assoc, ← all_short_iff parsed', List.tail_cons]

/-- Where there is no rest of the path, no call is made. -/
theorem depthLoop_none : after (depthLoop fuel path left none nameStore depth) r = r := by
  induction left generalizing nameStore depth with
  | zero => rfl
  | succ left ih =>
      rw [depthLoop]
      split
      case isTrue => rfl
      case isFalse =>
        have ran : Returned (nextName fuel path none nameStore) r
            (none, Strings.memset nameStore 0 0 maxFileNameLen) r := returned_pure.mpr ⟨rfl, rfl⟩
        rw [after_bind_of ran]
        exact ih

/-- The calls of `path_parse` that `path_depth_cnt` makes. -/
def depthCalls (fuel : Nat) (path : Memory) (pathname : Nat) (name : Memory) : List ParseCall :=
  (after (pathDepthCnt fuel path pathname name) (⟨(), []⟩ : Recorded Unit)).calls

/-- All calls that `path_depth_cnt` makes are good if the first is, into the buffer as it was, and
the names behind the first are short. -/
theorem depthCalls_iff (judges : Judges good limit) (isAt : path.StringAt p s)
    (enough : s.length < fuel) (junk : Memory) :
    (∀ call ∈ depthCalls fuel path p junk, good call) ↔
      good ⟨((pathNames s).headD []).length, overlay junk ((pathNames s).headD [])⟩ ∧
        ∀ n ∈ (pathNames s).tail, n.length ≤ limit := by
  obtain ⟨q, name, sub, ran, parsed, lone, -⟩ :=
    pathParse_returns isAt enough junk (⟨(), []⟩ : Recorded Unit)
  have bound : (pathNames s).length < fuel := lt_of_le_of_lt (length_pathNames s) enough
  have start : (⟨(), []⟩ : Recorded Unit).All good :=
    fun call member => absurd member List.not_mem_nil
  rw [headD_eq parsed]
  change (after (pathDepthCnt fuel path p junk) _).All good ↔ _
  rw [pathDepthCnt, after_bind_of ran]
  by_cases empty : name = []
  · rw [lone empty, depthLoop_none, Recorded.add_all, parsed.empty_iff.mp empty]
    simp [start]
  · have first : overlay junk name 0 = 0 ↔ name = [] := by
      have inside := List.length_pos_of_ne_nil empty
      rw [overlay_inside inside]
      exact iff_of_false (fun zero => parsed.clean (zero ▸ List.getElem_mem inside)) empty
    rw [depthLoop_iff judges parsed first bound, Recorded.add_all, and_iff_left start]

/-- `path_depth_cnt` stores no name behind its buffer if no name is longer than the buffer. -/
theorem depthCalls_fit_iff (isAt : path.StringAt p s) (enough : s.length < fuel) (junk : Memory) :
    (∀ call ∈ depthCalls fuel path p junk, call.Fits) ↔
      ∀ name ∈ pathNames s, name.length ≤ maxFileNameLen := by
  rw [depthCalls_iff fits_judges isAt enough, all_iff_headD (pathNames s)]
  exact Iff.rfl

/-- The buffer of `path_depth_cnt` is a string after all calls if, moreover, the names are shorter,
and there was a zero byte behind the first one. -/
theorem depthCalls_safe_iff (isAt : path.StringAt p s) (enough : s.length < fuel) (junk : Memory) :
    (∀ call ∈ depthCalls fuel path p junk, call.Safe) ↔
      (∀ name ∈ pathNames s, name.length ≤ 15) ∧
        ∃ i < maxFileNameLen, ((pathNames s).headD []).length ≤ i ∧ junk i = 0 := by
  obtain ⟨q, name, sub, -, parsed, -⟩ :=
    pathParse_returns isAt enough junk (⟨(), []⟩ : Recorded Unit)
  rw [depthCalls_iff safe_judges isAt enough, all_iff_headD (pathNames s), headD_eq parsed,
    ParseCall.Safe, terminated_overlay parsed.clean]
  constructor
  · rintro ⟨⟨-, i, inside, behind, zero⟩, others⟩
    exact ⟨⟨Nat.le_of_lt_succ (lt_of_le_of_lt behind inside), others⟩, i, inside, behind, zero⟩
  · rintro ⟨⟨first, others⟩, there⟩
    exact ⟨⟨Nat.le_succ_of_le first, there⟩, others⟩

/-- Recording changes no result. -/
theorem pathParse_computes : Computes (pathParse fuel path p nameStore : RecordedCall State _)
    (PathBuffer.pathParse fuel path p nameStore) := by
  refine .bind (.lift _) fun start => .bind (.lift _) fun stopped => ?_
  exact .bind (.modify _) fun _ => .pure _

theorem nextName_computes : Computes (nextName fuel path at_ nameStore : RecordedCall State _)
    (PathBuffer.nextName fuel path at_ nameStore) := by
  cases at_ with
  | none => exact .pure _
  | some p => exact pathParse_computes

theorem pathDepthCnt_computes : Computes (pathDepthCnt fuel path p nameStore : RecordedCall State _)
    (PathBuffer.pathDepthCnt fuel path p nameStore) := by
  have loop : ∀ left at_ name depth,
      Computes (depthLoop fuel path left at_ name depth : RecordedCall State _)
        (PathBuffer.depthLoop fuel path left at_ name depth) := by
    intro left
    induction left with
    | zero => exact fun at_ name depth => .throw _
    | succ left ih =>
        intro at_ name depth
        rw [depthLoop, PathBuffer.depthLoop]
        split
        case isTrue => exact .pure _
        case isFalse => exact .bind nextName_computes fun parsed => ih _ _ _
  exact .bind pathParse_computes fun parsed => loop _ _ _ _

end

/-! ## `search_file` -/

/-- A directory that is open has an entry with a name. -/
def HasEntry {part : Partition} (s : FsState part) (dir : Dir) (name : List Byte)
    (dirE : DirEntry) : Prop :=
  ∃ inode, s.inodes (s.dirInode dir) = some inode ∧ searchBlocks s.disk inode name = some dirE

/-- The names to which a search comes that has names before it in an open directory: the first; the
one behind it, if the directory has an entry for the first; and those to which it comes from there,
in the directory of the entry, or in the same one if the entry is neither a directory nor a regular
file. -/
inductive ComesTo {part : Partition} :
    FsState part → Dir → List (List Byte) → List Byte → Prop where
  | first {s : FsState part} {dir : Dir} {name : List Byte} {names : List (List Byte)} :
      ComesTo s dir (name :: names) name
  | behind {s : FsState part} {dir : Dir} {name next : List Byte} {names : List (List Byte)}
      {dirE : DirEntry} :
      HasEntry s dir name dirE → ComesTo s dir (name :: next :: names) next
  | within {s s' : FsState part} {dir dir' : Dir} {name next : List Byte}
      {names : List (List Byte)} {dirE : DirEntry} {n : Word} :
      HasEntry s dir name dirE → dirE.fType = ftDirectory →
        (enterDir dir dirE.iNo).run s = .ok ((n, dir'), s') → ComesTo s' dir' names next →
          ComesTo s dir (name :: names) next
  | beside {s : FsState part} {dir : Dir} {name next : List Byte} {names : List (List Byte)}
      {dirE : DirEntry} :
      HasEntry s dir name dirE → dirE.fType ≠ ftDirectory → dirE.fType ≠ ftRegular →
        ComesTo s dir names next → ComesTo s dir (name :: names) next

section

variable {part : Partition} {s₀ s₁ : FsState part} {r r' : Recorded (FsState part)}
  {path nameStore : Memory} {p fuel left : Nat} {s name next : List Byte} {dir : Dir}
  {dirE : DirEntry} {names : List (List Byte)} {sub : Option (List Byte)} {at_ : Option Nat}
  {v : SearchVars} {junk : Word} {α : Type} {call : FsCall part α}

theorem HasEntry.unique {dirE' : DirEntry} (has : HasEntry s₀ dir name dirE)
    (has' : HasEntry s₀ dir name dirE') : dirE' = dirE := by
  obtain ⟨inode, live, found⟩ := has
  obtain ⟨inode', live', found'⟩ := has'
  cases live.symm.trans live'
  exact Option.some.inj (found'.symm.trans found)

/-- The names to which a search comes are names of the path. -/
theorem ComesTo.mem (comes : ComesTo s₀ dir names next) : next ∈ names := by
  induction comes with
  | first => exact List.mem_cons_self
  | behind => exact List.mem_cons_of_mem _ List.mem_cons_self
  | within _ _ _ _ ih => exact List.mem_cons_of_mem _ ih
  | beside _ _ _ _ ih => exact List.mem_cons_of_mem _ ih

/-- A search comes to no name behind one that the directory does not have. -/
theorem ComesTo.of_missing (missing : ∀ dirE, ¬ HasEntry s₀ dir name dirE)
    (comes : ComesTo s₀ dir (name :: names) next) : next = name := by
  cases comes with
  | first => rfl
  | behind has => exact absurd has (missing _)
  | within has => exact absurd has (missing _)
  | beside has => exact absurd has (missing _)

/-- Behind a name that the directory has, a search comes to the next one, and may go on. -/
theorem ComesTo.of_entry (has : HasEntry s₀ dir name dirE)
    (comes : ComesTo s₀ dir (name :: names) next) :
    next = name ∨ next ∈ names.head? ∨
      (dirE.fType = ftDirectory ∧ ∃ n dir' s', (enterDir dir dirE.iNo).run s₀ =
        .ok ((n, dir'), s') ∧
        ComesTo s' dir' names next) ∨
      (dirE.fType ≠ ftDirectory ∧ dirE.fType ≠ ftRegular ∧ ComesTo s₀ dir names next) := by
  cases comes with
  | first => exact .inl rfl
  | behind => exact .inr (.inl rfl)
  | within has' directory entered comes =>
      cases has.unique has'
      exact .inr (.inr (.inl ⟨directory, _, _, _, entered, comes⟩))
  | beside has' notDirectory notRegular comes =>
      cases has.unique has'
      exact .inr (.inr (.inr ⟨notDirectory, notRegular, comes⟩))

/-! ### Calls on the file system -/

theorem returned_onFs {a : α} :
    Returned (onFs call) r a r' ↔ call.run r.own = .ok (a, r'.own) ∧ r'.calls = r.calls := by
  change (match call.run r.own with
    | .ok (a, s) => (.ok a, { r with own := s })
    | .error fault => (.error fault, r) : Except Fault α × Recorded (FsState part)) = _ ↔ _
  cases ran : call.run r.own with
  | error fault => simp
  | ok result =>
      obtain ⟨value, s'⟩ := result
      obtain ⟨own', calls'⟩ := r'
      simp only [Prod.mk.injEq, Except.ok.injEq, Recorded.mk.injEq]
      grind

/-- A call on the file system is not recorded. -/
theorem calls_onFs : (after (onFs call) r).calls = r.calls := by
  change (match call.run r.own with
    | .ok (a, s) => (.ok a, { r with own := s })
    | .error fault => (.error fault, r) : Except Fault α × Recorded (FsState part)).2.calls = _
  cases call.run r.own with
  | error fault => rfl
  | ok result => rfl

/-- The string of a name that is shorter than the buffer. -/
theorem stringIn_stringAt (nameAt : nameStore.StringAt 0 name)
    (short : name.length < maxFileNameLen) :
    stringIn nameStore = .ok name := by
  have found : (List.range maxFileNameLen).find? (nameStore · = 0) = some name.length := by
    refine List.find?_range_eq_some.mpr ⟨?_, List.mem_range.mpr short, fun j before => ?_⟩
    · have ends := nameAt.ends
      rw [Nat.zero_add] at ends
      exact decide_eq_true ends
    · have inside := nameAt.ne_zero before
      rw [Nat.zero_add] at inside
      simpa using inside
  rw [stringIn, found]
  refine congrArg Except.ok (List.ext_getElem (by simp) fun i _ inside => ?_)
  have here := nameAt.holds i inside
  rw [Nat.zero_add] at here
  simpa using here

/-! ### Records -/

/-- The calls that were made before are still recorded. -/
def Grows {State : Type} (r r' : Recorded State) : Prop := r.calls ⊆ r'.calls

instance {State : Type} : Std.Refl (@Grows State) := ⟨fun r => List.Subset.refl r.calls⟩

instance {State : Type} : IsTrans (Recorded State) Grows := ⟨fun _ _ _ => List.Subset.trans⟩

theorem Grows.loses {State : Type} {r r' : Recorded State} (grows : Grows r r')
    (good : ParseCall → Prop) : Loses (Recorded.All good) r r' :=
  fun all call member => all call (grows member)

theorem pathParse_grows {State : Type} :
    Leaves Grows (pathParse fuel path p nameStore : RecordedCall State _) := by
  refine .bind (.lift _) fun start => .bind (.lift _) fun stopped => ?_
  exact .bind (.modify fun r => List.subset_cons_self _ r.calls) fun _ => .pure _

theorem nextName_grows {State : Type} :
    Leaves Grows (nextName fuel path at_ nameStore : RecordedCall State _) := by
  cases at_ with
  | none => exact .pure _
  | some p => exact pathParse_grows

theorem onFs_grows : Leaves Grows (onFs call) := by
  intro r
  rw [Grows, calls_onFs]
  exact List.Subset.refl _

theorem searchOn_grows {loop : SearchVars → RecordedCall (FsState part) (Word × PathSearchRecord)}
    {record : PathSearchRecord} {parentInodeNo : Word} (each : ∀ v, Leaves Grows (loop v)) :
    Leaves Grows (searchOn loop record parentInodeNo dirE at_ nameStore) := by
  unfold searchOn
  split_ifs
  · exact .bind onFs_grows fun entered => each _
  · exact .pure _
  · exact each _

theorem searchLoop_grows :
    Leaves Grows (searchLoop fuel path left v : RecordedCall (FsState part) _) := by
  induction left generalizing v with
  | zero => exact .throw _
  | succ left ih =>
      rw [searchLoop]
      split
      case isTrue => exact .bind onFs_grows fun _ => .bind onFs_grows fun _ => .pure _
      case isFalse =>
        refine .bind (.lift _) fun _ => .bind (.lift _) fun name => .bind .get fun r => ?_
        refine .bind onFs_grows fun found => ?_
        cases found with
        | none => exact .pure _
        | some dirE => exact .bind nextName_grows fun parsed => searchOn_grows fun v => ih

/-! ### The loop -/

/-- A call on the file system, and what is done if it returns. -/
theorem onFs_bind {β : Type} (call : FsCall part α) (rest : α → RecordedCall (FsState part) β)
    (r : Recorded (FsState part)) :
    (∃ a s, call.run r.own = .ok (a, s) ∧
      after (onFs call >>= rest) r = after (rest a) ⟨s, r.calls⟩) ∨
    ((∀ a s, call.run r.own ≠ .ok (a, s)) ∧
      ∀ good, (after (onFs call >>= rest) r).All good ↔ r.All good) := by
  cases ran : call.run r.own with
  | error fault =>
      have stopped : ∀ a r', ¬ Returned (onFs call) r a r' := by
        intro a r' returned
        cases ran.symm.trans (returned_onFs.mp returned).1
      refine .inr ⟨fun a s same => (by cases same), fun good => ?_⟩
      rw [after_bind_stopped stopped, Recorded.All, calls_onFs]
      exact Iff.rfl
  | ok result =>
      obtain ⟨a, s⟩ := result
      have returned : Returned (onFs call) r a ⟨s, r.calls⟩ := returned_onFs.mpr ⟨ran, rfl⟩
      exact .inl ⟨a, s, rfl, after_bind_of returned⟩

/-- The end of `search_file` where the path led to a directory: it parses nothing. -/
theorem closing_all {good : ParseCall → Prop} {record : PathSearchRecord}
    {inodeNo parentInodeNo : Word} :
    (after (do
        onFs (dirClose record.parentDir)
        let parentDir ← onFs (dirOpen parentInodeNo)
        return (inodeNo, { record with parentDir := parentDir, fileType := ftDirectory }) :
      RecordedCall (FsState part) (Word × PathSearchRecord)) r).All good ↔ r.All good := by
  rcases onFs_bind (dirClose record.parentDir) _ r with ⟨_, s, -, same⟩ | ⟨-, same⟩
  · rw [same]
    rcases onFs_bind (dirOpen parentInodeNo) _ ⟨s, r.calls⟩ with ⟨dir, s', -, same'⟩ | ⟨-, same'⟩
    · rw [same']
      exact Iff.rfl
    · exact same' good
  · exact same good

/-- What holds of the name that was parsed first and of the one behind it holds of all names to
which a search comes, if it holds of those to which it comes from where it goes on. -/
theorem comesTo_forall {P : List Byte → Prop} (has : HasEntry s₀ dir name dirE) (here : P name)
    (behind : ∀ next ∈ names.head?, P next) :
    (∀ next, ComesTo s₀ dir (name :: names) next → P next) ↔
      (dirE.fType = ftDirectory → ∀ n dir' s', (enterDir dir dirE.iNo).run s₀ =
        .ok ((n, dir'), s') →
        ∀ next, ComesTo s' dir' names next → P next) ∧
      (dirE.fType ≠ ftDirectory → dirE.fType ≠ ftRegular →
        ∀ next, ComesTo s₀ dir names next → P next) := by
  constructor
  · intro all
    exact ⟨fun directory n dir' s' entered next comes =>
      all next (.within has directory entered comes),
      fun notDirectory notRegular next comes =>
        all next (.beside has notDirectory notRegular comes)⟩
  · rintro ⟨inside, other⟩ next comes
    rcases comes.of_entry has with rfl | isNext | ⟨directory, n, dir', s', entered, comes'⟩ |
      ⟨notDirectory, notRegular, comes'⟩
    · exact here
    · exact behind next isNext
    · exact inside directory n dir' s' entered next comes'
    · exact other notDirectory notRegular next comes'

/-- A round of the loop, behind the parsing of the next name. -/
theorem searchOn_iff {loop : SearchVars → RecordedCall (FsState part) (Word × PathSearchRecord)}
    {record : PathSearchRecord} {parentInodeNo : Word}
    (each : ∀ v r, v.name = nameStore → v.subPath = at_ →
      v.record.searchedPath = record.searchedPath →
        ((after (loop v) r).All ParseCall.Safe ↔ r.All ParseCall.Safe ∧
          ∀ next, ComesTo r.own v.record.parentDir names next → next.length ≤ 15))
    (has : HasEntry r.own record.parentDir name dirE) (here : name.length ≤ 15)
    (behind : ∀ next ∈ names.head?, next.length ≤ 15) :
    (after (searchOn loop record parentInodeNo dirE at_ nameStore) r).All ParseCall.Safe ↔
      r.All ParseCall.Safe ∧
        ∀ next, ComesTo r.own record.parentDir (name :: names) next → next.length ≤ 15 := by
  rw [comesTo_forall has here behind, searchOn]
  by_cases directory : dirE.fType = ftDirectory
  · rw [if_pos directory]
    rcases onFs_bind (enterDir record.parentDir dirE.iNo) _ r with
      ⟨⟨n, dir'⟩, s', entered, same⟩ | ⟨stopped, same⟩
    · rw [same]
      refine (each _ _ rfl rfl rfl).trans (and_congr_right' ?_)
      constructor
      · refine fun all => ⟨fun _ n' dir'' s'' entered' => ?_, fun other => absurd directory other⟩
        cases entered.symm.trans entered'
        exact all
      · exact fun both => both.1 directory n dir' s' entered
    · rw [same]
      refine (and_iff_left ⟨fun _ n' dir' s' entered => ?_, fun other => ?_⟩).symm
      · exact absurd entered (stopped _ _)
      · exact absurd directory other
  · rw [if_neg directory]
    by_cases regular : dirE.fType = ftRegular
    · rw [if_pos regular]
      refine (and_iff_left ⟨fun isDirectory => ?_, fun _ other => ?_⟩).symm
      · exact absurd isDirectory directory
      · exact absurd regular other
    · rw [if_neg regular, each _ _ rfl rfl rfl]
      refine and_congr_right' ⟨fun all => ⟨fun isDirectory => ?_, fun _ _ => all⟩, fun both => ?_⟩
      · exact absurd isDirectory directory
      · exact both.2 directory regular

/-- The loop of `search_file`: it parses the names to which the search comes. -/
theorem searchLoop_iff (parsed : Parsed fuel path v.subPath name sub names)
    (nameIn : NameIn v.name name) (short : name.length ≤ 15) (bound : names.length < left)
    (room : v.record.searchedPath.length + (names.map fun name => name.length + 1).sum <
      maxPathLen) :
    (after (searchLoop fuel path left v) r).All ParseCall.Safe ↔
      r.All ParseCall.Safe ∧
        ∀ next, ComesTo r.own v.record.parentDir names next → next.length ≤ 15 := by
  induction left generalizing v name sub names r with
  | zero => exact absurd bound (Nat.not_lt_zero _)
  | succ left ih =>
      rw [searchLoop]
      have ends := parsed.ends_iff (nameIn.first parsed.clean)
      cases names with
      | nil =>
          rw [if_pos (ends.mpr rfl), closing_all]
          exact (and_iff_left fun next comes => absurd comes.mem List.not_mem_nil).symm
      | cons name₁ names =>
          have full : ¬ v.name 0 = 0 := fun zero => List.cons_ne_nil name₁ names (ends.mp zero)
          obtain ⟨rfl, q, name', sub', buf, r₁, ran, parsed', first', nameIn', own, added⟩ :=
            nextName_returns safe_judges parsed v.name r
          have nameAt : v.name.StringAt 0 name :=
            stringAt_of_nameIn nameIn (Nat.lt_succ_of_le short) parsed.clean
          have isName : stringIn v.name = .ok name :=
            stringIn_stringAt nameAt (Nat.lt_succ_of_le short)
          rw [List.map_cons, List.sum_cons] at room
          rw [if_neg full, after_bind_of (returned_lift.mpr ⟨require_of (by omega), rfl⟩),
            after_bind_of (returned_lift.mpr ⟨isName, rfl⟩)]
          dsimp only
          rw [after_bind_of (returned_get.mpr ⟨rfl, rfl⟩)]
          rcases onFs_bind (searchDirEntry (r.own.dirInode v.record.parentDir) name) _ r with
            ⟨found, _, looked, same⟩ | ⟨stopped, same⟩
          · obtain ⟨inode, live, named, rfl⟩ := searchDirEntry_returns.mp looked
            rw [same]
            cases found with
            | none =>
                have missing : ∀ dirE, ¬ HasEntry r.own v.record.parentDir name dirE := by
                  rintro dirE ⟨inode', live', named'⟩
                  cases live.symm.trans live'
                  cases named.symm.trans named'
                exact (and_iff_left fun next comes => comes.of_missing missing ▸ short).symm
            | some dirE =>
                have has : HasEntry r.own v.record.parentDir name dirE := ⟨inode, live, named⟩
                dsimp only
                rw [after_bind_of ran]
                dsimp only
                by_cases short' : name'.length ≤ 15
                · have each : ∀ v' (r' : Recorded (FsState part)), v'.name = buf → v'.subPath = q →
                      v'.record.searchedPath = v.record.searchedPath ++ slash :: name →
                        ((after (searchLoop fuel path left v') r').All ParseCall.Safe ↔
                          r'.All ParseCall.Safe ∧ ∀ next,
                            ComesTo r'.own v'.record.parentDir names next → next.length ≤ 15) := by
                    rintro v' r' rfl rfl isPath
                    refine ih parsed' (nameIn' (Nat.le_succ_of_le short')).1 short'
                      (Nat.lt_of_succ_lt_succ bound) ?_
                    rw [isPath, List.length_append, List.length_cons]
                    omega
                  rw [searchOn_iff each (own ▸ has) short ((head_short parsed').mpr short'), own,
                    added,
                    and_iff_left short']
                · have long : ¬ ∀ next, ComesTo r.own v.record.parentDir (name :: names) next →
                      next.length ≤ 15 := by
                    intro all
                    refine short' ((head_short parsed').mp fun next isNext => ?_)
                    obtain ⟨rest, rfl⟩ := List.head?_eq_some_iff.mp isNext
                    exact all next (.behind has)
                  refine iff_of_false (fun all => short' ?_) fun both => long both.2
                  have grows : Leaves Grows (searchOn (searchLoop fuel path left)
                      { v.record with searchedPath := v.record.searchedPath ++ slash :: name }
                      v.parentInodeNo dirE q buf : RecordedCall (FsState part) _) :=
                    searchOn_grows fun v => searchLoop_grows
                  exact (added.mp ((grows r₁).loses _ all)).2
          · have missing : ∀ dirE, ¬ HasEntry r.own v.record.parentDir name dirE := by
              rintro dirE ⟨inode, live, named⟩
              exact stopped _ _ (searchDirEntry_returns.mpr ⟨inode, live, named, rfl⟩)
            rw [same]
            exact (and_iff_left fun next comes => comes.of_missing missing ▸ short).symm

/-- The calls of `path_parse` that `search_file` makes. -/
def searchCalls (fuel : Nat) (path : Memory) (pathname : Nat) (junk : Word) (s : FsState part) :
    List ParseCall :=
  (after (searchFile fuel path pathname junk) ⟨s, []⟩).calls

/-- The string of a path, as it is compared with the paths of the root directory. -/
theorem chars_of_stringAt (isAt : path.StringAt p s) :
    (List.range s.length).map (path.shift p) = s := by
  refine List.ext_getElem (by simp) fun i _ inside => ?_
  rw [List.getElem_map, List.getElem_range]
  exact isAt.holds i inside

theorem starts_iff (isAt : path.StringAt p s) : path p = slash ↔ s.head? = some slash := by
  cases s with
  | nil =>
      rw [Memory.StringAt.nil_iff.mp isAt]
      exact iff_of_false (by decide) (Option.some_ne_none slash).symm
  | cons c cs =>
      rw [(Memory.StringAt.cons_iff.mp isAt).1]
      exact (Option.some.injEq c slash).to_iff.symm

theorem rootPaths_short : ∀ s ∈ rootPaths, ∀ name ∈ pathNames s, name.length ≤ 15 := by
  decide +kernel

/-- All calls that `search_file` makes are safe if the names to which the search comes are short. -/
theorem searchCalls_iff (isAt : path.StringAt p s) (short : s.length < maxPathLen)
    (enough : s.length < fuel) (fs : FsState part) :
    (∀ call ∈ searchCalls fuel path p junk fs, call.Safe) ↔
      (s.head? = some slash → ∀ next, ComesTo fs .root (pathNames s) next → next.length ≤ 15) := by
  have start : (⟨fs, []⟩ : Recorded (FsState part)).All ParseCall.Safe :=
    fun call member => absurd member List.not_mem_nil
  have measured : Strings.strlen fuel (path.shift p) = .ok s.length :=
    Strings.strlen_runs (Memory.shift_stringAt.mpr isAt) enough
  change (after (searchFile fuel path p junk) _).All _ ↔ _
  rw [searchFile, after_bind_of (returned_lift.mpr ⟨measured, rfl⟩), chars_of_stringAt isAt]
  by_cases isRoot : s ∈ rootPaths
  · rw [if_pos isRoot]
    exact iff_of_true start fun _ next comes => rootPaths_short s isRoot next comes.mem
  rw [if_neg isRoot]
  by_cases absolute : s.head? = some slash
  · have long : 1 < s.length := by
      rcases s with _ | ⟨c, _ | ⟨c', cs⟩⟩
      · cases absolute
      · cases absolute
        exact absurd (by simp [rootPaths]) isRoot
      · simp
    obtain ⟨q, name, sub, ran, parsed, -⟩ :=
      pathParse_returns isAt enough Memory.zeros (⟨fs, []⟩ : Recorded (FsState part))
    have zeros : ∀ i < maxFileNameLen, Memory.zeros i = 0 := fun _ _ => rfl
    have judged := safe_judges Memory.zeros name zeros parsed.clean
    have room := pathNames_room absolute
    rw [after_bind_of (returned_lift.mpr
      ⟨require_of ⟨(starts_iff isAt).mpr absolute, long, short⟩, rfl⟩), after_bind_of ran]
    by_cases fits : name.length ≤ 15
    · have nameIn : NameIn (overlay Memory.zeros name) name :=
        overlay_nameIn zeros (Nat.le_succ_of_le fits)
      have bound : (pathNames s).length < fuel := lt_of_le_of_lt (length_pathNames s) enough
      refine (searchLoop_iff parsed nameIn fits bound ?_).trans ?_
      · rw [List.length_nil, Nat.zero_add]
        exact lt_of_le_of_lt room short
      · rw [Recorded.add_all, judged, and_iff_left start, and_iff_right fits]
        exact ⟨fun all _ => all, fun all => all absolute⟩
    · refine iff_of_false (fun all => fits ?_) fun all => fits ?_
      · have grows := searchLoop_grows _ |>.loses ParseCall.Safe all
        exact judged.mp (Recorded.add_all.mp grows).1
      · refine (head_short parsed).mp fun next isNext => ?_
        obtain ⟨rest, names⟩ := List.head?_eq_some_iff.mp isNext
        exact all absolute next (names ▸ .first)
  · have stopped : ∀ a r', ¬ Returned (liftM (require (path p = slash ∧ 1 < s.length ∧
        s.length < maxPathLen)) : RecordedCall (FsState part) Unit) ⟨fs, []⟩ a r' := by
      intro a r' returned
      have begins := (require_eq_ok.mp (returned_lift.mp returned).1).1
      exact absolute ((starts_iff isAt).mp begins)
    rw [after_bind_stopped stopped]
    exact iff_of_true start fun head => absurd head absolute

/-! ### The search without a record -/

/-- A recorded call returns what a call on the file system returns, and changes the file system in
the same way. -/
def Mirrors (r : Recorded (FsState part)) (recorded : RecordedCall (FsState part) α)
    (call : FsCall part α) : Prop :=
  ∀ a s, (∃ calls, Returned recorded r a ⟨s, calls⟩) ↔ call.run r.own = .ok (a, s)

theorem Mirrors.pure (a : α) : Mirrors r (Pure.pure a) (Pure.pure a) := by
  intro b s
  rw [call_pure_returns]
  constructor
  · rintro ⟨calls, returned⟩
    obtain ⟨rfl, rfl⟩ := returned_pure.mp returned
    exact ⟨rfl, rfl⟩
  · rintro ⟨rfl, rfl⟩
    exact ⟨r.calls, returned_pure.mpr ⟨rfl, rfl⟩⟩

theorem Mirrors.onFs {β : Type} {second : α → RecordedCall (FsState part) β}
    {second' : α → FsCall part β}
    (mirrors : ∀ a r', call.run r.own = .ok (a, r'.own) → Mirrors r' (second a) (second' a)) :
    Mirrors r (NameBuffer.onFs call >>= second) (call >>= second') := by
  intro b s
  rw [call_bind_returns]
  constructor
  · rintro ⟨calls, returned⟩
    obtain ⟨a, r₁, first, rest⟩ := returned_bind.mp returned
    obtain ⟨ran, -⟩ := returned_onFs.mp first
    exact ⟨a, r₁.own, ran, (mirrors a r₁ ran b s).mp ⟨calls, rest⟩⟩
  · rintro ⟨a, s₁, ran, rest⟩
    obtain ⟨calls, returned⟩ := (mirrors a ⟨s₁, r.calls⟩ ran b s).mpr rest
    exact ⟨calls, returned_bind.mpr
      ⟨a, ⟨s₁, r.calls⟩, returned_onFs.mpr ⟨ran, rfl⟩, returned⟩⟩

theorem Mirrors.lift {β : Type} {result : Except Fault α}
    {second : α → RecordedCall (FsState part) β} {second' : α → FsCall part β}
    (mirrors : ∀ a, Mirrors r (second a) (second' a)) :
    Mirrors r (liftM result >>= second) (liftM result >>= second') := by
  intro b s
  rw [call_bind_returns]
  constructor
  · rintro ⟨calls, returned⟩
    obtain ⟨a, r₁, first, rest⟩ := returned_bind.mp returned
    obtain ⟨is, rfl⟩ := returned_lift.mp first
    exact ⟨a, _, call_lift_returns.mpr ⟨is, rfl⟩, (mirrors a b s).mp ⟨calls, rest⟩⟩
  · rintro ⟨a, s₁, lifted, rest⟩
    obtain ⟨is, rfl⟩ := call_lift_returns.mp lifted
    obtain ⟨calls, returned⟩ := (mirrors a b s).mpr rest
    exact ⟨calls, returned_bind.mpr ⟨a, r, returned_lift.mpr ⟨is, rfl⟩, returned⟩⟩

/-- A call that returns and leaves the file system alone. -/
theorem Mirrors.alone {β : Type} {first : RecordedCall (FsState part) α}
    {second : α → RecordedCall (FsState part) β} {call : FsCall part β} {a : α}
    (returned : Returned first r a r') (same : r'.own = r.own)
    (mirrors : Mirrors r' (second a) call) :
    Mirrors r (first >>= second) call := by
  intro b s
  rw [← same, ← mirrors b s]
  unfold Returned
  rw [outcome_bind_of returned]

/-- Two calls that return, whatever they return, and what is done with it. -/
theorem Mirrors.step {β γ : Type} {first : RecordedCall (FsState part) α} {first' : FsCall part γ}
    {second : α → RecordedCall (FsState part) β} {second' : γ → FsCall part β} {a : α} {c : γ}
    (returned : Returned first r a r') (ran : first'.run r.own = .ok (c, r'.own))
    (mirrors : Mirrors r' (second a) (second' c)) :
    Mirrors r (first >>= second) (first' >>= second') := by
  intro b s
  rw [call_bind_of ran, ← mirrors b s]
  unfold Returned
  rw [outcome_bind_of returned]

/-- What `search_file` does to go into a directory, step by step. -/
theorem enterDir_bind {β : Type} {inodeNo : Word} (rest : Word → Dir → FsCall part β) :
    (enterDir dir inodeNo >>= fun entered => rest entered.1 entered.2).run s₀ =
      (do
        let parent ← deref (s₀.dirInode dir)
        dirClose dir
        let parentDir ← dirOpen inodeNo
        rest parent.iNo parentDir : FsCall part β).run s₀ := by
  unfold enterDir
  simp only [bind_assoc, pure_bind]
  rw [call_bind_of (call_get_returns.mpr ⟨rfl, rfl⟩)]

/-- The round for an entry that was found. -/
theorem searchOn_mirrors {left' : Nat} {subPath : Option (List Byte)} {record : PathSearchRecord}
    {parentInodeNo : Word}
    {loop : SearchVars → RecordedCall (FsState part) (Word × PathSearchRecord)}
    (each : ∀ v r, v.name = nameStore → v.subPath = at_ →
      v.record.searchedPath = record.searchedPath →
        Mirrors r (loop v) (Fs.searchLoop left' ⟨name, subPath, v.inodeNo, v.parentInodeNo,
          v.record⟩)) :
    Mirrors r (searchOn loop record parentInodeNo dirE at_ nameStore)
      (if dirE.fType = ftDirectory then do
        let parent ← deref (r.own.dirInode record.parentDir)
        dirClose record.parentDir
        let parentDir ← dirOpen dirE.iNo
        Fs.searchLoop left' {
          name := name
          subPath := subPath
          inodeNo := dirE.iNo
          parentInodeNo := parent.iNo
          record := { record with parentDir := parentDir } }
      else if dirE.fType = ftRegular then
        return (dirE.iNo, { record with fileType := ftRegular })
      else
        Fs.searchLoop left' {
          name := name
          subPath := subPath
          inodeNo := dirE.iNo
          parentInodeNo := parentInodeNo
          record := record }) := by
  unfold searchOn
  split_ifs
  · intro a s
    rw [← enterDir_bind fun parentNo parentDir => Fs.searchLoop left' {
      name := name
      subPath := subPath
      inodeNo := dirE.iNo
      parentInodeNo := parentNo
      record := { record with parentDir := parentDir } }]
    exact Mirrors.onFs (fun entered r _ => each _ r rfl rfl rfl) a s
  · exact .pure _
  · exact each _ r rfl rfl rfl

/-- The loop of `search_file` does with the characters of the path in memory what it does with their
list, if the names are short. -/
theorem searchLoop_mirrors {left' : Nat} (parsed : Parsed fuel path v.subPath name sub names)
    (nameIn : NameIn v.name name) (fits : ∀ n ∈ names, n.length ≤ 15) (bound : names.length < left)
    (bound' : names.length < left') :
    Mirrors r (searchLoop fuel path left v)
      (Fs.searchLoop left' ⟨name, sub, v.inodeNo, v.parentInodeNo, v.record⟩) := by
  induction left generalizing v name sub names left' r with
  | zero => exact absurd bound (Nat.not_lt_zero _)
  | succ left ih =>
      obtain ⟨left', rfl⟩ := Nat.exists_eq_succ_of_ne_zero (Nat.ne_zero_of_lt bound')
      rw [searchLoop, Fs.searchLoop]
      have first := nameIn.first parsed.clean
      cases names with
      | nil =>
          have empty : name = [] := parsed.empty_iff.mpr rfl
          rw [if_pos (first.mpr empty), if_pos empty]
          exact .onFs fun _ r _ => .onFs fun parentDir r _ => .pure _
      | cons name₁ names =>
          have nonempty : name ≠ [] := fun empty =>
            List.cons_ne_nil name₁ names (parsed.empty_iff.mp empty)
          obtain ⟨short, shorter⟩ := List.forall_mem_cons.mp fits
          have isName : name = name₁ := (headD_eq parsed).symm
          subst isName
          have nameAt : v.name.StringAt 0 name :=
            stringAt_of_nameIn nameIn (Nat.lt_succ_of_le short) parsed.clean
          have inBuffer : stringIn v.name = .ok name :=
            stringIn_stringAt nameAt (Nat.lt_succ_of_le short)
          have notFull : ¬ name.length = maxFileNameLen := by
            unfold maxFileNameLen
            omega
          rw [if_neg fun zero => nonempty (first.mp zero), if_neg nonempty, if_neg notFull]
          refine .lift fun _ => .alone (returned_lift.mpr ⟨inBuffer, rfl⟩) rfl ?_
          refine .step (returned_get.mpr ⟨rfl, rfl⟩) (call_get_returns.mpr ⟨rfl, rfl⟩) ?_
          refine .onFs fun found r₁ looked => ?_
          obtain ⟨-, -, -, same⟩ := searchDirEntry_returns.mp looked
          cases found with
          | none => exact .pure _
          | some dirE =>
              obtain ⟨-, q, name', sub', buf, r₂, ran, parsed', -, fits', own, -⟩ :=
                nextName_returns safe_judges parsed v.name r₁
              have short' := (all_short_iff parsed').mp shorter
              obtain ⟨nameIn', next⟩ := fits' (Nat.le_succ_of_le short'.1)
              refine .step ran (call_lift_returns.mpr ⟨next, own.symm⟩) ?_
              dsimp only
              rw [same, ← own]
              refine searchOn_mirrors fun v' r' isBuf isRest _ => ?_
              subst isBuf isRest
              exact ih parsed' nameIn' shorter (Nat.lt_of_succ_lt_succ bound)
                (Nat.lt_of_succ_lt_succ bound')

/-- `search_file` does with the characters of the path in memory what it does with their list, if
all names of the path are short. -/
theorem searchFile_mirrors (isAt : path.StringAt p s) (enough : s.length < fuel)
    (fits : ∀ name ∈ pathNames s, name.length ≤ 15) (fs : FsState part) :
    Mirrors ⟨fs, []⟩ (searchFile fuel path p junk) (Fs.searchFile junk s) := by
  have measured : Strings.strlen fuel (path.shift p) = .ok s.length :=
    Strings.strlen_runs (Memory.shift_stringAt.mpr isAt) enough
  rw [searchFile, Fs.searchFile]
  refine .alone (returned_lift.mpr ⟨measured, rfl⟩) rfl ?_
  rw [chars_of_stringAt isAt]
  split_ifs
  · exact .pure _
  · have asserted : require (path p = slash ∧ 1 < s.length ∧ s.length < maxPathLen) =
        require (s.head? = some slash ∧ 1 < s.length ∧ s.length < maxPathLen) :=
      if_congr (and_congr_left' (starts_iff isAt)) rfl rfl
    obtain ⟨q, name, sub, returned, parsed, -, next⟩ :=
      pathParse_returns isAt enough Memory.zeros (⟨fs, []⟩ : Recorded (FsState part))
    have short := Nat.le_succ_of_le ((all_short_iff parsed).mp fits).1
    have nameIn : NameIn (overlay Memory.zeros name) name := overlay_nameIn (fun _ _ => rfl) short
    have count := length_pathNames s
    rw [asserted]
    refine .lift fun _ => .step returned (call_lift_returns.mpr ⟨next short, rfl⟩) ?_
    exact searchLoop_mirrors parsed nameIn fits (by omega) (by omega)

end

end UKernel.NameBuffer
