import UKernel.Fs.SmallTree

/-! # Searching for a path

`search_file` in a well-formed file system follows the names of the path from the root directory
(`UKernel.Fs.searchFile_finds`). It stops at a regular file, also in the middle of the path, and
for a path of slashes only it returns a number that it has not written. The main result is
`UKernel.Fs.search_correct_iff`.
-/

namespace UKernel.Fs

open UKernel.Library

variable {part : Partition} {s s' : FsState part} {held : Ptr → Nat} {d i type p : Word}
  {disk : Memory} {names : List (List Byte)} {pathname : List Byte}

/-! ## Taking a path apart -/

/-- The names that a loop over a path has before it, where it holds one of them. -/
def ahead (name : List Byte) (subPath : Option (List Byte)) : List (List Byte) :=
  if name = [] then [] else name :: pathNames (subPath.getD [])

/-- The names fit the buffer, and are strings. -/
def ShortNames (names : List (List Byte)) : Prop :=
  ∀ name ∈ names, name.length ≤ 15 ∧ 0 ∉ name

section

variable {seps name rest : List Byte}

theorem pathParse_none (all : ∀ c ∈ pathname, c = slash) : pathParse pathname = .ok ([], none) := by
  have nothing : pathname.dropWhile (· = slash) = [] :=
    List.dropWhile_eq_nil_iff.mpr fun c member => decide_eq_true (all c member)
  rw [pathParse, nothing]
  rfl

/-- Slashes in front of a name are passed. -/
theorem dropWhile_seps (rest : List Byte) (all : ∀ c ∈ seps, c = slash) (nonempty : name ≠ [])
    (free : slash ∉ name) :
    (seps ++ (name ++ rest)).dropWhile (· = slash) = name ++ rest := by
  obtain ⟨c, cs, rfl⟩ := List.exists_cons_of_ne_nil nonempty
  have other : c ≠ slash := fun same => free (same ▸ List.mem_cons_self)
  rw [List.dropWhile_append_of_pos fun c member => decide_eq_true (all c member), List.cons_append,
    List.dropWhile_cons_of_neg (by simpa using other)]

/-- A name is copied up to its end. -/
theorem takeWhile_name (free : slash ∉ name) (stops : ∀ c ∈ rest.head?, c = slash) :
    (name ++ rest).takeWhile (· ≠ slash) = name ∧ (name ++ rest).dropWhile (· ≠ slash) = rest := by
  have inside : ∀ c ∈ name, decide (c ≠ slash) = true := fun c member =>
    decide_eq_true fun same => free (same ▸ member)
  rw [List.takeWhile_append_of_pos inside, List.dropWhile_append_of_pos inside]
  cases rest with
  | nil => simp
  | cons c cs => simp [stops c rfl]

/-- What `path_parse` does with the first name. -/
theorem pathParse_first (all : ∀ c ∈ seps, c = slash) (nonempty : name ≠ []) (free : slash ∉ name)
    (stops : ∀ c ∈ rest.head?, c = slash) :
    pathParse (seps ++ (name ++ rest)) =
      if maxFileNameLen < name.length then throw .outOfBounds
      else .ok (name, if rest = [] then none else some rest) := by
  obtain ⟨copied, left⟩ := takeWhile_name free stops
  rw [pathParse, dropWhile_seps rest all nonempty free, copied, left]
  rfl

theorem pathParse_last (all : ∀ c ∈ seps, c = slash) (nonempty : name ≠ []) (free : slash ∉ name)
    (fits : name.length ≤ maxFileNameLen) : pathParse (seps ++ name) = .ok (name, none) := by
  have first := @pathParse_first seps name [] all nonempty free fun c member => by cases member
  rwa [List.append_nil, if_neg (Nat.not_lt.mpr fits), if_pos rfl] at first

theorem pathParse_more (all : ∀ c ∈ seps, c = slash) (nonempty : name ≠ []) (free : slash ∉ name)
    (fits : name.length ≤ maxFileNameLen) :
    pathParse (seps ++ (name ++ slash :: rest)) = .ok (name, some (slash :: rest)) := by
  have stops : ∀ c ∈ (slash :: rest).head?, c = slash :=
    fun c member => (Option.some.inj member).symm
  rw [pathParse_first all nonempty free stops, if_neg (Nat.not_lt.mpr fits),
    if_neg (List.cons_ne_nil slash rest)]

end

/-- `path_parse` splits off the first name, if it fits the buffer. -/
theorem pathParse_fits (fits : ∀ name ∈ pathNames pathname, name.length ≤ maxFileNameLen) :
    ∃ name subPath, pathParse pathname = .ok (name, subPath) ∧
      ahead name subPath = pathNames pathname := by
  cases firstName slash pathname with
  | none all =>
      refine ⟨[], none, pathParse_none all, ?_⟩
      rw [pathNames, components_seps all]
      rfl
  | last all nonempty free =>
      rename_i seps name
      have names : pathNames (seps ++ name) = [name] := by
        rw [pathNames, components_seps_append all, components_single nonempty free]
      rw [names] at fits ⊢
      refine ⟨name, none, pathParse_last all nonempty free (fits name List.mem_cons_self), ?_⟩
      rw [ahead, if_neg nonempty]
      rfl
  | more all nonempty free =>
      rename_i seps name rest
      have names : pathNames (seps ++ (name ++ slash :: rest)) = name :: pathNames rest := by
        rw [pathNames, components_seps_append all, components_append,
          components_single nonempty free]
        rfl
      rw [names] at fits ⊢
      refine ⟨name, some (slash :: rest),
        pathParse_more all nonempty free (fits name List.mem_cons_self), ?_⟩
      rw [ahead, if_neg nonempty, Option.getD_some, pathNames, components_sep]

/-- `path_parse` splits off the first name. -/
theorem pathParse_ahead (short : ShortNames (pathNames pathname)) :
    ∃ name subPath, pathParse pathname = .ok (name, subPath) ∧
      ahead name subPath = pathNames pathname :=
  pathParse_fits fun name member => Nat.le_succ_of_le (short name member).1

theorem pathNext_ahead {subPath : Option (List Byte)}
    (short : ShortNames (pathNames (subPath.getD []))) :
    ∃ name rest, pathNext subPath = .ok (name, rest) ∧
      ahead name rest = pathNames (subPath.getD []) := by
  cases subPath with
  | none => exact ⟨[], none, rfl, by simp [ahead, pathNames]⟩
  | some path => exact pathParse_ahead short

/-! ## The loop -/

/-- What the loop of `search_file` finds in a directory: the inode number, the type and the
directory in which the last name was looked up. The number that was found last, and the directory
in which it was, are those of the round before. -/
inductive Finds (part : Partition) (disk : Memory) :
    Word → Word → Word → List (List Byte) → Word → Word → Word → Prop where
  | done {d inodeNo parentNo : Word} :
        Finds part disk d inodeNo parentNo [] inodeNo ftDirectory parentNo
  | miss {d inodeNo parentNo : Word} {name : List Byte} {names : List (List Byte)} :
      (∀ target, ¬ Names part disk d name target) →
        Finds part disk d inodeNo parentNo (name :: names) notFound ftUnknown d
  | file {d inodeNo parentNo f : Word} {name : List Byte} {names : List (List Byte)} :
      Names part disk d name (.file f) →
        Finds part disk d inodeNo parentNo (name :: names) f ftRegular d
  | dir {d d' inodeNo parentNo i type p : Word} {name : List Byte} {names : List (List Byte)} :
      Names part disk d name (.dir d') → Finds part disk d' d' d names i type p →
        Finds part disk d inodeNo parentNo (name :: names) i type p

/-- A search that returned: what it found, and the directory that it left open. -/
structure Found (s s' : FsState part) (held : Ptr → Nat) (record : PathSearchRecord) (p : Word) :
    Prop where
  opened : OpenInodes (held + record.parentDir.refs) s'
  same : SameTree s s'
  holds : Holds s' record.parentDir p
  isDir : IsDir part s.disk p

theorem Found.after {s₁ : FsState part} {record : PathSearchRecord}
    (found : Found s₁ s' held record p) (same : SameTree s s₁) : Found s s' held record p :=
  ⟨found.opened, same.trans found.same, found.holds, same.disk ▸ found.isDir⟩

/-- Opening a directory and closing an inode keep a property. -/
structure DirsKeep (part : Partition) (disk : Memory) (Inv : FsState part → Prop) : Prop where
  opens : ∀ s d ptr s', s.disk = disk → IsDir part disk d → DirOk part disk d → Inv s →
    (inodeOpen d).run s = .ok (ptr, s') → Inv s'
  closes : ∀ s ptr s', Inv s → (inodeClose ptr).run s = .ok ((), s') → Inv s'

section

variable {Inv : FsState part → Prop} {dir : Dir}

theorem DirsKeep.dirOpen (keeps : DirsKeep part s.disk Inv) (isDir : IsDir part s.disk d)
    (ok : DirOk part s.disk d) (holds : Inv s) (ran : (dirOpen d).run s = .ok (dir, s')) :
    Inv s' := by
  obtain ⟨ptr, _, opened, ran⟩ := call_bind_returns.mp ran
  obtain ⟨-, rfl⟩ := call_pure_returns.mp ran
  exact keeps.opens s d ptr _ rfl isDir ok holds opened

theorem DirsKeep.dirClose (keeps : DirsKeep part disk Inv) (holds : Inv s)
    (ran : (dirClose dir).run s = .ok ((), s')) : Inv s' := by
  cases dir with
  | root =>
      obtain ⟨-, rfl⟩ := call_pure_returns.mp ran
      exact holds
  | heap ptr => exact keeps.closes s ptr s' holds ran

/-- What opening a directory and closing an inode keep, the loop of `search_file` keeps. -/
theorem searchLoop_keeps (keeps : DirsKeep part s.disk Inv) (wellFormed : WellFormed part s.disk)
    {fuel : Nat} {v : Search}
    (enough : names.length < fuel) (isAhead : ahead v.name v.subPath = names)
    (short : ShortNames names) (unknown : v.record.fileType = ftUnknown)
    (room : v.record.searchedPath.length + (names.map fun name => name.length + 1).sum < maxPathLen)
    (opened : OpenInodes (held + v.record.parentDir.refs) s) (holds : Holds s v.record.parentDir d)
    (isDir : IsDir part s.disk d) (parentIsDir : IsDir part s.disk v.parentInodeNo)
    (before : Inv s) :
    ∃ i record s' p, (searchLoop fuel v).run s = .ok ((i, record), s') ∧ Found s s' held record p ∧
      Finds part s.disk d v.inodeNo v.parentInodeNo names i record.fileType p ∧ Inv s' := by
  induction fuel generalizing s d v names with
  | zero => exact absurd enough (Nat.not_lt_zero _)
  | succ fuel ih =>
      rw [searchLoop]
      by_cases ends : v.name = []
      · rw [if_pos ends]
        rw [ahead, if_pos ends] at isAhead
        subst isAhead
        obtain ⟨s₁, closed, opened₁, same₁⟩ := dirClose_opened opened holds isDir
        have ok : DirOk part s₁.disk v.parentInodeNo :=
          same₁.disk ▸ wellFormed.directories _ parentIsDir
        obtain ⟨dir, s₂, opens, opened₂, same₂, holds₂⟩ := dirOpen_opened opened₁ ok
        have middle : Inv s₁ := keeps.dirClose before closed
        have after : Inv s₂ := DirsKeep.dirOpen (same₁.disk ▸ keeps) (same₁.disk ▸ parentIsDir) ok
          middle opens
        rw [call_bind_of closed, call_bind_of opens]
        exact ⟨_, _, s₂, v.parentInodeNo, rfl, ⟨opened₂, same₁.trans same₂, holds₂, parentIsDir⟩,
          .done, after⟩
      · rw [if_neg ends]
        rw [ahead, if_neg ends] at isAhead
        subst isAhead
        obtain ⟨⟨fits, clean⟩, shorter⟩ := List.forall_mem_cons.mp short
        rw [List.map_cons, List.sum_cons] at room
        have ok := wellFormed.directories d isDir
        obtain ⟨obj, found, number, agrees⟩ := opened.agrees holds isDir
        have searched : (searchDirEntry (s.dirInode v.record.parentDir) v.name).run s =
            .ok (searchBlocks s.disk (slot part s.disk d.toNat) v.name, s) :=
          searchDirEntry_returns.mpr ⟨obj, found, searchBlocks_sameFile agrees, rfl⟩
        rw [if_neg (show ¬ v.name.length = maxFileNameLen by unfold maxFileNameLen; omega),
          call_bind_of (call_lift_returns.mpr ⟨require_of (by omega), rfl⟩)]
        dsimp only
        rw [call_bind_of (call_get_returns.mpr ⟨rfl, rfl⟩), call_bind_of searched]
        cases entry : searchBlocks s.disk (slot part s.disk d.toNat) v.name with
        | none =>
            exact ⟨_, _, s, d, rfl, ⟨opened, SameTree.refl s, holds, isDir⟩,
              unknown ▸ .miss fun target => ok.search_none ends clean entry, before⟩
        | some dirE =>
            obtain ⟨named, typed⟩ := ok.search_some ends clean entry
            obtain ⟨name, rest, next, isAhead⟩ := pathNext_ahead shorter
            dsimp only
            rw [call_bind_of (call_lift_returns.mpr ⟨next, rfl⟩)]
            dsimp only
            rcases typed with regular | directory
            · have notDirectory : ¬ dirE.fType = ftDirectory := by
                rw [regular]
                decide
              rw [if_neg notDirectory, if_pos regular]
              rw [DirEntry.target, if_neg notDirectory] at named
              exact ⟨_, _, s, d, rfl, ⟨opened, SameTree.refl s, holds, isDir⟩, .file named, before⟩
            · rw [if_pos directory, call_bind_of (deref_returns.mpr ⟨found, rfl⟩)]
              rw [DirEntry.target, if_pos directory] at named
              have reached : IsDir part s.disk dirE.iNo := isDir.step named
              obtain ⟨s₁, closed, opened₁, same₁⟩ := dirClose_opened opened holds isDir
              have ok' : DirOk part s₁.disk dirE.iNo :=
                same₁.disk ▸ wellFormed.directories _ reached
              obtain ⟨dir, s₂, opens, opened₂, same₂, holds₂⟩ := dirOpen_opened opened₁ ok'
              have same := same₁.trans same₂
              have middle : Inv s₁ := keeps.dirClose before closed
              have after : Inv s₂ := DirsKeep.dirOpen (same₁.disk ▸ keeps) (same₁.disk ▸ reached)
                ok' middle opens
              rw [call_bind_of closed, call_bind_of opens]
              obtain ⟨i, record, s', p, ran, foundRest, finds, kept⟩ := ih (s := s₂) (d := dirE.iNo)
                (same.disk ▸ keeps)
                (v := { name := name, subPath := rest, inodeNo := dirE.iNo,
                        parentInodeNo := obj.iNo, record := { v.record with
                          searchedPath := v.record.searchedPath ++ slash :: v.name
                          parentDir := dir } })
                (same.disk ▸ wellFormed) (by simpa using enough) isAhead shorter unknown
                (by rw [List.length_append, List.length_cons]; omega) opened₂ holds₂
                  (same.disk ▸ reached)
                (same.disk ▸ number ▸ isDir) after
              refine ⟨i, record, s', p, ran, foundRest.after same, .dir named ?_, kept⟩
              rw [same.disk] at finds
              dsimp only at finds
              rwa [number] at finds

end

/-! ## The call -/

/-- What `search_file` asserts of a path, and names that fit its buffer. -/
structure SearchPath (pathname : List Byte) : Prop where
  absolute : pathname.head? = some slash
  length : pathname.length < maxPathLen
  short : ShortNames (pathNames pathname)

/-- The names of an absolute path, each with a slash, are no longer than the path. -/
theorem pathNames_room (absolute : pathname.head? = some slash) :
    ((pathNames pathname).map fun name => name.length + 1).sum ≤ pathname.length := by
  cases pathname with
  | nil => cases absolute
  | cons c cs =>
      cases absolute
      have names : pathNames (slash :: cs) = components slash cs := components_sep
      rw [names]
      exact length_components

theorem length_le_sum (names : List (List Byte)) :
    names.length ≤ (names.map fun name => name.length + 1).sum := by
  have each := List.card_nsmul_le_sum (names.map fun name => name.length + 1) 1
    fun n member => by
      obtain ⟨name, -, rfl⟩ := List.mem_map.mp member
      exact Nat.le_add_left 1 _
  simpa only [smul_eq_mul, mul_one, List.length_map] using each

theorem SearchPath.room (path : SearchPath pathname) :
    ((pathNames pathname).map fun name => name.length + 1).sum < maxPathLen ∧
      (pathNames pathname).length < pathname.length + 2 := by
  have room := pathNames_room path.absolute
  have count := length_le_sum (pathNames pathname)
  have length := path.length
  omega

/-- The path of the root directory. -/
theorem searchFile_root {junk : Word} (isRoot : pathname ∈ rootPaths) :
    (searchFile junk pathname).run s =
      .ok ((0, { searchedPath := [], parentDir := .root, fileType := ftDirectory }), s) := by
  rw [searchFile, if_pos isRoot]
  rfl

/-- The search for another path, with what it keeps. -/
theorem searchFile_keeps {Inv : FsState part → Prop} (keeps : DirsKeep part s.disk Inv)
    (wellFormed : WellFormed part s.disk) (opened : OpenInodes held s) (path : SearchPath pathname)
    (notRoot : pathname ∉ rootPaths) (junk : Word) (before : Inv s) :
    ∃ i record s' p, (searchFile junk pathname).run s = .ok ((i, record), s') ∧
      Found s s' held record p ∧
        Finds part s.disk 0 junk 0 (pathNames pathname) i record.fileType p ∧ Inv s' := by
  obtain ⟨name, subPath, parsed, isAhead⟩ := pathParse_ahead path.short
  have long : 1 < pathname.length := by
    have absolute := path.absolute
    rcases pathname with _ | ⟨c, _ | ⟨c', cs⟩⟩
    · cases absolute
    · cases absolute
      exact absurd (by simp [rootPaths]) notRoot
    · simp
  obtain ⟨root, found, number, -⟩ := opened.root
  have start : OpenInodes (held + Dir.root.refs) s := by
    rw [Dir.refs, add_zero]
    exact opened
  rw [searchFile, if_neg notRoot,
    call_bind_of (call_lift_returns.mpr ⟨require_of ⟨path.absolute, long, path.length⟩, rfl⟩),
    call_bind_of (call_lift_returns.mpr ⟨parsed, rfl⟩)]
  exact searchLoop_keeps keeps wellFormed path.room.2 isAhead path.short rfl
    (by simpa using path.room.1) start ⟨root, found, number⟩ Reached.start Reached.start before

/-- The search for another path. -/
theorem searchFile_finds (wellFormed : WellFormed part s.disk) (opened : OpenInodes held s)
    (path : SearchPath pathname) (notRoot : pathname ∉ rootPaths) (junk : Word) :
    ∃ i record s' p, (searchFile junk pathname).run s = .ok ((i, record), s') ∧
      Found s s' held record p ∧
        Finds part s.disk 0 junk 0 (pathNames pathname) i record.fileType p := by
  have keeps : DirsKeep part s.disk fun _ => True :=
    ⟨fun _ _ _ _ _ _ _ _ _ => trivial, fun _ _ _ _ _ => trivial⟩
  obtain ⟨i, record, s', p, ran, found, finds, -⟩ :=
    searchFile_keeps keeps wellFormed opened path notRoot junk trivial
  exact ⟨i, record, s', p, ran, found, finds⟩

/-! ## Finding what the path stands for -/

/-- The inode number of a target. -/
def targetNumber : Library.Target Word Word → Word
  | .dir d => d
  | .file f => f

/-- The file type of a target. -/
def targetType : Library.Target Word Word → Word
  | .dir _ => ftDirectory
  | .file _ => ftRegular

/-- If the names stand for something, then it is found, and so is the directory that contains
the last one. -/
theorem Finds.of_resolves (wellFormed : WellFormed part disk) (isDir : IsDir part disk d)
    {a b : Word} (finds : Finds part disk d a b names i type p) (nonempty : names ≠ [])
    {target : Library.Target Word Word} (resolves : Resolves (Names part disk) d names target) :
    i = targetNumber target ∧ type = targetType target ∧
      ∃ front last, names = front ++ [last] ∧ Resolves (Names part disk) d front (.dir p) := by
  induction finds with
  | done => exact absurd rfl nonempty
  | miss nothing =>
      rcases Resolves.cons_iff.mp resolves with ⟨d', named, -⟩ | ⟨f, named, -⟩
      · exact absurd named (nothing _)
      · exact absurd named (nothing _)
  | file named =>
      rcases Resolves.cons_iff.mp resolves with ⟨d', named', -⟩ | ⟨f, named', rfl, rfl⟩
      · cases wellFormed.linked.deterministic _ _ _ _ isDir named named'
      · cases wellFormed.linked.deterministic _ _ _ _ isDir named named'
        exact ⟨rfl, rfl, [], _, rfl, .here⟩
  | @dir d d' _ _ _ _ _ name names named rest ih =>
      rcases Resolves.cons_iff.mp resolves with ⟨d'', named', resolves⟩ | ⟨f, named', -⟩
      · cases wellFormed.linked.deterministic _ _ _ _ isDir named named'
        by_cases last : names = []
        · subst last
          cases rest
          cases resolves
          exact ⟨rfl, rfl, [], _, rfl, .here⟩
        · obtain ⟨number, type, front, last, is, above⟩ := ih (isDir.step named) last resolves
          exact ⟨number, type, name :: front, last, congrArg (name :: ·) is, .dir named above⟩
      · cases wellFormed.linked.deterministic _ _ _ _ isDir named named'

/-- If the names stand for nothing, and no front part of them for a file, nothing is found. -/
theorem Finds.of_unresolved {a b : Word} (finds : Finds part disk d a b names i type p)
    (nothing : ∀ target, ¬ Resolves (Names part disk) d names target)
    (noFile : ∀ front rest f, names = front ++ rest → rest ≠ [] →
      ¬ Resolves (Names part disk) d front (.file f)) : i = notFound := by
  induction finds with
  | done => exact absurd .here (nothing _)
  | miss => rfl
  | @file _ _ _ f name names named =>
      by_cases last : names = []
      · subst last
        exact absurd (.file named) (nothing _)
      · exact absurd (.file named) (noFile [name] names f rfl last)
  | @dir _ _ _ _ _ _ _ name names named _ ih =>
      refine ih (fun target resolves => nothing target (.dir named resolves)) ?_
      intro front rest f is others resolves
      exact noFile (name :: front) rest f (congrArg (name :: ·) is) others (.dir named resolves)

/-- If a front part of the names stands for a file, that is found. -/
theorem Finds.of_file (wellFormed : WellFormed part disk) (isDir : IsDir part disk d) {a b f : Word}
    {front rest : List (List Byte)} (finds : Finds part disk d a b (front ++ rest) i type p)
    (resolves : Resolves (Names part disk) d front (.file f)) : i = f ∧ f.toNat < 4096 := by
  induction front generalizing d a b with
  | nil => cases resolves
  | cons name front ih =>
      rcases Resolves.cons_iff.mp resolves with ⟨d', named, resolves⟩ | ⟨f', named, rfl, is⟩
      · cases finds with
        | miss nothing => exact absurd named (nothing _)
        | file named' => cases wellFormed.linked.deterministic _ _ _ _ isDir named named'
        | dir named' finds =>
            cases wellFormed.linked.deterministic _ _ _ _ isDir named named'
            exact ih (isDir.step named) finds resolves
      · cases is
        cases finds with
        | miss nothing => exact absurd named (nothing _)
        | file named' =>
            cases wellFormed.linked.deterministic _ _ _ _ isDir named named'
            exact ⟨rfl, (wellFormed.directories _ isDir).file_small name _ named⟩
        | dir named' => cases wellFormed.linked.deterministic _ _ _ _ isDir named named'

/-- A front part of the names that stands for a file, followed by other names. -/
theorem not_resolves_of_file (wellFormed : WellFormed part disk) (isDir : IsDir part disk d)
    {front rest : List (List Byte)} {f : Word} (more : rest ≠ [])
    (file : Resolves (Names part disk) d front (.file f)) {target : Library.Target Word Word} :
    ¬ Resolves (Names part disk) d (front ++ rest) target := by
  intro resolves
  obtain ⟨d', first, -⟩ := resolves.split more
  cases Resolves.unique wellFormed.linked.deterministic isDir file first

/-- If the names stand for something, no front part of them stands for a file. -/
theorem noFile_of_resolves (wellFormed : WellFormed part disk) (isDir : IsDir part disk d)
    {target : Library.Target Word Word} (resolves : Resolves (Names part disk) d names target)
    (front rest : List (List Byte)) (f : Word) (is : names = front ++ rest) (more : rest ≠ []) :
    ¬ Resolves (Names part disk) d front (.file f) := by
  intro file
  rw [is] at resolves
  exact not_resolves_of_file wellFormed isDir more file resolves

/-! ## The main result -/

/-- `search_file` finds what the path stands for: its inode number, its type and the directory that
contains the last name; and it returns -1 if the path stands for nothing. -/
def SearchCorrect (s : FsState part) (pathname : List Byte) : Prop :=
  ∀ junk, ∃ i record s', (searchFile junk pathname).run s = .ok ((i, record), s') ∧
    (∀ target, Resolves (Names part s.disk) 0 (pathNames pathname) target →
      i = targetNumber target ∧ record.fileType = targetType target ∧
        ∀ front last p, pathNames pathname = front ++ [last] →
          Resolves (Names part s.disk) 0 front (.dir p) → Holds s' record.parentDir p) ∧
    ((∀ target, ¬ Resolves (Names part s.disk) 0 (pathNames pathname) target) → i = notFound)

/-- The path has a name or is `/`, and no front part of it stands for a regular file. -/
def SearchPlain (s : FsState part) (pathname : List Byte) : Prop :=
  (pathNames pathname ≠ [] ∨ pathname = [slash]) ∧
    ∀ front rest f, pathNames pathname = front ++ rest → rest ≠ [] →
      ¬ Resolves (Names part s.disk) 0 front (.file f)

/-- A root path stands for the root directory. -/
theorem rootPath_resolves (wellFormed : WellFormed part disk) (isRoot : pathname ∈ rootPaths) :
    ((pathname = [slash] ∧ pathNames pathname = []) ∨ ∃ name, pathNames pathname = [name]) ∧
      Resolves (Names part disk) 0 (pathNames pathname) (.dir 0) := by
  rcases List.mem_cons.mp isRoot with rfl | isRoot
  · refine ⟨.inl ⟨rfl, by decide⟩, ?_⟩
    rw [show pathNames [slash] = [] by decide]
    exact .here
  · rcases List.mem_cons.mp isRoot with rfl | isRoot
    · refine ⟨.inr ⟨dot, by decide⟩, ?_⟩
      rw [show pathNames (slash :: dot) = [dot] by decide]
      exact .dir (wellFormed.dot_of 0 .start) .here
    · cases List.mem_singleton.mp isRoot
      refine ⟨.inr ⟨dotdot, by decide⟩, ?_⟩
      rw [show pathNames (slash :: dotdot) = [dotdot] by decide]
      exact .dir wellFormed.dotdot_root .here

theorem searchCorrect_root (wellFormed : WellFormed part s.disk) (opened : OpenInodes held s)
    (isRoot : pathname ∈ rootPaths) : SearchCorrect s pathname ∧ SearchPlain s pathname := by
  obtain ⟨shape, resolves⟩ := rootPath_resolves wellFormed isRoot
  obtain ⟨root, found, number, -⟩ := opened.root
  have above : ∀ front last p, pathNames pathname = front ++ [last] →
      Resolves (Names part s.disk) 0 front (.dir p) → p = 0 := by
    intro front last p is resolves
    have empty : front = [] := by
      rcases shape with ⟨-, none_⟩ | ⟨name, one⟩
      · rw [none_] at is
        exact absurd is.symm (by simp)
      · rw [one] at is
        have length := congrArg List.length is
        rw [List.length_append, List.length_singleton, List.length_singleton] at length
        exact List.eq_nil_of_length_eq_zero (by omega)
    subst empty
    cases resolves
    rfl
  refine ⟨fun junk => ⟨_, _, s, searchFile_root isRoot, fun target resolves' => ?_,
    fun nothing => absurd resolves (nothing _)⟩, ?_, ?_⟩
  · cases resolves.unique wellFormed.linked.deterministic .start resolves'
    refine ⟨rfl, rfl, fun front last p is resolves => ?_⟩
    rw [above front last p is resolves]
    exact ⟨root, found, number⟩
  · rcases shape with ⟨isSlash, -⟩ | ⟨name, one⟩
    · exact .inr isSlash
    · exact .inl (by simp [one])
  · exact noFile_of_resolves wellFormed .start resolves

/-- If the search is correct, the path is plain. -/
theorem SearchCorrect.plain (wellFormed : WellFormed part s.disk) (opened : OpenInodes held s)
    (path : SearchPath pathname) (correct : SearchCorrect s pathname) : SearchPlain s pathname := by
  by_cases isRoot : pathname ∈ rootPaths
  · exact (searchCorrect_root wellFormed opened isRoot).2
  · refine ⟨?_, ?_⟩
    · -- A path of slashes only gives back the number that the caller's entry happens to hold.
      by_contra neither
      push Not at neither
      obtain ⟨i, record, s', p, ran, -, finds⟩ := searchFile_finds wellFormed opened path isRoot 1
      obtain ⟨i', record', s'', ran', right, -⟩ := correct 1
      rw [ran] at ran'
      cases ran'
      rw [neither.1] at finds right
      generalize record.fileType = type at finds
      cases finds
      exact absurd (right _ .here).1 (by decide)
    · intro front rest f is more file
      obtain ⟨i, record, s', p, ran, -, finds⟩ := searchFile_finds wellFormed opened path isRoot 0
      obtain ⟨i', record', s'', ran', -, nothing⟩ := correct 0
      rw [ran] at ran'
      cases ran'
      rw [is] at finds nothing
      obtain ⟨number, small⟩ := finds.of_file wellFormed .start file
      have missed := nothing fun target => not_resolves_of_file wellFormed .start more file
      rw [missed] at number
      rw [← number] at small
      exact absurd small (by decide)

/-- If the path is plain, the search is correct. -/
theorem searchCorrect_of_plain (wellFormed : WellFormed part s.disk) (opened : OpenInodes held s)
    (path : SearchPath pathname) (plain : SearchPlain s pathname) : SearchCorrect s pathname := by
  obtain ⟨named, noFile⟩ := plain
  by_cases isRoot : pathname ∈ rootPaths
  · exact (searchCorrect_root wellFormed opened isRoot).1
  · intro junk
    have nonempty : pathNames pathname ≠ [] := by
      refine named.resolve_right fun same => isRoot ?_
      rw [same]
      exact List.mem_cons_self
    obtain ⟨i, record, s', p, ran, found, finds⟩ :=
      searchFile_finds wellFormed opened path isRoot junk
    refine ⟨i, record, s', ran, fun target resolves => ?_, fun nothing =>
      finds.of_unresolved nothing noFile⟩
    obtain ⟨number, type, front, last, is, above⟩ :=
      finds.of_resolves wellFormed .start nonempty resolves
    refine ⟨number, type, fun front' last' p' is' above' => ?_⟩
    rw [is] at is'
    obtain ⟨rfl, -⟩ := List.append_inj' is' rfl
    cases above.unique wellFormed.linked.deterministic .start above'
    exact found.holds

/-- **Searching for a path.** In a well-formed file system, `search_file` finds what an absolute
path stands for exactly if the path has a name or is `/`, and no front part of it stands for a
regular file. -/
theorem search_correct_iff (wellFormed : WellFormed part s.disk) (opened : OpenInodes held s)
    (path : SearchPath pathname) : SearchCorrect s pathname ↔ SearchPlain s pathname :=
  ⟨SearchCorrect.plain wellFormed opened path, searchCorrect_of_plain wellFormed opened path⟩

/-- `/a/../f` is found in the small tree. -/
theorem search_correct_small : SearchCorrect smallTree [47, 97, 47, 46, 46, 47, 102] := by
  have resolves : Resolves (Names somePartition smallDisk) 0 [[97], dotdot, [102]] (.file 2) :=
    .dir (smallRoot_names.mpr (.inr (.inr (.inl ⟨rfl, rfl⟩))))
      (.dir (smallA_names.mpr (.inr ⟨rfl, rfl⟩))
        (.file (smallRoot_names.mpr (.inr (.inr (.inr ⟨rfl, rfl⟩))))))
  have names : pathNames [47, 97, 47, 46, 46, 47, 102] = [[97], dotdot, [102]] := by
    decide +kernel
  refine (search_correct_iff smallTree_wellFormed smallTree_opened
    ⟨rfl, by decide +kernel, ?_⟩).mpr ⟨.inl ?_, ?_⟩
  · rw [names]
    unfold ShortNames
    decide +kernel
  · rw [names]
    exact List.cons_ne_nil _ _
  · rw [names, smallTree_disk]
    exact noFile_of_resolves smallDisk_wellFormed .start resolves

/-- The path `/f/x` leads through a regular file: it stands for nothing, but the number of the file
is returned. -/
theorem search_through_file :
    SearchPath [47, 102, 47, 120] ∧ ¬ SearchCorrect smallTree [47, 102, 47, 120] := by
  have names : pathNames [47, 102, 47, 120] = [[102], [120]] := by decide +kernel
  have path : SearchPath [47, 102, 47, 120] := by
    refine ⟨rfl, by decide +kernel, ?_⟩
    rw [names]
    unfold ShortNames
    decide +kernel
  refine ⟨path, fun correct => ?_⟩
  have plain := correct.plain smallTree_wellFormed smallTree_opened path
  rw [SearchPlain, names, smallTree_disk] at plain
  refine plain.2 [[102]] [[120]] 2 rfl (List.cons_ne_nil _ _) (.file ?_)
  exact smallRoot_names.mpr (.inr (.inr (.inr ⟨rfl, rfl⟩)))

end UKernel.Fs
