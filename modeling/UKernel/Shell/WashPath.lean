import UKernel.Fs.Search

/-! # The shell's paths

`wash_path` takes `.` and `..` out of an absolute path before the shell hands it to the kernel. It
works on the characters of the path only; where each directory above the last one exists, the
kernel finds at the washed path what the path stands for (`UKernel.Shell.wash_resolves`).
-/

namespace UKernel.Shell

open UKernel.Library UKernel.Fs

/-! ## Washing a path -/

/-- What `strrchr(path, '/')` has before it; `none` is the result `NULL`. -/
def beforeLastSlash (path : List Byte) : Option (List Byte) :=
  if slash ∈ path then some (path.reverse.dropWhile (· ≠ slash)).tail.reverse else none

/-- The round of `wash_path` for one name. -/
def washName (newAbsPath name : List Byte) : Except Fault (List Byte) :=
  if name = dotdot then
    match beforeLastSlash newAbsPath with
    | none => throw .badPointer
    | some before => return if before ≠ [] then before else [slash]
  else if name ≠ dot then
    return (if newAbsPath ≠ [slash] then newAbsPath ++ [slash] else newAbsPath) ++ name
  else
    return newAbsPath

/-- The loop of `wash_path`. A name that fills the buffer has no end as a string. -/
def washLoop : Nat → List Byte → Option (List Byte) → List Byte → Except Fault (List Byte)
  | 0, _, _, _ => throw .diverges
  | fuel + 1, name, subPath, newAbsPath =>
      if name = [] then return newAbsPath
      else if name.length = maxFileNameLen then throw .outOfBounds
      else do
        let newAbsPath ← washName newAbsPath name
        let (name, subPath) ← pathNext subPath
        washLoop fuel name subPath newAbsPath

/-- `wash_path`: what is stored into `new_abs_path`. -/
def washPath (oldAbsPath : List Byte) : Except Fault (List Byte) := do
  require (oldAbsPath.head? = some slash)
  let (name, subPath) ← pathParse oldAbsPath
  if name = [] then
    return [slash]
  else
    washLoop (oldAbsPath.length + 2) name subPath [slash]

/-! ## Paths that were put together -/

/-- The path of a list of names. -/
def render (names : List (List Byte)) : List Byte :=
  if names = [] then [slash] else names.flatMap (slash :: ·)

/-- Names of a path. -/
def PathNames (names : List (List Byte)) : Prop :=
  ∀ name ∈ names, name ≠ [] ∧ slash ∉ name

variable {names stack : List (List Byte)} {name pathname : List Byte}

theorem flatMap_eq_nil : names.flatMap (slash :: ·) = [] ↔ names = [] := by
  cases names with
  | nil => simp
  | cons name names => simp

/-- The names of the path of a list of names. -/
theorem pathNames_render (each : PathNames names) : pathNames (render names) = names := by
  unfold render
  split
  case isTrue empty =>
      rw [empty]
      decide
  case isFalse => exact components_flatMap each

theorem head_render : (render names).head? = some slash := by
  unfold render
  cases names with
  | nil => rfl
  | cons name names => simp

/-- The path of names is as long as they are, each with a slash. -/
theorem length_render : (render names).length =
    if names = [] then 1 else (names.map fun name => name.length + 1).sum := by
  unfold render
  split
  case isTrue => rfl
  case isFalse => simp [List.length_flatMap]

/-- The path before the last slash is that of the names before the last. -/
theorem beforeLastSlash_render (each : PathNames stack) :
    beforeLastSlash (render stack) = some (stack.dropLast.flatMap (slash :: ·)) := by
  rcases List.eq_nil_or_concat stack with rfl | ⟨front, last, rfl⟩
  · decide
  · rw [List.concat_eq_append] at each ⊢
    have free : slash ∉ last := (each last (by simp)).2
    have whole : render (front ++ [last]) = front.flatMap (slash :: ·) ++ slash :: last := by
      simp [render]
    have isReverse : (front.flatMap (slash :: ·) ++ slash :: last).reverse =
        last.reverse ++ slash :: (front.flatMap (slash :: ·)).reverse := by
      simp
    rw [whole, beforeLastSlash, if_pos (by simp), isReverse, List.dropWhile_append_of_pos,
      List.dropWhile_cons_of_neg (by simp), List.tail_cons, List.reverse_reverse,
      List.dropLast_concat]
    intro c member
    simp only [decide_not, Bool.not_eq_eq_eq_not, Bool.not_true, decide_eq_false_iff_not]
    rintro rfl
    exact free (List.mem_reverse.mp member)

/-- A round takes the path of a list of names to that of the list that is one name ahead. -/
theorem washName_render (each : PathNames stack) (name : List Byte) :
    washName (render stack) name = .ok (render (clean dot dotdot stack [name])) := by
  rw [washName, clean, clean, clean, clean]
  by_cases isUp : name = dotdot
  · rw [if_pos isUp, if_pos isUp, beforeLastSlash_render each]
    dsimp only
    rw [render]
    by_cases empty : stack.dropLast = []
    · rw [if_pos empty, if_neg (not_not.mpr (flatMap_eq_nil.mpr empty))]
      rfl
    · rw [if_neg empty, if_pos (fun nothing => empty (flatMap_eq_nil.mp nothing))]
      rfl
  · rw [if_neg isUp, if_neg isUp]
    by_cases isStay : name = dot
    · rw [if_neg (not_not.mpr isStay), if_pos isStay]
      rfl
    · rw [if_pos isStay, if_neg isStay]
      by_cases empty : stack = []
      · subst empty
        simp [render, pure, Except.pure]
      · have long : render stack ≠ [slash] := by
          intro short
          have names := pathNames_render each
          rw [short] at names
          exact empty (names.symm.trans (by decide))
        rw [if_pos long, render, if_neg empty, render, if_neg (by simp), List.flatMap_append]
        simp [pure, Except.pure]

theorem PathNames.clean (each : PathNames stack) (others : PathNames names) :
    PathNames (clean dot dotdot stack names) := by
  intro name member
  rcases List.mem_append.mp (clean_sublist.subset member) with before | later
  · exact each name before
  · exact others name later

theorem clean_cons (stack names : List (List Byte)) (name : List Byte) :
    clean dot dotdot (clean dot dotdot stack [name]) names =
    clean dot dotdot stack (name :: names) := by
  rw [Library.clean, Library.clean, Library.clean, Library.clean, Library.clean]
  split
  case isTrue => rfl
  case isFalse =>
      split
      case isTrue => rfl
      case isFalse => rfl

/-- The loop of `wash_path`: what is left of the names that are ahead, after those before them. -/
theorem washLoop_render {fuel : Nat} {subPath : Option (List Byte)} (each : PathNames stack)
    (others : PathNames names) (short : ShortNames names) (enough : names.length < fuel)
    (isAhead : ahead name subPath = names) :
    washLoop fuel name subPath (render stack) = .ok (render (clean dot dotdot stack names)) := by
  induction fuel generalizing name subPath stack names with
  | zero => exact absurd enough (Nat.not_lt_zero _)
  | succ fuel ih =>
      rw [washLoop]
      by_cases ends : name = []
      · rw [if_pos ends]
        rw [ahead, if_pos ends] at isAhead
        subst isAhead
        rfl
      · rw [if_neg ends]
        rw [ahead, if_neg ends] at isAhead
        subst isAhead
        obtain ⟨⟨fits, -⟩, shorter⟩ := List.forall_mem_cons.mp short
        obtain ⟨here, later⟩ := List.forall_mem_cons.mp others
        obtain ⟨name', rest, next, isAhead⟩ := pathNext_ahead shorter
        have single : PathNames [name] := List.forall_mem_singleton.mpr here
        rw [if_neg (show ¬ name.length = maxFileNameLen by unfold maxFileNameLen; omega),
          washName_render each, ← clean_cons stack (pathNames (subPath.getD [])) name]
        refine except_bind_eq_ok.mpr ⟨_, rfl, except_bind_eq_ok.mpr ⟨_, next, ?_⟩⟩
        exact ih (each.clean single) later shorter (by simpa using enough) isAhead

/-- Washing a path takes the links out of its names. -/
theorem washPath_render (absolute : pathname.head? = some slash)
    (short : ShortNames (pathNames pathname)) :
    washPath pathname = .ok (render (clean dot dotdot [] (pathNames pathname))) := by
  obtain ⟨name, subPath, parsed, isAhead⟩ := pathParse_ahead short
  have others : PathNames (pathNames pathname) := fun name member => mem_components member
  refine except_bind_eq_ok.mpr ⟨_, require_of absolute, except_bind_eq_ok.mpr ⟨_, parsed, ?_⟩⟩
  dsimp only
  by_cases ends : name = []
  · rw [if_pos ends]
    rw [ahead, if_pos ends] at isAhead
    rw [← isAhead]
    rfl
  · rw [if_neg ends]
    have start : PathNames [] := fun _ member => by simp at member
    refine washLoop_render start others short ?_ isAhead
    have room := pathNames_room absolute
    have count := length_le_sum (pathNames pathname)
    omega

/-- A washed path is no longer than the path. -/
theorem length_washed (absolute : pathname.head? = some slash) :
    (render (clean dot dotdot [] (pathNames pathname))).length ≤ pathname.length := by
  have room := pathNames_room absolute
  have left : (clean dot dotdot [] (pathNames pathname)).Sublist (pathNames pathname) :=
    clean_sublist
  have less := (left.map fun name => name.length + 1).sum_le_sum fun _ _ => Nat.zero_le _
  have positive : 0 < pathname.length := by
    cases pathname with
    | nil => cases absolute
    | cons c cs => exact Nat.succ_pos _
  rw [length_render]
  split
  case isTrue => exact positive
  case isFalse => exact less.trans room

/-! ## The main result -/

section

variable {part : Partition} {s : FsState part} {held : Ptr → Nat}
  {target : Library.Target Word Word}

/-- **Washed paths.** In a well-formed file system, if an absolute path leads to a file or a
directory step by step, then `wash_path` makes a path of it, which is no longer, and at which
`search_file` finds the same inode; a path that is too long stops it. -/
theorem wash_resolves (wellFormed : WellFormed part s.disk) (opened : OpenInodes held s)
    (absolute : pathname.head? = some slash) (short : ShortNames (pathNames pathname))
    (resolves : Resolves (Names part s.disk) 0 (pathNames pathname) target) :
    ∃ washed, washPath pathname = .ok washed ∧ washed.length ≤ pathname.length ∧
      (washed.length < maxPathLen → ∀ junk, ∃ record s',
        (searchFile junk washed).run s = .ok ((targetNumber target, record), s') ∧
          record.fileType = targetType target) := by
  refine ⟨_, washPath_render absolute short, length_washed absolute, fun fits junk => ?_⟩
  have left : (clean dot dotdot [] (pathNames pathname)).Sublist (pathNames pathname) :=
    clean_sublist
  have each : PathNames (clean dot dotdot [] (pathNames pathname)) := fun name member =>
    mem_components (left.subset member)
  have start : ∀ name ∈ ([] : List (List Byte)), name ≠ dot ∧ name ≠ dotdot :=
    fun _ member => by simp at member
  have found := wellFormed.linked.resolves_clean start .here resolves
  have names := pathNames_render each
  generalize clean dot dotdot [] (pathNames pathname) = stack at left each found names fits
  have path : SearchPath (render stack) :=
    ⟨head_render, fits, fun name member => short name (left.subset (names ▸ member))⟩
  have plain : SearchPlain s (render stack) := by
    refine ⟨?_, ?_⟩
    · rw [names]
      by_cases empty : stack = []
      · exact .inr (by rw [render, if_pos empty])
      · exact .inl empty
    · rw [names]
      exact noFile_of_resolves wellFormed .start found
  obtain ⟨i, record, s', ran, right, -⟩ := searchCorrect_of_plain wellFormed opened path plain junk
  obtain ⟨rfl, type, -⟩ := right target (names.symm ▸ found)
  exact ⟨record, s', ran, type⟩

/-- `/a/.././/a/.` is washed, and the directory `a` is found there. -/
theorem wash_resolves_small : ∃ washed record s',
    washPath [47, 97, 47, 46, 46, 47, 46, 47, 47, 97, 47, 46] = .ok washed ∧
      (searchFile 0 washed).run smallTree = .ok ((1, record), s') := by
  have names : pathNames [47, 97, 47, 46, 46, 47, 46, 47, 47, 97, 47, 46] =
      [[97], dotdot, dot, [97], dot] := by
    decide +kernel
  have down : Names somePartition smallDisk 0 [97] (.dir 1) :=
    smallRoot_names.mpr (.inr (.inr (.inl ⟨rfl, rfl⟩)))
  have stay : Names somePartition smallDisk 1 dot (.dir 1) :=
    smallA_names.mpr (.inl ⟨rfl, rfl⟩)
  have above : Names somePartition smallDisk 1 dotdot (.dir 0) :=
    smallA_names.mpr (.inr ⟨rfl, rfl⟩)
  have top : Names somePartition smallDisk 0 dot (.dir 0) :=
    smallRoot_names.mpr (.inl ⟨rfl, rfl⟩)
  have resolves : Resolves (Names somePartition smallTree.disk) 0
      (pathNames [47, 97, 47, 46, 46, 47, 46, 47, 47, 97, 47, 46]) (.dir 1) := by
    rw [names, smallTree_disk]
    exact .dir down (.dir above (.dir top (.dir down (.dir stay .here))))
  have short : ShortNames (pathNames [47, 97, 47, 46, 46, 47, 46, 47, 47, 97, 47, 46]) := by
    rw [names]
    unfold ShortNames
    decide +kernel
  obtain ⟨washed, ran, length, finds⟩ :=
    wash_resolves smallTree_wellFormed smallTree_opened rfl short resolves
  obtain ⟨record, s', found, -⟩ := finds (lt_of_le_of_lt length (by decide +kernel)) 0
  exact ⟨washed, record, s', ran, found⟩

end

end UKernel.Shell
