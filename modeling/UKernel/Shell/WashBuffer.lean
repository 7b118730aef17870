import UKernel.Fs.PathBuffer
import UKernel.Shell.WashPath

/-! # The shell's paths in memory

`wash_path` on the characters in memory: it builds the new path in a buffer, where `..` cuts it at
its last slash. What it leaves there is the path of the normal form of the names, which are taken
from the left (`UKernel.WashBuffer.wash_path_normal`); a path in normal form stays as it is.
-/

namespace UKernel.WashBuffer

open UKernel.Library UKernel.Fs UKernel.Shell UKernel.PathBuffer

/-! ## The functions of the source -/

/-- The round of `wash_path` for one name: for `..`, what it does at the last slash. -/
def cutLast (newAbsPath : Memory) : Option Nat → Except Fault Memory
  | none => throw .badPointer
  | some slashPtr =>
      if slashPtr ≠ 0 then return Function.update newAbsPath slashPtr 0
      else return Function.update newAbsPath (slashPtr + 1) 0

/-- For a name that is neither link, the slash in front of it. -/
def addSlash (fuel : Nat) (newAbsPath : Memory) : Except Fault Memory := do
  if (← Strings.strcmp fuel newAbsPath (Strings.literal [slash])) ≠ 0 then
    Strings.strcat fuel newAbsPath (Strings.literal [slash])
  else
    return newAbsPath

/-- The round of `wash_path` for one name. -/
def washName (fuel : Nat) (newAbsPath name : Memory) : Except Fault Memory := do
  if (← Strings.strcmp fuel (Strings.literal dotdot) name) = 0 then
    cutLast newAbsPath (← Strings.strrchr fuel newAbsPath slash)
  else if (← Strings.strcmp fuel (Strings.literal dot) name) ≠ 0 then
    Strings.strcat fuel (← addSlash fuel newAbsPath) name
  else
    return newAbsPath

/-- The loop of `wash_path`. -/
def washLoop (fuel : Nat) (path : Memory) : Nat → Option Nat → Memory → Memory →
    Except Fault Memory
  | 0, _, _, _ => throw .diverges
  | left + 1, subPath, name, newAbsPath =>
      if name 0 = 0 then
        return newAbsPath
      else do
        let newAbsPath ← washName fuel newAbsPath name
        let (subPath, name) ← nextName fuel path subPath name
        washLoop fuel path left subPath name newAbsPath

/-- `wash_path`: the object `new_abs_path` after it. -/
def washPath (fuel : Nat) (path : Memory) (oldAbsPath : Nat) (newAbsPath : Memory) :
    Except Fault Memory := do
  require (path oldAbsPath = slash)
  let (subPath, name) ← pathParse fuel path oldAbsPath Memory.zeros
  if name 0 = 0 then
    return Function.update (Function.update newAbsPath 0 slash) 1 0
  else do
    let newAbsPath ← Strings.strcat fuel (Function.update newAbsPath 0 0) (Strings.literal [slash])
    washLoop fuel path fuel subPath name newAbsPath

/-! ## The normal form -/

/-- A name after those that are kept of the names before it. -/
def normalStep (kept : List (List Byte)) (name : List Byte) : List (List Byte) :=
  if name = dotdot then kept.dropLast else if name = dot then kept else kept ++ [name]

/-- The normal form of a list of names. -/
def normalForm (names : List (List Byte)) : List (List Byte) := names.foldl normalStep []

/-- A slash, and the names with slashes between them. -/
def absolute (names : List (List Byte)) : List Byte := slash :: [slash].intercalate names

section

variable {path buf new nameStore : Memory} {p fuel left : Nat} {at_ : Option Nat}
  {s name t t' before : List Byte} {names stack : List (List Byte)} {sub : Option (List Byte)}

theorem clean_eq_foldl : clean dot dotdot stack names = names.foldl normalStep stack := by
  induction names generalizing stack with
  | nil => rfl
  | cons name names ih =>
      rw [clean, List.foldl_cons, normalStep, ih, ih, ih]
      split
      case isTrue => rfl
      case isFalse =>
          split
          case isTrue => rfl
          case isFalse => rfl

theorem normalForm_links : ∀ name ∈ normalForm names, name ≠ dot ∧ name ≠ dotdot := by
  rw [normalForm, ← clean_eq_foldl]
  exact clean_links fun name member => absurd member List.not_mem_nil

/-- A normal form is the normal form of itself. -/
theorem normalForm_normal : normalForm (normalForm names) = normalForm names := by
  have plain : clean dot dotdot [] (normalForm names) = [] ++ normalForm names :=
    clean_plain normalForm_links
  rwa [clean_eq_foldl, List.nil_append] at plain

theorem normalForm_subset (member : name ∈ normalForm names) : name ∈ names := by
  rw [normalForm, ← clean_eq_foldl] at member
  simpa using clean_sublist.subset member

/-- The path of names that were put together in a row. -/
theorem render_eq : render names = absolute names := by
  unfold render absolute
  cases names with
  | nil => rfl
  | cons name names =>
      rw [if_neg (List.cons_ne_nil name names)]
      induction names generalizing name with
      | nil => simp
      | cons next names ih =>
          have rest := ih next
          rw [List.flatMap_cons, rest]
          simp [List.intercalate, List.intersperse]

/-! ## One round -/

theorem beforeLastSlash_some (isBefore : beforeLastSlash t = some before) :
    ∃ behind, t = before ++ slash :: behind ∧ slash ∉ behind := by
  unfold beforeLastSlash at isBefore
  split at isBefore
  case isFalse => cases isBefore
  case isTrue inside =>
      have parts := List.takeWhile_append_dropWhile (p := (· ≠ slash)) (l := t.reverse)
      have free : slash ∉ t.reverse.takeWhile (· ≠ slash) := fun member => by
        simpa using List.mem_takeWhile_imp member
      generalize t.reverse.takeWhile (· ≠ slash) = behind at parts free
      cases ends : t.reverse.dropWhile (· ≠ slash) with
      | nil =>
          rw [ends, List.append_nil] at parts
          rw [parts] at free
          exact absurd (List.mem_reverse.mpr inside) free
      | cons c rest =>
          have stops := dropWhile_stops ends
          have isSlash : c = slash := not_not.mp (of_decide_eq_false stops)
          rw [ends, List.tail_cons] at isBefore
          cases isBefore
          refine ⟨behind.reverse, ?_, fun member => free (List.mem_reverse.mp member)⟩
          rw [ends, isSlash] at parts
          have whole := congrArg List.reverse parts
          rw [List.reverse_append, List.reverse_cons, List.reverse_reverse] at whole
          rw [← whole, List.append_assoc]
          rfl

/-- What `..` does to the path. -/
theorem cutLast_runs (newAt : new.StringAt 0 t) (isBefore : beforeLastSlash t = some before)
    (enough : t.length < fuel) : ∃ slashPtr new', Strings.strrchr fuel new slash = .ok slashPtr ∧
      cutLast new slashPtr = .ok new' ∧
      new'.StringAt 0 (if before ≠ [] then before else [slash]) := by
  obtain ⟨behind, rfl, last⟩ := beforeLastSlash_some isBefore
  have found := Strings.strrchr_runs newAt enough last
  cases before with
  | nil =>
      have cut := @Memory.StringAt.cut new 0 [slash] behind newAt
      have ran : cutLast new (some 0) = .ok (Function.update new 1 0) := by
        rw [cutLast, if_neg (not_not.mpr rfl)]
        rfl
      refine ⟨_, _, found, ran, ?_⟩
      rw [if_neg (not_not.mpr rfl)]
      exact cut
  | cons c before =>
      have cut := newAt.cut
      rw [Nat.zero_add] at cut
      have ran : cutLast new (some (before.length + 1)) =
          .ok (Function.update new (before.length + 1) 0) := by
        rw [cutLast, if_pos (Nat.succ_ne_zero before.length)]
        rfl
      refine ⟨_, _, found, ran, ?_⟩
      rw [if_pos (List.cons_ne_nil c before)]
      exact cut

theorem addSlash_runs (newAt : new.StringAt 0 t) (enough : t.length < fuel) (many : 2 < fuel) :
    ∃ new', addSlash fuel new = .ok new' ∧
      new'.StringAt 0 (if t ≠ [slash] then t ++ [slash] else t) := by
  have slashAt : (Strings.literal [slash]).StringAt 0 [slash] :=
    Strings.literal_stringAt (by decide)
  obtain ⟨result, compared, zero⟩ := Strings.strcmp_runs newAt slashAt enough
  rw [addSlash, compared]
  by_cases root : t = [slash]
  · rw [if_neg (not_not.mpr root)]
    refine ⟨new, ?_, newAt⟩
    exact if_neg (not_not.mpr (zero.mpr root))
  · rw [if_pos root]
    obtain ⟨new', ran, newAt'⟩ :=
      Strings.strcat_runs newAt slashAt enough (Nat.lt_of_succ_lt many)
    refine ⟨new', ?_, newAt'⟩
    rw [← ran]
    exact if_pos fun same => root (zero.mp same)

/-- A round in memory does what the other one does. -/
theorem washName_refines (newAt : new.StringAt 0 t) (nameAt : buf.StringAt 0 name)
    (enough : t.length + 1 < fuel) (fits : name.length < fuel) (many : 2 < fuel)
    (ran : Shell.washName t name = .ok t') :
    ∃ new', washName fuel new buf = .ok new' ∧ new'.StringAt 0 t' := by
  have upAt : (Strings.literal dotdot).StringAt 0 dotdot := Strings.literal_stringAt (by decide)
  have stayAt : (Strings.literal dot).StringAt 0 dot := Strings.literal_stringAt (by decide)
  obtain ⟨result, compared, zero⟩ := Strings.strcmp_runs upAt nameAt many
  obtain ⟨result', compared', zero'⟩ := Strings.strcmp_runs stayAt nameAt (Nat.lt_of_succ_lt many)
  rw [washName, compared]
  rw [Shell.washName] at ran
  simp only [bind, Except.bind, compared']
  by_cases isUp : name = dotdot
  · rw [if_pos isUp] at ran
    rw [if_pos (zero.mpr isUp.symm)]
    cases isBefore : beforeLastSlash t with
    | none =>
        rw [isBefore] at ran
        cases ran
    | some before =>
        rw [isBefore] at ran
        cases ran
        obtain ⟨slashPtr, new', found, cut, newAt'⟩ :=
          cutLast_runs newAt isBefore (Nat.lt_of_succ_lt enough)
        rw [found]
        exact ⟨new', cut, newAt'⟩
  · rw [if_neg isUp] at ran
    rw [if_neg fun same => isUp (zero.mp same).symm]
    by_cases isStay : name = dot
    · rw [if_neg (not_not.mpr isStay)] at ran
      cases ran
      rw [if_neg (not_not.mpr (zero'.mpr isStay.symm))]
      exact ⟨new, rfl, newAt⟩
    · rw [if_pos isStay] at ran
      cases ran
      rw [if_pos fun same => isStay (zero'.mp same).symm]
      obtain ⟨new₁, added, newAt₁⟩ := addSlash_runs newAt (Nat.lt_of_succ_lt enough) many
      rw [added]
      apply Strings.strcat_runs newAt₁ nameAt _ fits
      split_ifs
      · rwa [List.length_append, List.length_singleton]
      · exact Nat.lt_of_succ_lt enough

/-! ## The loop -/

/-- The room that names take, each with a slash. -/
def roomOf (names : List (List Byte)) : Nat := (names.map fun name => name.length + 1).sum

theorem length_render_le (names : List (List Byte)) : (render names).length ≤ roomOf names + 1 := by
  rw [length_render, roomOf]
  split
  case isTrue => omega
  case isFalse => omega

theorem roomOf_cons : roomOf (name :: names) = name.length + 1 + roomOf names := by
  rw [roomOf, List.map_cons, List.sum_cons, roomOf]

/-- A round takes no more room than the name that it is for. -/
theorem roomOf_clean :
    roomOf (clean dot dotdot stack [name]) ≤ roomOf stack + (name.length + 1) := by
  have kept : (clean dot dotdot stack [name]).Sublist (stack ++ [name]) := clean_sublist
  have less := (kept.map fun name => name.length + 1).sum_le_sum fun _ _ => Nat.zero_le _
  rwa [List.map_append, List.sum_append, List.map_singleton, List.sum_singleton] at less

/-- A round for a name, after those that are kept of the names before it. -/
theorem washName_kept (newAt : new.StringAt 0 (render stack)) (each : Shell.PathNames stack)
    (nameAt : buf.StringAt 0 name) (here : name ≠ [] ∧ slash ∉ name)
    (room : roomOf stack + (name.length + 1 + roomOf names) + 1 < fuel) (many : 2 < fuel) :
    ∃ new', washName fuel new buf = .ok new' ∧
      new'.StringAt 0 (render (clean dot dotdot stack [name])) ∧
      Shell.PathNames (clean dot dotdot stack [name]) ∧
      roomOf (clean dot dotdot stack [name]) + roomOf names + 1 < fuel := by
  have positive := List.length_pos_of_ne_nil here.1
  have length := length_render_le stack
  have kept : roomOf (clean dot dotdot stack [name]) ≤ roomOf stack + (name.length + 1) :=
    roomOf_clean
  have single : Shell.PathNames [name] := List.forall_mem_singleton.mpr here
  obtain ⟨new', washed, newAt'⟩ := washName_refines newAt nameAt (by omega) (by omega) many
    (washName_render each name)
  exact ⟨new', washed, newAt', each.clean single, by omega⟩

/-- The loop of `wash_path`: what is left of the names that are ahead, after those before them. -/
theorem washLoop_runs (parsed : Parsed fuel path at_ name sub names)
    (nameIn : NameIn nameStore name)
    (newAt : new.StringAt 0 (render stack)) (each : Shell.PathNames stack)
    (others : Shell.PathNames names) (short : ∀ name ∈ names, name.length < maxFileNameLen)
    (bound : names.length < left) (room : roomOf stack + roomOf names + 1 < fuel)
    (many : 2 < fuel) :
    ∃ new', washLoop fuel path left at_ nameStore new = .ok new' ∧
      new'.StringAt 0 (render (clean dot dotdot stack names)) := by
  induction left generalizing at_ name sub names nameStore new stack with
  | zero => exact absurd bound (Nat.not_lt_zero _)
  | succ left ih =>
      rw [washLoop]
      have ends := parsed.ends_iff (nameIn.first parsed.clean)
      cases names with
      | nil =>
          rw [if_pos (ends.mpr rfl)]
          exact ⟨new, rfl, newAt⟩
      | cons name₁ names =>
          have full : ¬ nameStore 0 = 0 := fun zero => List.cons_ne_nil name₁ names (ends.mp zero)
          obtain ⟨fits, shorter⟩ := List.forall_mem_cons.mp short
          obtain ⟨here, later⟩ := List.forall_mem_cons.mp others
          obtain ⟨same, q, name', sub', buf, ran, nameIn', parsed'⟩ :=
            parsed.next (fun name member => Nat.le_of_lt (shorter name member)) nameStore
          subst same
          rw [roomOf_cons] at room
          have nameAt := stringAt_of_nameIn nameIn fits parsed.clean
          obtain ⟨new₁, washed, newAt₁, kept, room₁⟩ :=
            washName_kept newAt each nameAt here room many
          obtain ⟨new', rest, newAt'⟩ := ih parsed' nameIn' newAt₁ kept later shorter
            (Nat.lt_of_succ_lt_succ bound) room₁
          rw [clean_cons] at newAt'
          rw [if_neg full, washed]
          simp only [bind, Except.bind, ran]
          exact ⟨new', rest, newAt'⟩

/-- What `wash_path` starts its loop with: a slash in the buffer, and enough fuel. -/
theorem washLoop_starts (isAbsolute : s.head? = some slash) (enough : s.length + 1 < fuel)
    (newAbsPath : Memory) :
    (∃ new, Strings.strcat fuel (Function.update newAbsPath 0 0) (Strings.literal [slash]) =
      .ok new ∧
      new.StringAt 0 (render [])) ∧
    (pathNames s).length < fuel ∧ roomOf [] + roomOf (pathNames s) + 1 < fuel ∧ 2 < fuel := by
  have positive : 0 < s.length := by
    cases s with
    | nil => cases isAbsolute
    | cons c cs => exact Nat.succ_pos _
  have many : 2 < fuel := by omega
  have slashAt : (Strings.literal [slash]).StringAt 0 [slash] :=
    Strings.literal_stringAt (by decide)
  have emptied : Memory.StringAt (Function.update newAbsPath 0 0) 0 [] :=
    Memory.StringAt.nil_iff.mpr (Function.update_self ..)
  have room : roomOf [] + roomOf (pathNames s) ≤ s.length := by
    have rooms := pathNames_room isAbsolute
    rwa [← roomOf, ← Nat.zero_add (roomOf (pathNames s))] at rooms
  refine ⟨?_, ?_, ?_, many⟩
  · exact Strings.strcat_runs emptied slashAt (Nat.zero_lt_of_lt many) (Nat.lt_of_succ_lt many)
  · exact lt_of_le_of_lt (length_pathNames s) (Nat.lt_of_succ_lt enough)
  · exact lt_of_le_of_lt (Nat.add_le_add_right room 1) enough

/-- `wash_path` in memory makes the path of what is left of the names. -/
theorem washPath_runs (isAt : path.StringAt p s) (isAbsolute : s.head? = some slash)
    (short : ∀ name ∈ components slash s, name.length < maxFileNameLen)
    (enough : s.length + 1 < fuel) (newAbsPath : Memory) :
    ∃ new, washPath fuel path p newAbsPath = .ok new ∧
      new.StringAt 0 (render (clean dot dotdot [] (components slash s))) := by
  have begins : path p = slash := by
    cases s with
    | nil => cases isAbsolute
    | cons c cs => exact (Memory.StringAt.cons_iff.mp isAt).1.trans (Option.some.inj isAbsolute)
  have fits : ∀ name ∈ components slash s, name.length ≤ maxFileNameLen :=
    fun name member => Nat.le_of_lt (short name member)
  obtain ⟨q, name, sub, ran, parsed⟩ :=
    pathParse_parsed isAt (Nat.lt_of_succ_lt enough) fits Memory.zeros
  have nameIn : NameIn (overlay Memory.zeros name) name := parsed.nameIn (fun _ _ => rfl) fits
  have ends := parsed.ends_iff (nameIn.first parsed.clean)
  rw [washPath, require_of begins]
  simp only [bind, Except.bind, ran]
  by_cases nothing : components slash s = []
  · rw [if_pos (ends.mpr nothing), nothing]
    refine ⟨_, rfl, ?_⟩
    have root : render (clean dot dotdot [] []) = [slash] := rfl
    rw [root]
    refine Memory.StringAt.cons_iff.mpr ⟨?_, by decide, Memory.StringAt.nil_iff.mpr ?_⟩
    · rw [Function.update_of_ne (by decide), Function.update_self]
    · rw [Function.update_self]
  · rw [if_neg fun zero => nothing (ends.mp zero)]
    obtain ⟨⟨new₁, put, newAt⟩, bound, room, many⟩ := washLoop_starts isAbsolute enough newAbsPath
    have start : Shell.PathNames [] := fun _ member => absurd member List.not_mem_nil
    have others : Shell.PathNames (pathNames s) := fun name member => mem_components member
    rw [put]
    exact washLoop_runs parsed nameIn newAt start others short bound room many

/-! ## The main result -/

/-- **Washed paths.** From every absolute path whose names have at most 15 characters, `wash_path`
makes the path of their normal form: `.` is left out, and `..` drops the last name that is kept, if
there is one. Washing what it made makes it again. -/
theorem wash_path_normal (isAt : path.StringAt p s) (isAbsolute : s.head? = some slash)
    (short : ∀ name ∈ components slash s, name.length ≤ 15) (enough : s.length + 1 < fuel)
    (newAbsPath : Memory) :
    ∃ new, washPath fuel path p newAbsPath = .ok new ∧
      new.StringAt 0 (absolute (normalForm (components slash s))) ∧
      ∀ other, ∃ again, washPath fuel new 0 other = .ok again ∧
        again.StringAt 0 (absolute (normalForm (components slash s))) := by
  have below {names : List (List Byte)} (within : ∀ name ∈ names, name.length ≤ 15) :
      ∀ name ∈ names, name.length < maxFileNameLen :=
    fun name member => Nat.lt_succ_of_le (within name member)
  obtain ⟨new, ran, newAt⟩ := washPath_runs isAt isAbsolute (below short) enough newAbsPath
  have length : (render (clean dot dotdot [] (components slash s))).length ≤ s.length :=
    length_washed isAbsolute
  rw [clean_eq_foldl, ← normalForm] at newAt length
  have names : components slash (render (normalForm (components slash s))) =
      normalForm (components slash s) :=
    pathNames_render fun name member => mem_components (normalForm_subset member)
  rw [← render_eq]
  refine ⟨new, ran, newAt, fun other => ?_⟩
  obtain ⟨again, ran', againAt⟩ := washPath_runs newAt head_render
    (by rw [names]; exact below fun name member => short name (normalForm_subset member))
    (Nat.lt_of_le_of_lt (Nat.add_le_add_right length 1) enough) other
  rw [names, clean_eq_foldl, ← normalForm, normalForm_normal] at againAt
  exact ⟨again, ran', againAt⟩

/-- `/../a//./b/..` is washed to `/a`. -/
theorem wash_path_normal_small :
    ∃ new, washPath 20 (Strings.literal [47, 46, 46, 47, 97, 47, 47, 46, 47, 98, 47, 46, 46]) 0
      Memory.zeros = .ok new ∧ new.StringAt 0 [47, 97] ∧
      ∀ other, ∃ again, washPath 20 new 0 other = .ok again ∧ again.StringAt 0 [47, 97] := by
  have names : components slash ([47, 46, 46, 47, 97, 47, 47, 46, 47, 98, 47, 46, 46] : List Byte) =
      [dotdot, [97], dot, [98], dotdot] := by
    decide +kernel
  have isAt : (Strings.literal [47, 46, 46, 47, 97, 47, 47, 46, 47, 98, 47, 46, 46]).StringAt 0
      [47, 46, 46, 47, 97, 47, 47, 46, 47, 98, 47, 46, 46] := Strings.literal_stringAt (by decide)
  have short : ∀ name ∈ components slash
      ([47, 46, 46, 47, 97, 47, 47, 46, 47, 98, 47, 46, 46] : List Byte), name.length ≤ 15 := by
    rw [names]
    simp [dot, dotdot]
  have enough :
      ([47, 46, 46, 47, 97, 47, 47, 46, 47, 98, 47, 46, 46] : List Byte).length + 1 < 20 :=
    by decide
  have form : absolute (normalForm [dotdot, [97], dot, [98], dotdot]) = [47, 97] := by
    decide
  have washed := wash_path_normal isAt rfl short enough Memory.zeros
  rwa [names, form] at washed

end

end UKernel.WashBuffer
