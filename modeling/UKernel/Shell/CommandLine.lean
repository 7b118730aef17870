import UKernel.Kernel.Strings
import UKernel.Library.Names

/-! # Words of a command line

`cmd_parse` splits a line into words where it stands: it stores a zero byte behind each word and a
pointer to it into `argv`. It looks at the number of words after it has stored the pointer, and
lets one more pass than `argv` has entries; it does what it is for exactly if the words fit
(`UKernel.Shell.cmd_parse_correct_iff`).
-/

namespace UKernel.Shell

open UKernel.Library

/-! ## The functions of the source -/

/-- `MAX_ARG_NR`. -/
def maxArgNr : Nat := 16

/-- `argv`, with what lies behind it; a pointer is a place in the line, and `none` is `NULL`. -/
abbrev Argv := Nat → Option Nat

/-- The loop that clears `argv`. -/
def clearArgv (argv : Argv) : Nat → Argv
  | 0 => argv
  | argIdx + 1 => Function.update (clearArgv argv argIdx) argIdx none

/-- The loop of `cmd_parse` over separators. -/
def skipTokens (line : Memory) (token : Byte) : Nat → Nat → Except Fault Nat
  | 0, _ => throw .diverges
  | fuel + 1, next =>
      if line next = token then skipTokens line token fuel (next + 1) else return next

/-- The loop of `cmd_parse` over the characters of a word. -/
def skipWord (line : Memory) (token : Byte) : Nat → Nat → Except Fault Nat
  | 0, _ => throw .diverges
  | fuel + 1, next =>
      if line next ≠ 0 ∧ line next ≠ token then skipWord line token fuel (next + 1) else return next

/-- What `cmd_parse` leaves and returns. -/
structure Parsed where
  line : Memory
  argv : Argv
  argc : Int

/-- The loop of `cmd_parse`. -/
def parseLoop (token : Byte) : Nat → Memory → Argv → Nat → Nat → Except Fault Parsed
  | 0, _, _, _, _ => throw .diverges
  | fuel + 1, line, argv, next, argc =>
      if line next = 0 then
        return ⟨line, argv, argc⟩
      else do
        let word ← skipTokens line token (fuel + 1) next
        if line word = 0 then
          return ⟨line, argv, argc⟩
        else do
          let argv := Function.update argv argc (some word)
          let stop ← skipWord line token (fuel + 1) word
          let (line, next) :=
            if line stop ≠ 0 then (Function.update line stop 0, stop + 1) else (line, stop)
          if argc > maxArgNr then
            return ⟨line, argv, -1⟩
          else
            parseLoop token fuel line argv next (argc + 1)

/-- `cmd_parse`, of the line at the place `cmdStr`. -/
def cmdParse (fuel : Nat) (line : Memory) (cmdStr : Nat) (argv : Argv) (token : Byte) :
    Except Fault Parsed :=
  parseLoop token fuel line (clearArgv argv maxArgNr) cmdStr 0

/-! ## What it is for -/

/-- The words of a line. -/
abbrev words (token : Byte) (s : List Byte) : List (List Byte) := components token s

/-- The word of the given number begins at a place of the line. -/
structure WordAt (token : Byte) (s : List Byte) (k off : Nat) (word : List Byte) : Prop where
  split : ∃ before behind, s = before ++ (word ++ behind) ∧ before.length = off ∧
    (words token before).length = k ∧ (∀ c ∈ before.getLast?, c = token) ∧
    ∀ c ∈ behind.head?, c = token

/-- Splitting the line, wherever it lies and whatever `argv` holds, ends; only `argv` is written
and the bytes of the line; if the words fit, `argv` points to them, each of them ends with a zero
byte, and the entries that are left are `NULL`; if they do not fit, the result is -1. -/
def CmdParseCorrect (token : Byte) (s : List Byte) : Prop :=
  ∀ fuel line cmdStr argv, s.length < fuel → line.StringAt cmdStr s →
    ∃ parsed, cmdParse fuel line cmdStr argv token = .ok parsed ∧
      (∀ i, maxArgNr ≤ i → parsed.argv i = argv i) ∧
      (∀ i, i < cmdStr ∨ cmdStr + s.length ≤ i → parsed.line i = line i) ∧
      ((words token s).length ≤ maxArgNr →
        parsed.argc = (words token s).length ∧
        (∀ k word, (words token s)[k]? = some word → ∃ off, WordAt token s k off word ∧
          parsed.argv k = some (cmdStr + off) ∧ parsed.line.StringAt (cmdStr + off) word) ∧
        ∀ k, (words token s).length ≤ k → k < maxArgNr → parsed.argv k = none) ∧
      (maxArgNr < (words token s).length → parsed.argc = -1)

/-! ## The inner loops -/

section

variable {line : Memory} {argv : Argv} {token : Byte} {next fuel argc k off : Nat}
  {s seps word tail rest : List Byte}

theorem clearArgv_apply {n i : Nat} : clearArgv argv n i = if i < n then none else argv i := by
  induction n with
  | zero => rfl
  | succ n ih =>
      rw [clearArgv]
      by_cases here : i = n
      · rw [here, Function.update_self, if_pos (Nat.lt_succ_self n)]
      · rw [Function.update_of_ne here, ih]
        exact if_congr (by omega) rfl rfl

/-- Separators are passed. -/
theorem skipTokens_runs (at_ : line.StringAt next (seps ++ rest)) (all : ∀ c ∈ seps, c = token)
    (stops : rest.head? ≠ some token) (nonzero : token ≠ 0) (enough : seps.length < fuel) :
    skipTokens line token fuel next = .ok (next + seps.length) := by
  induction seps generalizing next fuel with
  | nil =>
      obtain ⟨fuel, rfl⟩ := Nat.exists_eq_succ_of_ne_zero (Nat.ne_zero_of_lt enough)
      have other : line next ≠ token := by
        cases rest with
        | nil => exact Memory.StringAt.nil_iff.mp at_ ▸ Ne.symm nonzero
        | cons c rest =>
            rw [(Memory.StringAt.cons_iff.mp at_).1]
            exact fun same => stops (same ▸ rfl)
      rw [skipTokens, if_neg other]
      rfl
  | cons c seps ih =>
      obtain ⟨fuel, rfl⟩ := Nat.exists_eq_succ_of_ne_zero (Nat.ne_zero_of_lt enough)
      obtain ⟨first, others⟩ := List.forall_mem_cons.mp all
      obtain ⟨here, -, at_⟩ := Memory.StringAt.cons_iff.mp at_
      rw [skipTokens, if_pos (here.trans first), ih at_ others (by simpa using enough),
        List.length_cons]
      congr 1
      omega

/-- The characters of a word are passed. -/
theorem skipWord_runs (at_ : line.StringAt next (word ++ tail)) (free : token ∉ word)
    (stops : ∀ c ∈ tail.head?, c = token) (enough : word.length < fuel) :
    skipWord line token fuel next = .ok (next + word.length) := by
  induction word generalizing next fuel with
  | nil =>
      obtain ⟨fuel, rfl⟩ := Nat.exists_eq_succ_of_ne_zero (Nat.ne_zero_of_lt enough)
      have ended : ¬ (line next ≠ 0 ∧ line next ≠ token) := by
        rintro ⟨notEnd, notToken⟩
        cases tail with
        | nil => exact notEnd (Memory.StringAt.nil_iff.mp at_)
        | cons c tail =>
            exact notToken ((Memory.StringAt.cons_iff.mp at_).1.trans (stops c rfl))
      rw [skipWord, if_neg ended]
      rfl
  | cons c word ih =>
      obtain ⟨fuel, rfl⟩ := Nat.exists_eq_succ_of_ne_zero (Nat.ne_zero_of_lt enough)
      rw [List.mem_cons, not_or] at free
      obtain ⟨here, nonzero, at_⟩ := Memory.StringAt.cons_iff.mp at_
      rw [skipWord, if_pos ⟨here ▸ nonzero, here ▸ Ne.symm free.1⟩,
        ih at_ free.2 (by simpa using enough), List.length_cons]
      congr 1
      omega

/-! ## Places of words -/

/-- The first word. -/
theorem WordAt.first (all : ∀ c ∈ seps, c = token) (stops : ∀ c ∈ tail.head?, c = token) :
    WordAt token (seps ++ (word ++ tail)) 0 seps.length word := by
  refine ⟨seps, tail, rfl, rfl, ?_, fun c last => all c (List.mem_of_getLast? last), stops⟩
  rw [words, components_seps all]
  rfl

/-- A word behind the first one. -/
theorem WordAt.behind (found : WordAt token rest k off word) {front : List Byte}
    (one : (words token front).length = 1) :
    WordAt token (front ++ token :: rest) (k + 1) (front.length + 1 + off) word := by
  obtain ⟨before, behind, split, length, count, last, stops⟩ := found.split
  refine ⟨front ++ token :: before, behind, ?_, ?_, ?_, ?_, stops⟩
  · rw [split, List.append_assoc, List.cons_append]
  · rw [List.length_append, List.length_cons, length]
    omega
  · rw [words, components_append, List.length_append, one, count, Nat.add_comm]
  · intro c isLast
    rw [List.getLast?_append_cons] at isLast
    cases before with
    | nil =>
        cases isLast
        rfl
    | cons d before =>
        rw [List.getLast?_cons_cons] at isLast
        exact last c isLast

/-! ## The loop over the words -/

/-- What the loop leaves of the characters that are ahead. -/
structure ParsedTo (token : Byte) (line : Memory) (argv : Argv) (next argc : Nat) (s : List Byte)
    (parsed : Parsed) : Prop where
  counted : parsed.argc = if argc + (words token s).length ≤ maxArgNr + 1 then
    ((argc + (words token s).length : Nat) : Int) else -1
  pointers : ∀ k word, (words token s)[k]? = some word → argc + k ≤ maxArgNr + 1 →
    ∃ off, WordAt token s k off word ∧ parsed.argv (argc + k) = some (next + off) ∧
      parsed.line.StringAt (next + off) word
  others : ∀ i, i < argc ∨ argc + (words token s).length ≤ i → parsed.argv i = argv i
  outside : ∀ i, i < next ∨ next + s.length ≤ i → parsed.line i = line i

/-- Nothing is left where only separators are ahead. -/
theorem ParsedTo.done (none : words token s = []) (few : argc ≤ maxArgNr + 1) :
    ParsedTo token line argv next argc s ⟨line, argv, argc⟩ where
  counted := by
    rw [none, List.length_nil, Nat.add_zero, if_pos few]
  pointers k word found := by
    rw [none] at found
    cases found
  others _ _ := rfl
  outside _ _ := rfl

/-- The loop ends early where there are too many words. -/
theorem ParsedTo.full (many : maxArgNr + 1 < argc) :
    ParsedTo token line argv next argc s ⟨line, argv, -1⟩ where
  counted := by rw [if_neg (by omega)]
  pointers k word found few := absurd few (by omega)
  others _ _ := rfl
  outside _ _ := rfl

/-- A pointer to the last word, which ends where the line does. -/
theorem ParsedTo.last (at_ : line.StringAt next (seps ++ word)) (all : ∀ c ∈ seps, c = token)
    (nonempty : word ≠ []) (free : token ∉ word) {parsed : Parsed}
    (behind : ParsedTo token line (Function.update argv argc (some (next + seps.length)))
      (next + seps.length + word.length) (argc + 1) [] parsed) :
    ParsedTo token line argv next argc (seps ++ word) parsed := by
  have one : words token (seps ++ word) = [word] := by
    rw [words, components_seps_append all, components_single nonempty free]
  have none : words token [] = [] := components_nil
  have unchanged : ∀ i, parsed.line i = line i := fun i => behind.outside i (by
    rw [List.length_nil]
    omega)
  constructor
  case counted =>
    rw [behind.counted, none, one]
    rfl
  case pointers =>
    intro k found isWord _
    rw [one] at isWord
    obtain ⟨rfl, rfl⟩ : k = 0 ∧ word = found := by
      cases k with
      | zero => exact ⟨rfl, Option.some.inj isWord⟩
      | succ k => cases isWord
    refine ⟨seps.length, ?_, ?_, at_.drop.congr fun i _ _ => unchanged i⟩
    · have first : WordAt token (seps ++ (word ++ [])) 0 seps.length word :=
        .first all fun c member => by cases member
      rwa [List.append_nil] at first
    · rw [Nat.add_zero, behind.others _ (.inl (Nat.lt_succ_self _))]
      exact Function.update_self ..
  case others =>
    intro i outside
    rw [one, List.length_singleton] at outside
    rw [behind.others i (by rw [none, List.length_nil]; omega), Function.update_of_ne (by omega)]
  case outside => exact fun i _ => unchanged i

/-- A pointer to a word, and what is behind it. -/
theorem ParsedTo.more (at_ : line.StringAt next (seps ++ (word ++ token :: rest)))
    (all : ∀ c ∈ seps, c = token) (nonempty : word ≠ []) (free : token ∉ word)
    {line' : Memory} {parsed : Parsed}
    (cut : line' = Function.update line (next + seps.length + word.length) 0)
    (behind : ParsedTo token line' (Function.update argv argc (some (next + seps.length)))
      (next + seps.length + word.length + 1) (argc + 1) rest parsed) :
    ParsedTo token line argv next argc (seps ++ (word ++ token :: rest)) parsed := by
  have front : words token (seps ++ word) = [word] := by
    rw [words, components_seps_append all, components_single nonempty free]
  have whole : words token (seps ++ (word ++ token :: rest)) = word :: words token rest := by
    rw [words, components_seps_append all, components_append, components_single nonempty free]
    rfl
  have length : (seps ++ (word ++ token :: rest)).length =
      seps.length + word.length + 1 + rest.length := by
    rw [List.length_append, List.length_append, List.length_cons]
    omega
  have wordAt : line.StringAt (next + seps.length) (word ++ token :: rest) := at_.drop
  constructor
  case counted =>
    rw [behind.counted, whole, List.length_cons, Nat.add_right_comm, Nat.add_assoc]
  case pointers =>
    intro k found isWord few
    rw [whole] at isWord
    cases k with
    | zero =>
        obtain rfl := Option.some.inj isWord
        refine ⟨seps.length, .first all fun c member => ?_, ?_, ?_⟩
        · exact (Option.some.inj member).symm
        · rw [Nat.add_zero, behind.others _ (.inl (Nat.lt_succ_self _))]
          exact Function.update_self ..
        · have terminated : line'.StringAt (next + seps.length) word := by
            rw [cut]
            exact wordAt.cut
          exact terminated.congr fun i _ high => behind.outside i (.inl (by omega))
    | succ k =>
        obtain ⟨off, isAt, stored, string⟩ := behind.pointers k found isWord (by omega)
        have place : next + ((seps ++ word).length + 1 + off) =
            next + seps.length + word.length + 1 + off := by
          rw [List.length_append]
          omega
        refine ⟨(seps ++ word).length + 1 + off, ?_, ?_, ?_⟩
        · rw [← List.append_assoc]
          exact isAt.behind (by rw [front]; rfl)
        · rw [place, ← stored]
          congr 1
          omega
        · rw [place]
          exact string
  case others =>
    intro i outside
    rw [whole, List.length_cons] at outside
    rw [behind.others i (by omega), Function.update_of_ne (by omega)]
  case outside =>
    intro i outside
    rw [length] at outside
    rw [behind.outside i (by omega), cut, Function.update_of_ne (by omega)]

variable (argv argc) in
/-- A round of the loop that finds a word. -/
theorem parseLoop_word (at_ : line.StringAt next (seps ++ (word ++ tail)))
    (all : ∀ c ∈ seps, c = token) (nonempty : word ≠ []) (free : token ∉ word)
    (stops : ∀ c ∈ tail.head?, c = token) (nonzero : token ≠ 0)
    (enough : (seps ++ (word ++ tail)).length < fuel + 1) :
    parseLoop token (fuel + 1) line argv next argc =
      let stop := next + seps.length + word.length
      let (line, next') :=
        if line stop ≠ 0 then (Function.update line stop 0, stop + 1) else (line, stop)
      if argc > maxArgNr then
        .ok ⟨line, Function.update argv argc (some (next + seps.length)), -1⟩
      else
        parseLoop token fuel line (Function.update argv argc (some (next + seps.length))) next'
          (argc + 1) := by
  obtain ⟨c, word, rfl⟩ := List.exists_cons_of_ne_nil nonempty
  rw [List.length_append, List.length_append] at enough
  have wordAt : line.StringAt (next + seps.length) (c :: word ++ tail) := at_.drop
  obtain ⟨first, notEnd, -⟩ := Memory.StringAt.cons_iff.mp wordAt
  have begins : line next ≠ 0 := by
    have lead := at_.ne_zero (i := 0) (by simp)
    rwa [Nat.add_zero] at lead
  have skipped : skipTokens line token (fuel + 1) next = .ok (next + seps.length) := by
    refine skipTokens_runs at_ all ?_ nonzero (by omega)
    intro same
    exact free (Option.some.inj same ▸ List.mem_cons_self)
  have passed : skipWord line token (fuel + 1) (next + seps.length) =
      .ok (next + seps.length + (c :: word).length) :=
    skipWord_runs wordAt free stops (by omega)
  rw [parseLoop, if_neg begins, skipped]
  simp only [bind, Except.bind]
  rw [if_neg (first ▸ notEnd), passed]
  rfl

/-- The loop of `cmd_parse`. -/
theorem parseLoop_runs (at_ : line.StringAt next s) (nonzero : token ≠ 0) (enough : s.length < fuel)
    (few : argc ≤ maxArgNr + 1) : ∃ parsed, parseLoop token fuel line argv next argc = .ok parsed ∧
      ParsedTo token line argv next argc s parsed := by
  induction fuel generalizing line argv next argc s with
  | zero => exact absurd enough (Nat.not_lt_zero _)
  | succ fuel ih =>
      cases firstName token s with
      | none all =>
          refine ⟨_, ?_, .done (components_seps all) few⟩
          rw [parseLoop]
          by_cases ended : line next = 0
          · rw [if_pos ended]
            rfl
          · have skipped : skipTokens line token (fuel + 1) next = .ok (next + s.length) := by
              have whole : line.StringAt next (s ++ []) := by rwa [List.append_nil]
              exact skipTokens_runs whole all (Option.some_ne_none token).symm nonzero enough
            rw [if_neg ended, skipped]
            simp only [bind, Except.bind]
            rw [if_pos at_.ends]
            rfl
      | last all nonempty free =>
          rename_i seps word
          rw [List.length_append] at enough
          have ended : line (next + seps.length + word.length) = 0 := by
            rw [Nat.add_assoc, ← List.length_append]
            exact at_.ends
          have rest : line.StringAt (next + seps.length + word.length) [] :=
            Memory.StringAt.nil_iff.mpr ended
          have whole : line.StringAt next (seps ++ (word ++ [])) := by rwa [List.append_nil]
          have bounded : (seps ++ (word ++ [])).length < fuel + 1 := by simpa using enough
          have round := parseLoop_word argv argc whole all nonempty free
            (fun c member => by cases member) nonzero bounded
          simp only [ended, ne_eq, not_true_eq_false, if_false] at round
          rw [round]
          by_cases many : argc > maxArgNr
          · rw [if_pos many]
            exact ⟨_, rfl, .last at_ all nonempty free (.full (by omega))⟩
          · rw [if_neg many]
            have shorter : ([] : List Byte).length < fuel := by
              have := List.length_pos_iff.mpr nonempty
              rw [List.length_nil]
              omega
            obtain ⟨parsed, ran, behind⟩ := @ih line
              (Function.update argv argc (some (next + seps.length))) _ (argc + 1) _ rest shorter
              (by omega)
            exact ⟨parsed, ran, .last at_ all nonempty free behind⟩
      | more all nonempty free =>
          rename_i seps word rest
          have wordAt : line.StringAt (next + seps.length) (word ++ token :: rest) := at_.drop
          have tokenAt : line.StringAt (next + seps.length + word.length) (token :: rest) :=
            wordAt.drop
          obtain ⟨here, -, restAt⟩ := Memory.StringAt.cons_iff.mp tokenAt
          have round := parseLoop_word argv argc at_ all nonempty free
            (fun c member => (Option.some.inj member).symm) nonzero enough
          have notEnd : line (next + seps.length + word.length) ≠ 0 := here ▸ nonzero
          simp only [notEnd, ne_eq, not_false_eq_true, if_true] at round
          rw [round]
          by_cases many : argc > maxArgNr
          · rw [if_pos many]
            exact ⟨_, rfl, .more at_ all nonempty free rfl (.full (by omega))⟩
          · rw [if_neg many]
            rw [List.length_append, List.length_append, List.length_cons] at enough
            have later : Memory.StringAt
                (Function.update line (next + seps.length + word.length) 0)
                (next + seps.length + word.length + 1) rest :=
              restAt.congr fun i low _ => Function.update_of_ne (by omega) ..
            obtain ⟨parsed, ran, behind⟩ := @ih _
              (Function.update argv argc (some (next + seps.length))) _ (argc + 1) _ later
              (by omega) (by omega)
            exact ⟨parsed, ran, .more at_ all nonempty free rfl behind⟩

/-- `cmd_parse`. -/
theorem cmdParse_runs (argv : Argv) (at_ : line.StringAt next s) (nonzero : token ≠ 0)
    (enough : s.length < fuel) : ∃ parsed, cmdParse fuel line next argv token = .ok parsed ∧
      ParsedTo token line (clearArgv argv maxArgNr) next 0 s parsed :=
  parseLoop_runs at_ nonzero enough (Nat.zero_le _)

/-! ## The main result -/

/-- A pointer behind the end of `argv` is stored for the word that is one too many. -/
theorem not_correct_of_many (nonzero : token ≠ 0) (clean : 0 ∉ s)
    (many : maxArgNr < (words token s).length) : ¬ CmdParseCorrect token s := by
  intro correct
  have at_ := Strings.literal_stringAt clean
  obtain ⟨parsed, ran, within, -⟩ := correct (s.length + 1) (Strings.literal s) 0 (fun _ => none)
    (Nat.lt_succ_self _) at_
  obtain ⟨parsed', ran', left⟩ := cmdParse_runs (fun _ => none) at_ nonzero (Nat.lt_succ_self _)
  obtain rfl : parsed' = parsed := Except.ok.inj (ran'.symm.trans ran)
  obtain ⟨off, -, stored, -⟩ := left.pointers maxArgNr _ (List.getElem?_eq_getElem many) (by omega)
  rw [Nat.zero_add, within maxArgNr (Nat.le_refl _)] at stored
  cases stored

/-- **Splitting a command line.** `cmd_parse` counts the words, points to them and cuts the line
behind each of them, and stays within `argv`, exactly if `argv` has an entry for each word. -/
theorem cmd_parse_correct_iff (nonzero : token ≠ 0) (clean : 0 ∉ s) :
    CmdParseCorrect token s ↔ (words token s).length ≤ maxArgNr := by
  constructor
  · intro correct
    by_contra many
    exact not_correct_of_many nonzero clean (Nat.lt_of_not_le many) correct
  · intro fits fuel line cmdStr argv enough at_
    obtain ⟨parsed, ran, left⟩ := cmdParse_runs argv at_ nonzero enough
    refine ⟨parsed, ran, ?_, left.outside, fun _ => ⟨?_, ?_, ?_⟩, fun many =>
      absurd fits (by omega)⟩
    · intro i behind
      rw [left.others i (.inr (by omega)), clearArgv_apply, if_neg (by omega)]
    · rw [left.counted, Nat.zero_add, if_pos (by omega)]
    · intro k word isWord
      have small : k < (words token s).length := (List.getElem?_eq_some_iff.mp isWord).1
      have found := left.pointers k word isWord (by omega)
      rwa [Nat.zero_add] at found
    · intro k behind small
      rw [left.others k (.inr (by omega)), clearArgv_apply, if_pos small]

end

/-- A blank. -/
def blank : Byte := 0x20

/-- `ls  -l` has two words. -/
theorem cmd_parse_correct_ls : CmdParseCorrect blank [0x6c, 0x73, blank, blank, 0x2d, 0x6c] :=
  (cmd_parse_correct_iff (by decide) (by decide)).mpr (by decide)

/-- Seventeen words: the last pointer is stored behind `argv`. -/
theorem cmd_parse_seventeen :
    ¬ CmdParseCorrect blank ((List.replicate 17 [0x61, blank]).flatten) :=
  not_correct_of_many (by decide) (by decide) (by decide +kernel)

end UKernel.Shell
