import UKernel.Shell.CommandLine
import UKernel.Library.Traced

/-! # The shell's loop

What `my_shell` does with a line: it cuts the line where `|` stands, splits each piece into words
and calls `cmd_execute`, whose first comparison stops the machine where there is no word. It looks
at the result of the splitting only where there is no `|`, and then only for -1; the calls are in
order exactly if the words of each piece fit (`UKernel.Shell.my_shell_calls_iff`).
-/

namespace UKernel.Shell

open UKernel.Library

/-! ## The functions of the source -/

/-- What `cmd_execute` chooses from. -/
inductive Command where
  | ls | cd | pwd | ps | clear | mkdir | rmdir | rm | help
  /-- A program, which `cmd_execute` loads in a child. -/
  | external
  deriving DecidableEq, Repr

/-- The names that `cmd_execute` compares `argv[0]` with. -/
def builtins : List (List Byte × Command) :=
  [([0x6c, 0x73], .ls), ([0x63, 0x64], .cd), ([0x70, 0x77, 0x64], .pwd), ([0x70, 0x73], .ps),
    ([0x63, 0x6c, 0x65, 0x61, 0x72], .clear), ([0x6d, 0x6b, 0x64, 0x69, 0x72], .mkdir),
    ([0x72, 0x6d, 0x64, 0x69, 0x72], .rmdir), ([0x72, 0x6d], .rm),
    ([0x68, 0x65, 0x6c, 0x70], .help)]

/-- A descriptor that `my_shell` names: a number, or an entry of `fd`. -/
inductive ShellFd where
  | number (fd : Nat)
  | pipeEnd (i : Fin 2)
  deriving DecidableEq, Repr

/-- A step of `my_shell` behind the splitting of the line. -/
inductive ShellStep where
  /-- `pipe(fd)`. -/
  | pipe
  /-- `fd_redirect`. -/
  | fdRedirect (old new : ShellFd)
  /-- What `cmd_execute` does once it has chosen. -/
  | run (command : Command)
  /-- `close`. -/
  | close (fd : ShellFd)
  /-- The message that there are too many arguments. -/
  | exceeds
  deriving DecidableEq, Repr

/-- `cmd_line` and `argv`, with the calls of `cmd_execute` and the steps that were made. -/
structure ShellState where
  line : Memory
  argv : Argv
  executed : List (Word × Argv)
  steps : List ShellStep

/-- A part of `my_shell`. -/
abbrev ShellCall (α : Type) := Traced ShellState α

/-- The comparisons of `cmd_execute`. -/
def chooseCommand (fuel : Nat) (arg : Memory) : List (List Byte × Command) → Except Fault Command
  | [] => return .external
  | (name, command) :: others => do
      if (← Strings.strcmp fuel (Strings.literal name) arg) = 0 then
        return command
      else
        chooseCommand fuel arg others

/-- A step is made. -/
def shellStep (step : ShellStep) : ShellCall Unit :=
  modify fun s => { s with steps := s.steps ++ [step] }

/-- `cmd_execute`; `argc` is unsigned there. -/
def cmdExecute (fuel : Nat) (argc : Int) : ShellCall Unit := do
  let s ← get
  modify fun s => { s with executed := s.executed ++ [(BitVec.ofInt 32 argc, s.argv)] }
  match s.argv 0 with
  | none => throw .assertion
  | some arg => do
      let command ← liftM (chooseCommand fuel (s.line.shift arg) builtins)
      shellStep (.run command)

/-- The call of `cmd_parse` in `my_shell`. -/
def parsePiece (fuel eachCmd : Nat) : ShellCall Int := do
  let s ← get
  let parsed ← liftM (cmdParse fuel s.line eachCmd s.argv blank)
  modify fun s => { s with line := parsed.line, argv := parsed.argv }
  return parsed.argc

/-- A piece of a pipeline is executed. -/
def runPiece (fuel eachCmd : Nat) : ShellCall Unit := do
  let argc ← parsePiece fuel eachCmd
  cmdExecute fuel argc

/-- `|`. -/
def bar : Byte := 0x7c

/-- `strchr`, from a place of the line on. -/
def findBar (fuel eachCmd : Nat) : ShellCall (Option Nat) := do
  let s ← get
  let off ← liftM (Strings.strchr fuel (s.line.shift eachCmd) bar)
  return off.map (eachCmd + ·)

/-- The line is cut where `|` stands. -/
def cutLine (pipeSymbol : Nat) : ShellCall Unit :=
  modify fun s => { s with line := Function.update s.line pipeSymbol 0 }

/-- The loop of `my_shell` over the pieces before the last. -/
def pipeLoop (fuel : Nat) : Nat → Nat → ShellCall Nat
  | 0, _ => throw .diverges
  | left + 1, eachCmd => do
      match ← findBar fuel eachCmd with
      | none => return eachCmd
      | some pipeSymbol => do
          cutLine pipeSymbol
          runPiece fuel eachCmd
          pipeLoop fuel left (pipeSymbol + 1)

/-- What `my_shell` does with the last piece. -/
def pipeLast (fuel eachCmd : Nat) : ShellCall Unit := do
  shellStep (.fdRedirect (.number 1) (.number 1))
  runPiece fuel eachCmd
  shellStep (.fdRedirect (.number 0) (.number 0))
  shellStep (.close (.pipeEnd 0))
  shellStep (.close (.pipeEnd 1))

/-- What `my_shell` does behind the first piece. -/
def pipeRest (fuel left eachCmd : Nat) : ShellCall Unit := do
  let eachCmd ← pipeLoop fuel left eachCmd
  pipeLast fuel eachCmd

/-- The body of the loop of `my_shell`, behind `readline`. -/
def shellLine (fuel : Nat) : ShellCall Unit := do
  let s ← get
  if s.line 0 = 0 then
    return ()
  else
    match ← findBar fuel 0 with
    | some _ => do
        shellStep .pipe
        shellStep (.fdRedirect (.number 1) (.pipeEnd 1))
        match ← findBar fuel 0 with
        | none => throw .badPointer
        | some pipeSymbol => do
            cutLine pipeSymbol
            runPiece fuel 0
            shellStep (.fdRedirect (.number 0) (.pipeEnd 0))
            pipeRest fuel fuel (pipeSymbol + 1)
    | none => do
        let argc ← parsePiece fuel 0
        if argc = -1 then
          shellStep .exceeds
        else
          cmdExecute fuel argc

/-! ## What it is for -/

/-- A call of `cmd_execute` with a command, and with as many words as `argv` holds. -/
def InOrder (call : Word × Argv) : Prop :=
  1 ≤ call.1.toNat ∧ call.1.toNat ≤ maxArgNr ∧ call.2 0 ≠ none

/-- The pieces of a line. -/
abbrev pieces (s : List Byte) : List (List Byte) := s.splitOn bar

/-- `my_shell` comes to the end of its loop for a line, and each call of `cmd_execute` it makes is
in order, so that a piece with too many words is not executed. The names of commands have no more
than five characters. -/
def ShellLineCorrect (s : List Byte) : Prop :=
  ∀ fuel state, s.length < fuel → 5 < fuel → state.line.StringAt 0 s → state.executed = [] →
    ∃ state', Returned (shellLine fuel) state () state' ∧
      ∀ call ∈ state'.executed, InOrder call

/-- The words of a piece fit. -/
def Fits (piece : List Byte) : Prop :=
  1 ≤ (words blank piece).length ∧ (words blank piece).length ≤ maxArgNr

/-! ## One piece -/

section

variable {s s' : ShellState} {fuel left p arg : Nat} {argc : Int} {name piece rest : List Byte}
  {table : List (List Byte × Command)} {arg' : Memory}

/-- The command that a name stands for. -/
def commandOf (name : List Byte) : Command :=
  ((builtins.find? fun entry => entry.1 = name).map Prod.snd).getD .external

/-- The command of a piece. -/
def pieceCommand (piece : List Byte) : Command :=
  commandOf ((words blank piece).headD [])

theorem chooseCommand_runs (at_ : arg'.StringAt 0 name)
    (enough : ∀ entry ∈ table, entry.1.length < fuel ∧ 0 ∉ entry.1) :
    chooseCommand fuel arg' table =
      .ok (((table.find? fun entry => entry.1 = name).map Prod.snd).getD .external) := by
  induction table with
  | nil => rfl
  | cons entry table ih =>
      obtain ⟨⟨short, clean⟩, others⟩ := List.forall_mem_cons.mp enough
      obtain ⟨result, compared, same⟩ :=
        Strings.strcmp_runs (Strings.literal_stringAt clean) at_ short
      rw [chooseCommand, compared]
      by_cases equal : entry.1 = name
      · rw [List.find?_cons_of_pos (by simpa using equal)]
        simp only [bind, Except.bind, if_pos (same.mpr equal)]
        rfl
      · rw [List.find?_cons_of_neg (by simpa using equal)]
        simp only [bind, Except.bind, if_neg (equal ∘ same.mp)]
        exact ih others

/-- `cmd_execute` stops the machine where there is no command. -/
theorem cmdExecute_none (missing : s.argv 0 = none) :
    after (cmdExecute fuel argc) s =
      { s with executed := s.executed ++ [(BitVec.ofInt 32 argc, s.argv)] } := by
  unfold after cmdExecute
  rw [outcome_bind_of (returned_get.mpr ⟨rfl, rfl⟩), outcome_bind_of (returned_modify.mpr rfl),
    missing]
  rfl

/-- `cmd_execute` runs the command. -/
theorem cmdExecute_some (found : s.argv 0 = some arg) (at_ : s.line.StringAt arg name)
    (enough : 5 < fuel) : Returned (cmdExecute fuel argc) s ()
      { s with
        executed := s.executed ++ [(BitVec.ofInt 32 argc, s.argv)]
        steps := s.steps ++ [.run (commandOf name)] } := by
  have short : ∀ entry ∈ builtins, entry.1.length < fuel ∧ 0 ∉ entry.1 := by
    intro entry member
    have few : ∀ entry ∈ builtins, entry.1.length ≤ 5 ∧ 0 ∉ entry.1 := by
      simp [builtins]
    obtain ⟨length, clean⟩ := few entry member
    exact ⟨lt_of_le_of_lt length enough, clean⟩
  have chosen : chooseCommand fuel (s.line.shift arg) builtins = .ok (commandOf name) :=
    chooseCommand_runs (Memory.shift_stringAt.mpr at_) short
  unfold Returned cmdExecute
  rw [outcome_bind_of (returned_get.mpr ⟨rfl, rfl⟩), outcome_bind_of (returned_modify.mpr rfl),
    found]
  refine outcome_bind_of (returned_lift.mpr ⟨chosen, rfl⟩)

theorem parsePiece_runs (at_ : s.line.StringAt p piece) (enough : piece.length < fuel) :
    ∃ parsed, Returned (parsePiece fuel p) s parsed.argc
        { s with line := parsed.line, argv := parsed.argv } ∧
      ParsedTo blank s.line (clearArgv s.argv maxArgNr) p 0 piece parsed := by
  obtain ⟨parsed, ran, left⟩ := cmdParse_runs s.argv at_ (show blank ≠ 0 by decide) enough
  refine ⟨parsed, ?_, left⟩
  unfold Returned parsePiece
  rw [outcome_bind_of (returned_get.mpr ⟨rfl, rfl⟩), outcome_bind_of (returned_lift.mpr ⟨ran, rfl⟩),
    outcome_bind_of (returned_modify.mpr rfl)]
  rfl

/-- What running a piece with a word does: there is one call, with the number that `cmd_parse`
returned. -/
theorem runPiece_runs (at_ : s.line.StringAt p piece) (enough : piece.length < fuel)
    (enough' : 5 < fuel) (some_ : 1 ≤ (words blank piece).length) :
    ∃ s' argv, Returned (runPiece fuel p) s () s' ∧ argv 0 ≠ none ∧
      s'.executed =
        s.executed ++ [(BitVec.ofInt 32 (if (words blank piece).length ≤ maxArgNr + 1 then
        ((words blank piece).length : Int) else -1), argv)] ∧
      s'.steps = s.steps ++ [.run (pieceCommand piece)] ∧
      ∀ i, i < p ∨ p + piece.length ≤ i → s'.line i = s.line i := by
  obtain ⟨parsed, ran, left⟩ := parsePiece_runs at_ enough
  have counted := left.counted
  rw [Nat.zero_add] at counted
  obtain ⟨word, others, split⟩ := List.exists_cons_of_length_pos some_
  obtain ⟨off, -, found, string⟩ := left.pointers 0 word (by rw [split]; rfl) (Nat.zero_le _)
  rw [Nat.zero_add] at found
  have executes : Returned (cmdExecute fuel parsed.argc)
      { s with line := parsed.line, argv := parsed.argv } () _ :=
    cmdExecute_some found string enough'
  refine ⟨_, parsed.argv, returned_bind.mpr ⟨_, _, ran, executes⟩, ?_, ?_, ?_, left.outside⟩
  · rw [found]
    exact Option.some_ne_none _
  · rw [counted]
  · rw [pieceCommand, split]
    rfl

/-- All calls of `cmd_execute` were in order. -/
def AllInOrder (s : ShellState) : Prop :=
  ∀ call ∈ s.executed, InOrder call

/-- What a run leaves in which each call was in order. -/
structure RanInOrder (s s' : ShellState) (steps : List ShellStep) : Prop where
  ordered : AllInOrder s → AllInOrder s'
  steps : s'.steps = s.steps ++ steps

/-- What running a piece leaves if its words fit. -/
theorem runPiece_fits (at_ : s.line.StringAt p piece) (enough : piece.length < fuel)
    (enough' : 5 < fuel) (fits : Fits piece) :
    ∃ s', Returned (runPiece fuel p) s () s' ∧
      RanInOrder s s' [.run (pieceCommand piece)] ∧
      ∀ i, i < p ∨ p + piece.length ≤ i → s'.line i = s.line i := by
  obtain ⟨s', argv, ran, first, executed, steps, same⟩ := runPiece_runs at_ enough enough' fits.1
  have few : (words blank piece).length ≤ 16 := fits.2
  have argc : (BitVec.ofInt 32 ((words blank piece).length : Int)).toNat =
      (words blank piece).length := by
    rw [BitVec.ofInt_natCast, BitVec.toNat_ofNat, Nat.mod_eq_of_lt (by omega)]
  rw [if_pos (Nat.le_succ_of_le fits.2)] at executed
  refine ⟨s', ran, ⟨fun before call member => ?_, steps⟩, same⟩
  rw [executed] at member
  rcases List.mem_append.mp member with earlier | last
  · exact before call earlier
  · rw [List.mem_singleton.mp last]
    exact ⟨argc.symm ▸ fits.1, argc.symm ▸ fits.2, first⟩

/-- A call is not in order if the words of a piece do not fit. -/
theorem runPiece_not_fits (at_ : s.line.StringAt p piece) (enough : piece.length < fuel)
    (enough' : 5 < fuel) (not : ¬ Fits piece) : ¬ AllInOrder (after (runPiece fuel p) s) := by
  intro ordered
  rcases Nat.eq_zero_or_pos (words blank piece).length with empty | some_
  · obtain ⟨parsed, ran, left⟩ := parsePiece_runs at_ enough
    have missing : parsed.argv 0 = none := by
      rw [left.others 0 (.inr (by omega)), clearArgv_apply, if_pos (by decide)]
    rw [runPiece, after_bind_of ran, cmdExecute_none missing] at ordered
    exact (ordered _ (List.mem_append_right _ (List.mem_singleton_self _))).2.2 missing
  · obtain ⟨s', argv, ran, -, executed, -⟩ := runPiece_runs at_ enough enough' some_
    rw [ran.after_eq] at ordered
    have few := (ordered _ (executed ▸ List.mem_append_right _ (List.mem_singleton_self _))).2.1
    have many : 16 < (words blank piece).length := by
      by_contra few
      exact not ⟨some_, Nat.le_of_not_lt few⟩
    change (BitVec.ofInt 32 _).toNat ≤ maxArgNr at few
    by_cases one : (words blank piece).length = 17
    · rw [one] at few
      revert few
      decide
    · have more : ¬ (words blank piece).length ≤ maxArgNr + 1 := fun few => one (by
        unfold maxArgNr at few
        omega)
      rw [if_neg more] at few
      revert few
      decide

/-! ## The pieces of a line -/

/-- Calls of `cmd_execute` are not taken back. -/
theorem leaves_modify {f : ShellState → ShellState}
    (grows : ∀ s, ∃ calls, (f s).executed = s.executed ++ calls) :
    Leaves (Loses AllInOrder) (modify f : ShellCall Unit) := by
  refine .modify fun s ordered call member => ?_
  obtain ⟨calls, executed⟩ := grows s
  exact ordered call (executed ▸ List.mem_append_left calls member)

theorem shellStep_loses (step : ShellStep) : Leaves (Loses AllInOrder) (shellStep step) :=
  leaves_modify fun _ => ⟨[], (List.append_nil _).symm⟩

theorem cmdExecute_loses : Leaves (Loses AllInOrder) (cmdExecute fuel argc) := by
  refine .bind .get fun s => .bind (leaves_modify fun _ => ⟨_, rfl⟩) fun _ => ?_
  split
  · exact .throw _
  · exact .bind (.lift _) fun _ => shellStep_loses _

theorem runPiece_loses : Leaves (Loses AllInOrder) (runPiece fuel p) :=
  .bind (.bind .get fun _ => .bind (.lift _) fun _ =>
    .bind (leaves_modify fun _ => ⟨[], (List.append_nil _).symm⟩) fun _ => .pure _) fun _ =>
      cmdExecute_loses

theorem pipeLast_loses : Leaves (Loses AllInOrder) (pipeLast fuel p) :=
  .bind (shellStep_loses _) fun _ => .bind runPiece_loses fun _ => .bind (shellStep_loses _)
    fun _ => .bind (shellStep_loses _) fun _ => shellStep_loses _

theorem pipeLoop_loses : Leaves (Loses AllInOrder) (pipeLoop fuel left p) := by
  induction left generalizing p with
  | zero => exact .throw _
  | succ left ih =>
      refine .bind (.bind .get fun _ => .bind (.lift _) fun _ => .pure _) fun found => ?_
      split
      · exact .pure _
      · exact .bind (leaves_modify fun _ => ⟨[], (List.append_nil _).symm⟩) fun _ =>
          .bind runPiece_loses fun _ => ih

theorem pipeRest_loses : Leaves (Loses AllInOrder) (pipeRest fuel left p) :=
  .bind pipeLoop_loses fun _ => pipeLast_loses

/-- Nothing is found where no `|` is ahead. -/
theorem findBar_none (at_ : s.line.StringAt p piece) (enough : piece.length < fuel)
    (free : bar ∉ piece) : Returned (findBar fuel p) s none s := by
  have found : Strings.strchr fuel (s.line.shift p) bar = .ok none := by
    rw [Strings.strchr_runs (Memory.shift_stringAt.mpr at_) enough, if_neg free]
  unfold Returned findBar
  rw [outcome_bind_of (returned_get.mpr ⟨rfl, rfl⟩),
    outcome_bind_of (returned_lift.mpr ⟨found, rfl⟩)]
  rfl

/-- The first `|` is found. -/
theorem findBar_some (at_ : s.line.StringAt p (piece ++ bar :: rest))
    (enough : (piece ++ bar :: rest).length < fuel) (free : bar ∉ piece) :
    Returned (findBar fuel p) s (some (p + piece.length)) s := by
  have found : Strings.strchr fuel (s.line.shift p) bar = .ok (some piece.length) := by
    rw [Strings.strchr_runs (Memory.shift_stringAt.mpr at_) enough, if_pos (by simp),
      List.idxOf_append_of_notMem free, List.idxOf_cons_self, Nat.add_zero]
  unfold Returned findBar
  rw [outcome_bind_of (returned_get.mpr ⟨rfl, rfl⟩),
    outcome_bind_of (returned_lift.mpr ⟨found, rfl⟩)]
  rfl

/-- The state where the line is cut. -/
def ShellState.cut (s : ShellState) (pipeSymbol : Nat) : ShellState :=
  { s with line := Function.update s.line pipeSymbol 0 }

/-- What is in front of a cut, and what is behind it. -/
theorem cut_parts (at_ : s.line.StringAt p (piece ++ bar :: rest)) :
    (s.cut (p + piece.length)).line.StringAt p piece ∧
      (s.cut (p + piece.length)).line.StringAt (p + piece.length + 1) rest := by
  obtain ⟨-, -, behind⟩ := Memory.StringAt.cons_iff.mp at_.drop
  exact ⟨at_.cut, behind.congr fun i low _ => Function.update_of_ne (by omega) ..⟩

theorem pieces_single (free : bar ∉ piece) : pieces piece = [piece] :=
  List.splitOn_eq_singleton free

theorem pieces_cons (free : bar ∉ piece) :
    pieces (piece ++ bar :: rest) = piece :: pieces rest := by
  rw [pieces, List.splitOn_append_cons_self, List.splitOn_eq_singleton free]
  rfl

/-- The loop ends where no `|` is ahead. -/
theorem pipeRest_last (at_ : s.line.StringAt p piece) (enough : piece.length < fuel)
    (free : bar ∉ piece) :
    outcome (pipeRest fuel (left + 1) p) s = outcome (pipeLast fuel p) s := by
  rw [pipeRest, pipeLoop, bind_assoc, outcome_bind_of (findBar_none at_ enough free)]
  rfl

/-- A round of the loop. -/
theorem pipeRest_more (at_ : s.line.StringAt p (piece ++ bar :: rest))
    (enough : (piece ++ bar :: rest).length < fuel) (free : bar ∉ piece) :
    outcome (pipeRest fuel (left + 1) p) s =
      outcome (runPiece fuel p >>= fun _ => pipeRest fuel left (p + piece.length + 1))
        (s.cut (p + piece.length)) := by
  rw [pipeRest, pipeLoop, bind_assoc, outcome_bind_of (findBar_some at_ enough free)]
  simp only [bind_assoc]
  rw [outcome_bind_of (show Returned (cutLine _) s () (s.cut (p + piece.length)) from
    returned_modify.mpr rfl)]
  rfl

/-- The steps for the pieces behind the first one. -/
def restSteps : List (List Byte) → List ShellStep
  | [] => []
  | [last] =>
      [.fdRedirect (.number 1) (.number 1), .run (pieceCommand last),
        .fdRedirect (.number 0) (.number 0), .close (.pipeEnd 0), .close (.pipeEnd 1)]
  | piece :: next :: others => .run (pieceCommand piece) :: restSteps (next :: others)

theorem RanInOrder.trans {s'' : ShellState} {steps steps' : List ShellStep}
    (first : RanInOrder s s' steps) (second : RanInOrder s' s'' steps') :
    RanInOrder s s'' (steps ++ steps') where
  ordered before := second.ordered (first.ordered before)
  steps := by rw [second.steps, first.steps, List.append_assoc]

theorem shellStep_ran (step : ShellStep) : ∃ s', Returned (shellStep step) s () s' ∧
    RanInOrder s s' [step] ∧ s'.line = s.line :=
  ⟨_, returned_modify.mpr rfl, ⟨id, rfl⟩, rfl⟩

/-- The last piece. -/
theorem pipeLast_runs (at_ : s.line.StringAt p piece) (enough : piece.length < fuel)
    (enough' : 5 < fuel) (fits : Fits piece) : ∃ s', Returned (pipeLast fuel p) s () s' ∧
      RanInOrder s s' (restSteps [piece]) := by
  obtain ⟨s₁, ran₁, step₁, line₁⟩ := shellStep_ran (s := s) (.fdRedirect (.number 1) (.number 1))
  obtain ⟨s₂, ran₂, step₂, -⟩ := runPiece_fits (line₁ ▸ at_) enough enough' fits
  obtain ⟨s₃, ran₃, step₃, -⟩ := shellStep_ran (s := s₂) (.fdRedirect (.number 0) (.number 0))
  obtain ⟨s₄, ran₄, step₄, -⟩ := shellStep_ran (s := s₃) (.close (.pipeEnd 0))
  obtain ⟨s₅, ran₅, step₅, -⟩ := shellStep_ran (s := s₄) (.close (.pipeEnd 1))
  refine ⟨s₅, ?_, step₁.trans (step₂.trans (step₃.trans (step₄.trans step₅)))⟩
  exact returned_bind.mpr ⟨_, _, ran₁, returned_bind.mpr ⟨_, _, ran₂, returned_bind.mpr
    ⟨_, _, ran₃, returned_bind.mpr ⟨_, _, ran₄, ran₅⟩⟩⟩⟩

theorem pipeLast_not_fits (at_ : s.line.StringAt p piece) (enough : piece.length < fuel)
    (enough' : 5 < fuel) (not : ¬ Fits piece) : ¬ AllInOrder (after (pipeLast fuel p) s) := by
  obtain ⟨s₁, ran₁, -, line₁⟩ := shellStep_ran (s := s) (.fdRedirect (.number 1) (.number 1))
  rw [pipeLast, after_bind_of ran₁, traced_bind_iff fun _ => .bind (shellStep_loses _) fun _ =>
    .bind (shellStep_loses _) fun _ => shellStep_loses _]
  exact fun both => runPiece_not_fits (line₁ ▸ at_) enough enough' not both.1

/-- The pieces behind the first one are executed if the words of each of them fit. -/
theorem pipeRest_runs (at_ : s.line.StringAt p rest) (enough : rest.length < fuel)
    (enough' : 5 < fuel) (enoughLeft : rest.length < left)
    (fits : ∀ piece ∈ pieces rest, Fits piece) : ∃ s', Returned (pipeRest fuel left p) s () s' ∧
      RanInOrder s s' (restSteps (pieces rest)) := by
  induction left generalizing s p rest with
  | zero => exact absurd enoughLeft (Nat.not_lt_zero _)
  | succ left ih =>
      by_cases found : bar ∈ rest
      · obtain ⟨piece, rest, rfl, free⟩ := List.eq_append_cons_of_mem found
        have parts := cut_parts at_
        have round : outcome (pipeRest fuel (left + 1) p) s = _ := pipeRest_more at_ enough free
        rw [pieces_cons free] at fits ⊢
        rw [List.length_append, List.length_cons] at enough enoughLeft
        obtain ⟨here, others⟩ := List.forall_mem_cons.mp fits
        obtain ⟨s₁, ran₁, step₁, same⟩ := runPiece_fits parts.1 (by omega) enough' here
        have restAt : s₁.line.StringAt (p + piece.length + 1) rest :=
          parts.2.congr fun i low _ => same i (.inr (by omega))
        obtain ⟨s', ran, step⟩ := ih restAt (by omega) (by omega) others
        refine ⟨s', round.trans (returned_bind.mpr ⟨_, _, ran₁, ran⟩), ?_⟩
        obtain ⟨next, more, split⟩ : ∃ next more, pieces rest = next :: more :=
          List.exists_cons_of_ne_nil (List.splitOn_ne_nil bar rest)
        have both := step₁.trans step
        rw [split] at both ⊢
        exact ⟨both.ordered, both.steps⟩
      · have round : outcome (pipeRest fuel (left + 1) p) s = _ := pipeRest_last at_ enough found
        rw [pieces_single found] at fits ⊢
        obtain ⟨s', ran, step⟩ :=
          pipeLast_runs at_ enough enough' (fits rest (List.mem_singleton_self _))
        exact ⟨s', round.trans ran, step⟩

/-- A call is not in order if the words of a piece behind the first one do not fit. -/
theorem pipeRest_not_fits (at_ : s.line.StringAt p rest) (enough : rest.length < fuel)
    (enough' : 5 < fuel) (enoughLeft : rest.length < left)
    (not : ¬ ∀ piece ∈ pieces rest, Fits piece) :
    ¬ AllInOrder (after (pipeRest fuel left p) s) := by
  induction left generalizing s p rest with
  | zero => exact absurd enoughLeft (Nat.not_lt_zero _)
  | succ left ih =>
      by_cases found : bar ∈ rest
      · obtain ⟨piece, rest, rfl, free⟩ := List.eq_append_cons_of_mem found
        have parts := cut_parts at_
        rw [after, pipeRest_more at_ enough free]
        rw [pieces_cons free, List.forall_mem_cons, not_and] at not
        rw [List.length_append, List.length_cons] at enough enoughLeft
        change ¬ AllInOrder (after _ _)
        rw [traced_bind_iff fun _ => pipeRest_loses]
        rintro ⟨first, others⟩
        by_cases here : Fits piece
        · obtain ⟨s₁, ran₁, -, same⟩ := runPiece_fits parts.1 (by omega) enough' here
          have restAt : s₁.line.StringAt (p + piece.length + 1) rest :=
            parts.2.congr fun i low _ => same i (.inr (by omega))
          exact ih restAt (by omega) (by omega) (not here) (others () s₁ ran₁)
        · exact runPiece_not_fits parts.1 (by omega) enough' here first
      · rw [after, pipeRest_last at_ enough found]
        rw [pieces_single found] at not
        refine pipeLast_not_fits at_ enough enough' fun fits => not fun piece member => ?_
        rw [List.mem_singleton.mp member]
        exact fits

/-! ## A line -/

/-- A line without `|`. -/
theorem shellLine_plain (at_ : s.line.StringAt 0 piece) (enough : piece.length < fuel)
    (nonempty : piece ≠ []) (free : bar ∉ piece) :
    outcome (shellLine fuel) s = outcome (parsePiece fuel 0 >>= fun argc =>
      if argc = -1 then shellStep .exceeds else cmdExecute fuel argc) s := by
  have begins : s.line 0 ≠ 0 := fun zero =>
    nonempty (at_.unique (Memory.StringAt.nil_iff.mpr zero))
  unfold shellLine
  rw [outcome_bind_of (returned_get.mpr ⟨rfl, rfl⟩), if_neg begins,
    outcome_bind_of (findBar_none at_ enough free)]

/-- A line with `|`: two steps are made before the first piece, and one behind it. -/
theorem shellLine_pipe (at_ : s.line.StringAt 0 (piece ++ bar :: rest))
    (enough : (piece ++ bar :: rest).length < fuel) (free : bar ∉ piece) :
    ∃ s₁, RanInOrder s s₁ [.pipe, .fdRedirect (.number 1) (.pipeEnd 1)] ∧ s₁.line = s.line ∧
      outcome (shellLine fuel) s = outcome (runPiece fuel 0 >>= fun _ =>
        shellStep (.fdRedirect (.number 0) (.pipeEnd 0)) >>= fun _ =>
          pipeRest fuel fuel (0 + piece.length + 1)) (s₁.cut (0 + piece.length)) := by
  have begins : s.line 0 ≠ 0 := fun zero =>
    absurd (at_.unique (Memory.StringAt.nil_iff.mpr zero)) (by simp)
  obtain ⟨s₀, ran₀, step₀, line₀⟩ := shellStep_ran (s := s) .pipe
  obtain ⟨s₁, ran₁, step₁, line₁⟩ := shellStep_ran (s := s₀) (.fdRedirect (.number 1) (.pipeEnd 1))
  refine ⟨s₁, step₀.trans step₁, line₁.trans line₀, ?_⟩
  have at₁ : s₁.line.StringAt 0 (piece ++ bar :: rest) := by rwa [line₁, line₀]
  unfold shellLine
  rw [outcome_bind_of (returned_get.mpr ⟨rfl, rfl⟩), if_neg begins,
    outcome_bind_of (findBar_some at_ enough free)]
  dsimp only
  rw [outcome_bind_of ran₀, outcome_bind_of ran₁, outcome_bind_of (findBar_some at₁ enough free)]
  exact outcome_bind_of (returned_modify.mpr rfl)

/-- The steps for a line with `|`. -/
def pipeSteps : List (List Byte) → List ShellStep
  | [] => []
  | first :: others =>
      [.pipe, .fdRedirect (.number 1) (.pipeEnd 1), .run (pieceCommand first),
        .fdRedirect (.number 0) (.pipeEnd 0)] ++ restSteps others

/-- A pipeline is executed if the words of each piece fit. -/
theorem shellLine_runs {line : List Byte} (at_ : s.line.StringAt 0 line)
    (enough : line.length < fuel) (enough' : 5 < fuel) (found : bar ∈ line)
    (fits : ∀ piece ∈ pieces line, Fits piece) : ∃ s', Returned (shellLine fuel) s () s' ∧
      RanInOrder s s' (pipeSteps (pieces line)) := by
  obtain ⟨piece, rest, rfl, free⟩ := List.eq_append_cons_of_mem found
  obtain ⟨s₁, start, line₁, round⟩ := shellLine_pipe at_ enough free
  rw [← line₁] at at_
  have parts := cut_parts at_
  rw [pieces_cons free] at fits ⊢
  rw [List.length_append, List.length_cons] at enough
  obtain ⟨here, others⟩ := List.forall_mem_cons.mp fits
  obtain ⟨s₂, ran₂, step₂, same⟩ := runPiece_fits parts.1 (by omega) enough' here
  obtain ⟨s₃, ran₃, step₃, line₃⟩ := shellStep_ran (s := s₂) (.fdRedirect (.number 0) (.pipeEnd 0))
  have restAt : s₃.line.StringAt (0 + piece.length + 1) rest := by
    rw [line₃]
    exact parts.2.congr fun i low _ => same i (.inr (by omega))
  have shorter : rest.length < fuel := by omega
  obtain ⟨s', ran, step⟩ := pipeRest_runs restAt shorter enough' shorter others
  have cut : RanInOrder s (s₁.cut (0 + piece.length)) _ := ⟨start.ordered, start.steps⟩
  refine ⟨s', round.trans ?_, cut.trans (step₂.trans (step₃.trans step))⟩
  exact returned_bind.mpr ⟨_, _, ran₂, returned_bind.mpr ⟨_, _, ran₃, ran⟩⟩

theorem shellLine_not_fits {line : List Byte} (at_ : s.line.StringAt 0 line)
    (enough : line.length < fuel) (enough' : 5 < fuel) (found : bar ∈ line)
    (not : ¬ ∀ piece ∈ pieces line, Fits piece) : ¬ AllInOrder (after (shellLine fuel) s) := by
  obtain ⟨piece, rest, rfl, free⟩ := List.eq_append_cons_of_mem found
  obtain ⟨s₁, -, line₁, round⟩ := shellLine_pipe at_ enough free
  rw [← line₁] at at_
  have parts := cut_parts at_
  rw [pieces_cons free, List.forall_mem_cons, not_and] at not
  rw [List.length_append, List.length_cons] at enough
  rw [after, round]
  change ¬ AllInOrder (after _ _)
  rw [traced_bind_iff fun _ => .bind (shellStep_loses _) fun _ => pipeRest_loses]
  rintro ⟨first, others⟩
  by_cases here : Fits piece
  · obtain ⟨s₂, ran₂, -, same⟩ := runPiece_fits parts.1 (by omega) enough' here
    obtain ⟨s₃, ran₃, -, line₃⟩ := shellStep_ran (s := s₂) (.fdRedirect (.number 0) (.pipeEnd 0))
    have restAt : s₃.line.StringAt (0 + piece.length + 1) rest := by
      rw [line₃]
      exact parts.2.congr fun i low _ => same i (.inr (by omega))
    have ordered := others () s₂ ran₂
    rw [after_bind_of ran₃] at ordered
    exact pipeRest_not_fits restAt (by omega) enough' (by omega) (not here) ordered
  · exact runPiece_not_fits parts.1 (by omega) enough' here first

/-- A line without `|` is given up if it has two words more than fit. -/
theorem shellLine_exceeds {line : List Byte} (at_ : s.line.StringAt 0 line)
    (enough : line.length < fuel) (free : bar ∉ line)
    (many : maxArgNr + 1 < (words blank line).length) : ∃ s', Returned (shellLine fuel) s () s' ∧
      RanInOrder s s' [.exceeds] := by
  obtain ⟨parsed, ran, left⟩ := parsePiece_runs at_ enough
  have nonempty : line ≠ [] := by
    rintro rfl
    exact absurd many (by decide)
  have counted := left.counted
  rw [Nat.zero_add, if_neg (Nat.not_le_of_lt many)] at counted
  obtain ⟨s', ran', step, -⟩ :=
    shellStep_ran (s := { s with line := parsed.line, argv := parsed.argv }) .exceeds
  refine ⟨s', (shellLine_plain at_ enough nonempty free).trans ?_, step.ordered, step.steps⟩
  rw [outcome_bind_of ran, if_pos counted]
  exact ran'

/-- A line without `|` is executed as it is if it has no more than one word too many. -/
theorem shellLine_single {line : List Byte} (at_ : s.line.StringAt 0 line)
    (enough : line.length < fuel) (nonempty : line ≠ []) (free : bar ∉ line)
    (few : (words blank line).length ≤ maxArgNr + 1) :
    outcome (shellLine fuel) s = outcome (runPiece fuel 0) s := by
  obtain ⟨parsed, ran, left⟩ := parsePiece_runs at_ enough
  have counted := left.counted
  rw [Nat.zero_add, if_pos few] at counted
  rw [shellLine_plain at_ enough nonempty free, outcome_bind_of ran, runPiece, outcome_bind_of ran,
    if_neg (by omega)]

/-! ## The main result -/

/-- The lines that `my_shell` is made for: those without `|` whose words fit, or are at least two
more than fit, and those with `|` where the words of each piece fit. -/
def LineFits (line : List Byte) : Prop :=
  line = [] ∨ (bar ∉ line ∧ (Fits line ∨ maxArgNr + 1 < (words blank line).length)) ∨
    (bar ∈ line ∧ ∀ piece ∈ pieces line, Fits piece)

/-- A call is not in order for the other lines. -/
theorem not_ordered_of_not_fits {line : List Byte} (clean : 0 ∉ line) (not : ¬ LineFits line) :
    ¬ ShellLineCorrect line := by
  intro correct
  have at_ := Strings.literal_stringAt clean
  have enough : line.length < line.length + 6 := by omega
  have enough' : 5 < line.length + 6 := by omega
  obtain ⟨s', ran, ordered⟩ := correct _ ⟨Strings.literal line, fun _ => none, [], []⟩ enough
    enough' at_ rfl
  rw [← ran.after_eq] at ordered
  by_cases found : bar ∈ line
  · exact shellLine_not_fits at_ enough enough' found (fun fits => not (.inr (.inr ⟨found, fits⟩)))
      ordered
  · have few : (words blank line).length ≤ maxArgNr + 1 := by
      by_contra many
      exact not (.inr (.inl ⟨found, .inr (Nat.lt_of_not_le many)⟩))
    rw [after, shellLine_single at_ enough (fun empty => not (.inl empty)) found few] at ordered
    exact runPiece_not_fits at_ enough enough' (fun fits => not (.inr (.inl ⟨found, .inl fits⟩)))
      ordered

/-- **The calls of `cmd_execute`.** `my_shell` calls `cmd_execute` with a command, and with no more
words than fit, exactly if the line is empty, or the words of each of its pieces fit, or it is in
one piece and has at least two words more than fit. -/
theorem my_shell_calls_iff {line : List Byte} (clean : 0 ∉ line) :
    ShellLineCorrect line ↔ LineFits line := by
  constructor
  · intro correct
    by_contra not
    exact not_ordered_of_not_fits clean not correct
  · intro fits fuel state enough enough' at_ fresh
    have before : AllInOrder state := fun call member => by
      rw [fresh] at member
      cases member
    rcases fits with rfl | ⟨free, fits | many⟩ | ⟨found, fits⟩
    · refine ⟨state, ?_, before⟩
      unfold Returned shellLine
      rw [outcome_bind_of (returned_get.mpr ⟨rfl, rfl⟩), if_pos (Memory.StringAt.nil_iff.mp at_)]
      rfl
    · have nonempty : line ≠ [] := by
        rintro rfl
        exact absurd fits.1 (by decide)
      obtain ⟨s', ran, step, -⟩ := runPiece_fits at_ enough enough' fits
      have single := shellLine_single at_ enough nonempty free (Nat.le_succ_of_le fits.2)
      exact ⟨s', single.trans ran, step.ordered before⟩
    · obtain ⟨s', ran, step⟩ := shellLine_exceeds at_ enough free many
      exact ⟨s', ran, step.ordered before⟩
    · obtain ⟨s', ran, step⟩ := shellLine_runs at_ enough enough' found fits
      exact ⟨s', ran, step.ordered before⟩

end

/-- `ls | ps` is executed. -/
theorem my_shell_calls_pipe : ShellLineCorrect [0x6c, 0x73, blank, bar, blank, 0x70, 0x73] :=
  (my_shell_calls_iff (by decide)).mpr (.inr (.inr ⟨by decide, by unfold Fits; decide⟩))

/-- A blank line stops the machine. -/
theorem my_shell_blank : ¬ ShellLineCorrect [blank] := by
  refine not_ordered_of_not_fits (by decide) ?_
  unfold LineFits Fits
  decide

end UKernel.Shell
