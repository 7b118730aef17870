import UKernel.Thread.ContextKept

/-! # From a system call's wrapper to the kernel's function

The numbers of the system calls (`syscall.h`), the registers in which their wrappers pass arguments
(`syscall.c`) and the table of the kernel's functions (`syscall-init.c`). Whatever a wrapper is
called with, `syscall_handler` calls the function that `syscall_init` has put under the same number,
with the same arguments in the same order (`UKernel.Contexts.wrapper_reaches`).
-/

namespace UKernel.Contexts

open UKernel.Library UKernel.Library.Cpu

/-- `enum SYSCALL_NR`. -/
inductive SyscallNr where
  | sysGetpid
  | sysWrite
  | sysMalloc
  | sysFree
  | sysFork
  | sysRead
  | sysPutchar
  | sysClear
  | sysGetcwd
  | sysOpen
  | sysClose
  | sysLseek
  | sysUnlink
  | sysMkdir
  | sysOpendir
  | sysClosedir
  | sysChdir
  | sysRmdir
  | sysReaddir
  | sysRewinddir
  | sysStat
  | sysPs
  | sysExecv
  | sysExit
  | sysWait
  | sysPipe
  | sysFdRedirect
  | sysHelp
  deriving DecidableEq, Repr

namespace SyscallNr

/-- The numbers in order. -/
def all : List SyscallNr :=
  [sysGetpid, sysWrite, sysMalloc, sysFree, sysFork, sysRead, sysPutchar, sysClear, sysGetcwd,
    sysOpen, sysClose, sysLseek, sysUnlink, sysMkdir, sysOpendir, sysClosedir, sysChdir, sysRmdir,
    sysReaddir, sysRewinddir, sysStat, sysPs, sysExecv, sysExit, sysWait, sysPipe, sysFdRedirect,
    sysHelp]

/-- The value of a member of the enumeration. -/
def code (nr : SyscallNr) : Word := BitVec.ofNat 32 (all.idxOf nr)

/-- Which of `_syscall0` to `_syscall3` the wrapper of a system call is. -/
def arity : SyscallNr → Nat
  | sysWrite | sysRead | sysLseek => 3
  | sysGetcwd | sysOpen | sysStat | sysExecv | sysFdRedirect => 2
  | sysGetpid | sysFork | sysClear | sysPs | sysHelp => 0
  | _ => 1

theorem mem_all (nr : SyscallNr) : nr ∈ all := by
  cases nr <;> decide

theorem code_toNat (nr : SyscallNr) : nr.code.toNat = all.idxOf nr ∧ all.idxOf nr < 28 := by
  have bound : all.idxOf nr < 28 := List.idxOf_lt_length_of_mem nr.mem_all
  exact ⟨(BitVec.toNat_ofNat _ _).trans (Nat.mod_eq_of_lt (by omega)), bound⟩

theorem code_inj {nr nr' : SyscallNr} (same : nr.code = nr'.code) : nr = nr' := by
  have places : all.idxOf nr = all.idxOf nr' := by
    rw [← (code_toNat nr).1, ← (code_toNat nr').1, same]
  exact (List.idxOf_inj nr.mem_all).mp places

end SyscallNr

/-- The registers for the arguments of a system call, in order. -/
def argRegisters : List Reg := [.ebx, .ecx, .edx]

/-- `_syscall0` to `_syscall3`, up to `int 0x80`: the number and the arguments are in their
registers; what the others have is open. -/
structure Wrapper (nr : SyscallNr) (args : List Word) (r : Registers) : Prop where
  count : args.length = nr.arity
  eax : r.gpr .eax = nr.code
  passed : (argRegisters.take args.length).map r.gpr = args

/-- `syscall_init`, for a table at an address and the addresses of the kernel's functions. -/
def syscallInit (mem : Word → Word) (syscallTable : Word) (entry : SyscallNr → Word) :
    Word → Word :=
  SyscallNr.all.foldl (fun mem nr =>
    Function.update mem (syscallTable + nr.code * 4) (entry nr)) mem

/-- The table is as `syscall_init` has left it. -/
def TableHolds (mem : Word → Word) (syscallTable : Word) (entry : SyscallNr → Word) : Prop :=
  ∀ nr : SyscallNr, mem (syscallTable + nr.code * 4) = entry nr

/-- Each number has its own place in the table. -/
theorem place_inj {syscallTable : Word} {nr nr' : SyscallNr}
    (same : syscallTable + nr.code * 4 = syscallTable + nr'.code * 4) : nr = nr' := by
  obtain ⟨value, small⟩ := nr.code_toNat
  obtain ⟨value', small'⟩ := nr'.code_toNat
  apply SyscallNr.code_inj
  bv_omega

/-- What `syscall_init` leaves. -/
theorem syscallInit_holds (mem : Word → Word) (syscallTable : Word) (entry : SyscallNr → Word) :
    TableHolds (syscallInit mem syscallTable entry) syscallTable entry := by
  intro nr
  have stored : ∀ (nrs : List SyscallNr) (mem : Word → Word),
      nr ∈ nrs ∨ mem (syscallTable + nr.code * 4) = entry nr →
      nrs.foldl (fun mem nr => Function.update mem (syscallTable + nr.code * 4) (entry nr)) mem
        (syscallTable + nr.code * 4) = entry nr := by
    intro nrs
    induction nrs with
    | nil => exact fun mem already => already.resolve_left (List.not_mem_nil)
    | cons first nrs ih =>
        intro mem already
        refine ih _ ?_
        by_cases same : first = nr
        · rw [same]
          exact .inr (Function.update_self _ _ _)
        · have kept : Function.update mem (syscallTable + first.code * 4) (entry first)
              (syscallTable + nr.code * 4) = mem (syscallTable + nr.code * 4) :=
            Function.update_of_ne (fun place => same (place_inj place).symm) _ _
          exact already.imp (fun inside => (List.mem_cons.mp inside).resolve_left (Ne.symm same))
            kept.trans
  exact stored SyscallNr.all mem (.inl nr.mem_all)

/-- The function that `syscall_handler` calls. -/
theorem syscallEntry_eip (c : Cpu) (esp0 : Word) (sym : Symbols) : ∃ espDummy,
    ((c.accept selectorKCode selectorKStack esp0).run (syscallEntry sym)).eip =
      ((entryStack c esp0).pushes ((savedWords espDummy 0 c.toRegisters).reverse ++
        [0x80, c.gpr .edx, c.gpr .ecx, c.gpr .ebx])).mem (sym.syscallTable + c.gpr .eax * 4) := by
  obtain ⟨espDummy, ran⟩ := run_saveContext c esp0
  refine ⟨espDummy, ?_⟩
  rw [syscallEntry, run_append, ran]
  simp only [run, List.foldl_cons, List.foldl_nil, Cpu.exec, pushes_append, pushes_cons, pushes_nil,
    push, Function.update_self, ne_eq, reduceCtorEq, not_false_eq_true, Function.update_of_ne,
    pushes_gpr, entryStack_gpr]

/-- What an entry pushes last is what the function that it calls finds first. -/
theorem Entered.first {c c' : Cpu} {esp0 base : Word} {args : List Word}
    (entered : Entered c esp0 args c')
    (room : 4 * (18 + args.length) ≤ distance base ((entryStack c esp0).gpr .esp))
    (top : distance base ((entryStack c esp0).gpr .esp) ≤ pgSize) :
    Holds c'.mem (c'.gpr .esp) args.reverse := by
  obtain ⟨espDummy, mem, esp⟩ := entered.pushed
  have long := savedWords_length_le espDummy 0 c.toRegisters
  have stacked := Stacked.pushes ((savedWords espDummy 0 c.toRegisters).reverse ++ args) base
    (stacked_nil (entryStack c esp0)) (by rw [List.length_append, List.length_reverse]; omega)
    (by simp only [List.length_nil]; unfold pgSize at top; omega)
  rw [List.append_nil, List.reverse_append, Stacked, ← mem, ← esp] at stacked
  exact ((holds_append _ _).mp stacked).1

/-- The arguments are among the registers that `syscall_handler` pushes. -/
theorem Wrapper.prefix_of {nr : SyscallNr} {args : List Word} {r : Registers}
    (wrapper : Wrapper nr args r) :
    args ++ ([r.gpr .ebx, r.gpr .ecx, r.gpr .edx].drop args.length) =
      [r.gpr .ebx, r.gpr .ecx, r.gpr .edx] := by
  have passed := wrapper.passed
  rw [List.map_take] at passed
  calc args ++ [r.gpr .ebx, r.gpr .ecx, r.gpr .edx].drop args.length
      = [r.gpr .ebx, r.gpr .ecx, r.gpr .edx].take args.length ++
          [r.gpr .ebx, r.gpr .ecx, r.gpr .edx].drop args.length := by
        exact congrArg (· ++ _) passed.symm
    _ = [r.gpr .ebx, r.gpr .ecx, r.gpr .edx] := List.take_append_drop _ _

/-- **Dispatch.** Behind a wrapper's `int 0x80` the kernel is in the function of the same number,
called with the wrapper's arguments. -/
theorem wrapper_reaches {sym : Symbols} {m m₁ : Machine} {nr : SyscallNr} {args : List Word}
    {entry : SyscallNr → Word} (reachable : (machine sym).Reachable m)
    (wrapper : Wrapper nr args m.toRegisters) (table : TableHolds m.mem sym.syscallTable entry)
    (apart : pgSize ≤ distance m.current (sym.syscallTable + nr.code * 4))
    (calls : (machine sym).step m .syscall m₁) :
    m₁.InKernel ∧ m₁.eip = entry nr ∧
      Holds m₁.mem (m₁.gpr .esp) (sym.syscallBack :: args) := by
  have sound := sound_of_reachable reachable
  obtain ⟨enabled, rfl⟩ := calls
  have entered := syscallEntry_entered m.toCpu m.esp0 sym
  have can := syscallEntry_canEnter enabled
  obtain ⟨espDummy, eip⟩ := syscallEntry_eip m.toCpu m.esp0 sym
  obtain ⟨room, top⟩ := sound.entryStack_distance can
  have first := entered.first room top
  refine ⟨?_, ?_, ?_⟩
  · rw [exec_syscall, Machine.InKernel, Machine.enter, Machine.accepted, entered.cs]
    decide
  · have long := savedWords_length_le espDummy 0 m.toRegisters
    have saved : (entryStack m.toCpu m.esp0).mem (sym.syscallTable + nr.code * 4) = entry nr :=
      table nr
    rw [wrapper.eax, pushes_keeps m.current ?_ (Nat.le_trans top apart), saved] at eip
    · exact eip
    · simp only [List.length_append, List.length_reverse, List.length_cons, List.length_nil]
        at room ⊢
      omega
  · refine ⟨first.1, ?_⟩
    have behind : Holds (m.accepted.run (syscallEntry sym)).mem
        ((m.accepted.run (syscallEntry sym)).gpr .esp + 4)
        ([m.gpr .ebx, m.gpr .ecx, m.gpr .edx] ++ [0x80]) := first.2
    rw [← wrapper.prefix_of, List.append_assoc] at behind
    exact ((holds_append _ _).mp behind).1

/-- A memory with the table. -/
def tableMem : Word → Word :=
  syscallInit (fun _ => 0) 0xc0003000 fun nr => 0xc0004000 + nr.code * 16

/-- The registers of a process that has called `write(1, buf, 5)`. -/
def writeRegisters : Registers :=
  { (userMachine tableMem).toRegisters with
    gpr
      | .eax => SyscallNr.sysWrite.code
      | .ebx => 1
      | .ecx => 0x08049000
      | .edx => 5
      | _ => 0 }

def writing : Machine :=
  exec smallSymbols (userMachine tableMem) (.work writeRegisters (userMachine tableMem).mem)

theorem spawn_tableMem : Enabled smallSymbols (mainMachine tableMem)
    (.spawn 0xc0100000 0xc0001600 0xc0001900 (fun _ => 0) true) :=
  ⟨by decide, by decide⟩

theorem switch_tableMem :
    Enabled smallSymbols (withProcess tableMem) (.switch 0xc0100000 0xc0001700) :=
  ⟨by decide, by decide, by decide⟩

theorem start_tableMem :
    Enabled smallSymbols (inProcess tableMem) (.startProcess 0x08048000 0xbffff000) :=
  ⟨by decide, by decide, by decide, rfl, by decide⟩

theorem writing_reachable : (machine smallSymbols).Reachable writing := by
  have started := userMachine_reachable spawn_tableMem switch_tableMem start_tableMem
  have user : ¬ (userMachine tableMem).InKernel := by decide
  exact started.step _ (takes (enabled_work rfl rfl fun kernel => absurd kernel user))

/-- What lies in neither task's page is as `syscall_init` has left it. -/
theorem writing_mem {x : Word} (outside : pgSize ≤ distance 0xc009e000 x)
    (outside' : pgSize ≤ distance 0xc0100000 x) : writing.mem x = tableMem x := by
  have started : (userMachine tableMem).mem x = (inProcess tableMem).mem x := by
    rw [userMachine, exec_startProcess start_tableMem]
    exact startProcess_keeps (c := (inProcess tableMem).toCpu) start_tableMem.2.2.2.2 outside'
  have switched : (inProcess tableMem).mem x = (withProcess tableMem).mem x := by
    rw [inProcess, exec_switch_mem switch_tableMem]
    exact parkedMem_keeps switch_tableMem (Nat.le_trans (by decide) outside)
  have spawned : (withProcess tableMem).mem x = tableMem x := threadCreate_keeps _ _ _ outside'
  exact started.trans (switched.trans spawned)

/-- The table lies in neither task's page. -/
theorem table_outside (nr : SyscallNr) : pgSize ≤ distance 0xc009e000 (0xc0003000 + nr.code * 4) ∧
    pgSize ≤ distance 0xc0100000 (0xc0003000 + nr.code * 4) := by
  obtain ⟨value, small⟩ := nr.code_toNat
  unfold pgSize distance
  constructor <;> bv_omega

theorem wrapper_reaches_sysWrite : (exec smallSymbols writing .syscall).InKernel ∧
    (exec smallSymbols writing .syscall).eip = 0xc0004000 + SyscallNr.sysWrite.code * 16 ∧
      Holds (exec smallSymbols writing .syscall).mem
        ((exec smallSymbols writing .syscall).gpr .esp) [0xc0001300, 1, 0x08049000, 5] := by
  have user : ¬ writing.InKernel := by decide
  have table : TableHolds writing.mem 0xc0003000 fun nr => 0xc0004000 + nr.code * 16 := by
    intro nr
    obtain ⟨outside, outside'⟩ := table_outside nr
    rw [writing_mem outside outside']
    exact syscallInit_holds _ _ _ nr
  have wrapper : Wrapper .sysWrite [1, 0x08049000, 5] writing.toRegisters := ⟨rfl, rfl, rfl⟩
  exact wrapper_reaches writing_reachable wrapper table (by decide) (takes user)

end UKernel.Contexts
