import UKernel.Library.Cpu

/-! # The code that saves and restores a task's registers

`switch_to`, the entries of interrupts and of the system call with `intr_exit`, as instructions
(`switch.asm`, `kernel.asm`), and the functions that build the stack of a task which has not run
yet: `thread_create`, `start_process`, `sys_execv` and, for a child of `fork`, `build_child_stack`.
What `intr_exit` takes from the stack is what the entries put there
(`UKernel.Contexts.run_intrExit`, `UKernel.Contexts.vectorEntry_entered`,
`UKernel.Contexts.syscallEntry_entered`).
-/

namespace UKernel.Contexts

open UKernel.Library UKernel.Library.Cpu

/-- A task is named by the address of the page that holds its control block and its stack. -/
abbrev TaskId := Word

/-- The addresses that the linker chooses: of `kernel_thread`, of `intr_exit`, of what follows the
calls in the entry of an interrupt and in `syscall_handler`, and of the two tables. -/
structure Symbols where
  kernelThread : Word
  intrExit : Word
  vectorBack : Word
  syscallBack : Word
  idtTable : Word
  syscallTable : Word

/-- `SELECTOR_K_CODE`. -/
def selectorKCode : BitVec 16 := 0x08

/-- `SELECTOR_K_STACK`. -/
def selectorKStack : BitVec 16 := 0x10

/-- `SELECTOR_U_CODE`. -/
def selectorUCode : BitVec 16 := 0x2b

/-- `SELECTOR_U_DATA`. -/
def selectorUData : BitVec 16 := 0x33

/-- `PG_SIZE`. -/
def pgSize : Nat := 4096

/-! ## The assembly -/

/-- `switch_to`. -/
def switchTo : List Instr :=
  [.push .esi, .push .edi, .push .ebx, .push .ebp,
    .load .eax .esp 20, .store .eax 0 .esp,
    .load .eax .esp 24, .load .esp .eax 0,
    .pop .ebp, .pop .ebx, .pop .edi, .pop .esi, .ret]

/-- The call `switch_to(cur, next)` of `schedule`, and the code of the function. -/
def callSwitchTo (cur next back : Word) : List Instr :=
  [.pushImm next, .pushImm cur, .pushImm back] ++ switchTo

/-- `intr_exit`. -/
def intrExit : List Instr :=
  [.addEsp 4, .popad, .popSeg .gs, .popSeg .fs, .popSeg .es, .popSeg .ds, .addEsp 4, .iretd]

/-- What the entries save first, after what the processor has saved. -/
def saveContext : List Instr :=
  [.pushImm 0, .pushSeg .ds, .pushSeg .es, .pushSeg .fs, .pushSeg .gs, .pushad]

/-- `VECTOR vec, ZERO`, up to the call of the handler. -/
def vectorEntry (sym : Symbols) (vec : Word) : List Instr :=
  saveContext ++ [.movAl 0x20, .out 0xa0, .out 0x20, .pushImm vec,
    .call (sym.idtTable + vec * 4) sym.vectorBack]

/-- `VECTOR vec, ZERO`, behind the call. -/
def vectorTail (sym : Symbols) : List Instr := [.jmp sym.intrExit]

/-- `syscall_handler`, up to the call of the kernel's function. -/
def syscallEntry (sym : Symbols) : List Instr :=
  saveContext ++ [.pushImm 0x80, .push .edx, .push .ecx, .push .ebx,
    .callTable sym.syscallTable .eax sym.syscallBack]

/-- `syscall_handler`, behind the call. -/
def syscallTail (sym : Symbols) : List Instr :=
  [.addEsp 12, .store .esp 32 .eax, .jmp sym.intrExit]

/-! ## The stacks of new tasks -/

/-- `sizeof(struct intr_stack)`: nineteen words. -/
def intrStackSize : Word := 76

/-- `sizeof(struct thread_stack)`: eight words. -/
def threadStackSize : Word := 32

/-- The words of a task's page that a function fills in, but for `self_kstack`. -/
def fillPage (mem : Word → Word) (page : TaskId) (words : Word → Word) : Word → Word :=
  fun x => if x ≠ page ∧ distance page x < pgSize then words x else mem x

/-- `init_thread`: the stack begins at the end of the page. The other words of the control block,
and those of the page that no function has written yet, are given. -/
def initThread (mem : Word → Word) (pthread : TaskId) (words : Word → Word) : Word → Word :=
  Function.update (fillPage mem pthread words) pthread (pthread + 4096)

/-- `thread_create`. `self_kstack` points to words, so that it moves by four times the sizes. -/
def threadCreate (sym : Symbols) (mem : Word → Word) (pthread : TaskId) (function funcArg : Word) :
    Word → Word :=
  let kthreadStack := mem pthread - 4 * intrStackSize - 4 * threadStackSize
  let mem := Function.update mem pthread kthreadStack
  let mem := Function.update mem (kthreadStack + 16) sym.kernelThread
  let mem := Function.update mem (kthreadStack + 24) function
  let mem := Function.update mem (kthreadStack + 28) funcArg
  let mem := Function.update mem (kthreadStack + 12) 0
  let mem := Function.update mem (kthreadStack + 8) 0
  let mem := Function.update mem (kthreadStack + 4) 0
  Function.update mem kthreadStack 0

/-- `sizeof(struct task_struct)`. -/
def taskStructSize : Nat := 280

/-- The part of `copy_pcb_vaddrbitmap_stack0` that writes the child's page: `memcpy` of the parent's
page, and the members of the control block that differ. -/
def copyPage (mem : Word → Word) (child parent : TaskId) (words : Word → Word) : Word → Word :=
  fun x =>
    if distance child x < pgSize then
      if x ≠ child ∧ distance child x < taskStructSize then words x
      else mem (parent + (x - child))
    else mem x

/-- Where the `struct intr_stack` of an entry from a user program lies. -/
def topFrame (t : TaskId) : Word := t + 4096 - intrStackSize

/-- `build_child_stack`. -/
def buildChildStack (sym : Symbols) (mem : Word → Word) (child : TaskId) : Word → Word :=
  let intr0Stack := topFrame child
  let mem := Function.update mem (intr0Stack + 32) 0
  let mem := Function.update mem (intr0Stack - 4) sym.intrExit
  let mem := Function.update mem (intr0Stack - 8) 0
  let mem := Function.update mem (intr0Stack - 12) 0
  let mem := Function.update mem (intr0Stack - 16) 0
  let mem := Function.update mem (intr0Stack - 20) 0
  Function.update mem child (intr0Stack - 20)

/-- `EFLAGS_IOPL_0 | EFLAGS_MBS | EFLAGS_IF_1`. -/
def userEflags : Word := 0x202

/-- The assignments of `start_process` to the members of `proc_stack` from `edi` to `ds`. -/
def procStackLow : List Word :=
  [0, 0, 0, 0, 0, 0, 0, 0, 0, selectorUData.setWidth 32, selectorUData.setWidth 32,
    selectorUData.setWidth 32]

/-- The assignments of `start_process` to the members of `proc_stack` from `eip` to `ss`. -/
def procStackHigh (function stack : Word) : List Word :=
  [function, selectorUCode.setWidth 32, userEflags, stack, selectorUData.setWidth 32]

/-- `start_process` of the running task, up to the jump to `intr_exit`; the page of the user's stack
is what `get_a_page` has returned. `self_kstack` points to words here, too. -/
def startProcess (c : Cpu) (cur : TaskId) (function userStack : Word) : Cpu :=
  let procStack := c.mem cur + 4 * threadStackSize
  let mem := Function.update c.mem cur procStack
  let mem := storeWords mem (procStack + 4) procStackLow
  let mem := storeWords mem (procStack + 56) (procStackHigh function (userStack + 4096))
  { c with mem := mem, gpr := Function.update c.gpr .esp procStack }

/-- The end of `sys_execv` of the running task, when `load` has returned an entry, up to the jump to
`intr_exit`. -/
def sysExecv (c : Cpu) (cur : TaskId) (argv argc entryPoint : Word) : Cpu :=
  let intr0Stack := topFrame cur
  let mem := Function.update c.mem (intr0Stack + 20) argv
  let mem := Function.update mem (intr0Stack + 28) argc
  let mem := Function.update mem (intr0Stack + 56) entryPoint
  let mem := Function.update mem (intr0Stack + 68) 0xc0000000
  { c with mem := mem, gpr := Function.update c.gpr .esp intr0Stack }

/-! ## What the entries save and `intr_exit` restores -/

/-- The members of `struct intr_stack` behind `vec_no`, for the given registers. The processor saves
the last two when it changes to the kernel's privilege level only. -/
def savedWords (espDummy errCode : Word) (r : Registers) : List Word :=
  [r.gpr .edi, r.gpr .esi, r.gpr .ebp, espDummy, r.gpr .ebx, r.gpr .edx, r.gpr .ecx, r.gpr .eax,
    (r.seg .gs).setWidth 32, (r.seg .fs).setWidth 32, (r.seg .es).setWidth 32,
    (r.seg .ds).setWidth 32, errCode, r.eip, r.cs.setWidth 32, r.eflags] ++
  if level r.cs = 0 then [] else [r.gpr .esp, r.ss.setWidth 32]

/-- The registers after a return to saved ones: a return within the kernel's privilege level leaves
the stack where it is. -/
def resumed (c : Cpu) (r : Registers) : Registers :=
  if level r.cs = 0 then
    { r with gpr := Function.update r.gpr .esp (c.gpr .esp + 68), ss := c.ss }
  else r

variable {c c' : Cpu} {r : Registers} {espDummy errCode esp0 base : Word} {args : List Word}

theorem setWidth_narrow (v : BitVec 16) : (v.setWidth 32).setWidth 16 = v := by
  simp

theorem savedWords_length_of_kernel (kernel : level r.cs = 0) :
    (savedWords espDummy errCode r).length = 16 := by
  rw [savedWords, if_pos kernel]
  rfl

theorem savedWords_length_of_user (user : level r.cs ≠ 0) :
    (savedWords espDummy errCode r).length = 18 := by
  rw [savedWords, if_neg user]
  rfl

theorem savedWords_length_le (espDummy errCode : Word) (r : Registers) :
    (savedWords espDummy errCode r).length ≤ 18 := by
  by_cases kernel : level r.cs = 0
  · rw [savedWords_length_of_kernel kernel]
    decide
  · rw [savedWords_length_of_user kernel]

/-- **Returning.** `intr_exit` takes the registers that the words behind its stack pointer were
saved from. -/
theorem run_intrExit (kernel : level c.cs = 0)
    (saved : Holds c.mem (c.gpr .esp + 4) (savedWords espDummy errCode r)) :
    c.run intrExit = { resumed c r with mem := c.mem } := by
  simp only [savedWords, List.cons_append, List.nil_append, holds_cons, BitVec.add_assoc,
    BitVec.reduceAdd] at saved
  obtain ⟨edi, esi, ebp, -, ebx, edx, ecx, eax, gs, fs, es, ds, -, eip, cs, eflags, rest⟩ := saved
  simp only [run, intrExit, List.foldl_cons, List.foldl_nil, exec, release, popad, popTo, popSegTo,
    iretd, Cpu.ret, top, Function.update_self, ne_eq, reduceCtorEq, not_false_eq_true,
    Function.update_of_ne, BitVec.add_assoc, BitVec.reduceAdd, edi, esi, ebp, ebx, edx, ecx, eax,
    gs, fs, es, ds, eip, cs, eflags, kernel, setWidth_narrow]
  have segs : Function.update (Function.update (Function.update (Function.update c.seg .gs
      (r.seg .gs)) .fs (r.seg .fs)) .es (r.seg .es)) .ds (r.seg .ds) = r.seg := by
    funext s
    cases s <;> rfl
  rw [segs, resumed]
  split
  case isTrue same =>
    congr 2
    funext g
    cases g <;> rfl
  case isFalse other =>
    rw [if_neg other] at rest
    simp only [holds_cons, BitVec.add_assoc, BitVec.reduceAdd] at rest
    simp only [rest.1, rest.2.1, setWidth_narrow]
    congr 2
    funext g
    cases g <;> rfl

/-- The stack that an interrupt is handled on: that of the interrupted code in the kernel, and for
a user program the one that the task state segment names. -/
def entryStack (c : Cpu) (esp0 : Word) : Cpu :=
  { c with gpr := Function.update c.gpr .esp (if level c.cs = 0 then c.gpr .esp else esp0) }

theorem entryStack_gpr {g : Reg} (other : g ≠ .esp) : (entryStack c esp0).gpr g = c.gpr g :=
  Function.update_of_ne other _ _

theorem run_saveContext (c : Cpu) (esp0 : Word) : ∃ espDummy,
    (c.accept selectorKCode selectorKStack esp0).run saveContext =
      { (entryStack c esp0).pushes (savedWords espDummy 0 c.toRegisters).reverse with
        cs := selectorKCode
        ss := if level c.cs = 0 then c.ss else selectorKStack
        eflags := c.eflags &&& 0xfffffdff } := by
  refine ⟨(c.accept selectorKCode selectorKStack esp0).gpr .esp - 4 - 4 - 4 - 4 - 4, ?_⟩
  have gate : level selectorKCode = 0 := by decide
  by_cases kernel : level c.cs = 0
  · simp only [accept, gate, kernel, entryStack, savedWords, if_true, List.append_nil,
      List.reverse_cons, List.reverse_nil, List.nil_append, List.cons_append,
      Function.update_eq_self, run, saveContext, List.foldl_cons, List.foldl_nil, exec, pushad,
      pushes, push, Function.update_self, ne_eq, reduceCtorEq, not_false_eq_true,
      Function.update_of_ne]
  · simp only [accept, gate, kernel, entryStack, savedWords, if_false, List.reverse_cons,
      List.reverse_nil, List.nil_append, List.cons_append, run, saveContext, List.foldl_cons,
      List.foldl_nil, exec, pushad, pushes, push, Function.update_self, ne_eq, reduceCtorEq,
      not_false_eq_true, Function.update_of_ne]

/-- After an entry, the registers of the interrupted code are on the stack, and in front of them
what the entry has pushed for the function that it calls. -/
structure Entered (c : Cpu) (esp0 : Word) (args : List Word) (c' : Cpu) : Prop where
  pushed : ∃ espDummy,
    let saved := (entryStack c esp0).pushes ((savedWords espDummy 0 c.toRegisters).reverse ++ args)
    c'.mem = saved.mem ∧ c'.gpr .esp = saved.gpr .esp
  cs : c'.cs = selectorKCode
  ss : c'.ss = if level c.cs = 0 then c.ss else selectorKStack

theorem vectorEntry_entered (c : Cpu) (esp0 vec : Word) (sym : Symbols) :
    Entered c esp0 [vec, sym.vectorBack]
      ((c.accept selectorKCode selectorKStack esp0).run (vectorEntry sym vec)) := by
  obtain ⟨espDummy, ran⟩ := run_saveContext c esp0
  refine ⟨⟨espDummy, ?_⟩, ?_, ?_⟩
  · rw [vectorEntry, run_append, ran]
    simp only [run, List.foldl_cons, List.foldl_nil, exec, pushes_append, pushes_cons, pushes_nil,
      push, Function.update_self, ne_eq, reduceCtorEq, not_false_eq_true, Function.update_of_ne,
      and_self]
  · rw [vectorEntry, run_append, ran]
    rfl
  · rw [vectorEntry, run_append, ran]
    rfl

theorem syscallEntry_entered (c : Cpu) (esp0 : Word) (sym : Symbols) :
    Entered c esp0 [0x80, c.gpr .edx, c.gpr .ecx, c.gpr .ebx, sym.syscallBack]
      ((c.accept selectorKCode selectorKStack esp0).run (syscallEntry sym)) := by
  obtain ⟨espDummy, ran⟩ := run_saveContext c esp0
  refine ⟨⟨espDummy, ?_⟩, ?_, ?_⟩
  · rw [syscallEntry, run_append, ran]
    simp only [run, List.foldl_cons, List.foldl_nil, exec, pushes_append, pushes_cons, pushes_nil,
      push, Function.update_self, ne_eq, reduceCtorEq, not_false_eq_true, Function.update_of_ne,
      pushes_gpr, entryStack_gpr, and_self]
  · rw [syscallEntry, run_append, ran]
    rfl
  · rw [syscallEntry, run_append, ran]
    rfl

section Entered

variable (entered : Entered c esp0 args c')
  (room : 4 * (18 + args.length) ≤ distance base ((entryStack c esp0).gpr .esp))

include entered room

/-- An entry does not touch the stack above the place where it begins. -/
theorem Entered.keeps {x : Word}
    (outside : distance base ((entryStack c esp0).gpr .esp) ≤ distance base x) :
    c'.mem x = c.mem x := by
  obtain ⟨espDummy, mem, -⟩ := entered.pushed
  have long := savedWords_length_le espDummy 0 c.toRegisters
  rw [mem, pushes_keeps base (by rw [List.length_append, List.length_reverse]; omega) outside]
  rfl

/-- The registers of the interrupted code lie where the stack begins, and the words that the entry
pushes for the function below them. -/
theorem Entered.saved (top : distance base ((entryStack c esp0).gpr .esp) ≤ pgSize) :
    ∃ espDummy,
      distance base (c'.gpr .esp) + 4 * args.length + 4 *
        (savedWords espDummy 0 c.toRegisters).length =
        distance base ((entryStack c esp0).gpr .esp) ∧
      Holds c'.mem (c'.gpr .esp + BitVec.ofNat 32 (4 * args.length))
        (savedWords espDummy 0 c.toRegisters) := by
  obtain ⟨espDummy, mem, esp⟩ := entered.pushed
  have long := savedWords_length_le espDummy 0 c.toRegisters
  refine ⟨espDummy, ?_, ?_⟩
  · rw [esp, pushes_distance (by rw [List.length_append, List.length_reverse]; omega),
      List.length_append, List.length_reverse]
    omega
  · have stacked := Stacked.pushes ((savedWords espDummy 0 c.toRegisters).reverse ++ args) base
      (stacked_nil (entryStack c esp0))
      (by rw [List.length_append, List.length_reverse]; omega)
      (by simp only [List.length_nil]; unfold pgSize at top; omega)
    rw [List.append_nil, List.reverse_append, List.reverse_reverse, Stacked] at stacked
    have behind := ((holds_append _ _).mp stacked).2
    rwa [List.length_reverse, ← mem, ← esp] at behind

end Entered

/-! ## What `switch_to` saves and restores -/

/-- The words that `schedule` and `switch_to` push. -/
def switchWords (c : Cpu) (cur next back : Word) : List Word :=
  [next, cur, back, c.gpr .esi, c.gpr .edi, c.gpr .ebx, c.gpr .ebp]

/-- The memory when `switch_to` has left the old stack. -/
def parkedMem (c : Cpu) (cur next back : Word) : Word → Word :=
  let saved := c.pushes (switchWords c cur next back)
  Function.update saved.mem cur (saved.gpr .esp)

/-- The registers when `switch_to` has returned on the stack that the new task was left with. -/
def switched (c : Cpu) (mem : Word → Word) (next : Word) : Cpu :=
  let kstack := mem next
  { c with
    mem := mem
    eip := mem (kstack + 16)
    gpr := fun
      | .eax => next
      | .ebp => mem kstack
      | .ebx => mem (kstack + 4)
      | .edi => mem (kstack + 8)
      | .esi => mem (kstack + 12)
      | .esp => kstack + 20
      | g => c.gpr g }

theorem switchWords_stacked (c : Cpu) (cur next back : Word) :
    (c.pushes (switchWords c cur next back)).Stacked
      [c.gpr .ebp, c.gpr .ebx, c.gpr .edi, c.gpr .esi, back, cur, next] := by
  have far : distance (c.gpr .esp - 28) (c.gpr .esp) = 28 := by
    unfold distance
    bv_omega
  have stacked := Stacked.pushes (c := c) (switchWords c cur next back) (c.gpr .esp - 28)
    (stacked_nil c) (by rw [far]; simp [switchWords]) (by rw [far]; simp)
  simpa [switchWords] using stacked

/-- **Switching.** The argument `next` is read after the old task's stack pointer is stored, which
is at another place than the arguments. -/
theorem run_callSwitchTo {cur next back : Word} (apart : cur ≠ c.gpr .esp - 4) :
    c.run (callSwitchTo cur next back) = switched c (parkedMem c cur next back) next := by
  have stacked := switchWords_stacked c cur next back
  have pushed : c.run [.pushImm next, .pushImm cur, .pushImm back, .push .esi, .push .edi,
      .push .ebx, .push .ebp] = c.pushes (switchWords c cur next back) := by
    simp only [run, List.foldl_cons, List.foldl_nil, exec, switchWords, pushes_cons, pushes_nil,
      push, ne_eq, reduceCtorEq, not_false_eq_true, Function.update_of_ne]
  have other : (c.pushes (switchWords c cur next back)).gpr .esp + 24 ≠ cur := by
    simp only [switchWords, pushes_cons, pushes_nil, push_esp]
    bv_omega
  obtain ⟨-, -, -, -, -, atCur, atNext, -⟩ := stacked
  simp only [BitVec.add_assoc, BitVec.reduceAdd] at atCur atNext
  have argCur : (c.pushes (switchWords c cur next back)).mem
      ((c.pushes (switchWords c cur next back)).gpr .esp + 20) = cur := atCur
  have argNext : (c.pushes (switchWords c cur next back)).mem
      ((c.pushes (switchWords c cur next back)).gpr .esp + 24) = next := atNext
  have parts : callSwitchTo cur next back = [.pushImm next, .pushImm cur, .pushImm back,
      .push .esi, .push .edi, .push .ebx, .push .ebp] ++ [.load .eax .esp 20, .store .eax 0 .esp,
      .load .eax .esp 24, .load .esp .eax 0, .pop .ebp, .pop .ebx, .pop .edi, .pop .esi, .ret] :=
    rfl
  have rest := pushes_eq c (switchWords c cur next back)
  have kept : ∀ g, g ≠ .esp → (c.pushes (switchWords c cur next back)).gpr g = c.gpr g :=
    fun g => pushes_gpr
  rw [parts, run_append, pushed, switched, parkedMem]
  rw [rest]
  generalize (c.pushes (switchWords c cur next back)).gpr = gpr at *
  generalize (c.pushes (switchWords c cur next back)).mem = mem at *
  simp only [run, List.foldl_cons, List.foldl_nil, exec, argCur, add_zero, popTo, release,
    Cpu.ret, top, Function.update_self, ne_eq, reduceCtorEq, not_false_eq_true,
    Function.update_of_ne, other, argNext, BitVec.add_assoc, BitVec.reduceAdd]
  congr 2
  funext g
  cases g
  case ecx => exact kept .ecx (by decide)
  case edx => exact kept .edx (by decide)
  all_goals rfl

/-! ## What new tasks begin with -/

section NewTasks

variable {sym : Symbols} {mem : Word → Word} {t : TaskId} {x : Word}

/-- An address of another page is none of the addresses in a page. -/
theorem outside_ne (outside : pgSize ≤ distance t x) (k : Word) (small : k.toNat < pgSize) :
    x ≠ t + k := by
  rintro rfl
  unfold pgSize distance at *
  bv_omega

theorem outside_ne_self (outside : pgSize ≤ distance t x) : x ≠ t := by
  rintro rfl
  rw [distance_self] at outside
  exact absurd outside (by decide)

/-- The stack that `thread_create` builds: the words that `switch_to` takes, and above them those of
the call that `kernel_thread` believes to be in. -/
theorem threadCreate_words (sym : Symbols) (mem : Word → Word) (t : TaskId)
    (words : Word → Word) (function funcArg : Word) :
    let mem' := threadCreate sym (initThread mem t words) t function funcArg
    mem' t = t + 3664 ∧ Holds mem' (t + 3664)
      [0, 0, 0, 0, sym.kernelThread, mem' (t + 3684), function, funcArg] := by
  intro mem'
  have start : t + 4096 - 4 * intrStackSize - 4 * threadStackSize = t + 3664 := by
    unfold intrStackSize threadStackSize
    bv_omega
  have made : mem' = threadCreate sym (initThread mem t words) t function funcArg := rfl
  simp only [threadCreate, initThread, Function.update_self, start, BitVec.add_assoc,
    BitVec.reduceAdd] at made
  constructor
  · simp [made]
  · simp [made, BitVec.add_assoc]

theorem threadCreate_keeps (words : Word → Word) (function funcArg : Word)
    (outside : pgSize ≤ distance t x) :
    threadCreate sym (initThread mem t words) t function funcArg x = mem x := by
  have start : t + 4096 - 4 * intrStackSize - 4 * threadStackSize = t + 3664 := by
    unfold intrStackSize threadStackSize
    bv_omega
  have apart := outside_ne outside
  have page : fillPage mem t words x = mem x :=
    if_neg fun inside => absurd inside.2 (Nat.not_lt_of_le outside)
  simp only [threadCreate, initThread, Function.update_self, start, BitVec.add_assoc,
    BitVec.reduceAdd]
  rw [Function.update_of_ne (apart _ (by decide)), Function.update_of_ne (apart _ (by decide)),
    Function.update_of_ne (apart _ (by decide)), Function.update_of_ne (apart _ (by decide)),
    Function.update_of_ne (apart _ (by decide)), Function.update_of_ne (apart _ (by decide)),
    Function.update_of_ne (apart _ (by decide)), Function.update_of_ne (outside_ne_self outside),
    Function.update_of_ne (outside_ne_self outside), page]

theorem distance_end (t : TaskId) : distance t (t + 4096) = pgSize :=
  distance_base_add (by decide)

theorem topFrame_eq (t : TaskId) : topFrame t = t + 4020 := by
  unfold topFrame intrStackSize
  bv_omega

theorem distance_topFrame (t : TaskId) : distance t (topFrame t) = 4020 := by
  rw [topFrame_eq]
  exact distance_base_add (k := 4020) (by decide)

/-- The words that `build_child_stack` stores, at their places in the page. -/
theorem buildChildStack_eq : buildChildStack sym mem t =
    Function.update (Function.update (Function.update (Function.update (Function.update
      (Function.update (Function.update mem (topFrame t + 32) 0) (t + 4016) sym.intrExit)
      (t + 4012) 0) (t + 4008) 0) (t + 4004) 0) (t + 4000) 0) t (t + 4000) := by
  simp only [buildChildStack, topFrame_eq, BitVec.sub_eq_add_neg, BitVec.add_assoc,
    BitVec.reduceNeg, BitVec.reduceAdd]
  rfl

theorem buildChildStack_keeps (outside : pgSize ≤ distance t x) :
    buildChildStack sym mem t x = mem x := by
  have apart := outside_ne outside
  rw [buildChildStack_eq, topFrame_eq, BitVec.add_assoc,
    Function.update_of_ne (outside_ne_self outside), Function.update_of_ne (apart _ (by decide)),
    Function.update_of_ne (apart _ (by decide)), Function.update_of_ne (apart _ (by decide)),
    Function.update_of_ne (apart _ (by decide)), Function.update_of_ne (apart _ (by decide)),
    Function.update_of_ne (apart _ (by decide))]

/-- The stack that `build_child_stack` builds: the words that `switch_to` takes, and the result of
the child's system call. -/
theorem buildChildStack_words (sym : Symbols) (mem : Word → Word) (t : TaskId) :
    buildChildStack sym mem t t = t + 4000 ∧
    Holds (buildChildStack sym mem t) (t + 4000) [0, 0, 0, 0, sym.intrExit] := by
  rw [buildChildStack_eq, topFrame_eq]
  constructor
  · exact Function.update_self _ _ _
  · simp [BitVec.add_assoc]

theorem buildChildStack_top (above : 4020 ≤ distance t x) :
    buildChildStack sym mem t x = Function.update mem (topFrame t + 32) 0 x := by
  have apart : ∀ k : Word, k.toNat < 4020 → x ≠ t + k := by
    rintro k small rfl
    unfold distance at above
    bv_omega
  have apart' : x ≠ t := by
    rintro rfl
    rw [distance_self] at above
    exact absurd above (by decide)
  rw [buildChildStack_eq, Function.update_of_ne apart', Function.update_of_ne (apart _ (by decide)),
    Function.update_of_ne (apart _ (by decide)), Function.update_of_ne (apart _ (by decide)),
    Function.update_of_ne (apart _ (by decide)), Function.update_of_ne (apart _ (by decide))]

/-- The registers that a process begins with in user mode. -/
def userRegisters (function stack : Word) : Registers where
  gpr
    | .esp => stack
    | _ => 0
  seg
    | .gs => 0
    | _ => selectorUData
  cs := selectorUCode
  ss := selectorUData
  eip := function
  eflags := userEflags

theorem wordsOfThreadStack : 4 * threadStackSize = 128 := rfl

theorem startProcess_places (fits : distance t (c.mem t) + 204 ≤ pgSize) :
    distance t (c.mem t + 128 + 4) = distance t (c.mem t) + 132 ∧
    distance t (c.mem t + 128 + 56) = distance t (c.mem t) + 184 := by
  unfold pgSize at fits
  have place : distance t (c.mem t + 128) = distance t (c.mem t) + 128 :=
    distance_add (k := 128) (by omega)
  have low : distance t (c.mem t + 128 + 4) = distance t (c.mem t + 128) + 4 :=
    distance_add (k := 4) (by omega)
  have high : distance t (c.mem t + 128 + 56) = distance t (c.mem t + 128) + 56 :=
    distance_add (k := 56) (by omega)
  exact ⟨by omega, by omega⟩

theorem startProcess_keeps {function userStack : Word}
    (fits : distance t (c.mem t) + 204 ≤ pgSize) (outside : pgSize ≤ distance t x) :
    (startProcess c t function userStack).mem x = c.mem x := by
  obtain ⟨low, high⟩ := startProcess_places fits
  unfold pgSize at *
  have lowCount : procStackLow.length = 12 := rfl
  have highCount : (procStackHigh function (userStack + 4096)).length = 5 := rfl
  simp only [startProcess, wordsOfThreadStack]
  rw [storeWords_keeps t (by omega) (by right; omega),
    storeWords_keeps t (by omega) (by right; omega)]
  exact Function.update_of_ne (outside_ne_self outside) _ _

/-- What `start_process` builds is what an entry from the beginning of the process would have saved,
but for the error code. -/
theorem startProcess_holds (function userStack : Word)
    (fits : distance t (c.mem t) + 204 ≤ pgSize) : ∃ errCode,
    Holds (startProcess c t function userStack).mem
      ((startProcess c t function userStack).gpr .esp + 4)
      (savedWords 0 errCode (userRegisters function (userStack + 4096))) := by
  obtain ⟨low, high⟩ := startProcess_places fits
  unfold pgSize at fits
  have lowCount : procStackLow.length = 12 := rfl
  have highCount : (procStackHigh function (userStack + 4096)).length = 5 := rfl
  have esp : (startProcess c t function userStack).gpr .esp = c.mem t + 128 := by
    simp only [startProcess, wordsOfThreadStack, Function.update_self]
  refine ⟨(startProcess c t function userStack).mem (c.mem t + 128 + 52), ?_⟩
  rw [esp]
  have words : ∀ errCode, savedWords 0 errCode (userRegisters function (userStack + 4096)) =
      procStackLow ++ (errCode :: procStackHigh function (userStack + 4096)) := by
    intro errCode
    have user : ¬ level selectorUCode = 0 := by decide
    rw [savedWords]
    exact congrArg _ (if_neg user)
  rw [words, holds_append]
  constructor
  · simp only [startProcess, wordsOfThreadStack]
    have lower : Holds (storeWords (Function.update c.mem t (c.mem t + 128)) (c.mem t + 128 + 4)
        procStackLow) (c.mem t + 128 + 4) procStackLow := storeWords_holds t (by omega)
    refine lower.keep t (distance t (c.mem t) + 184) (by omega) (by omega) ?_
    intro x _ below
    exact storeWords_keeps t (by omega) (by left; omega)
  · have behind : c.mem t + 128 + 4 + BitVec.ofNat 32 (4 * procStackLow.length) =
        c.mem t + 128 + 52 := by
      rw [lowCount]
      bv_omega
    have last : c.mem t + 128 + 52 + 4 = c.mem t + 128 + 56 := by
      bv_omega
    rw [behind, holds_cons, last]
    refine ⟨rfl, ?_⟩
    simp only [startProcess, wordsOfThreadStack]
    exact storeWords_holds t (by omega)

/-- What a program begins with, for the registers of its process at the call of `execv`. -/
def programRegisters (r : Registers) (argv argc entryPoint : Word) : Registers :=
  { r with
    eip := entryPoint
    gpr := Function.update (Function.update (Function.update r.gpr .ebx argv) .ecx argc) .esp
      0xc0000000 }

/-- `sys_execv` writes into what the entry has saved. -/
theorem sysExecv_keeps {argv argc entryPoint : Word} (outside : pgSize ≤ distance t x) :
    (sysExecv c t argv argc entryPoint).mem x = c.mem x := by
  have apart := outside_ne outside
  simp only [sysExecv, topFrame_eq, BitVec.add_assoc, BitVec.reduceAdd]
  rw [Function.update_of_ne (apart _ (by decide)), Function.update_of_ne (apart _ (by decide)),
    Function.update_of_ne (apart _ (by decide)), Function.update_of_ne (apart _ (by decide))]

/-- What `sys_execv` leaves is what an entry from the beginning of the program would have saved. -/
theorem sysExecv_holds {argv argc entryPoint : Word} (user : level r.cs ≠ 0)
    (saved : Holds c.mem (topFrame t + 4) (savedWords espDummy 0 r)) :
    Holds (sysExecv c t argv argc entryPoint).mem (topFrame t + 4)
      (savedWords espDummy 0 (programRegisters r argv argc entryPoint)) := by
  have long : (savedWords espDummy 0 r).length = 18 := savedWords_length_of_user user
  have words : savedWords espDummy 0 (programRegisters r argv argc entryPoint) =
      ((((savedWords espDummy 0 r).set 4 argv).set 6 argc).set 13 entryPoint).set 16
        0xc0000000 := by
    have user' : ¬ level (programRegisters r argv argc entryPoint).cs = 0 := user
    rw [savedWords, savedWords, if_neg user, if_neg user']
    rfl
  rw [words]
  have ebx := saved.set (i := 4) (w := argv) (by omega) (by omega)
  have ecx := ebx.set (i := 6) (w := argc) (by simp only [List.length_set]; omega)
    (by simp only [List.length_set]; omega)
  have eip := ecx.set (i := 13) (w := entryPoint) (by simp only [List.length_set]; omega)
    (by simp only [List.length_set]; omega)
  have esp := eip.set (i := 16) (w := 0xc0000000) (by simp only [List.length_set]; omega)
    (by simp only [List.length_set]; omega)
  simpa [sysExecv, BitVec.add_assoc] using esp

/-- A program begins in user mode. -/
theorem run_sysExecv {argv argc entryPoint : Word} (kernel : level c.cs = 0)
    (user : level r.cs ≠ 0) (saved : Holds c.mem (topFrame t + 4) (savedWords espDummy 0 r)) :
    (sysExecv c t argv argc entryPoint).run intrExit =
      { programRegisters r argv argc entryPoint with
        mem := (sysExecv c t argv argc entryPoint).mem } := by
  have holds : Holds (sysExecv c t argv argc entryPoint).mem (topFrame t + 4)
      (savedWords espDummy 0 (programRegisters r argv argc entryPoint)) :=
    sysExecv_holds user saved
  have esp : (sysExecv c t argv argc entryPoint).gpr .esp = topFrame t := by
    simp only [sysExecv, Function.update_self]
  have kernel' : level (sysExecv c t argv argc entryPoint).cs = 0 := kernel
  have user' : level (programRegisters r argv argc entryPoint).cs ≠ 0 := user
  generalize sysExecv c t argv argc entryPoint = c' at *
  rw [← esp] at holds
  rw [run_intrExit kernel' holds, resumed, if_neg user']

end NewTasks

end UKernel.Contexts
