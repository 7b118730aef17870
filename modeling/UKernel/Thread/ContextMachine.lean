import UKernel.Library.Transition
import UKernel.Thread.ContextCode

/-! # Tasks that take turns on one processor

The running kernel as a transition system (`UKernel.Contexts.machine`): interrupts and system calls,
the returns from them, `schedule` switching to another task, the creation of threads and processes,
`fork` and `execv`, and between these the work of the compiled code, which may do anything but write
into the stacks that other code is waiting on. The state has two records that nothing reads: what
each entry has interrupted and where each task that is not running has left off. The invariant
`UKernel.Contexts.Sound` says that the memory agrees with the records.
-/

namespace UKernel.Contexts

open UKernel.Library UKernel.Library.Cpu

/-! ## The state -/

/-- Which entry has called a function. -/
inductive FrameKind where
  | interrupt
  | syscall
  deriving DecidableEq, Repr

/-- A call by an entry that has not returned: where its `struct intr_stack` lies, and the registers
at the interruption. -/
structure Frame where
  kind : FrameKind
  base : Word
  saved : Registers

/-- Where a task that is not running goes on: its registers when `switch_to` has returned, of which
those that a function preserves count, and its stack. -/
structure Parked where
  regs : Registers
  stack : Word → Word

/-- The processor and the tasks. `esp0` is the member of the task state segment. -/
structure Machine extends Cpu where
  esp0 : Word
  current : TaskId
  live : List TaskId
  isUser : TaskId → Bool
  frames : TaskId → List Frame
  parked : TaskId → Parked

/-- What happens next. -/
inductive Label where
  /-- The code of the current task runs: it leaves the registers and the memory so. -/
  | work (regs : Registers) (mem : Word → Word)
  /-- A device interrupts. -/
  | interrupt (vec : Word)
  /-- A user program runs `int 0x80`. -/
  | syscall
  /-- `intr_exit`, behind the handler of an interrupt or as the first code of a forked task. -/
  | returnInterrupt
  /-- The end of `syscall_handler`. -/
  | returnSyscall
  /-- `schedule` activates a task and calls `switch_to`; the call returns to `back`. -/
  | switch (next : TaskId) (back : Word)
  /-- `init_thread` and `thread_create` of a thread or, with a page directory, of a process. -/
  | spawn (pthread : TaskId) (function funcArg : Word) (words : Word → Word) (isUser : Bool)
  /-- `sys_fork`: the page of the child. -/
  | fork (child : TaskId) (words : Word → Word)
  /-- `start_process`. -/
  | startProcess (function userStack : Word)
  /-- The end of a `sys_execv` that has loaded its program. -/
  | execv (argv argc entryPoint : Word)
  /-- `thread_exit` gives the page of a task back. -/
  | retire (task : TaskId)

namespace Machine

/-- Replace the processor. -/
def withCpu (m : Machine) (c : Cpu) : Machine := { m with toCpu := c }

/-- The processor in an interrupt gate. -/
def accepted (m : Machine) : Cpu := m.toCpu.accept selectorKCode selectorKStack m.esp0

/-- Record a call by an entry. -/
def enter (m : Machine) (kind : FrameKind) (c : Cpu) (base : Word) : Machine :=
  { m with
    toCpu := c
    frames := Function.update m.frames m.current
      (⟨kind, base, m.toRegisters⟩ :: m.frames m.current) }

/-- The call of the innermost entry has returned. -/
def leave (m : Machine) (c : Cpu) : Machine :=
  { m with
    toCpu := c
    frames := Function.update m.frames m.current (m.frames m.current).tail }

end Machine

/-- `process_activate`: the stack for entries from a user program. -/
def processActivate (m : Machine) (next : TaskId) : Word :=
  if m.isUser next then next + 4096 else m.esp0

/-- The registers of a task whose call of `switch_to` has returned; the two arguments are still on
the stack. -/
def afterCall (r : Registers) (back : Word) : Registers :=
  { r with gpr := Function.update r.gpr .esp (r.gpr .esp - 8), eip := back }

/-- The registers of a task that was made and has not run: those that `switch_to` restores. -/
def freshRegisters (r : Registers) (esp eip : Word) : Registers :=
  { r with
    eip := eip
    gpr := fun
      | .esp => esp
      | .ebp | .ebx | .esi | .edi => 0
      | g => r.gpr g }

/-- Set the result of a system call in saved registers. -/
def setEax (r : Registers) (result : Word) : Registers :=
  { r with gpr := Function.update r.gpr .eax result }

variable (sym : Symbols)

/-- What each label does. -/
def exec (m : Machine) : Label → Machine
  | .work regs mem => m.withCpu { regs with mem := mem }
  | .interrupt vec =>
      let c := m.accepted.run (vectorEntry sym vec)
      m.enter .interrupt c (c.gpr .esp + 4)
  | .syscall =>
      let c := m.accepted.run (syscallEntry sym)
      m.enter .syscall c (c.gpr .esp + 16)
  | .returnInterrupt =>
      m.leave ((if m.eip = sym.vectorBack then m.toCpu.run (vectorTail sym) else m.toCpu).run
        intrExit)
  | .returnSyscall => m.leave ((m.toCpu.run (syscallTail sym)).run intrExit)
  | .switch next back =>
      let c := m.toCpu.run (callSwitchTo m.current next back)
      { m with
        toCpu := c
        esp0 := processActivate m next
        current := next
        parked := Function.update m.parked m.current ⟨afterCall m.toRegisters back, c.mem⟩ }
  | .spawn pthread function funcArg words isUser =>
      let mem := threadCreate sym (initThread m.mem pthread words) pthread function funcArg
      { m with
        mem := mem
        live := pthread :: m.live
        isUser := Function.update m.isUser pthread isUser
        frames := Function.update m.frames pthread []
        parked := Function.update m.parked pthread
          ⟨freshRegisters m.toRegisters (pthread + 3684) sym.kernelThread, mem⟩ }
  | .fork child words =>
      let mem := buildChildStack sym (copyPage m.mem child m.current words) child
      { m with
        mem := mem
        live := child :: m.live
        isUser := Function.update m.isUser child true
        frames := Function.update m.frames child ((m.frames m.current).map fun f =>
          ⟨.interrupt, topFrame child, setEax f.saved 0⟩)
        parked := Function.update m.parked child
          ⟨freshRegisters m.toRegisters (topFrame child) sym.intrExit, mem⟩ }
  | .startProcess function userStack =>
      m.withCpu ((startProcess m.toCpu m.current function userStack).run intrExit)
  | .execv argv argc entryPoint =>
      m.leave ((sysExecv m.toCpu m.current argv argc entryPoint).run intrExit)
  | .retire task => { m with live := m.live.filter (· ≠ task) }

/-! ## When something can happen -/

/-- The address of a page. -/
def Aligned (t : TaskId) : Prop := t.toNat % pgSize = 0

/-- The part of a task's page that code which waits does not use ends here. -/
def ceiling (t : TaskId) : List Frame → Nat
  | [] => pgSize
  | f :: _ => distance t f.base

/-- What the innermost entry has saved begins here. -/
def savedFrom (t : TaskId) : List Frame → Nat
  | [] => pgSize
  | f :: _ => distance t f.base + 4

namespace Machine

variable (m : Machine)

/-- The processor runs at the kernel's privilege level. -/
def InKernel : Prop := level m.cs = 0

/-- What must not be written in a task's page from a distance on: what `switch_to` and the entries
have saved there, and the stack of the functions that wait. -/
def guardedFrom (t : TaskId) : Nat :=
  if t = m.current then savedFrom t (m.frames t) else distance t (m.mem t)

/-- A task whose stack is in use. -/
def InUse (t : TaskId) : Prop := t ∈ m.live ∨ t = m.current

/-- A page that no task has. -/
def Fresh (t : TaskId) : Prop := Aligned t ∧ ¬ m.InUse t

/-- The words that the compiled code leaves alone: the guarded parts of the stacks, and
`self_kstack`. -/
def Spares (mem : Word → Word) : Prop :=
  (∀ t x, m.InUse t → m.guardedFrom t ≤ distance t x → distance t x < pgSize → mem x = m.mem x) ∧
    ∀ t ∈ m.live, mem t = m.mem t

/-- The stack pointer lies in the free part of the current task's page, with room below it. -/
def HasRoom (regs : Registers) (room : Nat) : Prop :=
  room ≤ distance m.current (regs.gpr .esp) ∧ distance m.current (regs.gpr .esp) < pgSize ∧
    distance m.current (regs.gpr .esp) ≤ ceiling m.current (m.frames m.current)

end Machine

instance (t : TaskId) : Decidable (Aligned t) := inferInstanceAs (Decidable (t.toNat % pgSize = 0))

instance (m : Machine) : Decidable m.InKernel := inferInstanceAs (Decidable (level m.cs = 0))

instance (m : Machine) (t : TaskId) : Decidable (m.InUse t) :=
  inferInstanceAs (Decidable (t ∈ m.live ∨ t = m.current))

instance (m : Machine) (t : TaskId) : Decidable (m.Fresh t) :=
  inferInstanceAs (Decidable (Aligned t ∧ ¬ m.InUse t))

instance (m : Machine) (regs : Registers) (room : Nat) : Decidable (m.HasRoom regs room) :=
  inferInstanceAs (Decidable (room ≤ distance m.current (regs.gpr .esp) ∧
    distance m.current (regs.gpr .esp) < pgSize ∧
    distance m.current (regs.gpr .esp) ≤ ceiling m.current (m.frames m.current)))

/-- When a label can be next. Compiled code keeps to its privilege level and its stack; a stack has
room for what is pushed, which `stack_magic` is there to detect; a function returns with the stack
pointer that it was called with. -/
def Enabled (m : Machine) : Label → Prop
  | .work regs mem =>
      regs.cs = m.cs ∧ regs.ss = m.ss ∧ (m.InKernel → m.HasRoom regs 4) ∧ m.Spares mem
  | .interrupt _ => m.eflags.getLsbD 9 = true ∧ (m.InKernel → m.HasRoom m.toRegisters 84)
  | .syscall => ¬ m.InKernel
  | .returnInterrupt => m.InKernel ∧ (m.eip = sym.vectorBack ∨ m.eip = sym.intrExit) ∧
      ∃ f rest, m.frames m.current = f :: rest ∧ f.kind = .interrupt ∧ m.gpr .esp = f.base
  | .returnSyscall => m.InKernel ∧ m.eip = sym.syscallBack ∧
      ∃ f rest, m.frames m.current = f :: rest ∧ f.kind = .syscall ∧ m.gpr .esp = f.base - 12
  | .switch next _ => m.InKernel ∧ next ∈ m.live ∧ m.HasRoom m.toRegisters 36
  | .spawn pthread _ _ _ _ => m.InKernel ∧ m.Fresh pthread
  | .fork child _ => m.InKernel ∧ m.Fresh child ∧
      ∃ f, m.frames m.current = [f] ∧ f.kind = .syscall
  | .startProcess _ _ => m.InKernel ∧ m.current ∈ m.live ∧ m.isUser m.current = true ∧
      m.frames m.current = [] ∧ distance m.current (m.mem m.current) + 204 ≤ pgSize
  | .execv _ _ _ => m.InKernel ∧ ∃ f, m.frames m.current = [f] ∧ f.kind = .syscall
  | .retire _ => m.InKernel

/-- The kernel's `main` before it has created a task: it runs on its own page. -/
structure Booted (m : Machine) : Prop where
  inKernel : m.InKernel
  stackSelector : m.ss = selectorKStack
  aligned : Aligned m.current
  live : m.live = [m.current]
  noFrames : ∀ t, m.frames t = []
  noUser : ∀ t, m.isUser t = false
  stack : m.HasRoom m.toRegisters 4

/-- The tasks on the processor as a transition system. -/
def machine : TransitionSystem Machine Label where
  initial := Booted
  step m label next := Enabled sym m label ∧ exec sym m label = next

/-! ## The invariant -/

/-- What an entry has saved is on the stack, below what was there before it. -/
structure FrameSound (m : Machine) (t : TaskId) (f : Frame) (rest : List Frame) : Prop where
  low : 8 ≤ distance t f.base
  holds : ∃ espDummy, Holds m.mem (f.base + 4) (savedWords espDummy 0 f.saved)
  ofKernel : level f.saved.cs = 0 → f.kind = .interrupt ∧ f.saved.ss = selectorKStack ∧
    distance t f.base + 68 = distance t (f.saved.gpr .esp) ∧ distance t f.base + 68 < pgSize ∧
    distance t f.base + 68 ≤ ceiling t rest
  ofUser : level f.saved.cs ≠ 0 → rest = [] ∧ m.isUser t = true ∧ f.base = topFrame t

/-- All entries that wait have saved what they interrupted. -/
def FramesSound (m : Machine) (t : TaskId) : List Frame → Prop
  | [] => True
  | f :: rest => FrameSound m t f rest ∧ FramesSound m t rest

/-- A task that is not running has left its registers where `switch_to` looks for them. -/
structure ParkedSound (m : Machine) (t : TaskId) : Prop where
  low : 8 ≤ distance t (m.mem t)
  high : distance t (m.mem t) + 20 < pgSize
  below : distance t (m.mem t) + 20 ≤ ceiling t (m.frames t)
  esp : (m.parked t).regs.gpr .esp = m.mem t + 20
  holds : Holds m.mem (m.mem t) [(m.parked t).regs.gpr .ebp, (m.parked t).regs.gpr .ebx,
    (m.parked t).regs.gpr .edi, (m.parked t).regs.gpr .esi, (m.parked t).regs.eip]
  stack : ∀ x, distance t (m.mem t) + 20 ≤ distance t x → distance t x < pgSize →
    m.mem x = (m.parked t).stack x

/-- The memory agrees with the records. -/
structure Sound (m : Machine) : Prop where
  aligned : ∀ t, m.InUse t → Aligned t
  frames : ∀ t, m.InUse t → FramesSound m t (m.frames t)
  parked : ∀ t ∈ m.live, t ≠ m.current → ParkedSound m t
  kernel : m.InKernel → m.HasRoom m.toRegisters 4 ∧ m.ss = selectorKStack
  user : ¬ m.InKernel → m.frames m.current = [] ∧ m.isUser m.current = true
  activated : m.isUser m.current = true → m.esp0 = m.current + 4096

end UKernel.Contexts
