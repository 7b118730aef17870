import UKernel.Thread.ContextSound

/-! # A task goes on as if it had been alone

What holds of a task from the moment it stops until it goes on, whatever the other tasks have done
in between: a call of `switch_to` returns with the registers that a function preserves and with the
stack of its caller (`UKernel.Contexts.switch_returns`), an interrupt leaves no trace in the
interrupted code (`UKernel.Contexts.interrupt_invisible`), a system call that returns changes `eax`
alone (`UKernel.Contexts.syscall_returns`), also in both tasks that return from `fork`
(`UKernel.Contexts.fork_returns_twice`), and a new thread begins with a call of its function
(`UKernel.Contexts.thread_begins`).
-/

namespace UKernel.Contexts

open UKernel.Library UKernel.Library.Cpu

variable {sym : Symbols} {m m' m₁ m₂ m₃ m₄ : Machine} {t next : TaskId} {x back : Word}
  {f : Frame} {fs rest outer : List Frame} {label : Label} {labels : List Label}

/-! ## What a step leaves to the tasks -/

/-- A task lives until it is retired. -/
theorem exec_live (sym : Symbols) (label : Label) (live : t ∈ m.live) (stays : label ≠ .retire t) :
    t ∈ (exec sym m label).live := by
  cases label with
  | spawn pthread function funcArg words isUser => exact List.mem_cons_of_mem _ live
  | fork child words => exact List.mem_cons_of_mem _ live
  | retire task =>
      refine List.mem_filter.mpr ⟨live, decide_eq_true ?_⟩
      rintro rfl
      exact stays rfl
  | _ => simpa only [exec, Machine.enter, Machine.leave, Machine.withCpu] using live

/-- A switch changes the current task, and nothing else does. -/
theorem exec_current :
    (exec sym m label).current = match label with
      | .switch next _ => next
      | _ => m.current := by
  cases label <;> simp only [exec, Machine.enter, Machine.leave, Machine.withCpu]

/-- A live task has no fresh page. -/
theorem ne_fresh (live : t ∈ m.live) {page : TaskId} (fresh : m.Fresh page) : t ≠ page := by
  rintro rfl
  exact fresh.2 (.inl live)

/-- Where a task has left off is recorded when it stops, and stays. -/
theorem exec_parked (enabled : Enabled sym m label) (live : t ∈ m.live) (other : m.current ≠ t) :
    (exec sym m label).parked t = m.parked t := by
  cases label with
  | switch next back => exact Function.update_of_ne other.symm _ _
  | spawn pthread function funcArg words isUser =>
      exact Function.update_of_ne (ne_fresh live enabled.2) _ _
  | fork child words => exact Function.update_of_ne (ne_fresh live enabled.2.1) _ _
  | _ => simp only [exec, Machine.enter, Machine.leave, Machine.withCpu]

/-- The entries of a task are its own: it enters, and returns to what the innermost entry has
interrupted. -/
inductive FramesStep (m : Machine) (t : TaskId) : Label → List Frame → Prop where
  | same {label : Label} : FramesStep m t label (m.frames t)
  | enter {label : Label} (f : Frame) : m.current = t → FramesStep m t label (f :: m.frames t)
  | leave {label : Label} : m.current = t → FramesStep m t label (m.frames t).tail

theorem exec_frames (enabled : Enabled sym m label) (live : t ∈ m.live) :
    FramesStep m t label ((exec sym m label).frames t) := by
  have entered : ∀ label f,
      FramesStep m t label (Function.update m.frames m.current (f :: m.frames m.current) t) := by
    intro label f
    rw [Function.update_apply]
    split
    case isTrue same =>
      rw [← same]
      exact .enter f same.symm
    case isFalse => exact .same
  have left : ∀ label,
      FramesStep m t label (Function.update m.frames m.current (m.frames m.current).tail t) := by
    intro label
    rw [Function.update_apply]
    split
    case isTrue same =>
      rw [← same]
      exact .leave same.symm
    case isFalse => exact .same
  cases label with
  | interrupt vec => exact entered _ _
  | syscall => exact entered _ _
  | returnInterrupt => exact left _
  | returnSyscall => exact left _
  | execv argv argc entryPoint => exact left _
  | spawn pthread function funcArg words isUser =>
      have kept : (exec sym m (.spawn pthread function funcArg words isUser)).frames t =
          m.frames t := Function.update_of_ne (ne_fresh live enabled.2) _ _
      rw [kept]
      exact .same
  | fork child words =>
      have kept : (exec sym m (.fork child words)).frames t = m.frames t :=
        Function.update_of_ne (ne_fresh live enabled.2.1) _ _
      rw [kept]
      exact .same
  | _ =>
      simp only [exec, Machine.withCpu]
      exact .same

/-! ## A small machine -/

/-- Addresses for a kernel of nothing else. -/
def smallSymbols : Symbols where
  kernelThread := 0xc0001000
  intrExit := 0xc0001100
  vectorBack := 0xc0001200
  syscallBack := 0xc0001300
  idtTable := 0xc0002000
  syscallTable := 0xc0003000

/-- The kernel's `main` on its page. -/
def mainMachine (mem : Word → Word) : Machine where
  gpr
    | .esp => 0xc009ef00
    | _ => 0
  seg _ := selectorKStack
  cs := selectorKCode
  ss := selectorKStack
  eip := 0xc0001500
  eflags := userEflags
  mem := mem
  esp0 := 0
  current := 0xc009e000
  live := [0xc009e000]
  isUser _ := false
  frames _ := []
  parked _ := ⟨⟨fun _ => 0, fun _ => 0, 0, 0, 0, 0⟩, fun _ => 0⟩

theorem mainMachine_reachable (mem : Word → Word) :
    (machine smallSymbols).Reachable (mainMachine mem) :=
  have room : 4 ≤ distance 0xc009e000 0xc009ef00 ∧ distance 0xc009e000 0xc009ef00 < pgSize ∧
      distance 0xc009e000 0xc009ef00 ≤ ceiling 0xc009e000 [] := by decide
  .initial ⟨(by decide : level selectorKCode = 0), rfl, (by decide : Aligned 0xc009e000), rfl,
    fun _ => rfl, fun _ => rfl, room⟩

theorem takes (enabled : Enabled sym m label) :
    (machine sym).step m label (exec sym m label) :=
  ⟨enabled, rfl⟩

/-- Code that leaves the memory as it is. -/
theorem enabled_work {regs : Registers} (cs : regs.cs = m.cs) (ss : regs.ss = m.ss)
    (room : m.InKernel → m.HasRoom regs 4) : Enabled sym m (.work regs m.mem) :=
  ⟨cs, ss, room, fun _ _ _ _ _ => rfl, fun _ _ => rfl⟩

/-- The innermost entry has a property that can be checked. -/
theorem innermost_of_any {fs : List Frame} {P : Frame → Prop} [DecidablePred P]
    (any : fs.head?.any (fun f => decide (P f)) = true) : ∃ f rest, fs = f :: rest ∧ P f := by
  cases fs with
  | nil => exact absurd any (by simp)
  | cons f rest => exact ⟨f, rest, rfl, of_decide_eq_true any⟩

/-- The registers when the function that an entry has called has returned. -/
def calledBack (m : Machine) (back result : Word) : Registers :=
  { m.toRegisters with
    eip := back
    gpr := Function.update (Function.update m.gpr .esp (m.gpr .esp + 4)) .eax result }

/-- `main` has made a thread. -/
def withThread : Machine :=
  exec smallSymbols (mainMachine fun _ => 0) (.spawn 0xc0100000 0xc0001600 7 (fun _ => 0) false)

/-- The thread has the processor. -/
def inThread : Machine := exec smallSymbols withThread (.switch 0xc0100000 0xc0001700)

theorem withThread_step : (machine smallSymbols).step (mainMachine fun _ => 0)
    (.spawn 0xc0100000 0xc0001600 7 (fun _ => 0) false) withThread :=
  takes ⟨by decide, by decide⟩

theorem inThread_step :
    (machine smallSymbols).step withThread (.switch 0xc0100000 0xc0001700) inThread :=
  takes ⟨by decide, by decide, by decide⟩

/-! ## Switching -/

/-- The processor goes on with a task as the record says. -/
structure Resumes (m : Machine) (t : TaskId) (p : Parked) : Prop where
  inKernel : m.InKernel
  ebp : m.gpr .ebp = p.regs.gpr .ebp
  ebx : m.gpr .ebx = p.regs.gpr .ebx
  edi : m.gpr .edi = p.regs.gpr .edi
  esi : m.gpr .esi = p.regs.gpr .esi
  eip : m.eip = p.regs.eip
  esp : m.gpr .esp = p.regs.gpr .esp
  stack : ∀ x, distance t (p.regs.gpr .esp) ≤ distance t x → distance t x < pgSize →
    m.mem x = p.stack x

theorem ParkedSound.resumes {c : Cpu} (parked : ParkedSound m' next) (kernel : level c.cs = 0)
    (cpu : m'.toCpu = switched c m'.mem next) : Resumes m' next (m'.parked next) := by
  obtain ⟨ebp, ebx, edi, esi, eip, -⟩ := parked.holds
  simp only [BitVec.add_assoc, BitVec.reduceAdd] at ebx edi esi eip
  constructor
  · rw [Machine.InKernel, cpu]
    exact kernel
  · rw [cpu]
    exact ebp
  · rw [cpu]
    exact ebx
  · rw [cpu]
    exact edi
  · rw [cpu]
    exact esi
  · rw [cpu]
    exact eip
  · rw [cpu]
    exact parked.esp.symm
  · intro x above below
    have high := parked.high
    have place : distance next (m'.mem next + 20) = distance next (m'.mem next) + 20 :=
      distance_add (k := 20) (by unfold pgSize at high; omega)
    rw [parked.esp, place] at above
    exact parked.stack x above below

theorem Sound.resumes (sound : Sound m) (enabled : Enabled sym m (.switch next back))
    (same : next = t) : Resumes (exec sym m (.switch next back)) t
      ((exec sym m (.switch next back)).parked t) := by
  subst same
  refine (sound.parked_switch enabled enabled.2.1).resumes (c := m.toCpu) enabled.1 ?_
  rw [exec_switch_mem enabled]
  exact exec_switch enabled

/-- While another task has the processor and the task is not retired. -/
def Waiting (t : TaskId) (m : Machine) (label : Label) : Prop :=
  m.current ≠ t ∧ label ≠ .retire t

/-- Whatever other tasks do, a task goes on where it has left off. -/
theorem resumes_of_run {p : Parked} (reachable : (machine sym).Reachable m₁) (live : t ∈ m₁.live)
    (record : m₁.parked t = p) (start : m₁.current = t → Resumes m₁ t p)
    (others : ((machine sym).under (Waiting t)).Steps m₁ labels m₂) (now : m₂.current = t) :
    Resumes m₂ t p := by
  have kept : t ∈ m₂.live ∧ m₂.parked t = p ∧ (m₂.current = t → Resumes m₂ t p) := by
    refine TransitionSystem.Steps.invariant
      (fun m => t ∈ m.live ∧ m.parked t = p ∧ (m.current = t → Resumes m t p)) reachable
      ⟨live, record, start⟩ ?_ others
    rintro m label - reached ⟨alive, parked, -⟩ ⟨other, stays⟩ ⟨enabled, rfl⟩
    refine ⟨exec_live sym label alive stays, (exec_parked enabled alive other).trans parked, ?_⟩
    rw [exec_current]
    cases label with
    | switch next back =>
        intro (same : next = t)
        have resumes := (sound_of_reachable reached).resumes enabled same
        rwa [exec_parked enabled alive other, parked] at resumes
    | _ => exact fun same => absurd same other
  exact kept.2.2 now

theorem afterCall_esp (r : Registers) (back : Word) :
    (afterCall r back).gpr .esp = r.gpr .esp - 8 := by
  simp only [afterCall, Function.update_self]

theorem afterCall_gpr (r : Registers) (back : Word) {g : Reg} (other : g ≠ .esp) :
    (afterCall r back).gpr g = r.gpr g :=
  Function.update_of_ne other _ _

/-- A call of `switch_to` has returned, to the same stack and to the registers that a function
preserves; its two arguments are still on the stack. -/
structure Returned (m : Machine) (back : Word) (m' : Machine) : Prop where
  ebp : m'.gpr .ebp = m.gpr .ebp
  ebx : m'.gpr .ebx = m.gpr .ebx
  edi : m'.gpr .edi = m.gpr .edi
  esi : m'.gpr .esi = m.gpr .esi
  eip : m'.eip = back
  esp : m'.gpr .esp = m.gpr .esp - 8
  stack : ∀ x, distance m.current (m.gpr .esp) ≤ distance m.current x →
    distance m.current x < pgSize → m'.mem x = m.mem x

/-- **A switch returns.** When a task that has called `switch_to` has the processor again, the call
has returned, whatever the tasks in between have done. -/
theorem switch_returns (reachable : (machine sym).Reachable m) (live : m.current ∈ m.live)
    (switches : (machine sym).step m (.switch next back) m₁)
    (others : ((machine sym).under (Waiting m.current)).Steps m₁ labels m₂)
    (now : m₂.current = m.current) : Returned m back m₂ := by
  have next' := reachable.step _ switches
  obtain ⟨enabled, rfl⟩ := switches
  have record : (exec sym m (.switch next back)).parked m.current =
      ⟨afterCall m.toRegisters back, (exec sym m (.switch next back)).mem⟩ :=
    Function.update_self _ _ _
  have first : (exec sym m (.switch next back)).current = m.current →
      Resumes (exec sym m (.switch next back)) m.current
        ⟨afterCall m.toRegisters back, (exec sym m (.switch next back)).mem⟩ := by
    intro same
    rw [exec_current] at same
    rw [← record]
    exact (sound_of_reachable reachable).resumes enabled same
  have resumes := resumes_of_run next' live record first others now
  have mem := exec_switch_mem enabled
  have keeps := fun x => parkedMem_keeps (x := x) enabled
  obtain ⟨-, -, room, inside, -⟩ := enabled
  have low : distance m.current (m.gpr .esp - 8) = distance m.current (m.gpr .esp) - 8 :=
    distance_sub (k := 8) (by omega)
  constructor
  · exact resumes.ebp.trans (afterCall_gpr _ _ (by decide))
  · exact resumes.ebx.trans (afterCall_gpr _ _ (by decide))
  · exact resumes.edi.trans (afterCall_gpr _ _ (by decide))
  · exact resumes.esi.trans (afterCall_gpr _ _ (by decide))
  · exact resumes.eip
  · exact resumes.esp.trans (afterCall_esp _ _)
  · intro x above below
    have stays := resumes.stack x (by rw [afterCall_esp]; omega) below
    rw [stays, mem]
    exact keeps x above

/-- `main` has the processor again. -/
def inMain : Machine := exec smallSymbols inThread (.switch 0xc009e000 0xc0001800)

theorem inMain_step :
    (machine smallSymbols).step inThread (.switch 0xc009e000 0xc0001800) inMain :=
  takes ⟨by decide, by decide, by decide⟩

theorem switch_returns_main : Returned withThread 0xc0001700 inMain :=
  switch_returns ((mainMachine_reachable _).step _ withThread_step) (by decide) inThread_step
    (.snoc _ .nil ⟨⟨by decide, by simp⟩, inMain_step⟩) (by decide)

/-! ## Entries -/

/-- While a task has more entries than a number, and is not retired. -/
def Inside (t : TaskId) (n : Nat) (m : Machine) (label : Label) : Prop :=
  n < (m.frames t).length ∧ label ≠ .retire t

/-- A live task's entry has not returned as long as the task has more entries than before it. -/
def Waits (t : TaskId) (f : Frame) (outer : List Frame) (m : Machine) : Prop :=
  t ∈ m.live ∧ (outer.length < (m.frames t).length → ∃ inner, m.frames t = inner ++ f :: outer)

/-- An entry waits until it returns: the entries that come later are inside it. -/
theorem Waits.step (waits : Waits t f outer m) (inside : Inside t outer.length m label)
    (enabled : Enabled sym m label) : Waits t f outer (exec sym m label) := by
  obtain ⟨alive, waits⟩ := waits
  obtain ⟨more, stays⟩ := inside
  obtain ⟨inner, frames⟩ := waits more
  refine ⟨exec_live sym label alive stays, ?_⟩
  have popped : outer.length < (m.frames t).tail.length →
      ∃ inner, (m.frames t).tail = inner ++ f :: outer := by
    intro more
    cases inner with
    | nil =>
        rw [frames] at more
        exact absurd more (lt_irrefl _)
    | cons g inner => exact ⟨inner, by rw [frames]; rfl⟩
  have taken := exec_frames (t := t) enabled alive
  generalize (exec sym m label).frames t = fs at taken
  cases taken with
  | same => exact fun _ => ⟨inner, frames⟩
  | enter g _ => exact fun _ => ⟨g :: inner, by rw [frames]; rfl⟩
  | leave _ => exact popped

theorem waits_of_run (reachable : (machine sym).Reachable m₁) (live : t ∈ m₁.live)
    (first : m₁.frames t = f :: outer)
    (handled : ((machine sym).under (Inside t outer.length)).Steps m₁ labels m₂) :
    Waits t f outer m₂ := by
  refine TransitionSystem.Steps.invariant (Waits t f outer) reachable ⟨live, fun _ => ⟨[], first⟩⟩
    ?_ handled
  rintro m label - - waits inside ⟨enabled, rfl⟩
  exact waits.step inside enabled

/-- An innermost entry is the one that has waited. -/
theorem frames_of_run_last (reachable : (machine sym).Reachable m₁) (live : t ∈ m₁.live)
    (first : m₁.frames t = f :: outer)
    (handled : ((machine sym).under (Inside t outer.length)).Steps m₁ labels m₂)
    (last : (m₂.frames t).length = outer.length + 1) : m₂.frames t = f :: outer := by
  obtain ⟨inner, frames⟩ := (waits_of_run reachable live first handled).2 (by omega)
  have none : inner = [] := by
    rw [frames, List.length_append, List.length_cons] at last
    exact List.eq_nil_of_length_eq_zero (by omega)
  rw [frames, none, List.nil_append]

/-- Where the part of a task's page begins that no step writes into while its entries wait. -/
theorem FramesSound.append {inner : List Frame} (sound : FramesSound m t (inner ++ f :: outer)) :
    FrameSound m t f outer ∧ savedFrom t (inner ++ f :: outer) ≤ savedFrom t (f :: outer) := by
  induction inner with
  | nil => exact ⟨sound.1, Nat.le_refl _⟩
  | cons g inner ih =>
      obtain ⟨own, low⟩ := ih sound.2
      exact ⟨own, Nat.le_trans sound.1.savedFrom_le low⟩

/-- Where an entry has saved `eax`. -/
theorem FrameSound.slot_lt (sound : FrameSound m t f rest) : distance t (f.base + 32) < pgSize := by
  obtain ⟨-, room⟩ := sound.room 0
  have long : 16 ≤ (savedWords 0 0 f.saved).length := by
    by_cases kernel : level f.saved.cs = 0
    · rw [savedWords_length_of_kernel kernel]
    · rw [savedWords_length_of_user kernel]
      decide
  have slot : distance t (f.base + 32) = distance t f.base + 32 :=
    distance_add (k := 32) (by unfold pgSize at room; omega)
  omega

/-- An entry spares what the entries before it have saved, and the pages of the other tasks. -/
theorem Sound.enter_keeps {kind : FrameKind} {args : List Word} {c : Cpu} (sound : Sound m)
    (entered : Entered m.toCpu m.esp0 args c) (can : CanEnter m kind args)
    (above : savedFrom m.current (m.frames m.current) ≤ distance m.current x) :
    c.mem x = m.mem x := by
  obtain ⟨room, top⟩ := sound.entryStack_distance can
  refine entered.keeps room ?_
  by_cases inKernel : m.InKernel
  · have free := (sound.kernel inKernel).1.2.2
    have low := ceiling_le_savedFrom m.current (m.frames m.current)
    rw [entryStack_esp_of_kernel inKernel]
    omega
  · rw [(sound.user inKernel).1] at above
    exact Nat.le_trans top above

/-- The steps that write into what the entry of a system call has saved. -/
def Label.EndsSyscall : Label → Prop
  | .returnSyscall => True
  | .execv _ _ _ => True
  | _ => False

/-- A step spares what the entries of a task have saved, but for the end of a system call. -/
theorem Sound.exec_keeps (sound : Sound m) (enabled : Enabled sym m label) (live : t ∈ m.live)
    (result : label.EndsSyscall → m.current ≠ t)
    (above : savedFrom t (m.frames t) ≤ distance t x) (below : distance t x < pgSize) :
    (exec sym m label).mem x = m.mem x := by
  have aligned := sound.aligned t (.inl live)
  have low := ceiling_le_savedFrom t (m.frames t)
  have apart : t ≠ m.current → pgSize ≤ distance m.current x := fun other =>
    distance_apart aligned (sound.aligned _ (.inr rfl)) other below
  have own : savedFrom m.current (m.frames m.current) ≤ distance m.current x := by
    by_cases same : t = m.current
    · rwa [← same]
    · refine Nat.le_trans ?_ (apart same)
      cases frames : m.frames m.current with
      | nil => exact Nat.le_refl _
      | cons f rest =>
          have saved := sound.frames m.current (.inr rfl)
          rw [frames] at saved
          obtain ⟨-, room⟩ := saved.1.room 0
          exact Nat.le_trans (Nat.le_add_right _ _) room
  cases label with
  | work regs mem =>
      obtain ⟨-, -, -, spares⟩ := enabled
      refine spares.1 t x (.inl live) ?_ below
      by_cases same : t = m.current
      · rwa [Machine.guardedFrom, if_pos same]
      · have waits := (sound.parked t live same).below
        rw [Machine.guardedFrom, if_neg same]
        omega
  | interrupt vec =>
      exact sound.enter_keeps (vectorEntry_entered m.toCpu m.esp0 vec sym)
        (vectorEntry_canEnter enabled) own
  | syscall =>
      exact sound.enter_keeps (syscallEntry_entered m.toCpu m.esp0 sym)
        (syscallEntry_canEnter enabled) own
  | returnInterrupt =>
      obtain ⟨f, rest, -, returns⟩ := sound.exec_returnInterrupt enabled
      rw [returns]
      rfl
  | returnSyscall =>
      obtain ⟨f, rest, frames, returns⟩ := sound.exec_returnSyscall enabled
      have saved := sound.frames m.current (.inr rfl)
      rw [frames] at saved
      have slot := saved.1.slot_lt
      have outside := apart (result trivial).symm
      rw [returns]
      refine Function.update_of_ne ?_ _ _
      rintro rfl
      exact absurd slot (Nat.not_lt_of_le outside)
  | switch next back =>
      rw [exec_switch_mem enabled]
      have free := enabled.2.2.2.2
      have first := ceiling_le_savedFrom m.current (m.frames m.current)
      exact parkedMem_keeps enabled (by omega)
  | spawn pthread function funcArg words isUser =>
      have other := ne_fresh live enabled.2
      simp only [exec]
      exact threadCreate_keeps words function funcArg
        (distance_apart aligned enabled.2.1 other below)
  | fork child words =>
      have other := ne_fresh live enabled.2.1
      have outside := distance_apart aligned enabled.2.1.1 other below
      have copied : copyPage m.mem child m.current words x = m.mem x :=
        if_neg (Nat.not_lt_of_le outside)
      simp only [exec]
      exact (buildChildStack_keeps outside).trans copied
  | startProcess function userStack =>
      have frames := enabled.2.2.2.1
      rw [frames] at own
      rw [exec_startProcess enabled]
      simp only [Machine.withCpu]
      exact startProcess_keeps (c := m.toCpu) enabled.2.2.2.2 own
  | execv argv argc entryPoint =>
      obtain ⟨f, -, -, begins⟩ := sound.exec_execv enabled
      have outside := apart (result trivial).symm
      have kept : (sysExecv m.toCpu m.current argv argc entryPoint).mem x = m.mem x :=
        sysExecv_keeps outside
      rw [begins]
      simp only [Machine.leave]
      exact kept
  | retire task => rfl

/-- No system call is made while an entry from the kernel waits. -/
theorem FramesSound.not_syscall {inner : List Frame} {g : Frame}
    (sound : FramesSound m t (inner ++ f :: outer)) (kernel : level f.saved.cs = 0)
    (frames : inner ++ f :: outer = g :: rest) : g.kind ≠ .syscall := by
  intro kind
  rw [frames] at sound
  obtain ⟨user, none, -, -⟩ := sound.1.of_syscall kind
  rw [none] at frames
  cases inner with
  | nil =>
      rw [← (List.cons.inj frames).1] at user
      exact user kernel
  | cons h inner => exact absurd (List.cons.inj frames).2 (by simp)

/-- A step that ends a system call finds the entry of the call innermost. -/
theorem ends_syscall (enabled : Enabled sym m label) (ends : label.EndsSyscall) :
    ∃ g rest, m.frames m.current = g :: rest ∧ g.kind = .syscall := by
  cases label with
  | returnSyscall =>
      obtain ⟨-, -, g, rest, frames, kind, -⟩ := enabled
      exact ⟨g, rest, frames, kind⟩
  | execv argv argc entryPoint =>
      obtain ⟨-, g, frames, kind⟩ := enabled
      exact ⟨g, [], frames, kind⟩
  | _ => exact absurd ends id

/-- While an entry from the kernel waits, the stack above what it has saved stays as it is. -/
theorem stack_of_run (reachable : (machine sym).Reachable m₁) (live : t ∈ m₁.live)
    (first : m₁.frames t = f :: outer) (kernel : level f.saved.cs = 0)
    (above : distance t f.base + 4 ≤ distance t x) (below : distance t x < pgSize)
    (handled : ((machine sym).under (Inside t outer.length)).Steps m₁ labels m₂) :
    m₂.mem x = m₁.mem x := by
  have kept : Waits t f outer m₂ ∧ m₂.mem x = m₁.mem x := by
    refine TransitionSystem.Steps.invariant (fun m => Waits t f outer m ∧ m.mem x = m₁.mem x)
      reachable ⟨⟨live, fun _ => ⟨[], first⟩⟩, rfl⟩ ?_ handled
    rintro m label - reached ⟨waits, same⟩ inside ⟨enabled, rfl⟩
    refine ⟨waits.step inside enabled, ?_⟩
    have sound := sound_of_reachable reached
    obtain ⟨inner, frames⟩ := waits.2 inside.1
    have saved := sound.frames t (.inl waits.1)
    rw [frames] at saved
    obtain ⟨-, low⟩ := saved.append
    rw [← same]
    refine sound.exec_keeps enabled waits.1 ?_ ?_ below
    · rintro ends rfl
      obtain ⟨g, rest, innermost, kind⟩ := ends_syscall enabled ends
      exact saved.not_syscall kernel (frames.symm.trans innermost) kind
    · rw [frames]
      exact Nat.le_trans low above
  exact kept.2

theorem alone_of_append {g : Frame} {inner : List Frame} (same : [g] = inner ++ [f]) : g = f := by
  cases inner with
  | nil => exact (List.cons.inj same).1
  | cons h inner => exact absurd (List.cons.inj same).2 (by simp)

/-- The return from an entry that has waited since an earlier state. -/
theorem interrupt_result (reachable : (machine sym).Reachable m₁) (live : t ∈ m₁.live)
    (first : m₁.frames t = f :: outer)
    (handled : ((machine sym).under (Inside t outer.length)).Steps m₁ labels m₂)
    (last : (m₂.frames t).length = outer.length + 1) (now : m₂.current = t)
    (returns : (machine sym).step m₂ .returnInterrupt m₃) :
    m₃.toRegisters = f.saved ∧ m₃.mem = m₂.mem := by
  have frames := frames_of_run_last reachable live first handled last
  have sound := sound_of_reachable (handled.of_under.reachable reachable)
  obtain ⟨enabled, rfl⟩ := returns
  obtain ⟨g, rest, innermost, leaves⟩ := sound.exec_returnInterrupt enabled
  rw [now, frames] at innermost
  obtain ⟨rfl, rfl⟩ := List.cons.inj innermost
  rw [leaves]
  exact ⟨rfl, rfl⟩

/-- The end of a system call that was made before an earlier state. -/
theorem syscall_entry (reachable : (machine sym).Reachable m₁) (live : t ∈ m₁.live)
    (first : m₁.frames t = [f])
    (handled : ((machine sym).under (Inside t 0)).Steps m₁ labels m₂) (now : m₂.current = t)
    {g : Frame} (innermost : m₂.frames m₂.current = g :: rest) (kind : g.kind = .syscall) :
    g = f := by
  have waits := waits_of_run reachable live first handled
  have sound := sound_of_reachable (handled.of_under.reachable reachable)
  have saved := sound.frames m₂.current (.inr rfl)
  rw [innermost] at saved
  -- only a user program makes system calls, so that no other entry waits
  obtain ⟨-, alone, -, -⟩ := saved.1.of_syscall kind
  rw [now, alone] at innermost
  obtain ⟨inner, frames⟩ := waits.2 (by rw [innermost]; exact Nat.zero_lt_one)
  rw [innermost] at frames
  exact alone_of_append frames

/-- The return from a system call that was made before an earlier state. -/
theorem syscall_result (reachable : (machine sym).Reachable m₁) (live : t ∈ m₁.live)
    (first : m₁.frames t = [f])
    (handled : ((machine sym).under (Inside t 0)).Steps m₁ labels m₂) (now : m₂.current = t)
    (returns : (machine sym).step m₂ .returnSyscall m₃) :
    m₃.toRegisters = setEax f.saved (m₂.gpr .eax) := by
  have sound := sound_of_reachable (handled.of_under.reachable reachable)
  obtain ⟨enabled, rfl⟩ := returns
  obtain ⟨g, rest, innermost, leaves⟩ := sound.exec_returnSyscall enabled
  obtain ⟨-, -, g', rest', innermost', kind, -⟩ := enabled
  rw [innermost] at innermost'
  obtain ⟨rfl, rfl⟩ := List.cons.inj innermost'
  rw [leaves, syscall_entry reachable live first handled now innermost kind]
  rfl

/-- What an interrupt leaves. -/
theorem Sound.exec_interrupt_frame {vec : Word} (sound : Sound m)
    (enabled : Enabled sym m (.interrupt vec)) : ∃ f,
      (exec sym m (.interrupt vec)).frames m.current = f :: m.frames m.current ∧
      f.saved = m.toRegisters ∧
      (m.InKernel → distance m.current f.base + 68 = distance m.current (m.gpr .esp) ∧
        ∀ x, distance m.current (m.gpr .esp) ≤ distance m.current x →
          (exec sym m (.interrupt vec)).mem x = m.mem x) := by
  have entered := vectorEntry_entered m.toCpu m.esp0 vec sym
  have can := vectorEntry_canEnter enabled
  rw [exec_interrupt]
  refine ⟨_, Function.update_self _ _ _, rfl, fun inKernel => ?_⟩
  obtain ⟨-, -, place, -, -⟩ := (sound.enter_frame entered can).ofKernel inKernel
  obtain ⟨room, -⟩ := sound.entryStack_distance can
  refine ⟨place, fun x above => entered.keeps room ?_⟩
  rwa [entryStack_esp_of_kernel inKernel]

/-- What a system call leaves. -/
theorem Sound.exec_syscall_frame (sound : Sound m) (enabled : Enabled sym m .syscall) : ∃ f,
    (exec sym m .syscall).frames m.current = [f] ∧ f.saved = m.toRegisters := by
  rw [exec_syscall]
  refine ⟨⟨.syscall, entryBase (m.accepted.run (syscallEntry sym))
    [0x80, m.gpr .edx, m.gpr .ecx, m.gpr .ebx, sym.syscallBack], m.toRegisters⟩, ?_, rfl⟩
  simp only [Machine.enter, Function.update_self, (sound.user enabled).1]

/-- **Interrupts are invisible.** When the handler of an interrupt has returned, the interrupted
code has all its registers again and, in the kernel, its stack, whatever has run in between: the
handler, entries inside it and other tasks. -/
theorem interrupt_invisible {vec : Word} (reachable : (machine sym).Reachable m)
    (live : m.current ∈ m.live) (interrupts : (machine sym).step m (.interrupt vec) m₁)
    (handled : ((machine sym).under (Inside m.current (m.frames m.current).length)).Steps m₁
      labels m₂)
    (last : (m₂.frames m.current).length = (m.frames m.current).length + 1)
    (now : m₂.current = m.current) (returns : (machine sym).step m₂ .returnInterrupt m₃) :
    m₃.toRegisters = m.toRegisters ∧
      (m.InKernel → ∀ x, distance m.current (m.gpr .esp) ≤ distance m.current x →
        distance m.current x < pgSize → m₃.mem x = m.mem x) := by
  have next := reachable.step _ interrupts
  obtain ⟨enabled, rfl⟩ := interrupts
  obtain ⟨f, first, saved, ofKernel⟩ := (sound_of_reachable reachable).exec_interrupt_frame enabled
  have alive := exec_live sym (.interrupt vec) live (by simp)
  obtain ⟨registers, mem⟩ := interrupt_result next alive first handled last now returns
  refine ⟨registers.trans saved, fun inKernel x above below => ?_⟩
  obtain ⟨place, stays⟩ := ofKernel inKernel
  have kernel : level f.saved.cs = 0 := by
    rw [saved]
    exact inKernel
  rw [mem, stack_of_run next alive first kernel (by omega) below handled]
  exact stays x above

/-- The clock has interrupted `main`, and its handler has returned. -/
def interrupted : Machine := exec smallSymbols (mainMachine fun _ => 0) (.interrupt 0x20)

def handled : Machine :=
  exec smallSymbols interrupted (.work (calledBack interrupted 0xc0001200 0) interrupted.mem)

theorem handled_step : (machine smallSymbols).step interrupted
    (.work (calledBack interrupted 0xc0001200 0) interrupted.mem) handled :=
  takes (enabled_work rfl rfl fun _ => by decide)

theorem interrupt_invisible_main :
    (exec smallSymbols handled .returnInterrupt).toRegisters =
      (mainMachine fun _ => 0).toRegisters :=
  (interrupt_invisible (mainMachine_reachable _) (by decide)
    (takes ⟨by decide, fun _ => by decide⟩ : (machine smallSymbols).step _ (.interrupt 0x20)
      interrupted)
    (.snoc _ .nil ⟨⟨by decide, by simp⟩, handled_step⟩) (by decide)
    (by decide)
    (takes ⟨by decide, .inl (by decide),
      innermost_of_any (by decide)⟩)).1

/-- A process on the page behind the first, in user mode. -/
def withProcess (mem : Word → Word) : Machine :=
  exec smallSymbols (mainMachine mem) (.spawn 0xc0100000 0xc0001600 0xc0001900 (fun _ => 0) true)

def inProcess (mem : Word → Word) : Machine :=
  exec smallSymbols (withProcess mem) (.switch 0xc0100000 0xc0001700)

def userMachine (mem : Word → Word) : Machine :=
  exec smallSymbols (inProcess mem) (.startProcess 0x08048000 0xbffff000)

theorem userMachine_reachable {mem : Word → Word}
    (process : Enabled smallSymbols (mainMachine mem)
      (.spawn 0xc0100000 0xc0001600 0xc0001900 (fun _ => 0) true))
    (switches : Enabled smallSymbols (withProcess mem) (.switch 0xc0100000 0xc0001700))
    (starts : Enabled smallSymbols (inProcess mem) (.startProcess 0x08048000 0xbffff000)) :
    (machine smallSymbols).Reachable (userMachine mem) :=
  (((mainMachine_reachable _).step _ (takes process)).step _ (takes switches)).step _ (takes starts)

theorem userMachine_reachable_zero : (machine smallSymbols).Reachable (userMachine fun _ => 0) :=
  userMachine_reachable ⟨by decide, by decide⟩
    ⟨by decide, by decide, by decide⟩
    ⟨by decide, by decide, by decide, rfl, by decide⟩

/-- The process has made a system call, and the kernel's function has returned 5. -/
def called : Machine := exec smallSymbols (userMachine fun _ => 0) .syscall

def served : Machine := exec smallSymbols called (.work (calledBack called 0xc0001300 5) called.mem)

/-- The system call was `fork`. -/
def forked : Machine := exec smallSymbols called (.fork 0xc0200000 fun _ => 0)

def parentServed : Machine :=
  exec smallSymbols forked (.work (calledBack forked 0xc0001300 5) forked.mem)

def inChild : Machine := exec smallSymbols forked (.switch 0xc0200000 0xc0001700)

/-- What the runs of the process need. -/
theorem served_enabled :
    (served.InKernel ∧ served.eip = smallSymbols.syscallBack ∧
      (served.frames served.current).head?.any (fun f =>
        decide (f.kind = .syscall ∧ served.gpr .esp = f.base - 12)) = true) ∧
    (forked.HasRoom (calledBack forked 0xc0001300 5) 4 ∧ forked.InKernel ∧
      (0xc0200000 : TaskId) ∈ forked.live ∧ forked.HasRoom forked.toRegisters 36) ∧
    (parentServed.InKernel ∧ parentServed.eip = smallSymbols.syscallBack ∧
      (parentServed.frames parentServed.current).head?.any (fun f =>
        decide (f.kind = .syscall ∧ parentServed.gpr .esp = f.base - 12)) = true) ∧
    (inChild.InKernel ∧ inChild.eip = smallSymbols.intrExit ∧
      (inChild.frames inChild.current).head?.any (fun f =>
        decide (f.kind = .interrupt ∧ inChild.gpr .esp = f.base)) = true) := by
  decide +kernel

theorem called_step : (machine smallSymbols).step (userMachine fun _ => 0) .syscall called :=
  takes (by decide : ¬ (userMachine fun _ => 0).InKernel)

/-- The system call was `execv`, and the program is loaded. -/
def begun : Machine := exec smallSymbols called (.execv 0xbfffff00 2 0x08049000)

/-- **Forking.** A system call in which the task forks returns in both tasks, each in its own time:
in the parent with the result of the kernel, in the child with zero, and with all other registers as
they were at the call. -/
theorem fork_returns_twice {child : TaskId} {words : Word → Word}
    (reachable : (machine sym).Reachable m) (live : m.current ∈ m.live)
    (calls : (machine sym).step m .syscall m₁)
    (body : ((machine sym).under (Inside m.current 0)).Steps m₁ labels m₂)
    (now : m₂.current = m.current) (forks : (machine sym).step m₂ (.fork child words) m₃) :
    (∀ labels m₄ m₅, ((machine sym).under (Inside m.current 0)).Steps m₃ labels m₄ →
      m₄.current = m.current → (machine sym).step m₄ .returnSyscall m₅ →
      m₅.toRegisters = setEax m.toRegisters (m₄.gpr .eax)) ∧
    (∀ labels m₄ m₅, ((machine sym).under (Inside child 0)).Steps m₃ labels m₄ →
      m₄.current = child → (m₄.frames child).length = 1 →
      (machine sym).step m₄ .returnInterrupt m₅ → m₅.toRegisters = setEax m.toRegisters 0) := by
  have called := reachable.step _ calls
  obtain ⟨callable, rfl⟩ := calls
  obtain ⟨f, first, saved⟩ := (sound_of_reachable reachable).exec_syscall_frame callable
  have alive := exec_live sym .syscall live (by simp)
  have waits := waits_of_run called alive first body
  have forked := (body.of_under.reachable called).step _ forks
  obtain ⟨forkable, rfl⟩ := forks
  obtain ⟨-, fresh, g, single, -⟩ := forkable
  have own : m₂.frames m.current = [f] := by
    rw [now] at single
    obtain ⟨inner, frames⟩ := waits.2 (by rw [single]; exact Nat.zero_lt_one)
    rw [single, alone_of_append (single.symm.trans frames)]
  have apart : m.current ≠ child := ne_fresh waits.1 fresh
  have ownAfter : (exec sym m₂ (.fork child words)).frames m.current = [f] :=
    (Function.update_of_ne apart _ _).trans own
  have childAfter : (exec sym m₂ (.fork child words)).frames child =
      [⟨.interrupt, topFrame child, setEax f.saved 0⟩] := by
    simp only [exec, now, own, Function.update_self, List.map_cons, List.map_nil]
  constructor
  · intro labels m₄ m₅ handled now' returns
    rw [← saved]
    exact syscall_result forked (List.mem_cons_of_mem _ waits.1) ownAfter handled now' returns
  · intro labels m₄ m₅ handled now' last returns
    rw [← saved]
    exact (interrupt_result forked (List.mem_cons_self ..) childAfter handled last now' returns).1

theorem forked_step : (machine smallSymbols).step called (.fork 0xc0200000 fun _ => 0) forked :=
  takes ⟨by decide, by decide, _, rfl, rfl⟩

theorem parentServed_step : (machine smallSymbols).step forked
    (.work (calledBack forked 0xc0001300 5) forked.mem) parentServed :=
  takes (enabled_work rfl rfl fun _ => served_enabled.2.1.1)

theorem inChild_step :
    (machine smallSymbols).step forked (.switch 0xc0200000 0xc0001700) inChild :=
  takes served_enabled.2.1.2

theorem fork_returns_five_and_zero :
    (exec smallSymbols parentServed .returnSyscall).toRegisters =
        setEax (userMachine fun _ => 0).toRegisters (parentServed.gpr .eax) ∧
      (exec smallSymbols inChild .returnInterrupt).toRegisters =
        setEax (userMachine fun _ => 0).toRegisters 0 :=
  have twice := fork_returns_twice userMachine_reachable_zero (by decide) called_step .nil
    (by decide) forked_step
  have parent := served_enabled.2.2.1
  have child := served_enabled.2.2.2
  ⟨twice.1 _ _ _ (.snoc _ .nil ⟨⟨by decide, by simp⟩, parentServed_step⟩)
      (by decide)
      (takes ⟨parent.1, parent.2.1, innermost_of_any parent.2.2⟩),
    twice.2 _ _ _ (.snoc _ .nil ⟨⟨by decide, by simp⟩, inChild_step⟩)
      (by decide) (by decide)
      (takes ⟨child.1, .inr child.2.1, innermost_of_any child.2.2⟩)⟩

/-! ## Beginnings -/

/-- What a new thread finds: `kernel_thread` is called with the thread's function and its argument,
from nowhere. -/
structure Begins (sym : Symbols) (function funcArg : Word) (m : Machine) : Prop where
  inKernel : m.InKernel
  eip : m.eip = sym.kernelThread
  function : m.mem (m.gpr .esp + 4) = function
  funcArg : m.mem (m.gpr .esp + 8) = funcArg
  ebp : m.gpr .ebp = 0
  ebx : m.gpr .ebx = 0
  edi : m.gpr .edi = 0
  esi : m.gpr .esi = 0

/-- **New threads.** When a thread gets the processor for the first time, it calls its function,
whatever has happened since it was made. -/
theorem thread_begins {pthread : TaskId} {function funcArg : Word} {words : Word → Word}
    {isUser : Bool} (reachable : (machine sym).Reachable m)
    (spawns : (machine sym).step m (.spawn pthread function funcArg words isUser) m₁)
    (others : ((machine sym).under (Waiting pthread)).Steps m₁ labels m₂)
    (now : m₂.current = pthread) : Begins sym function funcArg m₂ := by
  have next := reachable.step _ spawns
  obtain ⟨⟨-, fresh⟩, rfl⟩ := spawns
  obtain ⟨-, holds⟩ := threadCreate_words sym m.mem pthread words function funcArg
  have mem : (exec sym m (.spawn pthread function funcArg words isUser)).mem =
      threadCreate sym (initThread m.mem pthread words) pthread function funcArg := by
    simp only [exec]
  have record : (exec sym m (.spawn pthread function funcArg words isUser)).parked pthread =
      ⟨freshRegisters m.toRegisters (pthread + 3684) sym.kernelThread,
        threadCreate sym (initThread m.mem pthread words) pthread function funcArg⟩ :=
    Function.update_self _ _ _
  have notYet : (exec sym m (.spawn pthread function funcArg words isUser)).current ≠ pthread := by
    rintro same
    rw [exec_current] at same
    exact fresh.2 (.inr same.symm)
  have resumes := resumes_of_run next (List.mem_cons_self ..) record
    (fun same => absurd same notYet) others now
  have esp : m₂.gpr .esp = pthread + 3684 := resumes.esp
  obtain ⟨-, -, -, -, -, -, atFunction, atArg, -⟩ := holds
  simp only [BitVec.add_assoc, BitVec.reduceAdd] at atFunction atArg
  have stays : ∀ k : Nat, 3684 ≤ k → k < pgSize →
      m₂.mem (pthread + BitVec.ofNat 32 k) =
        threadCreate sym (initThread m.mem pthread words) pthread function funcArg
          (pthread + BitVec.ofNat 32 k) := by
    intro k above below
    have place : distance pthread (pthread + BitVec.ofNat 32 k) = k :=
      distance_base_add (by unfold pgSize at below; omega)
    have top : distance pthread (pthread + BitVec.ofNat 32 3684) = 3684 :=
      distance_base_add (by decide)
    refine resumes.stack _ ?_ (by omega)
    change distance pthread (pthread + BitVec.ofNat 32 3684) ≤ _
    omega
  constructor
  · exact resumes.inKernel
  · exact resumes.eip
  · rw [esp, BitVec.add_assoc]
    exact (stays 3688 (by decide) (by decide)).trans atFunction
  · rw [esp, BitVec.add_assoc]
    exact (stays 3692 (by decide) (by decide)).trans atArg
  · exact resumes.ebp
  · exact resumes.ebx
  · exact resumes.edi
  · exact resumes.esi

theorem thread_begins_inThread : Begins smallSymbols 0xc0001600 7 inThread :=
  thread_begins (mainMachine_reachable _) withThread_step
    (.snoc _ .nil ⟨⟨by decide, by simp⟩, inThread_step⟩) (by decide)

end UKernel.Contexts
