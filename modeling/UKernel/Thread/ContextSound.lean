import UKernel.Thread.ContextMachine

/-! # No task loses its registers

Every step keeps the agreement between the memory and the records of what was interrupted and of
where tasks have left off (`UKernel.Contexts.sound_of_reachable`).
-/

namespace UKernel.Contexts

open UKernel.Library UKernel.Library.Cpu

variable {sym : Symbols} {m m' : Machine} {t u : TaskId} {x : Word} {f : Frame}
  {fs rest : List Frame} {mem : Word → Word}

/-! ## Pages -/

/-- No address lies in two pages. -/
theorem distance_apart (aligned : Aligned t) (aligned' : Aligned u) (other : t ≠ u)
    (inside : distance t x < pgSize) : pgSize ≤ distance u x := by
  have different : t.toNat ≠ u.toNat := fun same => other (BitVec.eq_of_toNat_eq same)
  unfold Aligned distance pgSize at *
  rw [BitVec.toNat_sub] at *
  have := t.isLt
  have := u.isLt
  have := x.isLt
  omega

/-! ## What the entries have saved -/

namespace FrameSound

/-- What an entry has saved lies in the page. -/
theorem room (sound : FrameSound m t f rest) (espDummy : Word) :
    distance t (f.base + 4) = distance t f.base + 4 ∧
      distance t f.base + 4 + 4 * (savedWords espDummy 0 f.saved).length ≤ pgSize := by
  have small := distance_lt t f.base
  by_cases kernel : level f.saved.cs = 0
  · obtain ⟨-, -, -, inside, -⟩ := sound.ofKernel kernel
    rw [savedWords_length_of_kernel kernel]
    unfold pgSize at *
    exact ⟨distance_add (k := 4) (by omega), by omega⟩
  · obtain ⟨-, -, place⟩ := sound.ofUser kernel
    have top : distance t f.base = 4020 := by rw [place, distance_topFrame]
    rw [savedWords_length_of_user kernel]
    unfold pgSize
    exact ⟨distance_add (k := 4) (by omega), by omega⟩

theorem savedFrom_le (sound : FrameSound m t f rest) :
    savedFrom t (f :: rest) ≤ savedFrom t rest := by
  by_cases kernel : level f.saved.cs = 0
  · obtain ⟨-, -, -, inside, below⟩ := sound.ofKernel kernel
    cases rest with
    | nil =>
        simp only [savedFrom]
        omega
    | cons g rest =>
        simp only [savedFrom, ceiling] at *
        omega
  · obtain ⟨none, -, place⟩ := sound.ofUser kernel
    have top : distance t f.base = 4020 := by rw [place, distance_topFrame]
    rw [none]
    simp only [savedFrom, top, pgSize]
    decide

theorem keep (sound : FrameSound m t f rest) (isUser : m'.isUser t = m.isUser t)
    (same : ∀ x, savedFrom t (f :: rest) ≤ distance t x → distance t x < pgSize →
      m'.mem x = m.mem x) : FrameSound m' t f rest := by
  obtain ⟨espDummy, holds⟩ := sound.holds
  obtain ⟨start, fits⟩ := sound.room espDummy
  refine ⟨sound.low, ⟨espDummy, ?_⟩, sound.ofKernel, ?_⟩
  · refine Holds.keep holds t pgSize (by omega) (by decide) ?_
    intro x above below
    exact same x (by rw [savedFrom]; omega) below
  · intro user
    rw [isUser]
    exact sound.ofUser user

end FrameSound

theorem FramesSound.keep (sound : FramesSound m t fs) (isUser : m'.isUser t = m.isUser t)
    (same : ∀ x, savedFrom t fs ≤ distance t x → distance t x < pgSize → m'.mem x = m.mem x) :
    FramesSound m' t fs := by
  induction fs with
  | nil => trivial
  | cons f rest ih =>
      obtain ⟨first, others⟩ := sound
      refine ⟨first.keep isUser same, ih others fun x above below => same x ?_ below⟩
      exact Nat.le_trans first.savedFrom_le above

theorem ceiling_le_savedFrom (t : TaskId) (fs : List Frame) : ceiling t fs ≤ savedFrom t fs := by
  cases fs with
  | nil => exact Nat.le_refl _
  | cons f rest => exact Nat.le_add_right _ _

theorem ParkedSound.keep (sound : ParkedSound m t) (frames : m'.frames t = m.frames t)
    (parked : m'.parked t = m.parked t) (kstack : m'.mem t = m.mem t)
    (same : ∀ x, distance t (m.mem t) ≤ distance t x → distance t x < pgSize →
      m'.mem x = m.mem x) : ParkedSound m' t := by
  have high := sound.high
  constructor
  · rw [kstack]
    exact sound.low
  · rw [kstack]
    exact sound.high
  · rw [kstack, frames]
    exact sound.below
  · rw [kstack, parked]
    exact sound.esp
  · rw [kstack, parked]
    refine Holds.keep sound.holds t pgSize ?_ (by decide) same
    simp only [List.length_cons, List.length_nil]
    omega
  · rw [kstack, parked]
    intro x above below
    rw [same x (by omega) below]
    exact sound.stack x above below

/-! ## Steps of the current task -/

/-- The words that the other tasks go on with are as they were. -/
def SparesOthers (m : Machine) (mem : Word → Word) : Prop :=
  ∀ t ∈ m.live, t ≠ m.current → mem t = m.mem t ∧
    ∀ x, distance t (m.mem t) ≤ distance t x → distance t x < pgSize → mem x = m.mem x

theorem Machine.Spares.others (spares : m.Spares mem) : SparesOthers m mem := by
  intro t live other
  refine ⟨spares.2 t live, fun x above below => spares.1 t x (.inl live) ?_ below⟩
  rw [Machine.guardedFrom, if_neg other]
  exact above

/-- Writing into the current task's page touches no other task. -/
theorem Sound.spares_of_page (sound : Sound m)
    (same : ∀ x, pgSize ≤ distance m.current x → mem x = m.mem x) : SparesOthers m mem := by
  intro t live other
  have apart : ∀ x, distance t x < pgSize → mem x = m.mem x := fun x inside => same x <|
    distance_apart (sound.aligned t (.inl live)) (sound.aligned _ (.inr rfl)) other inside
  refine ⟨apart t ?_, fun x _ below => apart x below⟩
  rw [distance_self]
  decide

/-- A step in which the current task stays the same, and the other tasks. -/
theorem Sound.of_current (sound : Sound m) (current : m'.current = m.current)
    (live : m'.live = m.live) (isUser : m'.isUser = m.isUser) (esp0 : m'.esp0 = m.esp0)
    (parked : m'.parked = m.parked) (frames : ∀ t ≠ m.current, m'.frames t = m.frames t)
    (others : SparesOthers m m'.mem)
    (own : FramesSound m' m.current (m'.frames m.current))
    (kernel : m'.InKernel → m'.HasRoom m'.toRegisters 4 ∧ m'.ss = selectorKStack)
    (user : ¬ m'.InKernel → m'.frames m.current = [] ∧ m.isUser m.current = true) : Sound m' := by
  have inUse : ∀ t, m'.InUse t ↔ m.InUse t := fun t => by
    rw [Machine.InUse, Machine.InUse, live, current]
  constructor
  · intro t used
    exact sound.aligned t ((inUse t).mp used)
  · intro t used
    by_cases same : t = m.current
    · rw [same]
      exact own
    · have alive : t ∈ m.live := ((inUse t).mp used).resolve_right same
      rw [frames t same]
      refine (sound.frames t ((inUse t).mp used)).keep (by rw [isUser]) fun x above below => ?_
      refine (others t alive same).2 x ?_ below
      have := (sound.parked t alive same).below
      have := ceiling_le_savedFrom t (m.frames t)
      omega
  · rw [live, current]
    intro t alive other
    exact (sound.parked t alive other).keep (frames t other) (by rw [parked])
      (others t alive other).1 (others t alive other).2
  · exact kernel
  · rw [current, isUser]
    exact user
  · rw [current, isUser, esp0]
    exact sound.activated

/-- Compiled code that keeps to its stack. -/
theorem Sound.work {regs : Registers} (sound : Sound m)
    (enabled : Enabled sym m (.work regs mem)) : Sound (exec sym m (.work regs mem)) := by
  obtain ⟨cs, ss, room, spares⟩ := enabled
  have level : (exec sym m (.work regs mem)).InKernel ↔ m.InKernel := by
    simp only [exec, Machine.withCpu, Machine.InKernel, cs]
  refine sound.of_current rfl rfl rfl rfl rfl (fun _ _ => rfl) spares.others ?_ ?_ ?_
  · refine (sound.frames _ (.inr rfl)).keep rfl fun x above below => ?_
    refine spares.1 m.current x (.inr rfl) ?_ below
    rw [Machine.guardedFrom, if_pos rfl]
    exact above
  · intro kernel
    exact ⟨room (level.mp kernel), ss.trans (sound.kernel (level.mp kernel)).2⟩
  · intro user
    exact sound.user fun kernel => user (level.mpr kernel)

/-! ## Entries -/

/-- An entry can save what it interrupts: within the kernel below the stack pointer, and for a user
program at the end of the task's page. -/
structure CanEnter (m : Machine) (kind : FrameKind) (args : List Word) : Prop where
  some : args ≠ []
  few : args.length ≤ 5
  kernel : m.InKernel → m.HasRoom m.toRegisters 84 ∧ args.length ≤ 3 ∧ kind = .interrupt

theorem entryStack_esp_of_kernel {c : Cpu} {esp0 : Word} (kernel : level c.cs = 0) :
    (entryStack c esp0).gpr .esp = c.gpr .esp := by
  simp only [entryStack, Function.update_self]
  exact if_pos kernel

theorem Sound.entryStack_esp_of_user (sound : Sound m) (user : ¬ m.InKernel) :
    (entryStack m.toCpu m.esp0).gpr .esp = m.current + 4096 := by
  simp only [entryStack, Function.update_self]
  rw [sound.activated (sound.user user).2]
  exact if_neg user

/-- Where the `struct intr_stack` of an entry lies. -/
def entryBase (c : Cpu) (args : List Word) : Word :=
  c.gpr .esp + BitVec.ofNat 32 (4 * (args.length - 1))

section Enter

variable {args : List Word} {c : Cpu} {kind : FrameKind} (sound : Sound m)
  (entered : Entered m.toCpu m.esp0 args c) (can : CanEnter m kind args)

include sound can

/-- The stack that an entry begins on has room for what the entry saves. -/
theorem Sound.entryStack_distance :
    4 * (18 + args.length) ≤ distance m.current ((entryStack m.toCpu m.esp0).gpr .esp) ∧
      distance m.current ((entryStack m.toCpu m.esp0).gpr .esp) ≤ pgSize := by
  have few := can.few
  by_cases inKernel : m.InKernel
  · obtain ⟨⟨room, inside, -⟩, short, -⟩ := can.kernel inKernel
    rw [entryStack_esp_of_kernel inKernel]
    exact ⟨by omega, by omega⟩
  · rw [sound.entryStack_esp_of_user inKernel, distance_end]
    unfold pgSize
    exact ⟨by omega, by omega⟩

include entered

theorem Sound.entered_place : ∃ espDummy, 8 ≤ distance m.current (c.gpr .esp) ∧
    (m.InKernel → distance m.current (c.gpr .esp) + 4 * args.length + 64 =
      distance m.current (m.gpr .esp)) ∧
    (¬ m.InKernel → distance m.current (c.gpr .esp) + 4 * args.length + 72 = pgSize) ∧
    distance m.current (entryBase c args) + 4 = distance m.current (c.gpr .esp) + 4 * args.length ∧
    Holds c.mem (entryBase c args + 4) (savedWords espDummy 0 m.toRegisters) := by
  obtain ⟨room, top⟩ := sound.entryStack_distance can
  obtain ⟨espDummy, place, holds⟩ := entered.saved room top
  have count := List.length_pos_iff.mpr can.some
  have few := can.few
  have base : distance m.current (entryBase c args) =
      distance m.current (c.gpr .esp) + 4 * (args.length - 1) :=
    distance_add (by unfold pgSize at top; omega)
  have next : entryBase c args + 4 = c.gpr .esp + BitVec.ofNat 32 (4 * args.length) := by
    rw [entryBase, BitVec.add_assoc]
    congr 1
    bv_omega
  rw [← next] at holds
  refine ⟨espDummy, ?_, fun inKernel => ?_, fun user => ?_, by omega, holds⟩
  · by_cases inKernel : m.InKernel
    · obtain ⟨⟨deep, -, -⟩, short, -⟩ := can.kernel inKernel
      rw [entryStack_esp_of_kernel inKernel, savedWords_length_of_kernel inKernel] at place
      omega
    · rw [sound.entryStack_esp_of_user inKernel, savedWords_length_of_user inKernel,
        distance_end] at place
      unfold pgSize at place
      omega
  · rwa [entryStack_esp_of_kernel inKernel, savedWords_length_of_kernel inKernel] at place
  · rwa [sound.entryStack_esp_of_user user, savedWords_length_of_user user, distance_end] at place

/-- What an entry has saved. -/
theorem Sound.enter_frame : FrameSound (m.enter kind c (entryBase c args)) m.current
    ⟨kind, entryBase c args, m.toRegisters⟩ (m.frames m.current) := by
  obtain ⟨espDummy, low, ofKernel, ofUser, base, holds⟩ := sound.entered_place entered can
  have count := List.length_pos_iff.mpr can.some
  refine ⟨?_, ⟨espDummy, holds⟩, fun inKernel => ?_, fun user => ?_⟩
  · change 8 ≤ distance m.current (entryBase c args)
    omega
  · obtain ⟨⟨-, inside, free⟩, -, interrupt⟩ := can.kernel inKernel
    have place := ofKernel inKernel
    refine ⟨interrupt, (sound.kernel inKernel).2, ?_, ?_, ?_⟩
    · change distance m.current (entryBase c args) + 68 = distance m.current (m.gpr .esp)
      omega
    · change distance m.current (entryBase c args) + 68 < pgSize
      omega
    · change distance m.current (entryBase c args) + 68 ≤ ceiling m.current (m.frames m.current)
      omega
  · obtain ⟨none, isUser⟩ := sound.user user
    have place := ofUser user
    refine ⟨none, isUser, distance_inj m.current ?_⟩
    rw [distance_topFrame]
    unfold pgSize at place
    change distance m.current (entryBase c args) = 4020
    omega

/-- An entry saves what it interrupts, and calls its function with room on the stack. -/
theorem Sound.enter : Sound (m.enter kind c (entryBase c args)) := by
  obtain ⟨room, top⟩ := sound.entryStack_distance can
  obtain ⟨espDummy, low, ofKernel, ofUser, base, -⟩ := sound.entered_place entered can
  have same : ∀ x, distance m.current ((entryStack m.toCpu m.esp0).gpr .esp) ≤
      distance m.current x → c.mem x = m.mem x := fun x => entered.keeps room
  have own : (m.enter kind c (entryBase c args)).frames m.current =
      ⟨kind, entryBase c args, m.toRegisters⟩ :: m.frames m.current := Function.update_self _ _ _
  have inKernel : (m.enter kind c (entryBase c args)).InKernel := by
    rw [Machine.InKernel, Machine.enter, entered.cs]
    decide
  refine sound.of_current rfl rfl rfl rfl rfl (fun t other => Function.update_of_ne other _ _)
    (sound.spares_of_page fun x outside => same x (Nat.le_trans top outside)) ?_ ?_ ?_
  · rw [own]
    refine ⟨sound.enter_frame entered can, ?_⟩
    refine (sound.frames _ (.inr rfl)).keep rfl fun x above _ => same x ?_
    by_cases wasKernel : m.InKernel
    · have free := (sound.kernel wasKernel).1.2.2
      have := ceiling_le_savedFrom m.current (m.frames m.current)
      rw [entryStack_esp_of_kernel wasKernel]
      omega
    · rw [(sound.user wasKernel).1] at above
      exact Nat.le_trans top above
  · intro _
    have count := List.length_pos_iff.mpr can.some
    refine ⟨⟨?_, ?_, ?_⟩, ?_⟩
    · change 4 ≤ distance m.current (c.gpr .esp)
      omega
    · change distance m.current (c.gpr .esp) < pgSize
      by_cases wasKernel : m.InKernel
      · have inside := (sound.kernel wasKernel).1.2.1
        have := ofKernel wasKernel
        omega
      · have := ofUser wasKernel
        omega
    · change distance m.current (c.gpr .esp) ≤
        ceiling m.current ((m.enter kind c (entryBase c args)).frames m.current)
      rw [own]
      change distance m.current (c.gpr .esp) ≤ distance m.current (entryBase c args)
      omega
    · refine entered.ss.trans ?_
      by_cases wasKernel : m.InKernel
      · exact (if_pos wasKernel).trans (sound.kernel wasKernel).2
      · exact if_neg wasKernel
  · intro user
    exact absurd inKernel user

end Enter

/-! ## Returns -/

section Leave

variable (sound : Sound m) (frames : m.frames m.current = f :: rest)

include sound frames

/-- `intr_exit` restores what the entry has interrupted: a return within the kernel finds the stack
pointer and its selector as they were. -/
theorem Sound.resumed_eq {c : Cpu} {r : Registers} (inKernel : m.InKernel)
    (esp : c.gpr .esp = f.base) (ss : c.ss = m.ss) (cs : r.cs = f.saved.cs)
    (selector : r.ss = f.saved.ss) (stack : r.gpr .esp = f.saved.gpr .esp) : resumed c r = r := by
  have own := sound.frames m.current (.inr rfl)
  rw [frames] at own
  rw [resumed]
  split
  case isTrue kernel =>
    rw [cs] at kernel
    obtain ⟨-, ofKernel, place, inside, -⟩ := own.1.ofKernel kernel
    have above : f.base + 68 = r.gpr .esp := by
      apply distance_inj m.current
      rw [stack, ← place]
      exact distance_add (k := 68) (by unfold pgSize at inside; omega)
    rw [esp, above, Function.update_eq_self, ss, (sound.kernel inKernel).2, ← ofKernel, ← selector]
  case isFalse user => rfl

/-- Behind a return the task runs what the entry has interrupted, and the entries that are still
waiting have lost nothing. -/
theorem Sound.leave {r : Registers} (cs : r.cs = f.saved.cs) (ss : r.ss = f.saved.ss)
    (esp : r.gpr .esp = f.saved.gpr .esp) (same : ∀ x ≠ f.base + 32, mem x = m.mem x) :
    Sound (m.leave { r with mem := mem }) := by
  have all := sound.frames m.current (.inr rfl)
  rw [frames] at all
  obtain ⟨first, others⟩ := all
  have behind : (m.leave { r with mem := mem }).frames m.current = rest := by
    rw [Machine.leave]
    simp only [Function.update_self, frames, List.tail_cons]
  have mode : (m.leave { r with mem := mem }).InKernel ↔ level f.saved.cs = 0 := by
    rw [← cs]
    rfl
  obtain ⟨start, room⟩ := first.room 0
  have slot : distance m.current (f.base + 32) = distance m.current f.base + 32 :=
    distance_add (k := 32) (by unfold pgSize at room; omega)
  have long : 16 ≤ (savedWords 0 0 f.saved).length := by
    by_cases kernel : level f.saved.cs = 0
    · rw [savedWords_length_of_kernel kernel]
    · rw [savedWords_length_of_user kernel]
      decide
  refine sound.of_current rfl rfl rfl rfl rfl (fun t other => Function.update_of_ne other _ _)
    (sound.spares_of_page fun x outside => same x ?_) ?_ ?_ ?_
  · rintro rfl
    omega
  · rw [behind]
    refine FramesSound.keep (m := m) others rfl fun x above below => same x ?_
    rintro rfl
    by_cases kernel : level f.saved.cs = 0
    · obtain ⟨-, -, -, -, free⟩ := first.ofKernel kernel
      have := ceiling_le_savedFrom m.current rest
      omega
    · rw [(first.ofUser kernel).1] at above
      exact absurd above (Nat.not_le_of_lt below)
  · intro kernel
    obtain ⟨-, selector, place, inside, free⟩ := first.ofKernel (mode.mp kernel)
    refine ⟨⟨?_, ?_, ?_⟩, ss.trans selector⟩
    · change 4 ≤ distance m.current (r.gpr .esp)
      rw [esp]
      omega
    · change distance m.current (r.gpr .esp) < pgSize
      rw [esp]
      omega
    · change distance m.current (r.gpr .esp) ≤
        ceiling m.current ((m.leave { r with mem := mem }).frames m.current)
      rw [behind, esp]
      omega
  · intro user
    obtain ⟨none, isUser, -⟩ := first.ofUser fun kernel => user (mode.mpr kernel)
    rw [behind]
    exact ⟨none, isUser⟩

end Leave

theorem savedWords_setEax {espDummy result : Word} {r : Registers} :
    savedWords espDummy 0 (setEax r result) = (savedWords espDummy 0 r).set 7 result :=
  rfl

/-- Setting the result of a system call among the saved registers. -/
theorem holds_setEax {base espDummy result : Word} {r : Registers}
    (holds : Holds mem (base + 4) (savedWords espDummy 0 r)) :
    Holds (Function.update mem (base + 32) result) (base + 4)
      (savedWords espDummy 0 (setEax r result)) := by
  have long := savedWords_length_le espDummy 0 r
  have slot : base + 32 = base + 4 + BitVec.ofNat 32 (4 * 7) := by
    rw [BitVec.add_assoc]
    rfl
  rw [slot, savedWords_setEax]
  refine holds.set (by omega) ?_
  by_cases kernel : level r.cs = 0
  · rw [savedWords_length_of_kernel kernel]
    decide
  · rw [savedWords_length_of_user kernel]
    decide

/-- The return from an interrupt. -/
theorem Sound.exec_returnInterrupt (sound : Sound m) (enabled : Enabled sym m .returnInterrupt) :
    ∃ f rest, m.frames m.current = f :: rest ∧
      exec sym m .returnInterrupt = m.leave { f.saved with mem := m.mem } := by
  obtain ⟨inKernel, -, f, rest, frames, -, esp⟩ := enabled
  have own := sound.frames m.current (.inr rfl)
  rw [frames] at own
  obtain ⟨espDummy, holds⟩ := own.1.holds
  refine ⟨f, rest, frames, ?_⟩
  rw [← esp] at holds
  rw [exec]
  split
  case isTrue =>
    have back : (m.toCpu.run (vectorTail sym)).run intrExit =
        { resumed (m.toCpu.run (vectorTail sym)) f.saved with mem := m.mem } :=
      run_intrExit inKernel holds
    have same : resumed (m.toCpu.run (vectorTail sym)) f.saved = f.saved :=
      sound.resumed_eq frames inKernel esp rfl rfl rfl rfl
    rw [back, same]
  case isFalse =>
    have same : resumed m.toCpu f.saved = f.saved :=
      sound.resumed_eq frames inKernel esp rfl rfl rfl rfl
    rw [run_intrExit inKernel holds, same]

/-- The return from a system call. -/
theorem Sound.exec_returnSyscall (sound : Sound m) (enabled : Enabled sym m .returnSyscall) :
    ∃ f rest, m.frames m.current = f :: rest ∧
      exec sym m .returnSyscall = m.leave { setEax f.saved (m.gpr .eax) with
        mem := Function.update m.mem (f.base + 32) (m.gpr .eax) } := by
  obtain ⟨inKernel, -, f, rest, frames, -, esp⟩ := enabled
  have own := sound.frames m.current (.inr rfl)
  rw [frames] at own
  obtain ⟨espDummy, holds⟩ := own.1.holds
  refine ⟨f, rest, frames, ?_⟩
  have released : m.gpr .esp + 12 = f.base := by
    rw [esp]
    exact BitVec.sub_add_cancel _ _
  have tail : m.toCpu.run (syscallTail sym) =
      { m.toCpu with
        gpr := Function.update m.gpr .esp f.base
        mem := Function.update m.mem (f.base + 32) (m.gpr .eax)
        eip := sym.intrExit } := by
    simp only [syscallTail, run, List.foldl_cons, List.foldl_nil, Cpu.exec, release, released,
      Function.update_self, ne_eq, reduceCtorEq, not_false_eq_true, Function.update_of_ne]
  have stacked : Holds (m.toCpu.run (syscallTail sym)).mem
      ((m.toCpu.run (syscallTail sym)).gpr .esp + 4)
      (savedWords espDummy 0 (setEax f.saved (m.gpr .eax))) := by
    rw [tail]
    simp only [Function.update_self]
    exact holds_setEax holds
  have kernel : level (m.toCpu.run (syscallTail sym)).cs = 0 := inKernel
  have same : resumed (m.toCpu.run (syscallTail sym)) (setEax f.saved (m.gpr .eax)) =
      setEax f.saved (m.gpr .eax) := by
    refine sound.resumed_eq frames inKernel ?_ ?_ rfl rfl ?_
    · rw [tail]
      simp only [Function.update_self]
    · rw [tail]
    · simp only [setEax, ne_eq, reduceCtorEq, not_false_eq_true, Function.update_of_ne]
  rw [exec, run_intrExit kernel stacked, same, tail]

/-! ## Switching -/

section Switch

variable {next back : Word} (enabled : Enabled sym m (.switch next back))

include enabled

/-- What `switch_to` leaves behind. -/
theorem exec_switch : (exec sym m (.switch next back)).toCpu =
    switched m.toCpu (parkedMem m.toCpu m.current next back) next := by
  obtain ⟨-, -, room, -, -⟩ := enabled
  refine run_callSwitchTo fun same => ?_
  have place : distance m.current (m.gpr .esp - 4) = distance m.current (m.gpr .esp) - 4 :=
    distance_sub (k := 4) (by omega)
  have zero : distance m.current (m.gpr .esp - 4) = 0 := by
    rw [← same]
    exact distance_self _
  omega

theorem exec_switch_mem : (exec sym m (.switch next back)).mem =
    parkedMem m.toCpu m.current next back := by
  rw [exec_switch enabled]
  rfl

/-- `switch_to` writes below the stack pointer, and into `self_kstack`. -/
theorem parkedMem_keeps {x : Word}
    (above : distance m.current (m.gpr .esp) ≤ distance m.current x) :
    parkedMem m.toCpu m.current next back x = m.mem x := by
  obtain ⟨-, -, room, -, -⟩ := enabled
  have apart : x ≠ m.current := by
    rintro rfl
    rw [distance_self] at above
    omega
  have count : (switchWords m.toCpu m.current next back).length = 7 := rfl
  rw [parkedMem, Function.update_of_ne apart]
  exact pushes_keeps m.current (by omega) above

theorem parkedMem_self :
    parkedMem m.toCpu m.current next back m.current = m.gpr .esp - 28 ∧
      distance m.current (m.gpr .esp - 28) = distance m.current (m.gpr .esp) - 28 := by
  obtain ⟨-, -, room, -, -⟩ := enabled
  refine ⟨?_, distance_sub (k := 28) (by omega)⟩
  rw [parkedMem, Function.update_self]
  simp only [switchWords, pushes_cons, pushes_nil, push_esp]
  bv_omega

/-- The task that gives up the processor is left so that `switch_to` can go on with it. -/
theorem parks : ParkedSound (exec sym m (.switch next back)) m.current := by
  obtain ⟨kstack, place⟩ := parkedMem_self enabled
  have keeps := fun x => parkedMem_keeps (x := x) enabled
  have mem := exec_switch_mem enabled
  have record : (exec sym m (.switch next back)).parked m.current =
      ⟨afterCall m.toRegisters back, (exec sym m (.switch next back)).mem⟩ :=
    Function.update_self _ _ _
  have stacked := switchWords_stacked m.toCpu m.current next back
  have start : (m.toCpu.pushes (switchWords m.toCpu m.current next back)).gpr .esp =
      m.gpr .esp - 28 := by
    simp only [switchWords, pushes_cons, pushes_nil, push_esp]
    bv_omega
  obtain ⟨-, -, room, inside, free⟩ := enabled
  rw [Stacked, start] at stacked
  constructor
  · rw [mem, kstack, place]
    omega
  · rw [mem, kstack, place]
    omega
  · rw [mem, kstack, place]
    exact Nat.le_trans (by omega) free
  · rw [mem, kstack, record]
    simp only [afterCall, Function.update_self]
    bv_omega
  · rw [mem, kstack, record]
    have front := ((holds_append [m.gpr .ebp, m.gpr .ebx, m.gpr .edi, m.gpr .esi, back]
      [m.current, next]).mp stacked).1
    refine Holds.keep front m.current (distance m.current (m.gpr .esp)) ?_
      (distance_lt _ _) fun x above _ => ?_
    · rw [place]
      simp only [List.length_cons, List.length_nil]
      omega
    · refine Function.update_of_ne ?_ _ _
      rintro rfl
      rw [distance_self, place] at above
      omega
  · intro x _ _
    rw [record]

end Switch

/-- The tasks that are not running can all go on, also the one that has just stopped. -/
theorem Sound.parked_switch {next back : Word} (sound : Sound m)
    (enabled : Enabled sym m (.switch next back)) (live : t ∈ m.live) :
    ParkedSound (exec sym m (.switch next back)) t := by
  by_cases same : t = m.current
  · rw [same]
    exact parks enabled
  · have others : SparesOthers m (exec sym m (.switch next back)).mem := by
      rw [exec_switch_mem enabled]
      refine sound.spares_of_page fun x outside => parkedMem_keeps enabled ?_
      exact Nat.le_trans (Nat.le_of_lt enabled.2.2.2.1) outside
    refine (sound.parked t live same).keep rfl ?_ (others t live same).1 (others t live same).2
    exact Function.update_of_ne same _ _

/-- The next task goes on where it has left off. -/
theorem Sound.switch {next back : Word} (sound : Sound m)
    (enabled : Enabled sym m (.switch next back)) : Sound (exec sym m (.switch next back)) := by
  have parked := fun t => sound.parked_switch (t := t) enabled
  have mem := exec_switch_mem enabled
  have keeps := fun x => parkedMem_keeps (x := x) enabled
  have cpu := exec_switch enabled
  obtain ⟨inKernel, alive, room, inside, free⟩ := enabled
  have used : ∀ t, (exec sym m (.switch next back)).InUse t → t ∈ m.live := by
    rintro t (live | rfl)
    · exact live
    · exact alive
  have mode : (exec sym m (.switch next back)).cs = m.cs := by
    rw [cpu]
    rfl
  constructor
  · intro t inUse
    exact sound.aligned t (.inl (used t inUse))
  · intro t inUse
    have live := used t inUse
    refine (sound.frames t (.inl live)).keep rfl fun x above below => ?_
    have := ceiling_le_savedFrom t (m.frames t)
    by_cases same : t = m.current
    · subst same
      rw [mem]
      exact keeps x (by omega)
    · have apart := distance_apart (sound.aligned t (.inl live)) (sound.aligned _ (.inr rfl)) same
        below
      rw [mem]
      exact keeps x (by omega)
  · intro t live _
    exact parked t live
  · intro _
    have resumes := parked next alive
    have esp : (exec sym m (.switch next back)).gpr .esp =
        (exec sym m (.switch next back)).mem next + 20 := by
      rw [cpu]
      rfl
    have place : distance next ((exec sym m (.switch next back)).gpr .esp) =
        distance next ((exec sym m (.switch next back)).mem next) + 20 := by
      have high := resumes.high
      rw [esp]
      exact distance_add (k := 20) (by unfold pgSize at high; omega)
    refine ⟨⟨?_, ?_, ?_⟩, ?_⟩
    · change 4 ≤ distance next _
      omega
    · change distance next _ < pgSize
      rw [place]
      exact resumes.high
    · change distance next _ ≤ ceiling next _
      rw [place]
      exact resumes.below
    · rw [cpu]
      exact (sound.kernel inKernel).2
  · intro user
    exact absurd (by rw [Machine.InKernel, mode]; exact inKernel) user
  · intro isUser
    exact if_pos isUser

/-! ## New tasks -/

/-- A page that no task has is given to a new task. -/
theorem Sound.add {task : TaskId} {parked : Parked} (frames : List Frame) (isUser : Bool)
    (sound : Sound m) (fresh : m.Fresh task)
    (same : ∀ x, pgSize ≤ distance task x → mem x = m.mem x)
    (next : Machine) (made : next = { m with
      mem := mem
      live := task :: m.live
      isUser := Function.update m.isUser task isUser
      frames := Function.update m.frames task frames
      parked := Function.update m.parked task parked })
    (saved : FramesSound next task frames) (resumes : ParkedSound next task) : Sound next := by
  obtain ⟨aligned, unused⟩ := fresh
  have apart : ∀ t, m.InUse t → t ≠ task := by
    rintro t inUse rfl
    exact unused inUse
  have other : ∀ t, m.InUse t → ∀ x, distance t x < pgSize → mem x = m.mem x :=
    fun t inUse x inside => same x
      (distance_apart (sound.aligned t inUse) aligned (apart t inUse) inside)
  have used : ∀ t, next.InUse t → t = task ∨ m.InUse t := by
    subst made
    rintro t (live | current)
    · exact (List.mem_cons.mp live).imp id .inl
    · exact .inr (.inr current)
  have current : m.current ≠ task := apart _ (.inr rfl)
  have room := sound.kernel
  subst made
  constructor
  · intro t inUse
    rcases used t inUse with rfl | inUse
    · exact aligned
    · exact sound.aligned t inUse
  · intro t inUse
    simp only
    rcases used t inUse with rfl | inUse
    · rw [Function.update_self]
      exact saved
    · rw [Function.update_of_ne (apart t inUse)]
      refine (sound.frames t inUse).keep (Function.update_of_ne (apart t inUse) _ _) ?_
      exact fun x _ below => other t inUse x below
  · intro t live notCurrent
    rcases List.mem_cons.mp live with rfl | live
    · exact resumes
    · have zero : distance t t < pgSize := by
        rw [distance_self]
        decide
      refine (sound.parked t live notCurrent).keep ?_ ?_ (other t (.inl live) t zero) ?_
      · exact Function.update_of_ne (apart t (.inl live)) _ _
      · exact Function.update_of_ne (apart t (.inl live)) _ _
      · exact fun x _ below => other t (.inl live) x below
  · intro inKernel
    obtain ⟨⟨low, high, free⟩, selector⟩ := room inKernel
    refine ⟨⟨low, high, ?_⟩, selector⟩
    change _ ≤ ceiling m.current (Function.update m.frames task frames m.current)
    rw [Function.update_of_ne current]
    exact free
  · intro user
    simp only [Function.update_of_ne current]
    exact sound.user user
  · simp only [Function.update_of_ne current]
    exact sound.activated

/-- A new thread. -/
theorem Sound.spawn {pthread : TaskId} {function funcArg : Word} {words : Word → Word}
    {isUser : Bool} (sound : Sound m)
    (enabled : Enabled sym m (.spawn pthread function funcArg words isUser)) :
    Sound (exec sym m (.spawn pthread function funcArg words isUser)) := by
  obtain ⟨-, fresh⟩ := enabled
  obtain ⟨kstack, holds⟩ := threadCreate_words sym m.mem pthread words function funcArg
  have place : distance pthread (pthread + 3664) = 3664 := distance_base_add (by decide)
  have front := (holds_append [0, 0, 0, 0, sym.kernelThread] _).mp holds
  refine sound.add [] isUser fresh
    (fun x outside => threadCreate_keeps words function funcArg outside) _ rfl trivial ?_
  have record : (exec sym m (.spawn pthread function funcArg words isUser)).parked pthread =
      ⟨freshRegisters m.toRegisters (pthread + 3684) sym.kernelThread,
        (exec sym m (.spawn pthread function funcArg words isUser)).mem⟩ :=
    Function.update_self _ _ _
  have noFrames : (exec sym m (.spawn pthread function funcArg words isUser)).frames pthread = [] :=
    Function.update_self _ _ _
  have stored : (exec sym m (.spawn pthread function funcArg words isUser)).mem pthread =
      pthread + 3664 := kstack
  constructor
  · rw [stored, place]
    decide
  · rw [stored, place]
    decide
  · rw [stored, place, noFrames, ceiling, pgSize]
    decide
  · rw [stored, record]
    simp only [freshRegisters]
    bv_omega
  · rw [stored, record]
    exact front.1
  · intro x _ _
    rw [record]

/-! ## `fork` -/

/-- A system call comes from a user program, and its entry is the only one. -/
theorem FrameSound.of_syscall (sound : FrameSound m t f rest) (kind : f.kind = .syscall) :
    level f.saved.cs ≠ 0 ∧ rest = [] ∧ m.isUser t = true ∧ f.base = topFrame t := by
  have user : level f.saved.cs ≠ 0 := by
    intro kernel
    rw [(sound.ofKernel kernel).1] at kind
    exact absurd kind (by decide)
  exact ⟨user, sound.ofUser user⟩

/-- Where the parent's page has what is copied to the end of the child's. -/
theorem topFrame_moved (t u k : Word) : t + (topFrame u + 4 + k - u) = topFrame t + 4 + k := by
  rw [topFrame_eq, topFrame_eq]
  bv_omega

/-- The stack of the child goes back to what its parent's system call has interrupted. -/
theorem fork_holds {child : TaskId} {words : Word → Word} {espDummy : Word} {r : Registers}
    (holds : Holds m.mem (topFrame m.current + 4) (savedWords espDummy 0 r)) :
    Holds (buildChildStack sym (copyPage m.mem child m.current words) child) (topFrame child + 4)
      (savedWords espDummy 0 (setEax r 0)) := by
  have long := savedWords_length_le espDummy 0 r
  have place : distance child (topFrame child + 4) = 4024 := by
    rw [topFrame_eq, BitVec.add_assoc]
    exact distance_base_add (k := 4024) (by decide)
  have copied : Holds (copyPage m.mem child m.current words) (topFrame child + 4)
      (savedWords espDummy 0 r) := by
    refine holds.moved fun i inside => ?_
    have there : distance child (topFrame child + 4 + BitVec.ofNat 32 (4 * i)) = 4024 + 4 * i := by
      rw [distance_add (by omega), place]
    have notField : ¬ (topFrame child + 4 + BitVec.ofNat 32 (4 * i) ≠ child ∧
        distance child (topFrame child + 4 + BitVec.ofNat 32 (4 * i)) < taskStructSize) := by
      rw [there]
      unfold taskStructSize
      omega
    have inPage : distance child (topFrame child + 4 + BitVec.ofNat 32 (4 * i)) < pgSize := by
      rw [there]
      unfold pgSize
      omega
    rw [copyPage, if_pos inPage, if_neg notField, topFrame_moved]
  refine Holds.keep (holds_setEax copied) child pgSize ?_ (by decide) ?_
  · rw [place, savedWords_setEax, List.length_set]
    unfold pgSize
    omega
  · intro x above _
    exact buildChildStack_top (by omega)

/-- A forked task. -/
theorem Sound.fork {child : TaskId} {words : Word → Word} (sound : Sound m)
    (enabled : Enabled sym m (.fork child words)) : Sound (exec sym m (.fork child words)) := by
  obtain ⟨-, fresh, f, frames, kind⟩ := enabled
  have own := sound.frames m.current (.inr rfl)
  rw [frames] at own
  obtain ⟨user, -, -, base⟩ := own.1.of_syscall kind
  obtain ⟨espDummy, holds⟩ := own.1.holds
  rw [base] at holds
  obtain ⟨kstack, switchStack⟩ := buildChildStack_words sym (copyPage m.mem child m.current words)
    child
  have place : distance child (child + 4000) = 4000 := distance_base_add (by decide)
  have outside : ∀ x, pgSize ≤ distance child x →
      buildChildStack sym (copyPage m.mem child m.current words) child x = m.mem x := by
    intro x outside
    rw [buildChildStack_keeps outside, copyPage, if_neg (Nat.not_lt_of_le outside)]
  have childFrames : (exec sym m (.fork child words)).frames child =
      [⟨.interrupt, topFrame child, setEax f.saved 0⟩] := by
    rw [exec, frames]
    exact Function.update_self _ _ _
  have record : (exec sym m (.fork child words)).parked child =
      ⟨freshRegisters m.toRegisters (topFrame child) sym.intrExit,
        (exec sym m (.fork child words)).mem⟩ := Function.update_self _ _ _
  have stored : (exec sym m (.fork child words)).mem child = child + 4000 := kstack
  refine sound.add
    ((m.frames m.current).map fun f => ⟨.interrupt, topFrame child, setEax f.saved 0⟩) true
    fresh outside _ rfl ?_ ?_
  · rw [frames, List.map_singleton]
    refine ⟨⟨?_, ⟨espDummy, fork_holds holds⟩, fun kernel => absurd kernel user, fun _ => ?_⟩,
      trivial⟩
    · rw [distance_topFrame]
      decide
    · exact ⟨rfl, Function.update_self _ _ _, rfl⟩
  · constructor
    · rw [stored, place]
      decide
    · rw [stored, place]
      decide
    · rw [stored, place, childFrames, ceiling, distance_topFrame]
    · rw [stored, record]
      simp only [freshRegisters, topFrame_eq]
      bv_omega
    · rw [stored, record]
      exact switchStack
    · intro x _ _
      rw [record]

/-! ## The remaining steps -/

/-- A process begins in user mode. -/
theorem exec_startProcess {function userStack : Word}
    (enabled : Enabled sym m (.startProcess function userStack)) :
    exec sym m (.startProcess function userStack) =
      m.withCpu { userRegisters function (userStack + 4096) with
        mem := (startProcess m.toCpu m.current function userStack).mem } := by
  obtain ⟨inKernel, -, -, -, fits⟩ := enabled
  obtain ⟨errCode, holds⟩ := startProcess_holds (c := m.toCpu) function userStack fits
  have user : level (userRegisters function (userStack + 4096)).cs ≠ 0 := by
    change level selectorUCode ≠ 0
    decide
  have back : (startProcess m.toCpu m.current function userStack).run intrExit =
      { resumed (startProcess m.toCpu m.current function userStack)
          (userRegisters function (userStack + 4096)) with
        mem := (startProcess m.toCpu m.current function userStack).mem } :=
    run_intrExit (c := startProcess m.toCpu m.current function userStack) inKernel holds
  rw [exec, back, resumed, if_neg user]

/-- Going to user mode from a task in which no entry waits. -/
theorem Sound.toUser {r : Registers} (sound : Sound m) (user : level r.cs ≠ 0)
    (isUser : m.isUser m.current = true) (frames : m.frames m.current = [])
    (same : ∀ x, pgSize ≤ distance m.current x → mem x = m.mem x) :
    Sound (m.withCpu { r with mem := mem }) := by
  refine sound.of_current rfl rfl rfl rfl rfl (fun _ _ => rfl) (sound.spares_of_page same) ?_ ?_ ?_
  · change FramesSound _ _ (m.frames m.current)
    rw [frames]
    trivial
  · intro kernel
    exact absurd kernel user
  · intro _
    exact ⟨frames, isUser⟩

theorem Sound.start {function userStack : Word} (sound : Sound m)
    (enabled : Enabled sym m (.startProcess function userStack)) :
    Sound (exec sym m (.startProcess function userStack)) := by
  rw [exec_startProcess enabled]
  obtain ⟨-, -, isUser, frames, fits⟩ := enabled
  have user : level (userRegisters function (userStack + 4096)).cs ≠ 0 := by
    change level selectorUCode ≠ 0
    decide
  exact sound.toUser user isUser frames fun x outside => startProcess_keeps fits outside

/-- A program begins in user mode. -/
theorem Sound.exec_execv {argv argc entryPoint : Word} (sound : Sound m)
    (enabled : Enabled sym m (.execv argv argc entryPoint)) :
    ∃ f, m.frames m.current = [f] ∧ f.kind = .syscall ∧
      exec sym m (.execv argv argc entryPoint) =
        m.leave { programRegisters f.saved argv argc entryPoint with
          mem := (sysExecv m.toCpu m.current argv argc entryPoint).mem } := by
  obtain ⟨inKernel, f, frames, kind⟩ := enabled
  have own := sound.frames m.current (.inr rfl)
  rw [frames] at own
  obtain ⟨user, -, -, base⟩ := own.1.of_syscall kind
  obtain ⟨espDummy, holds⟩ := own.1.holds
  rw [base] at holds
  refine ⟨f, frames, kind, ?_⟩
  have begins : (sysExecv m.toCpu m.current argv argc entryPoint).run intrExit = _ :=
    run_sysExecv (c := m.toCpu) inKernel user holds
  rw [exec, begins]

theorem Sound.execv {argv argc entryPoint : Word} (sound : Sound m)
    (enabled : Enabled sym m (.execv argv argc entryPoint)) :
    Sound (exec sym m (.execv argv argc entryPoint)) := by
  obtain ⟨f, frames, kind, begins⟩ := sound.exec_execv enabled
  have own := sound.frames m.current (.inr rfl)
  rw [frames] at own
  obtain ⟨user, -, isUser, -⟩ := own.1.of_syscall kind
  rw [begins]
  have none : (m.leave { programRegisters f.saved argv argc entryPoint with
      mem := (sysExecv m.toCpu m.current argv argc entryPoint).mem }).frames m.current = [] := by
    simp only [Machine.leave, Function.update_self, frames, List.tail_cons]
  have spares : SparesOthers m (sysExecv m.toCpu m.current argv argc entryPoint).mem :=
    sound.spares_of_page fun x outside => sysExecv_keeps (c := m.toCpu) outside
  refine sound.of_current rfl rfl rfl rfl rfl (fun t other => Function.update_of_ne other _ _)
    spares ?_ ?_ ?_
  · rw [none]
    trivial
  · intro kernel
    exact absurd kernel user
  · intro _
    exact ⟨none, isUser⟩

theorem exec_retire {task : TaskId} :
    exec sym m (.retire task) = { m with live := m.live.filter (· ≠ task) } :=
  rfl

/-- A task's page is given back. -/
theorem Sound.retire {task : TaskId} (sound : Sound m) : Sound (exec sym m (.retire task)) := by
  rw [exec_retire]
  have used : ∀ t, { m with live := m.live.filter (· ≠ task) }.InUse t → m.InUse t := by
    rintro t (live | current)
    · exact .inl (List.mem_filter.mp live).1
    · exact .inr current
  constructor
  · exact fun t inUse => sound.aligned t (used t inUse)
  · exact fun t inUse => (sound.frames t (used t inUse)).keep rfl fun _ _ _ => rfl
  · intro t live other
    exact (sound.parked t (List.mem_filter.mp live).1 other).keep rfl rfl rfl fun _ _ _ => rfl
  · exact sound.kernel
  · exact sound.user
  · exact sound.activated

/-! ## Every reachable state -/

theorem vectorEntry_canEnter {vec : Word} (enabled : Enabled sym m (.interrupt vec)) :
    CanEnter m .interrupt [vec, sym.vectorBack] :=
  ⟨by simp, by simp, fun kernel => ⟨enabled.2 kernel, by simp, rfl⟩⟩

theorem syscallEntry_canEnter (enabled : Enabled sym m .syscall) :
    CanEnter m .syscall [0x80, m.gpr .edx, m.gpr .ecx, m.gpr .ebx, sym.syscallBack] :=
  ⟨by simp, by simp, fun kernel => absurd kernel enabled⟩

theorem exec_interrupt {vec : Word} : exec sym m (.interrupt vec) =
    m.enter .interrupt (m.accepted.run (vectorEntry sym vec))
      (entryBase (m.accepted.run (vectorEntry sym vec)) [vec, sym.vectorBack]) := by
  rw [exec]
  generalize m.accepted.run (vectorEntry sym vec) = c
  rfl

theorem exec_syscall : exec sym m .syscall =
    m.enter .syscall (m.accepted.run (syscallEntry sym))
      (entryBase (m.accepted.run (syscallEntry sym))
        [0x80, m.gpr .edx, m.gpr .ecx, m.gpr .ebx, sym.syscallBack]) := by
  rw [exec]
  generalize m.accepted.run (syscallEntry sym) = c
  rfl

/-- **Steps.** No step destroys what the tasks have saved. -/
theorem Sound.step {label : Label} (sound : Sound m) (enabled : Enabled sym m label) :
    Sound (exec sym m label) := by
  cases label with
  | work regs mem => exact sound.work enabled
  | interrupt vec =>
      rw [exec_interrupt]
      exact sound.enter (vectorEntry_entered m.toCpu m.esp0 vec sym) (vectorEntry_canEnter enabled)
  | syscall =>
      rw [exec_syscall]
      exact sound.enter (syscallEntry_entered m.toCpu m.esp0 sym) (syscallEntry_canEnter enabled)
  | returnInterrupt =>
      obtain ⟨f, rest, frames, returns⟩ := sound.exec_returnInterrupt enabled
      rw [returns]
      exact sound.leave frames rfl rfl rfl fun _ _ => rfl
  | returnSyscall =>
      obtain ⟨f, rest, frames, returns⟩ := sound.exec_returnSyscall enabled
      rw [returns]
      refine sound.leave frames rfl rfl ?_ fun x other => Function.update_of_ne other _ _
      simp only [setEax, ne_eq, reduceCtorEq, not_false_eq_true, Function.update_of_ne]
  | switch next back => exact sound.switch enabled
  | spawn pthread function funcArg words isUser => exact sound.spawn enabled
  | fork child words => exact sound.fork enabled
  | startProcess function userStack => exact sound.start enabled
  | execv argv argc entryPoint => exact sound.execv enabled
  | retire task => exact sound.retire

theorem Booted.sound (booted : Booted m) : Sound m := by
  have alone : ∀ t, m.InUse t → t = m.current := by
    rintro t (live | current)
    · rw [booted.live] at live
      exact List.mem_singleton.mp live
    · exact current
  constructor
  · intro t inUse
    rw [alone t inUse]
    exact booted.aligned
  · intro t _
    rw [booted.noFrames]
    trivial
  · intro t live other
    exact absurd (alone t (.inl live)) other
  · exact fun _ => ⟨booted.stack, booted.stackSelector⟩
  · exact fun user => absurd booted.inKernel user
  · intro isUser
    rw [booted.noUser] at isUser
    exact absurd isUser (by decide)

/-- **The memory agrees with the records** in every reachable state. -/
theorem sound_of_reachable (reachable : (machine sym).Reachable m) : Sound m := by
  refine reachable.invariant Sound (fun _ => Booted.sound) ?_
  rintro m label next - sound ⟨enabled, rfl⟩
  exact sound.step enabled

end UKernel.Contexts
