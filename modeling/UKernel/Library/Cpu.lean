import UKernel.Library.Bytes

/-! # A processor with a stack

The part of a 32-bit processor that saves and restores registers: the general and segment registers,
a memory of words, and the instructions that move words between them
(`UKernel.Library.Cpu.exec`). A piece of assembly is a list of instructions
(`UKernel.Library.Cpu.run`). The words from an address on are a list
(`UKernel.Library.Holds`), so that pushing is adding to the front of a list
(`UKernel.Library.Cpu.Stacked.pushes`) and popping is taking it apart; what lies at or above the
stack pointer in a region is not touched (`UKernel.Library.Cpu.pushes_keeps`).

All accesses are to words at addresses that are equal modulo four, so that a word has no overlap
with another.
-/

namespace UKernel.Library

/-! ## Addresses counted from a base -/

/-- How far an address lies above a base, around the end of the address space. -/
def distance (base addr : Word) : Nat := (addr - base).toNat

section Distance

variable {base addr other : Word} {k : Nat}

theorem distance_self (base : Word) : distance base base = 0 := by
  simp [distance]

theorem distance_lt (base addr : Word) : distance base addr < 2 ^ 32 :=
  (addr - base).isLt

theorem distance_inj (base : Word) (same : distance base addr = distance base other) :
    addr = other := by
  unfold distance at same
  have := BitVec.eq_of_toNat_eq same
  bv_omega

theorem distance_add (fits : distance base addr + k < 2 ^ 32) :
    distance base (addr + BitVec.ofNat 32 k) = distance base addr + k := by
  unfold distance at *
  bv_omega

theorem distance_sub (fits : k ≤ distance base addr) :
    distance base (addr - BitVec.ofNat 32 k) = distance base addr - k := by
  have small := distance_lt base addr
  unfold distance at *
  bv_omega

/-- The address at a distance from the base. -/
theorem distance_base_add (small : k < 2 ^ 32) : distance base (base + BitVec.ofNat 32 k) = k := by
  rw [distance_add (by rw [distance_self]; omega), distance_self, Nat.zero_add]

end Distance

/-! ## Lists of words in memory -/

/-- The words at an address and behind it. -/
def Holds (mem : Word → Word) (addr : Word) : List Word → Prop
  | [] => True
  | w :: ws => mem addr = w ∧ Holds mem (addr + 4) ws

section Holds

variable {mem mem' : Word → Word} {base addr : Word} {w : Word} {ws ws' : List Word}

@[simp] theorem holds_nil : Holds mem addr [] := trivial

@[simp] theorem holds_cons :
    Holds mem addr (w :: ws) ↔ mem addr = w ∧ Holds mem (addr + 4) ws := Iff.rfl

theorem holds_append (ws ws' : List Word) : Holds mem addr (ws ++ ws') ↔
    Holds mem addr ws ∧ Holds mem (addr + BitVec.ofNat 32 (4 * ws.length)) ws' := by
  induction ws generalizing addr with
  | nil => simp
  | cons w ws ih =>
      have shifted : addr + BitVec.ofNat 32 (4 * (w :: ws).length) =
          addr + 4 + BitVec.ofNat 32 (4 * ws.length) := by
        rw [List.length_cons]
        bv_omega
      rw [List.cons_append, holds_cons, ih, holds_cons, shifted, and_assoc]

/-- A list of words is still there after a change that spares the region from its first word on. -/
theorem Holds.keep (holds : Holds mem addr ws) (base : Word) (limit : Nat)
    (fits : distance base addr + 4 * ws.length ≤ limit) (small : limit < 2 ^ 32)
    (same : ∀ x, distance base addr ≤ distance base x → distance base x < limit →
      mem' x = mem x) : Holds mem' addr ws := by
  induction ws generalizing addr with
  | nil => trivial
  | cons w ws ih =>
      rw [List.length_cons] at fits
      have next : distance base (addr + 4) = distance base addr + 4 :=
        distance_add (k := 4) (by omega)
      refine ⟨(same addr (Nat.le_refl _) (by omega)).trans holds.1, ih holds.2 (by omega) ?_⟩
      intro x above below
      exact same x (by omega) below

/-- Storing a word in a list of words. -/
theorem Holds.set {i : Nat} (holds : Holds mem addr ws) (fits : 4 * ws.length ≤ 2 ^ 32)
    (inside : i < ws.length) :
    Holds (Function.update mem (addr + BitVec.ofNat 32 (4 * i)) w) addr (ws.set i w) := by
  induction ws generalizing addr i with
  | nil => exact absurd inside (Nat.not_lt_zero _)
  | cons v ws ih =>
      rw [List.length_cons] at fits inside
      cases i with
      | zero =>
          simp only [Nat.mul_zero, BitVec.add_zero, List.set_cons_zero, holds_cons,
            Function.update_self, true_and]
          have next : distance (addr + 4) (addr + 4) + 4 * ws.length ≤ 4 * ws.length := by
            rw [distance_self]
            omega
          refine Holds.keep holds.2 (addr + 4) (4 * ws.length) next (by omega) ?_
          intro x _ below
          apply Function.update_of_ne
          rintro rfl
          unfold distance at below
          bv_omega
      | succ i =>
          have shifted : addr + BitVec.ofNat 32 (4 * (i + 1)) =
              addr + 4 + BitVec.ofNat 32 (4 * i) := by
            bv_omega
          rw [List.set_cons_succ, holds_cons, shifted]
          refine ⟨?_, ih holds.2 (by omega) (by omega)⟩
          rw [Function.update_of_ne, holds.1]
          bv_omega

/-- Store words at an address and behind it. -/
def storeWords (mem : Word → Word) (addr : Word) : List Word → Word → Word
  | [] => mem
  | w :: ws => storeWords (Function.update mem addr w) (addr + 4) ws

theorem storeWords_keeps (base : Word) {x : Word}
    (fits : distance base addr + 4 * ws.length ≤ 2 ^ 32)
    (outside : distance base x < distance base addr ∨
      distance base addr + 4 * ws.length ≤ distance base x) :
    storeWords mem addr ws x = mem x := by
  induction ws generalizing addr mem with
  | nil => rfl
  | cons w ws ih =>
      rw [List.length_cons] at fits outside
      have apart : x ≠ addr := by
        rintro rfl
        omega
      rw [storeWords]
      cases ws with
      | nil => exact Function.update_of_ne apart _ _
      | cons w' ws =>
          rw [List.length_cons] at fits outside ih
          have next : distance base (addr + 4) = distance base addr + 4 :=
            distance_add (k := 4) (by omega)
          rw [ih (by omega) (by omega)]
          exact Function.update_of_ne apart _ _

theorem storeWords_holds (base : Word) (fits : distance base addr + 4 * ws.length ≤ 2 ^ 32) :
    Holds (storeWords mem addr ws) addr ws := by
  induction ws generalizing addr mem with
  | nil => trivial
  | cons w ws ih =>
      rw [List.length_cons] at fits
      cases ws with
      | nil => exact ⟨Function.update_self _ _ _, trivial⟩
      | cons w' ws =>
          rw [List.length_cons] at fits ih
          have next : distance base (addr + 4) = distance base addr + 4 :=
            distance_add (k := 4) (by omega)
          refine ⟨?_, ih (by omega)⟩
          rw [storeWords, storeWords_keeps base (by rw [List.length_cons]; omega)
            (by left; omega)]
          exact Function.update_self _ _ _

/-- The words of a region, copied to another place. -/
theorem Holds.moved {addr' : Word} (holds : Holds mem addr ws)
    (same : ∀ i < ws.length, mem' (addr' + BitVec.ofNat 32 (4 * i)) =
      mem (addr + BitVec.ofNat 32 (4 * i))) : Holds mem' addr' ws := by
  induction ws generalizing addr addr' with
  | nil => trivial
  | cons w ws ih =>
      have first := same 0 (by simp)
      simp only [Nat.mul_zero, BitVec.add_zero] at first
      refine ⟨first.trans holds.1, ih holds.2 fun i inside => ?_⟩
      have next := same (i + 1) (by simpa using inside)
      have shifted : BitVec.ofNat 32 (4 * (i + 1)) = 4 + BitVec.ofNat 32 (4 * i) := by bv_omega
      rw [shifted, ← BitVec.add_assoc, ← BitVec.add_assoc] at next
      exact next

end Holds

/-! ## The processor -/

/-- The general registers. -/
inductive Reg where
  | eax
  | ecx
  | edx
  | ebx
  | esp
  | ebp
  | esi
  | edi
  deriving DecidableEq, Repr

/-- The segment registers for data. -/
inductive Seg where
  | ds
  | es
  | fs
  | gs
  deriving DecidableEq, Repr

/-- All registers a task computes with. -/
@[ext] structure Registers where
  gpr : Reg → Word
  seg : Seg → BitVec 16
  cs : BitVec 16
  ss : BitVec 16
  eip : Word
  eflags : Word

/-- The registers and the memory. -/
structure Cpu extends Registers where
  mem : Word → Word

/-- The instructions that save and restore registers, and those between them. An instruction that
calls names the address behind itself. -/
inductive Instr where
  | push (src : Reg)
  | pushSeg (src : Seg)
  | pushImm (value : Word)
  | pushad
  | pop (dst : Reg)
  | popSeg (dst : Seg)
  | popad
  /-- `mov dst, [base + off]`. -/
  | load (dst base : Reg) (off : Word)
  /-- `mov [base + off], src`. -/
  | store (base : Reg) (off : Word) (src : Reg)
  /-- `add esp, n`. -/
  | addEsp (n : Word)
  /-- `mov al, value`. -/
  | movAl (value : Byte)
  /-- `out port, al`. -/
  | out (port : Byte)
  /-- `call [addr]`. -/
  | call (addr back : Word)
  /-- `call [table + index * 4]`. -/
  | callTable (table : Word) (index : Reg) (back : Word)
  | jmp (target : Word)
  | ret
  | iretd
  deriving DecidableEq, Repr

namespace Cpu

/-- The privilege level in a code selector. -/
def level (cs : BitVec 16) : BitVec 2 := cs.extractLsb' 0 2

/-- Decrease the stack pointer and store a word there. -/
def push (c : Cpu) (w : Word) : Cpu :=
  let top := c.gpr .esp - 4
  { c with gpr := Function.update c.gpr .esp top, mem := Function.update c.mem top w }

/-- Store words one after the other. -/
def pushes (c : Cpu) (ws : List Word) : Cpu := ws.foldl push c

/-- The word that the stack pointer refers to. -/
def top (c : Cpu) : Word := c.mem (c.gpr .esp)

/-- Increase the stack pointer. -/
def release (c : Cpu) (n : Word) : Cpu :=
  { c with gpr := Function.update c.gpr .esp (c.gpr .esp + n) }

/-- Take a word from the stack into a register. -/
def popTo (c : Cpu) (dst : Reg) : Cpu :=
  let w := c.top
  let c := c.release 4
  { c with gpr := Function.update c.gpr dst w }

/-- Take the low half of a word from the stack into a segment register. -/
def popSegTo (c : Cpu) (dst : Seg) : Cpu :=
  let w := c.top
  let c := c.release 4
  { c with seg := Function.update c.seg dst (w.setWidth 16) }

/-- `pushad`: the word in the place of `esp` is its value before the instruction. -/
def pushad (c : Cpu) : Cpu :=
  c.pushes [c.gpr .eax, c.gpr .ecx, c.gpr .edx, c.gpr .ebx, c.gpr .esp, c.gpr .ebp, c.gpr .esi,
    c.gpr .edi]

/-- `popad`: the word in the place of `esp` is skipped. -/
def popad (c : Cpu) : Cpu :=
  let c := ((c.popTo .edi).popTo .esi).popTo .ebp
  let c := c.release 4
  (((c.popTo .ebx).popTo .edx).popTo .ecx).popTo .eax

/-- Take a word from the stack into the instruction pointer. -/
def ret (c : Cpu) : Cpu :=
  let w := c.top
  { c.release 4 with eip := w }

/-- `iretd`: the stack pointer and its segment are taken from the stack too when the privilege level
changes, which is in the low bits of the code selector. -/
def iretd (c : Cpu) : Cpu :=
  let old := level c.cs
  let c := c.ret
  let cs := c.top
  let c := { c.release 4 with cs := cs.setWidth 16 }
  let eflags := c.top
  let c := { c.release 4 with eflags := eflags }
  if level c.cs = old then c
  else
    let esp := c.top
    let ss := (c.release 4).top
    { c with gpr := Function.update c.gpr .esp esp, ss := ss.setWidth 16 }

/-- Run one instruction. -/
def exec (c : Cpu) : Instr → Cpu
  | .push src => c.push (c.gpr src)
  | .pushSeg src => c.push ((c.seg src).setWidth 32)
  | .pushImm value => c.push value
  | .pushad => c.pushad
  | .pop dst => c.popTo dst
  | .popSeg dst => c.popSegTo dst
  | .popad => c.popad
  | .load dst base off =>
      { c with gpr := Function.update c.gpr dst (c.mem (c.gpr base + off)) }
  | .store base off src => { c with mem := Function.update c.mem (c.gpr base + off) (c.gpr src) }
  | .addEsp n => c.release n
  | .movAl value =>
      { c with gpr := Function.update c.gpr .eax ((c.gpr .eax).extractLsb' 8 24 ++ value) }
  | .out _ => c
  | .call addr back => { c.push back with eip := c.mem addr }
  | .callTable table index back => { c.push back with eip := c.mem (table + c.gpr index * 4) }
  | .jmp target => { c with eip := target }
  | .ret => c.ret
  | .iretd => c.iretd

/-- Run a piece of code. -/
def run (c : Cpu) (code : List Instr) : Cpu := code.foldl exec c

theorem run_append (c : Cpu) (code code' : List Instr) :
    c.run (code ++ code') = (c.run code).run code' :=
  List.foldl_append

/-! ## Interrupts -/

/-- What the processor does when it accepts an interrupt without error code through an interrupt
gate: from a lower privilege it first changes to the stack that the task state segment names; it
stores what it needs to return, and turns interrupts off. -/
def accept (c : Cpu) (codeSelector stackSelector : BitVec 16) (esp0 : Word) : Cpu :=
  let c' :=
    if level c.cs = level codeSelector then c
    else
      { c with gpr := Function.update c.gpr .esp esp0, ss := stackSelector }.pushes
        [c.ss.setWidth 32, c.gpr .esp]
  let c' := c'.pushes [c.eflags, c.cs.setWidth 32, c.eip]
  { c' with cs := codeSelector, eflags := c.eflags &&& 0xfffffdff }

/-! ## Pushing -/

/-- The words on the stack, the last pushed first. -/
def Stacked (c : Cpu) (ws : List Word) : Prop := Holds c.mem (c.gpr .esp) ws

variable {c : Cpu} {base w : Word} {ws ws' : List Word} {limit : Nat}

theorem stacked_nil (c : Cpu) : c.Stacked [] := trivial

@[simp] theorem pushes_nil (c : Cpu) : c.pushes [] = c := rfl

@[simp] theorem pushes_cons (c : Cpu) (w : Word) (ws : List Word) :
    c.pushes (w :: ws) = (c.push w).pushes ws := rfl

theorem pushes_append (c : Cpu) (ws ws' : List Word) :
    c.pushes (ws ++ ws') = (c.pushes ws).pushes ws' :=
  List.foldl_append

@[simp] theorem push_esp (c : Cpu) (w : Word) : (c.push w).gpr .esp = c.gpr .esp - 4 := by
  simp [push]

theorem push_gpr {r : Reg} (other : r ≠ .esp) : (c.push w).gpr r = c.gpr r := by
  simp [push, other]

theorem pushes_gpr {r : Reg} (other : r ≠ .esp) : (c.pushes ws).gpr r = c.gpr r := by
  induction ws generalizing c with
  | nil => rfl
  | cons w ws ih => rw [pushes_cons, ih, push_gpr other]

/-- Pushing changes the memory and the stack pointer only. -/
theorem pushes_eq (c : Cpu) (ws : List Word) :
    c.pushes ws = { c with gpr := (c.pushes ws).gpr, mem := (c.pushes ws).mem } := by
  induction ws generalizing c with
  | nil => rfl
  | cons w ws ih => exact ih (c.push w)

/-- Pushing needs room between the base and the stack pointer. -/
theorem push_distance (base w : Word) (room : 4 ≤ distance base (c.gpr .esp)) :
    distance base ((c.push w).gpr .esp) = distance base (c.gpr .esp) - 4 := by
  rw [push_esp]
  exact distance_sub room

theorem pushes_distance (room : 4 * ws.length ≤ distance base (c.gpr .esp)) :
    distance base ((c.pushes ws).gpr .esp) = distance base (c.gpr .esp) - 4 * ws.length := by
  induction ws generalizing c with
  | nil => rfl
  | cons w ws ih =>
      rw [List.length_cons] at room
      have first := push_distance base w (c := c) (by omega)
      rw [pushes_cons, ih (by omega), first, List.length_cons]
      omega

/-- A push changes one word, below the stack pointer. -/
theorem push_keeps (room : 4 ≤ distance base (c.gpr .esp)) {x : Word}
    (outside : distance base (c.gpr .esp) ≤ distance base x) : (c.push w).mem x = c.mem x := by
  have low : distance base (c.gpr .esp - 4) = distance base (c.gpr .esp) - 4 := distance_sub room
  apply Function.update_of_ne
  rintro rfl
  omega

theorem pushes_keeps (base : Word) (room : 4 * ws.length ≤ distance base (c.gpr .esp)) {x : Word}
    (outside : distance base (c.gpr .esp) ≤ distance base x) : (c.pushes ws).mem x = c.mem x := by
  induction ws generalizing c with
  | nil => rfl
  | cons w ws ih =>
      rw [List.length_cons] at room
      have first := push_distance base w (c := c) (by omega)
      rw [pushes_cons, ih (by omega) (by omega)]
      exact push_keeps (by omega) outside

/-- A word pushed is the first of the stack. -/
theorem Stacked.push (stacked : c.Stacked ws) (room : 4 ≤ distance base (c.gpr .esp))
    (fits : distance base (c.gpr .esp) + 4 * ws.length < 2 ^ 32) :
    (c.push w).Stacked (w :: ws) := by
  refine ⟨by simp [Cpu.push], ?_⟩
  have back : (c.push w).gpr .esp + 4 = c.gpr .esp := by
    rw [push_esp]
    exact BitVec.sub_add_cancel _ _
  rw [back]
  exact Holds.keep stacked base (distance base (c.gpr .esp) + 4 * ws.length) (Nat.le_refl _)
    fits fun x above _ => push_keeps room above

theorem Stacked.pushes (ws : List Word) (base : Word) (stacked : c.Stacked ws')
    (room : 4 * ws.length ≤ distance base (c.gpr .esp))
    (fits : distance base (c.gpr .esp) + 4 * ws'.length < 2 ^ 32) :
    (c.pushes ws).Stacked (ws.reverse ++ ws') := by
  induction ws generalizing c ws' with
  | nil => exact stacked
  | cons w ws ih =>
      rw [List.length_cons] at room
      have first := push_distance base w (c := c) (by omega)
      rw [pushes_cons, List.reverse_cons, List.append_assoc]
      refine ih (stacked.push (by omega) fits) (by omega) ?_
      rw [first, List.singleton_append, List.length_cons]
      omega

end Cpu

end UKernel.Library
