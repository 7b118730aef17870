import UKernel.Fs.Partition
import UKernel.Library.Call

/-! # Transfers of sectors

`ide_read` and `ide_write` down to the registers of the controller. The controller moves as many
sectors as its count register says, 256 for zero, between its data port and the address of 28 bits
that four registers hold. A transfer of any number of sectors is the transfer of
`UKernel.Fs.ideRead` and `UKernel.Fs.ideWrite` (`UKernel.Sectors.ideWrite_ideRead`).

The lock of the channel, under which a call runs alone, is part of `UKernel.Ide.channel`.
-/

namespace UKernel.Sectors

open UKernel.Library UKernel.Fs

/-! ## The controller -/

/-- A command in execution: its direction, the disk, the next byte of the disk and the number of
words that are left. -/
structure Transfer where
  write : Bool
  devNo : Fin 2
  pos : Nat
  left : Nat
  deriving DecidableEq, Repr

/-- The registers of a channel and its two disks. After a command the controller is busy for some
readings of the status, fewer than `busy_wait` makes. -/
structure Controller where
  sectCnt : Byte
  lbaL : Byte
  lbaM : Byte
  lbaH : Byte
  dev : Byte
  transfer : Option Transfer
  busy : Nat
  latency : Nat
  intr : Bool
  disks : Fin 2 → Memory
  inTime : latency < 29999

/-- The registers that are written. -/
inductive Reg where
  | sectCnt
  | lbaL
  | lbaM
  | lbaH
  | dev
  | cmd
  deriving DecidableEq, Repr

namespace Controller

variable (ctl : Controller)

/-- The address in the registers. -/
def address : Nat :=
  ctl.lbaL.toNat + 2 ^ 8 * ctl.lbaM.toNat + 2 ^ 16 * ctl.lbaH.toNat +
    2 ^ 24 * (ctl.dev.toNat % 16)

/-- The number of sectors in the register. -/
def count : Nat := if ctl.sectCnt = 0 then 256 else ctl.sectCnt.toNat

/-- The disk that the register selects. -/
def selected : Fin 2 := if ctl.dev.getLsbD 4 then 1 else 0

/-- The command to read or to write sectors. A read ends in an interrupt, a write when it has its
data. -/
def command (cmd : Byte) : Except Fault Controller := do
  require (ctl.dev.getLsbD 6 = true ∧ (cmd = 0x20 ∨ cmd = 0x30))
  let transfer := ⟨cmd = 0x30, ctl.selected, 512 * ctl.address, 256 * ctl.count⟩
  return { ctl with
    transfer := some transfer
    busy := ctl.latency
    intr := cmd = 0x20 }

/-- A register is written. -/
def store : Reg → Byte → Except Fault Controller
  | .sectCnt, data => return { ctl with sectCnt := data }
  | .lbaL, data => return { ctl with lbaL := data }
  | .lbaM, data => return { ctl with lbaM := data }
  | .lbaH, data => return { ctl with lbaH := data }
  | .dev, data => return { ctl with dev := data }
  | .cmd, data => ctl.command data

/-- `BIT_STAT_BSY`, or `BIT_STAT_DRDY` with `BIT_STAT_DRQ` while words are left. -/
def status : Byte :=
  if 0 < ctl.busy then 0x80
  else if ctl.transfer.any (0 < ·.left) then 0x48
  else 0x40

/-- The status was read. -/
def polled : Controller := { ctl with busy := ctl.busy - 1 }

end Controller

/-- The controller, the memory, and `expecting_intr` and the value of `disk_done` of the
channel. -/
structure Machine where
  ctl : Controller
  ram : Word → Byte
  expectingIntr : Bool
  diskDone : Nat

/-- A call that reads and changes the machine. -/
abbrev MachineCall (α : Type) := Call Machine α

/-! ## `io.h` -/

/-- `outb`. -/
def outb (reg : Reg) (data : Byte) : MachineCall Unit := do
  let s ← get
  let ctl ← s.ctl.store reg data
  set { s with ctl := ctl }

/-- `inb(reg_status(channel))`. -/
def inbStatus : MachineCall Byte := do
  let s ← get
  set { s with ctl := s.ctl.polled }
  return s.ctl.status

/-- A word is read from the data port. -/
def dataIn : MachineCall (Byte × Byte) := do
  let s ← get
  match s.ctl.transfer with
  | some ⟨false, devNo, pos, left + 1⟩ =>
      set { s with ctl := { s.ctl with transfer := some ⟨false, devNo, pos + 2, left⟩ } }
      return (s.ctl.disks devNo pos, s.ctl.disks devNo (pos + 1))
  | _ => throw .outOfBounds

/-- A word is written to the data port. The last one of a command ends in an interrupt. -/
def dataOut (low high : Byte) : MachineCall Unit := do
  let s ← get
  match s.ctl.transfer with
  | some ⟨true, devNo, pos, left + 1⟩ =>
      let disk := Function.update (Function.update (s.ctl.disks devNo) pos low) (pos + 1) high
      set { s with ctl := { s.ctl with
        transfer := some ⟨true, devNo, pos + 2, left⟩
        intr := left = 0
        disks := Function.update s.ctl.disks devNo disk } }
  | _ => throw .outOfBounds

/-- `insw`. -/
def insw : Nat → Word → MachineCall Unit
  | 0, _ => pure ()
  | wordCnt + 1, addr => do
      let (low, high) ← dataIn
      modify fun s => { s with
        ram := Function.update (Function.update s.ram addr low) (addr + 1) high }
      insw wordCnt (addr + 2)

/-- `outsw`. -/
def outsw : Nat → Word → MachineCall Unit
  | 0, _ => pure ()
  | wordCnt + 1, addr => do
      let s ← get
      dataOut (s.ram addr) (s.ram (addr + 1))
      outsw wordCnt (addr + 2)

/-! ## `ide.c` -/

/-- `intr_hd_handler`, if the controller has raised the interrupt. -/
def intrHdHandler : MachineCall Unit := do
  if (← get).ctl.intr then
    modify fun s => { s with ctl := { s.ctl with intr := false } }
    if (← get).expectingIntr then
      modify fun s => { s with expectingIntr := false }
      require ((← get).diskDone = 0)
      modify fun s => { s with diskDone := s.diskDone + 1 }
      let _ ← inbStatus

/-- `sema_down(&hd->my_channel->disk_done)`, which waits for an interrupt. -/
def semaDown : MachineCall Unit := do
  intrHdHandler
  if (← get).diskDone = 0 then
    throw .diverges
  modify fun s => { s with diskDone := s.diskDone - 1 }
  require ((← get).diskDone = 0)

/-- The bits of the device register for a disk. -/
def regDevice (hd : Fin 2) : Byte := 0xa0 ||| 0x40 ||| (if hd = 1 then 0x10 else 0)

/-- `select_disk`. -/
def selectDisk (hd : Fin 2) : MachineCall Unit :=
  outb .dev (regDevice hd)

/-- `select_sector`. -/
def selectSector (hd : Fin 2) (lba : Word) (secCnt : Byte) : MachineCall Unit := do
  require (lba.toNat ≤ maxLba)
  outb .sectCnt secCnt
  outb .lbaL (lba.setWidth 8)
  outb .lbaM ((lba >>> 8).setWidth 8)
  outb .lbaH ((lba >>> 16).setWidth 8)
  outb .dev (regDevice hd ||| (lba >>> 24).setWidth 8)

/-- `cmd_out`. -/
def cmdOut (cmd : Byte) : MachineCall Unit := do
  modify fun s => { s with expectingIntr := true }
  outb .cmd cmd

/-- `size_in_byte` of a count of eight bits. -/
def sizeInByte (secCnt : Byte) : Nat :=
  if secCnt = 0 then 256 * 512 else secCnt.toNat * 512

/-- `read_from_sector`. -/
def readFromSector (buf : Word) (secCnt : Byte) : MachineCall Unit :=
  insw (sizeInByte secCnt / 2) buf

/-- `write2sector`. -/
def write2sector (buf : Word) (secCnt : Byte) : MachineCall Unit :=
  outsw (sizeInByte secCnt / 2) buf

/-- The loop of `busy_wait`, with the rounds that are left. -/
def busyWaitFrom : Nat → MachineCall Bool
  | 0 => return false
  | rounds + 1 => do
      if (← inbStatus).getLsbD 7 then
        busyWaitFrom rounds
      else
        return (← inbStatus).getLsbD 3

/-- `busy_wait`. The condition `time_limit -= 10 >= 0` takes one off in every round, and is false
when nothing is left of 30000. -/
def busyWait : MachineCall Bool := busyWaitFrom 29999

/-- `secs_op`. -/
def secsOp (secCnt secsDone : Word) : Word :=
  if secsDone + 256 ≤ secCnt then 256 else secCnt - secsDone

/-- A round of `ide_read`. -/
def readRound (hd : Fin 2) (lba buf secsDone secsOp : Word) : MachineCall Unit := do
  selectSector hd (lba + secsDone) (secsOp.setWidth 8)
  cmdOut 0x20
  semaDown
  require ((← busyWait) = true)
  readFromSector (buf + secsDone * 512) (secsOp.setWidth 8)

/-- A round of `ide_write`. -/
def writeRound (hd : Fin 2) (lba buf secsDone secsOp : Word) : MachineCall Unit := do
  selectSector hd (lba + secsDone) (secsOp.setWidth 8)
  cmdOut 0x30
  require ((← busyWait) = true)
  write2sector (buf + secsDone * 512) (secsOp.setWidth 8)
  semaDown

/-- The loop of `ide_read` and `ide_write`; each round moves a sector at least. -/
def rounds (round : Word → Word → MachineCall Unit) (secCnt : Word) :
    Nat → Word → MachineCall Unit
  | 0, _ => throw .diverges
  | fuel + 1, secsDone => do
      if secsDone < secCnt then
        round secsDone (secsOp secCnt secsDone)
        rounds round secCnt fuel (secsDone + secsOp secCnt secsDone)

/-- `ide_read`. -/
def ideRead (hd : Fin 2) (lba buf secCnt : Word) : MachineCall Unit := do
  require (lba.toNat ≤ maxLba)
  require (secCnt > 0)
  selectDisk hd
  rounds (readRound hd lba buf) secCnt (secCnt.toNat + 1) 0

/-- `ide_write`. -/
def ideWrite (hd : Fin 2) (lba buf secCnt : Word) : MachineCall Unit := do
  require (lba.toNat ≤ maxLba)
  require (secCnt > 0)
  selectDisk hd
  rounds (writeRound hd lba buf) secCnt (secCnt.toNat + 1) 0

/-! ## Ranges of memory -/

/-- Store bytes from an address on. -/
def storeBytes (ram : Word → Byte) (addr : Word) (src : Memory) (len : Nat) : Word → Byte :=
  fun a => if (a - addr).toNat < len then src (a - addr).toNat else ram a

/-- The bytes from an address on. -/
def bytesFrom (ram : Word → Byte) (addr : Word) : Memory :=
  fun i => ram (addr + BitVec.ofNat 32 i)

section Ranges

variable {ram : Word → Byte} {addr : Word} {src disk : Memory} {pos n k : Nat}

theorem storeBytes_zero : storeBytes ram addr src 0 = ram := by
  funext a
  exact if_neg (Nat.not_lt_zero _)

theorem storeBytes_two : storeBytes ram addr src 2 =
    Function.update (Function.update ram addr (src 0)) (addr + 1) (src 1) := by
  funext a
  unfold storeBytes
  by_cases second : a = addr + 1
  · have off : (a - addr).toNat = 1 := by
      rw [second, BitVec.add_comm, BitVec.add_sub_cancel]
      rfl
    rw [off, if_pos Nat.one_lt_two, second, Function.update_self]
  · rw [Function.update_of_ne second]
    by_cases first : a = addr
    · have off : (a - addr).toNat = 0 := by
        rw [first, BitVec.sub_self]
        rfl
      rw [off, if_pos Nat.two_pos, first, Function.update_self]
    · rw [Function.update_of_ne first]
      apply if_neg
      bv_omega

/-- Two ranges behind each other. -/
theorem storeBytes_add (fits : n + k ≤ 2 ^ 32) :
    storeBytes (storeBytes ram addr src n) (addr + BitVec.ofNat 32 n) (fun i => src (n + i)) k =
      storeBytes ram addr src (n + k) := by
  rcases Nat.eq_zero_or_pos k with rfl | some_
  · exact storeBytes_zero
  · funext a
    have off : (a - (addr + BitVec.ofNat 32 n)).toNat =
        ((a - addr).toNat + (2 ^ 32 - n)) % 2 ^ 32 := by
      rw [← BitVec.sub_sub, BitVec.toNat_sub, BitVec.toNat_ofNat,
        Nat.mod_eq_of_lt (show n < 2 ^ 32 by omega), Nat.add_comm]
    have small := (a - addr).isLt
    unfold storeBytes
    rw [off]
    generalize (a - addr).toNat = d at *
    by_cases before : d < n
    · rw [if_neg (by omega), if_pos before, if_pos (by omega)]
    · rw [show (d + (2 ^ 32 - n)) % 2 ^ 32 = d - n by omega, if_neg before]
      dsimp only
      rw [Nat.add_sub_cancel' (Nat.not_lt.mp before)]
      by_cases inside : d < n + k
      · rw [if_pos (by omega), if_pos inside]
      · rw [if_neg (by omega), if_neg inside]

/-- The bytes that were stored. -/
theorem bytesFrom_storeBytes {i : Nat} (fits : n ≤ 2 ^ 32) (small : i < n) :
    bytesFrom (storeBytes ram addr src n) addr i = src i := by
  have off : (addr + BitVec.ofNat 32 i - addr).toNat = i := by
    rw [BitVec.add_comm, BitVec.add_sub_cancel, BitVec.toNat_ofNat, Nat.mod_eq_of_lt (by omega)]
  unfold bytesFrom storeBytes
  rw [off, if_pos small]

theorem splice_two : disk.splice pos src 2 =
    Function.update (Function.update disk pos (src 0)) (pos + 1) (src 1) := by
  funext i
  by_cases second : i = pos + 1
  · rw [second, Function.update_self, Memory.splice_inside (by omega) (by omega),
      Nat.add_sub_cancel_left]
  · rw [Function.update_of_ne second]
    by_cases first : i = pos
    · rw [first, Function.update_self, Memory.splice_inside (by omega) (by omega), Nat.sub_self]
    · rw [Function.update_of_ne first, Memory.splice_outside (by omega)]

theorem splice_add : (disk.splice pos src n).splice (pos + n) (fun i => src (n + i)) k =
    disk.splice pos src (n + k) := by
  funext i
  by_cases before : i < pos + n
  · rw [Memory.splice_outside (.inl before)]
    by_cases inside : pos ≤ i
    · rw [Memory.splice_inside inside before, Memory.splice_inside inside (by omega)]
    · rw [Memory.splice_outside (by omega), Memory.splice_outside (by omega)]
  · by_cases inside : i < pos + (n + k)
    · rw [Memory.splice_inside (by omega) (by omega), Memory.splice_inside (by omega) inside,
        show n + (i - (pos + n)) = i - pos by omega]
    · rw [Memory.splice_outside (by omega), Memory.splice_outside (by omega),
        Memory.splice_outside (by omega)]

end Ranges

/-! ## The data port -/

section Port

variable {s : Machine} {hd : Fin 2} {pos : Nat}

/-- `insw` stores the words that the command has left. -/
theorem insw_run {wordCnt : Nat} {addr : Word} (fits : 2 * wordCnt ≤ 2 ^ 32)
    (reads : s.ctl.transfer = some ⟨false, hd, pos, wordCnt⟩) :
    ∃ s', (insw wordCnt addr).run s = .ok ((), s') ∧ s'.diskDone = s.diskDone ∧
      s'.ctl.disks = s.ctl.disks ∧
      s'.ram = storeBytes s.ram addr (fun i => s.ctl.disks hd (pos + i)) (2 * wordCnt) := by
  induction wordCnt generalizing s pos addr with
  | zero => exact ⟨s, rfl, rfl, rfl, storeBytes_zero.symm⟩
  | succ wordCnt ih =>
      let src : Memory := fun i => s.ctl.disks hd (pos + i)
      let middle : Machine := { s with
        ctl := { s.ctl with transfer := some ⟨false, hd, pos + 2, wordCnt⟩ }
        ram := Function.update (Function.update s.ram addr (src 0)) (addr + 1) (src 1) }
      have word : dataIn.run s = .ok ((src 0, src 1),
          { s with ctl := { s.ctl with transfer := some ⟨false, hd, pos + 2, wordCnt⟩ } }) := by
        rw [dataIn, call_bind_of (call_get_returns.mpr ⟨rfl, rfl⟩), reads]
        rfl
      have first : (insw (wordCnt + 1) addr).run s = (insw wordCnt (addr + 2)).run middle := by
        rw [insw, call_bind_of word]
        exact call_bind_of (call_modify_returns.mpr rfl)
      obtain ⟨s', ran, done, disks, ram⟩ := @ih middle (pos + 2) (addr + 2) (by omega) rfl
      refine ⟨s', first.trans ran, done, disks, ram.trans ?_⟩
      have rest : (fun i => middle.ctl.disks hd (pos + 2 + i)) = fun i => src (2 + i) := by
        funext i
        exact congrArg (s.ctl.disks hd) (Nat.add_assoc pos 2 i)
      have two : middle.ram = storeBytes s.ram addr src 2 := storeBytes_two.symm
      rw [rest, two, show 2 * (wordCnt + 1) = 2 + 2 * wordCnt by omega]
      exact storeBytes_add (by omega)

/-- `outsw` writes the words that the command has left, and the interrupt is raised. -/
theorem outsw_run {wordCnt : Nat} {addr : Word} (some_ : 0 < wordCnt)
    (writes : s.ctl.transfer = some ⟨true, hd, pos, wordCnt⟩) :
    ∃ s', (outsw wordCnt addr).run s = .ok ((), s') ∧ s'.diskDone = s.diskDone ∧
      s'.expectingIntr = s.expectingIntr ∧ s'.ctl.intr = true ∧ s'.ram = s.ram ∧
      s'.ctl.disks = Function.update s.ctl.disks hd
        ((s.ctl.disks hd).splice pos (bytesFrom s.ram addr) (2 * wordCnt)) := by
  induction wordCnt generalizing s pos addr with
  | zero => exact absurd some_ (Nat.lt_irrefl 0)
  | succ wordCnt ih =>
      let src : Memory := bytesFrom s.ram addr
      let middle : Machine := { s with ctl := { s.ctl with
        transfer := some ⟨true, hd, pos + 2, wordCnt⟩
        intr := wordCnt = 0
        disks := Function.update s.ctl.disks hd ((s.ctl.disks hd).splice pos src 2) } }
      have word : (dataOut (s.ram addr) (s.ram (addr + 1))).run s = .ok ((), middle) := by
        have zero : s.ram addr = src 0 := congrArg s.ram (BitVec.add_zero addr).symm
        rw [dataOut, call_bind_of (call_get_returns.mpr ⟨rfl, rfl⟩), writes, zero,
          show s.ram (addr + 1) = src 1 from rfl]
        dsimp only
        rw [← splice_two]
        rfl
      have first : (outsw (wordCnt + 1) addr).run s = (outsw wordCnt (addr + 2)).run middle := by
        rw [outsw, call_bind_of (call_get_returns.mpr ⟨rfl, rfl⟩)]
        exact call_bind_of word
      rcases Nat.eq_zero_or_pos wordCnt with rfl | more
      · exact ⟨middle, first, rfl, rfl, rfl, rfl, rfl⟩
      · obtain ⟨s', ran, done, expecting, intr, ram, disks⟩ :=
          @ih middle (pos + 2) (addr + 2) more rfl
        refine ⟨s', first.trans ran, done, expecting, intr, ram, disks.trans ?_⟩
        have rest : bytesFrom middle.ram (addr + 2) = fun i => src (2 + i) := by
          funext i
          change s.ram (addr + 2 + BitVec.ofNat 32 i) = s.ram (addr + BitVec.ofNat 32 (2 + i))
          rw [BitVec.ofNat_add, BitVec.add_assoc]
          rfl
        have here : middle.ctl.disks hd = (s.ctl.disks hd).splice pos src 2 :=
          Function.update_self ..
        rw [rest, here, splice_add, Function.update_idem,
          show 2 + 2 * wordCnt = 2 * (wordCnt + 1) by omega]

/-! ## Waiting for the controller -/

/-- `busy_wait` waits until the controller is ready. -/
theorem busyWaitFrom_run {rounds : Nat} (inTime : s.ctl.busy < rounds)
    (more : s.ctl.transfer.any (0 < ·.left) = true) :
    (busyWaitFrom rounds).run s =
      .ok (true, { s with ctl := { s.ctl with busy := 0 } }) := by
  induction rounds generalizing s with
  | zero => exact absurd inTime (Nat.not_lt_zero _)
  | succ rounds ih =>
      have poll : ∀ s : Machine, inbStatus.run s =
        .ok (s.ctl.status, { s with ctl := s.ctl.polled }) := fun _ => rfl
      rw [busyWaitFrom, call_bind_of (poll s)]
      by_cases busy : 0 < s.ctl.busy
      · have status : s.ctl.status = 0x80 := if_pos busy
        rw [status, if_pos (by decide)]
        have less : s.ctl.polled.busy < rounds := by
          change s.ctl.busy - 1 < rounds
          omega
        exact ih less more
      · have status : s.ctl.status = 0x48 := (if_neg busy).trans (if_pos more)
        have zero : s.ctl.busy = 0 := Nat.eq_zero_of_not_pos busy
        have still : s.ctl.polled = { s.ctl with busy := 0 } := by
          unfold Controller.polled
          rw [zero]
        have again : s.ctl.polled.status = 0x48 := by
          rw [still]
          exact (if_neg (Nat.lt_irrefl 0)).trans (if_pos more)
        rw [status, if_neg (by decide), call_bind_of (poll _)]
        dsimp only
        rw [again]
        unfold Controller.polled
        rw [zero]
        rfl

/-- `sema_down` takes the interrupt of the command. -/
theorem semaDown_run (idle : s.diskDone = 0) (intr : s.ctl.intr = true)
    (expecting : s.expectingIntr = true) :
    semaDown.run s = .ok ((), { s with
      ctl := { s.ctl with intr := false, busy := s.ctl.busy - 1 }
      expectingIntr := false }) := by
  obtain ⟨⟨sectCnt, lbaL, lbaM, lbaH, dev, transfer, busy, latency, raised, disks, inTime⟩, ram,
    expectingIntr, diskDone⟩ := s
  change diskDone = 0 at idle
  change raised = true at intr
  change expectingIntr = true at expecting
  subst idle intr expecting
  rfl

end Port

/-! ## Selecting sectors -/

section Select

variable {s : Machine} {hd : Fin 2} {lba : Word}

/-- The registers after `select_sector`. -/
def Controller.select (ctl : Controller) (hd : Fin 2) (lba : Word) (secCnt : Byte) : Controller :=
  { ctl with
    sectCnt := secCnt
    lbaL := lba.setWidth 8
    lbaM := (lba >>> 8).setWidth 8
    lbaH := (lba >>> 16).setWidth 8
    dev := regDevice hd ||| (lba >>> 24).setWidth 8 }

theorem selectSector_run (small : lba.toNat ≤ maxLba) (secCnt : Byte) :
    (selectSector hd lba secCnt).run s =
      .ok ((), { s with ctl := s.ctl.select hd lba secCnt }) := by
  rw [selectSector, call_bind_of (call_lift_returns.mpr ⟨require_of small, rfl⟩)]
  rfl

/-- The registers hold the disk and the whole address. -/
theorem select_address (small : lba.toNat ≤ maxLba) (ctl : Controller) (secCnt : Byte) :
    (ctl.select hd lba secCnt).address = lba.toNat ∧
      (ctl.select hd lba secCnt).selected = hd ∧
      (ctl.select hd lba secCnt).dev.getLsbD 6 = true := by
  have below : lba.toNat < 2 ^ 24 := Nat.lt_of_le_of_lt small (by decide)
  have high : lba >>> 24 = 0#32 := by
    apply BitVec.eq_of_toNat_eq
    rw [BitVec.toNat_ushiftRight, Nat.shiftRight_eq_div_pow, Nat.div_eq_of_lt below]
    rfl
  have dev : (ctl.select hd lba secCnt).dev = regDevice hd := by
    change regDevice hd ||| (lba >>> 24).setWidth 8 = regDevice hd
    rw [high]
    exact BitVec.or_zero
  have bits : ∀ hd : Fin 2, (regDevice hd).toNat % 16 = 0 ∧
      (if (regDevice hd).getLsbD 4 then (1 : Fin 2) else 0) = hd ∧
      (regDevice hd).getLsbD 6 = true := by
    decide
  obtain ⟨low, selected, mode⟩ := bits hd
  refine ⟨?_, ?_, ?_⟩
  · unfold Controller.address
    rw [dev, low]
    change (lba.setWidth 8).toNat + 2 ^ 8 * ((lba >>> 8).setWidth 8).toNat +
      2 ^ 16 * ((lba >>> 16).setWidth 8).toNat + 2 ^ 24 * 0 = lba.toNat
    rw [BitVec.toNat_setWidth, BitVec.toNat_setWidth, BitVec.toNat_setWidth,
      BitVec.toNat_ushiftRight, BitVec.toNat_ushiftRight, Nat.shiftRight_eq_div_pow,
      Nat.shiftRight_eq_div_pow]
    omega
  · unfold Controller.selected
    rw [dev]
    exact selected
  · rw [dev]
    exact mode

/-- The count of eight bits stands for the number of sectors of a round. -/
theorem count_setWidth {secsOp : Word} (some_ : 1 ≤ secsOp.toNat) (most : secsOp.toNat ≤ 256) :
    (if secsOp.setWidth 8 = 0 then 256 else (secsOp.setWidth 8).toNat) = secsOp.toNat := by
  have low : (secsOp.setWidth 8).toNat = secsOp.toNat % 256 := BitVec.toNat_setWidth ..
  by_cases zero : secsOp.setWidth 8 = 0
  · rw [if_pos zero]
    rw [zero] at low
    change 0 = secsOp.toNat % 256 at low
    omega
  · rw [if_neg zero, low]
    have notZero : (secsOp.setWidth 8).toNat ≠ 0 := fun is => zero (BitVec.eq_of_toNat_eq is)
    omega

theorem sizeInByte_setWidth {secsOp : Word} (some_ : 1 ≤ secsOp.toNat)
    (most : secsOp.toNat ≤ 256) : sizeInByte (secsOp.setWidth 8) = 512 * secsOp.toNat := by
  rw [← count_setWidth some_ most, sizeInByte]
  split
  · rfl
  · exact Nat.mul_comm _ _

theorem cmdOut_run {cmd : Byte} (mode : s.ctl.dev.getLsbD 6 = true)
    (is : cmd = 0x20 ∨ cmd = 0x30) :
    (cmdOut cmd).run s = .ok ((), { s with
      ctl := { s.ctl with
        transfer := some ⟨cmd = 0x30, s.ctl.selected, 512 * s.ctl.address, 256 * s.ctl.count⟩
        busy := s.ctl.latency
        intr := cmd = 0x20 }
      expectingIntr := true }) := by
  have command : s.ctl.store .cmd cmd = .ok { s.ctl with
      transfer := some ⟨cmd = 0x30, s.ctl.selected, 512 * s.ctl.address, 256 * s.ctl.count⟩
      busy := s.ctl.latency
      intr := cmd = 0x20 } := by
    change s.ctl.command cmd = _
    rw [Controller.command, require_of ⟨mode, is⟩]
    rfl
  rw [cmdOut, call_bind_of (call_modify_returns.mpr rfl), outb,
    call_bind_of (call_get_returns.mpr ⟨rfl, rfl⟩),
    call_bind_of (call_lift_returns.mpr ⟨command, rfl⟩)]
  rfl

/-- A command is carried out with the sectors that were selected. -/
theorem issue_run {cmd : Byte} {secsOp : Word} (small : lba.toNat ≤ maxLba)
    (some_ : 1 ≤ secsOp.toNat) (most : secsOp.toNat ≤ 256) (is : cmd = 0x20 ∨ cmd = 0x30) :
    ∃ s', (cmdOut cmd).run { s with ctl := s.ctl.select hd lba (secsOp.setWidth 8) } =
        .ok ((), s') ∧
      s'.ctl.transfer = some ⟨cmd = 0x30, hd, 512 * lba.toNat, 256 * secsOp.toNat⟩ ∧
      s'.ctl.busy < 29999 ∧ s'.ctl.intr = decide (cmd = 0x20) ∧ s'.expectingIntr = true ∧
      s'.diskDone = s.diskDone ∧ s'.ctl.disks = s.ctl.disks ∧ s'.ram = s.ram := by
  obtain ⟨address, selected, mode⟩ := @select_address hd lba small s.ctl (secsOp.setWidth 8)
  have count : (s.ctl.select hd lba (secsOp.setWidth 8)).count = secsOp.toNat :=
    count_setWidth some_ most
  refine ⟨_, cmdOut_run mode is, ?_, s.ctl.inTime, rfl, rfl, rfl, rfl, rfl⟩
  dsimp only
  rw [selected, address, count]

end Select

/-! ## A round -/

section Round

variable {s : Machine} {hd : Fin 2} {lba buf secsDone secsOp : Word}

/-- A round of `ide_read` stores the sectors in memory. -/
theorem readRound_run (idle : s.diskDone = 0) (small : (lba + secsDone).toNat ≤ maxLba)
    (some_ : 1 ≤ secsOp.toNat) (most : secsOp.toNat ≤ 256) :
    ∃ s', (readRound hd lba buf secsDone secsOp).run s = .ok ((), s') ∧ s'.diskDone = 0 ∧
      s'.ctl.disks = s.ctl.disks ∧
      s'.ram = storeBytes s.ram (buf + secsDone * 512)
        (Fs.ideRead (s.ctl.disks hd) (lba + secsDone).toNat) (512 * secsOp.toNat) := by
  obtain ⟨issued, ran, transfer, inTime, intr, expecting, still, disks, ram⟩ :=
    @issue_run s hd _ 0x20 secsOp small some_ most (.inl rfl)
  let down : Machine := { issued with
    ctl := { issued.ctl with intr := false, busy := issued.ctl.busy - 1 }
    expectingIntr := false }
  let up : Machine := { down with ctl := { down.ctl with busy := 0 } }
  have downs : semaDown.run issued = .ok ((), down) :=
    semaDown_run (still.trans idle) intr expecting
  have ready : busyWait.run down = .ok (true, up) := by
    apply busyWaitFrom_run
    · exact Nat.lt_of_le_of_lt (Nat.sub_le _ _) inTime
    · change issued.ctl.transfer.any _ = true
      rw [transfer]
      exact decide_eq_true (by dsimp only; omega)
  have words : sizeInByte (secsOp.setWidth 8) / 2 = 256 * secsOp.toNat := by
    rw [sizeInByte_setWidth some_ most]
    omega
  obtain ⟨s', reads, done, disks', ram'⟩ := @insw_run up hd (512 * (lba + secsDone).toNat)
    (256 * secsOp.toNat) (buf + secsDone * 512) (by omega) transfer
  have disk : up.ctl.disks = s.ctl.disks := disks
  have memory : up.ram = s.ram := ram
  refine ⟨s', ?_, done.trans (still.trans idle), disks'.trans disk, ?_⟩
  · rw [readRound, call_bind_of (selectSector_run small _), call_bind_of ran, call_bind_of downs,
      call_bind_of ready, call_bind_of (call_lift_returns.mpr ⟨require_of rfl, rfl⟩),
      readFromSector, words]
    exact reads
  · rw [ram', disk, memory, show 2 * (256 * secsOp.toNat) = 512 * secsOp.toNat by omega]
    rfl

/-- A round of `ide_write` writes the sectors from memory. -/
theorem writeRound_run (idle : s.diskDone = 0) (small : (lba + secsDone).toNat ≤ maxLba)
    (some_ : 1 ≤ secsOp.toNat) (most : secsOp.toNat ≤ 256) :
    ∃ s', (writeRound hd lba buf secsDone secsOp).run s = .ok ((), s') ∧ s'.diskDone = 0 ∧
      s'.ram = s.ram ∧ s'.ctl.disks = Function.update s.ctl.disks hd
        (Fs.ideWrite (s.ctl.disks hd) (lba + secsDone).toNat
          (bytesFrom s.ram (buf + secsDone * 512)) secsOp.toNat) := by
  obtain ⟨issued, ran, transfer, inTime, intr, expecting, still, disks, ram⟩ :=
    @issue_run s hd _ 0x30 secsOp small some_ most (.inr rfl)
  let up : Machine := { issued with ctl := { issued.ctl with busy := 0 } }
  have ready : busyWait.run issued = .ok (true, up) := by
    apply busyWaitFrom_run inTime
    rw [transfer]
    exact decide_eq_true (by dsimp only; omega)
  have words : sizeInByte (secsOp.setWidth 8) / 2 = 256 * secsOp.toNat := by
    rw [sizeInByte_setWidth some_ most]
    omega
  obtain ⟨written, writes, done, expecting', intr', ram', disks'⟩ :=
    @outsw_run up hd (512 * (lba + secsDone).toNat) (256 * secsOp.toNat) (buf + secsDone * 512)
      (by omega) transfer
  have disk : up.ctl.disks = s.ctl.disks := disks
  have memory : up.ram = s.ram := ram
  let down : Machine := { written with
    ctl := { written.ctl with intr := false, busy := written.ctl.busy - 1 }
    expectingIntr := false }
  have downs : semaDown.run written = .ok ((), down) :=
    semaDown_run (done.trans (still.trans idle)) intr' (expecting'.trans expecting)
  refine ⟨down, ?_, done.trans (still.trans idle), ram'.trans memory, ?_⟩
  · rw [writeRound, call_bind_of (selectSector_run small _), call_bind_of ran, call_bind_of ready,
      call_bind_of (call_lift_returns.mpr ⟨require_of rfl, rfl⟩), write2sector, words,
      call_bind_of writes]
    exact downs
  · refine disks'.trans ?_
    rw [disk, memory, show 2 * (256 * secsOp.toNat) = 512 * secsOp.toNat by omega]
    rfl

end Round

/-! ## The loops -/

/-- A round that moves some sectors leads from what holds for the sectors before to what holds for
all up to them; the loop comes to its end. -/
theorem rounds_run {round : Word → Word → MachineCall Unit} {secCnt : Word}
    (few : secCnt.toNat < 2 ^ 31) {Inv : Nat → Machine → Prop}
    (step : ∀ secsDone secsOp : Word, ∀ s, Inv secsDone.toNat s → 1 ≤ secsOp.toNat →
      secsOp.toNat ≤ 256 → secsDone.toNat + secsOp.toNat ≤ secCnt.toNat →
      ∃ s', (round secsDone secsOp).run s = .ok ((), s') ∧
        Inv (secsDone.toNat + secsOp.toNat) s')
    {fuel : Nat} {secsDone : Word} (within : secsDone.toNat ≤ secCnt.toNat)
    (enough : secCnt.toNat < fuel + secsDone.toNat) {s : Machine} (inv : Inv secsDone.toNat s) :
    ∃ s', (rounds round secCnt fuel secsDone).run s = .ok ((), s') ∧ Inv secCnt.toNat s' := by
  induction fuel generalizing secsDone s with
  | zero => omega
  | succ fuel ih =>
      by_cases more : secsDone < secCnt
      · have op : 1 ≤ (secsOp secCnt secsDone).toNat ∧ (secsOp secCnt secsDone).toNat ≤ 256 ∧
            secsDone.toNat + (secsOp secCnt secsDone).toNat ≤ secCnt.toNat := by
          unfold secsOp
          split <;> bv_omega
        obtain ⟨some_, most, inside⟩ := op
        obtain ⟨middle, ran, inv⟩ := step secsDone _ s inv some_ most inside
        have next : (secsDone + secsOp secCnt secsDone).toNat =
            secsDone.toNat + (secsOp secCnt secsDone).toNat := by
          rw [BitVec.toNat_add, Nat.mod_eq_of_lt (by omega)]
        rw [← next] at inside inv
        have closer : secCnt.toNat < fuel + (secsDone + secsOp secCnt secsDone).toNat := by
          omega
        obtain ⟨s', rest, inv⟩ := ih inside closer inv
        refine ⟨s', ?_, inv⟩
        rw [rounds, if_pos more, call_bind_of ran]
        exact rest
      · have all : secsDone.toNat = secCnt.toNat := by
          bv_omega
        rw [all] at inv
        refine ⟨s, ?_, inv⟩
        rw [rounds, if_neg more]
        rfl

section Calls

variable {s : Machine} {hd : Fin 2} {lba buf secCnt : Word}

/-- The address of a round. -/
theorem toNat_add_of_inside {secsDone : Word} (inside : lba.toNat + secsDone.toNat ≤ maxLba) :
    (lba + secsDone).toNat = lba.toNat + secsDone.toNat := by
  rw [BitVec.toNat_add, Nat.mod_eq_of_lt (Nat.lt_of_le_of_lt inside (by decide))]

/-- The offset of a round in the buffer. -/
theorem mul_sectorSize {secsDone : Word} :
    secsDone * 512 = BitVec.ofNat 32 (512 * secsDone.toNat) := by
  rw [BitVec.ofNat_mul, BitVec.ofNat_toNat, BitVec.setWidth_eq, BitVec.mul_comm]
  rfl

theorem selectDisk_run : (selectDisk hd).run s =
    .ok ((), { s with ctl := { s.ctl with dev := regDevice hd } }) := rfl

/-- `ide_read` fills the buffer with the sectors, and changes nothing else. -/
theorem ideRead_run (idle : s.diskDone = 0) (some_ : 1 ≤ secCnt.toNat)
    (inside : lba.toNat + secCnt.toNat ≤ maxLba) :
    ∃ s', (ideRead hd lba buf secCnt).run s = .ok ((), s') ∧ s'.diskDone = 0 ∧
      s'.ctl.disks = s.ctl.disks ∧ s'.ram = storeBytes s.ram buf
        (Fs.ideRead (s.ctl.disks hd) lba.toNat) (512 * secCnt.toNat) := by
  have limit : maxLba < 2 ^ 18 := by decide
  have positive : secCnt > 0 := by bv_omega
  let Inv : Nat → Machine → Prop := fun done s' => s'.diskDone = 0 ∧
    s'.ctl.disks = s.ctl.disks ∧ s'.ram = storeBytes s.ram buf
      (Fs.ideRead (s.ctl.disks hd) lba.toNat) (512 * done)
  obtain ⟨s', ran, inv⟩ := @rounds_run (readRound hd lba buf) secCnt (by omega) Inv
    (by
      rintro secsDone secsOp middle ⟨idle, disks, ram⟩ some_ most within
      have address : (lba + secsDone).toNat = lba.toNat + secsDone.toNat :=
        toNat_add_of_inside (by omega)
      obtain ⟨next, ran, idle, disks', ram'⟩ :=
        @readRound_run middle hd lba buf secsDone secsOp idle (by omega) some_ most
      refine ⟨next, ran, idle, disks'.trans disks, ?_⟩
      have sectors : Fs.ideRead (s.ctl.disks hd) (lba.toNat + secsDone.toNat) =
          fun i => Fs.ideRead (s.ctl.disks hd) lba.toNat (512 * secsDone.toNat + i) := by
        funext i
        unfold Fs.ideRead
        congr 1
        omega
      rw [ram', ram, disks, address, mul_sectorSize, sectors, storeBytes_add (by omega),
        Nat.mul_add])
    (secCnt.toNat + 1) 0 (Nat.zero_le _) (by bv_omega)
    { s with ctl := { s.ctl with dev := regDevice hd } } ⟨idle, rfl, storeBytes_zero.symm⟩
  refine ⟨s', ?_, inv⟩
  rw [ideRead, call_bind_of (call_lift_returns.mpr ⟨require_of (by omega), rfl⟩),
    call_bind_of (call_lift_returns.mpr ⟨require_of positive, rfl⟩), call_bind_of selectDisk_run]
  exact ran

/-- `ide_write` writes the sectors from the buffer, and changes nothing else. -/
theorem ideWrite_run (idle : s.diskDone = 0) (some_ : 1 ≤ secCnt.toNat)
    (inside : lba.toNat + secCnt.toNat ≤ maxLba) :
    ∃ s', (ideWrite hd lba buf secCnt).run s = .ok ((), s') ∧ s'.diskDone = 0 ∧
      s'.ram = s.ram ∧ s'.ctl.disks = Function.update s.ctl.disks hd
        (Fs.ideWrite (s.ctl.disks hd) lba.toNat (bytesFrom s.ram buf) secCnt.toNat) := by
  have limit : maxLba < 2 ^ 18 := by decide
  have positive : secCnt > 0 := by bv_omega
  let Inv : Nat → Machine → Prop := fun done s' => s'.diskDone = 0 ∧ s'.ram = s.ram ∧
    s'.ctl.disks = Function.update s.ctl.disks hd
      (Fs.ideWrite (s.ctl.disks hd) lba.toNat (bytesFrom s.ram buf) done)
  have nothing : Fs.ideWrite (s.ctl.disks hd) lba.toNat (bytesFrom s.ram buf) 0 =
      s.ctl.disks hd := by
    funext i
    exact Memory.splice_outside (by omega)
  obtain ⟨s', ran, inv⟩ := @rounds_run (writeRound hd lba buf) secCnt (by omega) Inv
    (by
      rintro secsDone secsOp middle ⟨idle, ram, disks⟩ some_ most within
      have address : (lba + secsDone).toNat = lba.toNat + secsDone.toNat :=
        toNat_add_of_inside (by omega)
      obtain ⟨next, ran, idle, ram', disks'⟩ :=
        @writeRound_run middle hd lba buf secsDone secsOp idle (by omega) some_ most
      refine ⟨next, ran, idle, ram'.trans ram, ?_⟩
      have bytes : bytesFrom s.ram (buf + BitVec.ofNat 32 (512 * secsDone.toNat)) =
          fun i => bytesFrom s.ram buf (512 * secsDone.toNat + i) := by
        funext i
        unfold bytesFrom
        rw [BitVec.ofNat_add, BitVec.add_assoc]
      rw [disks', ram, disks, Function.update_self, Function.update_idem, address, mul_sectorSize,
        bytes, Fs.ideWrite, Fs.ideWrite, Nat.mul_add, splice_add, ← Nat.mul_add]
      rfl)
    (secCnt.toNat + 1) 0 (Nat.zero_le _) (by bv_omega)
    { s with ctl := { s.ctl with dev := regDevice hd } }
    ⟨idle, rfl, by
      rw [show (0 : Word).toNat = 0 from rfl, nothing, Function.update_eq_self]⟩
  refine ⟨s', ?_, inv⟩
  rw [ideWrite, call_bind_of (call_lift_returns.mpr ⟨require_of (by omega), rfl⟩),
    call_bind_of (call_lift_returns.mpr ⟨require_of positive, rfl⟩), call_bind_of selectDisk_run]
  exact ran

/-- **Writing sectors and reading them back.** `ide_write` of any number of sectors sets these to
the slices of the buffer and changes no other sector of either disk, and `ide_read` then fills a
buffer with the same bytes. -/
theorem ideWrite_ideRead (idle : s.diskDone = 0) (some_ : 1 ≤ secCnt.toNat)
    (inside : lba.toNat + secCnt.toNat ≤ maxLba) (buf2 : Word) :
    ∃ written read, (ideWrite hd lba buf secCnt).run s = .ok ((), written) ∧
      (∀ hd' lba' i, i < sectorSize → written.ctl.disks hd' (512 * lba' + i) =
        if hd' = hd ∧ lba.toNat ≤ lba' ∧ lba' < lba.toNat + secCnt.toNat then
          s.ram (buf + BitVec.ofNat 32 (512 * (lba' - lba.toNat) + i))
        else
          s.ctl.disks hd' (512 * lba' + i)) ∧
      (ideRead hd lba buf2 secCnt).run written = .ok ((), read) ∧
      ∀ i < 512 * secCnt.toNat,
        read.ram (buf2 + BitVec.ofNat 32 i) = s.ram (buf + BitVec.ofNat 32 i) := by
  obtain ⟨written, writes, idle', ram, disks⟩ := @ideWrite_run s hd lba buf secCnt idle some_ inside
  obtain ⟨read, reads, -, -, ram'⟩ := @ideRead_run written hd lba buf2 secCnt idle' some_ inside
  have limit : maxLba < 2 ^ 18 := by decide
  have size : sectorSize = 512 := rfl
  refine ⟨written, read, writes, fun hd' lba' i small => ?_, reads, fun i small => ?_⟩
  · rw [disks]
    by_cases same : hd' = hd
    · rw [same, Function.update_self, Fs.ideWrite]
      by_cases there : lba.toNat ≤ lba' ∧ lba' < lba.toNat + secCnt.toNat
      · rw [if_pos ⟨rfl, there⟩, Memory.splice_inside (by omega) (by omega),
          show 512 * lba' + i - 512 * lba.toNat = 512 * (lba' - lba.toNat) + i by omega]
        rfl
      · rw [if_neg (fun all => there all.2), Memory.splice_outside (by omega)]
    · rw [Function.update_of_ne same, if_neg (fun all => same all.1)]
  · have stored : read.ram (buf2 + BitVec.ofNat 32 i) =
        Fs.ideRead (written.ctl.disks hd) lba.toNat i := by
      rw [ram']
      exact bytesFrom_storeBytes (by omega) small
    have start : Fs.ideRead (written.ctl.disks hd) lba.toNat i = bytesFrom s.ram buf i := by
      rw [disks, Function.update_self, ideRead_ideWrite (Nat.le_refl _) (by omega), Nat.sub_self,
        Nat.mul_zero, Nat.zero_add]
    exact stored.trans start

end Calls

/-- A channel with two empty disks. -/
def emptyChannel : Machine where
  ctl :=
    { sectCnt := 0
      lbaL := 0
      lbaM := 0
      lbaH := 0
      dev := 0
      transfer := none
      busy := 0
      latency := 3
      intr := false
      disks := fun _ => Memory.zeros
      inTime := by decide }
  ram := fun a => a.setWidth 8
  expectingIntr := false
  diskDone := 0

/-- Two rounds, the first of 256 sectors. -/
theorem ideWrite_ideRead_rounds :
    ∃ written read, (ideWrite 1 1000 0x5000 300).run emptyChannel = .ok ((), written) ∧
      (∀ (hd : Fin 2) (lba i : Nat), i < sectorSize → written.ctl.disks hd (512 * lba + i) =
        if hd = 1 ∧ (1000 : Word).toNat ≤ lba ∧ lba < (1000 : Word).toNat + (300 : Word).toNat then
          emptyChannel.ram (0x5000 + BitVec.ofNat 32 (512 * (lba - (1000 : Word).toNat) + i))
        else
          emptyChannel.ctl.disks hd (512 * lba + i)) ∧
      (ideRead 1 1000 0x90000 300).run written = .ok ((), read) ∧
      ∀ i < 512 * (300 : Word).toNat,
        read.ram (0x90000 + BitVec.ofNat 32 i) = emptyChannel.ram (0x5000 + BitVec.ofNat 32 i) :=
  ideWrite_ideRead rfl (by decide) (by decide) 0x90000

end UKernel.Sectors
