import UKernel.Fs.Bitmap
import UKernel.Library.Call

/-! # What `bitmap_scan` looks at

The loop of `bitmap_scan` that counts free bits goes on to the bit behind the bitmap, so a scan for
several bits is right exactly if there is such a run, which then begins at an index that an `int`
can hold (`UKernel.BitmapScan.bitmapScan_correct_iff`).
-/

namespace UKernel.BitmapScan

open UKernel.Library UKernel.Fs

/-- `struct bitmap`. Its bits are numbered by `uint32_t`. -/
structure WordBitmap where
  btmpBytesLen : Word
  bits : Word → Byte
  numbered : 8 * btmpBytesLen.toNat < 2 ^ 32

namespace WordBitmap

variable (btmp : WordBitmap)

/-- Reading a byte of the bitmap; its index is recorded. -/
def look (idxByte : Word) : Call (List Word) Byte := do
  modify (idxByte :: ·)
  return btmp.bits idxByte

/-- `bitmap_scan_test`. -/
def bitmapScanTest (bitIdx : Word) : Call (List Word) Bool := do
  let byte ← btmp.look (bitIdx / 8)
  return byte.getLsbD (bitIdx % 8).toNat

/-- The loop of `bitmap_scan` over full bytes, with `left` bytes left; it looks at a byte before it
compares the index. -/
def skipFull : Nat → Word → Call (List Word) Word
  | 0, idxByte => do
      let _ ← btmp.look idxByte
      return idxByte
  | left + 1, idxByte => do
      if (← btmp.look idxByte) = 0xff then
        skipFull left (idxByte + 1)
      else
        return idxByte

/-- The loop of `bitmap_scan` inside a byte that is not full. The mask is zero after eight bits. -/
def skipSet (idxByte : Word) : Nat → Word → Call (List Word) Word
  | 0, idxBit => do
      let _ ← btmp.look idxByte
      return idxBit
  | left + 1, idxBit => do
      if (← btmp.look idxByte).getLsbD idxBit.toNat then
        skipSet idxByte left (idxBit + 1)
      else
        return idxBit

/-- The loop of `bitmap_scan` that counts consecutive free bits. -/
def scanRun (cnt : Word) : Nat → Word → Word → Call (List Word) Word
  | 0, _, _ => return -1
  | bitLeft + 1, nextBit, count => do
      let count := if ← btmp.bitmapScanTest nextBit then 0 else count + 1
      if count = cnt then
        return nextBit - cnt + 1
      scanRun cnt bitLeft (nextBit + 1) count

/-- `bitmap_scan`; the result is an `int`. -/
def bitmapScan (cnt : Word) : Call (List Word) Word := do
  let idxByte ← btmp.skipFull btmp.btmpBytesLen.toNat 0
  require (idxByte < btmp.btmpBytesLen)
  if idxByte = btmp.btmpBytesLen then
    return -1
  let idxBit ← btmp.skipSet idxByte 8 0
  let bitIdxStart := idxByte * 8 + idxBit
  if cnt = 1 then
    return bitIdxStart
  btmp.scanRun cnt (btmp.btmpBytesLen * 8 - bitIdxStart).toNat (bitIdxStart + 1) 1

/-- The bitmap with bits numbered by natural numbers. -/
def plain : Bitmap btmp.btmpBytesLen.toNat := ⟨fun i => btmp.bits (BitVec.ofNat 32 i)⟩

/-- The bits from `start` on are free and in the bitmap. -/
def FreeRun (cnt start : Nat) : Prop :=
  start + cnt ≤ 8 * btmp.btmpBytesLen.toNat ∧ ∀ k < cnt, btmp.plain.test (start + k) = false

/-- The least index from which enough bits of the bitmap are free, or -1. -/
def IsScan (cnt : Nat) (result : Int) : Prop :=
  (∃ start : Nat, result = start ∧ btmp.FreeRun cnt start ∧
    ∀ earlier < start, ¬ btmp.FreeRun cnt earlier) ∨
  result = -1 ∧ ∀ start, ¬ btmp.FreeRun cnt start

/-- The scan returns the least index, and looks at bytes of the bitmap only. -/
def ScanCorrect (cnt : Word) : Prop :=
  ∃ result looked, (btmp.bitmapScan cnt).run [] = .ok (result, looked) ∧
    btmp.IsScan cnt.toNat result.toInt ∧ ∀ idxByte ∈ looked, idxByte < btmp.btmpBytesLen

/-! ## The loops -/

section Loops

variable {btmp} {looked : List Word} {cnt : Word}

theorem look_run (idxByte : Word) :
    (btmp.look idxByte).run looked = .ok (btmp.bits idxByte, idxByte :: looked) := rfl

theorem length_lt : btmp.btmpBytesLen.toNat < 2 ^ 29 := by
  have numbered := btmp.numbered
  omega

theorem ofNat_succ (n : Nat) : BitVec.ofNat 32 n + 1 = BitVec.ofNat 32 (n + 1) :=
  (BitVec.ofNat_add n 1).symm

theorem le_skipFull (bits : Memory) (left idxByte : Nat) :
    idxByte ≤ Bitmap.skipFull bits left idxByte := by
  induction left generalizing idxByte with
  | zero => exact Nat.le_refl _
  | succ left ih =>
      rw [Bitmap.skipFull]
      split
      · exact Nat.le_of_succ_le (ih (idxByte + 1))
      · exact Nat.le_refl _

/-- The loop over full bytes looks at the bytes up to the one at which it stops. -/
theorem skipFull_run (left idxByte : Nat) : ∃ looked',
    (btmp.skipFull left (BitVec.ofNat 32 idxByte)).run looked =
      .ok (BitVec.ofNat 32 (Bitmap.skipFull btmp.plain.bits left idxByte), looked') ∧
    ∀ i ∈ looked', i ∈ looked ∨
      ∃ b ≤ Bitmap.skipFull btmp.plain.bits left idxByte, i = BitVec.ofNat 32 b := by
  induction left generalizing idxByte looked with
  | zero =>
      refine ⟨BitVec.ofNat 32 idxByte :: looked, rfl, fun i member => ?_⟩
      rcases List.mem_cons.mp member with here | before
      · exact .inr ⟨idxByte, Nat.le_refl _, here⟩
      · exact .inl before
  | succ left ih =>
      rw [skipFull, call_bind_of (look_run _), Bitmap.skipFull]
      by_cases full : btmp.bits (BitVec.ofNat 32 idxByte) = 0xff
      · have full' : btmp.plain.bits idxByte = 0xff := full
        rw [if_pos full, if_pos full', ofNat_succ]
        obtain ⟨looked', ran, only⟩ :=
          @ih (BitVec.ofNat 32 idxByte :: looked) (idxByte + 1)
        refine ⟨looked', ran, fun i member => ?_⟩
        rcases only i member with before | later
        · rcases List.mem_cons.mp before with here | before
          · have ahead := le_skipFull btmp.plain.bits left (idxByte + 1)
            exact .inr ⟨idxByte, Nat.le_of_succ_le ahead, here⟩
          · exact .inl before
        · exact .inr later
      · have full' : ¬ btmp.plain.bits idxByte = 0xff := full
        rw [if_neg full, if_neg full']
        refine ⟨_, rfl, fun i member => ?_⟩
        rcases List.mem_cons.mp member with here | before
        · exact .inr ⟨idxByte, Nat.le_refl _, here⟩
        · exact .inl before

/-- The loop inside a byte looks at that byte. -/
theorem skipSet_run (idxByte : Word) (left idxBit : Nat) (small : idxBit + left ≤ 8) : ∃ looked',
    (btmp.skipSet idxByte left (BitVec.ofNat 32 idxBit)).run looked =
      .ok (BitVec.ofNat 32 (Bitmap.skipSet (btmp.bits idxByte) left idxBit), looked') ∧
    ∀ i ∈ looked', i ∈ looked ∨ i = idxByte := by
  induction left generalizing idxBit looked with
  | zero =>
      refine ⟨idxByte :: looked, rfl, fun i member => ?_⟩
      exact (List.mem_cons.mp member).symm
  | succ left ih =>
      have same : (BitVec.ofNat 32 idxBit).toNat = idxBit := by
        rw [BitVec.toNat_ofNat, Nat.mod_eq_of_lt (by omega)]
      rw [skipSet, call_bind_of (look_run _), Bitmap.skipSet, same]
      by_cases taken : (btmp.bits idxByte).getLsbD idxBit = true
      · rw [if_pos taken, if_pos taken, ofNat_succ]
        obtain ⟨looked', ran, only⟩ := @ih (idxByte :: looked) (idxBit + 1) (by omega)
        refine ⟨looked', ran, fun i member => ?_⟩
        rcases only i member with before | here
        · exact (List.mem_cons.mp before).symm
        · exact .inr here
      · rw [if_neg taken, if_neg taken]
        exact ⟨_, rfl, fun i member => (List.mem_cons.mp member).symm⟩

theorem test_run {bitIdx : Nat} (inside : bitIdx ≤ 8 * btmp.btmpBytesLen.toNat) :
    (btmp.bitmapScanTest (BitVec.ofNat 32 bitIdx)).run looked =
      .ok (btmp.plain.test bitIdx, BitVec.ofNat 32 (bitIdx / 8) :: looked) := by
  have small := @length_lt btmp
  have index : BitVec.ofNat 32 bitIdx / 8 = BitVec.ofNat 32 (bitIdx / 8) := by
    apply BitVec.eq_of_toNat_eq
    rw [BitVec.toNat_udiv, BitVec.toNat_ofNat, BitVec.toNat_ofNat,
      Nat.mod_eq_of_lt (show bitIdx < 2 ^ 32 by omega), Nat.mod_eq_of_lt (by omega)]
    rfl
  have odd : (BitVec.ofNat 32 bitIdx % 8).toNat = bitIdx % 8 := by
    rw [BitVec.toNat_umod, BitVec.toNat_ofNat,
      Nat.mod_eq_of_lt (show bitIdx < 2 ^ 32 by omega)]
    rfl
  rw [bitmapScanTest, call_bind_of (look_run _), index, odd]
  rfl

/-- What `bitmap_scan` returns for a run that was found, or for none. -/
def found : Option Nat → Word
  | none => -1
  | some start => BitVec.ofNat 32 start

/-- The first bit at which the counting loop does not look. -/
def runEnd (cnt end_ : Nat) : Option Nat → Nat
  | none => end_
  | some start => start + cnt

theorem le_runEnd {cnt : Nat} (bitLeft nextBit count : Nat) :
    nextBit ≤ runEnd cnt (nextBit + bitLeft) (btmp.plain.scanRun cnt bitLeft nextBit count) := by
  induction bitLeft generalizing nextBit count with
  | zero => exact Nat.le_refl _
  | succ bitLeft ih =>
      rw [Bitmap.scanRun]
      generalize (if btmp.plain.test nextBit = true then 0 else count + 1) = count'
      split
      · rw [runEnd]
        omega
      · rw [show nextBit + (bitLeft + 1) = nextBit + 1 + bitLeft by omega]
        exact Nat.le_of_succ_le (ih (nextBit + 1) count')

/-- The counting loop looks at all bits from `nextBit` to the end of the run that it finds. -/
theorem scanRun_run (bitLeft nextBit count : Nat)
    (fits : nextBit + bitLeft ≤ 8 * btmp.btmpBytesLen.toNat + 1) (counted : count ≤ nextBit) :
    ∃ looked', (btmp.scanRun cnt bitLeft (BitVec.ofNat 32 nextBit) (BitVec.ofNat 32 count)).run
        looked = .ok (found (btmp.plain.scanRun cnt.toNat bitLeft nextBit count), looked') ∧
      ∀ i, i ∈ looked' ↔ i ∈ looked ∨ ∃ b, nextBit ≤ b ∧
        b < runEnd cnt.toNat (nextBit + bitLeft)
          (btmp.plain.scanRun cnt.toNat bitLeft nextBit count) ∧
        i = BitVec.ofNat 32 (b / 8) := by
  have small := @length_lt btmp
  induction bitLeft generalizing nextBit count looked with
  | zero =>
      refine ⟨looked, rfl, fun i => (or_iff_left ?_).symm⟩
      rintro ⟨b, low, high, -⟩
      exact absurd high (Nat.not_lt.mpr low)
  | succ bitLeft ih =>
      rw [scanRun, call_bind_of (test_run (by omega)), Bitmap.scanRun]
      dsimp only
      generalize now : (if btmp.plain.test nextBit = true then 0 else count + 1) = count'
      have word : (if btmp.plain.test nextBit = true then 0 else BitVec.ofNat 32 count + 1) =
          BitVec.ofNat 32 count' := by
        rw [← now, apply_ite (BitVec.ofNat 32), ofNat_succ]
        rfl
      have counted' : count' ≤ nextBit + 1 := by
        rw [← now]
        split <;> omega
      have reached : BitVec.ofNat 32 count' = cnt ↔ count' = cnt.toNat := by
        constructor
        · rintro rfl
          rw [BitVec.toNat_ofNat, Nat.mod_eq_of_lt (by omega)]
        · rintro rfl
          rw [BitVec.ofNat_toNat, BitVec.setWidth_eq]
      rw [word]
      by_cases all : count' = cnt.toNat
      · rw [if_pos (reached.mpr all), if_pos all]
        refine ⟨BitVec.ofNat 32 (nextBit / 8) :: looked, ?_, fun i => ?_⟩
        · have start : BitVec.ofNat 32 nextBit - cnt + 1 =
              BitVec.ofNat 32 (nextBit + 1 - cnt.toNat) := by
            bv_omega
          rw [start]
          rfl
        · have last : runEnd cnt.toNat (nextBit + (bitLeft + 1))
              (some (nextBit + 1 - cnt.toNat)) = nextBit + 1 := by
            rw [runEnd]
            omega
          rw [last, List.mem_cons, or_comm]
          refine or_congr_right ⟨fun here => ⟨nextBit, Nat.le_refl _, Nat.lt_succ_self _, here⟩, ?_⟩
          rintro ⟨b, low, high, here⟩
          rwa [show b = nextBit by omega] at here
      · rw [if_neg (mt reached.mp all), if_neg all, ofNat_succ]
        obtain ⟨looked', ran, only⟩ :=
          @ih (BitVec.ofNat 32 (nextBit / 8) :: looked) (nextBit + 1) count' (by omega) counted'
        refine ⟨looked', ran, fun i => ?_⟩
        have ahead := @le_runEnd btmp cnt.toNat bitLeft (nextBit + 1) count'
        rw [only, List.mem_cons, show nextBit + (bitLeft + 1) = nextBit + 1 + bitLeft by omega]
        constructor
        · rintro ((here | before) | ⟨b, low, high, here⟩)
          · exact .inr ⟨nextBit, Nat.le_refl _, ahead, here⟩
          · exact .inl before
          · exact .inr ⟨b, Nat.le_of_succ_le low, high, here⟩
        · rintro (before | ⟨b, low, high, here⟩)
          · exact .inl (.inr before)
          · by_cases last : b = nextBit
            · exact .inl (.inl (last ▸ here))
            · exact .inr ⟨b, by omega, high, here⟩

/-- A byte that is not full has a free bit. -/
theorem skipSet_lt {byte : Byte} (notFull : byte ≠ 0xff) : Bitmap.skipSet byte 8 0 < 8 := by
  have clear : ∃ k, 0 ≤ k ∧ k < 8 ∧ byte.getLsbD k = false := by
    by_contra none_
    push Not at none_
    exact notFull (Bitmap.full_iff.mpr fun k small => by simpa using none_ k (Nat.zero_le k) small)
  exact (Bitmap.skipSet_spec 8 0 rfl clear).1

theorem ofNat_lt_iff {n : Nat} (small : n < 2 ^ 32) {word : Word} :
    BitVec.ofNat 32 n < word ↔ n < word.toNat := by
  rw [BitVec.lt_def, BitVec.toNat_ofNat, Nat.mod_eq_of_lt small]

/-- **The scan in words.** If a bit is free, the scan returns what the scan with numbers finds, and
it looks at bytes behind the bitmap unless it is for one bit or finds a run in the bitmap. -/
theorem bitmapScan_run (positive : 0 < cnt.toNat)
    (free : ∃ k < 8 * btmp.btmpBytesLen.toNat, btmp.plain.test k = false) :
    ∃ result looked', btmp.plain.scan cnt.toNat = .ok result ∧
      (btmp.bitmapScan cnt).run [] = .ok (found result, looked') ∧
      ((∀ i ∈ looked', i < btmp.btmpBytesLen) ↔ cnt = 1 ∨
        runEnd cnt.toNat (8 * btmp.btmpBytesLen.toNat + 1) result ≤
          8 * btmp.btmpBytesLen.toNat) := by
  have small := @length_lt btmp
  obtain ⟨-, before, stop⟩ := Bitmap.skipFull_spec btmp.plain.bits btmp.btmpBytesLen.toNat 0
  obtain ⟨result, scanned, -⟩ := Bitmap.scan_first positive free
  have ran := scanned
  obtain ⟨looked, ranFull, fullOnly⟩ := @skipFull_run btmp [] btmp.btmpBytesLen.toNat 0
  unfold Bitmap.scan at ran
  dsimp only at ran
  generalize Bitmap.skipFull btmp.plain.bits btmp.btmpBytesLen.toNat 0 = idxByte at *
  obtain ⟨done, holds, ran⟩ := except_bind_eq_ok.mp ran
  have inside : idxByte < btmp.btmpBytesLen.toNat := require_eq_ok.mp holds
  rw [if_neg (Nat.ne_of_lt inside)] at ran
  obtain ⟨looked', ranSet, setOnly⟩ :=
    @skipSet_run btmp looked (BitVec.ofNat 32 idxByte) 8 0 (Nat.le_refl 8)
  have bitSmall : Bitmap.skipSet (btmp.bits (BitVec.ofNat 32 idxByte)) 8 0 < 8 :=
    skipSet_lt (stop (by omega))
  have within : ∀ i ∈ looked', i < btmp.btmpBytesLen := by
    intro i member
    rcases setOnly i member with earlier | here
    · rcases fullOnly i earlier with none_ | ⟨b, low, here⟩
      · exact absurd none_ List.not_mem_nil
      · rw [here, ofNat_lt_iff (by omega)]
        omega
    · rwa [here, ofNat_lt_iff (by omega)]
  have notEnd : ¬ BitVec.ofNat 32 idxByte = btmp.btmpBytesLen := by
    intro same
    rw [← same, BitVec.toNat_ofNat, Nat.mod_eq_of_lt (by omega)] at inside
    exact Nat.lt_irrefl _ inside
  have bits : btmp.plain.bits idxByte = btmp.bits (BitVec.ofNat 32 idxByte) := rfl
  rw [bits] at ran
  rw [bitmapScan, show (0 : Word) = BitVec.ofNat 32 0 from rfl, call_bind_of ranFull,
    call_bind_of (call_lift_returns.mpr
      ⟨require_of ((ofNat_lt_iff (by omega)).mpr inside), rfl⟩), if_neg notEnd,
    call_bind_of ranSet]
  generalize Bitmap.skipSet (btmp.bits (BitVec.ofNat 32 idxByte)) 8 0 = idxBit at *
  have start : BitVec.ofNat 32 idxByte * 8 + BitVec.ofNat 32 idxBit =
      BitVec.ofNat 32 (idxByte * 8 + idxBit) := by
    rw [BitVec.ofNat_add, BitVec.ofNat_mul]
    rfl
  have one : cnt = 1 ↔ cnt.toNat = 1 := BitVec.toNat_inj.symm
  dsimp only
  rw [start]
  by_cases single : cnt = 1
  · rw [if_pos (one.mp single)] at ran
    cases ran
    rw [if_pos single]
    exact ⟨_, looked', scanned, rfl, fun _ => .inl single, fun _ => within⟩
  · rw [if_neg (mt one.mpr single)] at ran
    cases ran
    rw [if_neg single]
    have left : (btmp.btmpBytesLen * 8 - BitVec.ofNat 32 (idxByte * 8 + idxBit)).toNat =
        btmp.btmpBytesLen.toNat * 8 - (idxByte * 8 + idxBit) := by
      bv_omega
    obtain ⟨looked'', ranRun, runOnly⟩ := @scanRun_run btmp looked' cnt
      (btmp.btmpBytesLen.toNat * 8 - (idxByte * 8 + idxBit)) (idxByte * 8 + idxBit + 1) 1
      (by omega) (by omega)
    rw [left, ofNat_succ]
    refine ⟨_, looked'', scanned, ranRun, ?_⟩
    have end_ : idxByte * 8 + idxBit + 1 +
        (btmp.btmpBytesLen.toNat * 8 - (idxByte * 8 + idxBit)) =
          8 * btmp.btmpBytesLen.toNat + 1 := by
      omega
    rw [end_] at runOnly
    rw [or_iff_right single]
    generalize runEnd cnt.toNat (8 * btmp.btmpBytesLen.toNat + 1)
      (btmp.plain.scanRun cnt.toNat (btmp.btmpBytesLen.toNat * 8 - (idxByte * 8 + idxBit))
        (idxByte * 8 + idxBit + 1) 1) = last at runOnly ⊢
    constructor
    · intro all
      by_contra behind
      have looks := all _ ((runOnly _).mpr
        (.inr ⟨8 * btmp.btmpBytesLen.toNat, by omega, Nat.not_le.mp behind, rfl⟩))
      rw [ofNat_lt_iff (by omega)] at looks
      omega
    · intro inside i member
      rcases (runOnly i).mp member with earlier | ⟨b, low, high, here⟩
      · exact within i earlier
      · rw [here, ofNat_lt_iff (by omega)]
        omega

/-- The first free run of the bitmap is the first one at all. -/
theorem FreeRun.firstFree {start : Nat} (run : btmp.FreeRun cnt.toNat start)
    (least : ∀ earlier < start, ¬ btmp.FreeRun cnt.toNat earlier) :
    Bitmap.FirstFree btmp.plain cnt.toNat start where
  free := run.2
  least earlier before := by
    by_contra none_
    push Not at none_
    have inside := run.1
    exact least earlier before ⟨by omega, fun k small => by simpa using none_ k small⟩

theorem found_toInt {start : Nat} (small : start < 2 ^ 31) :
    (found (some start)).toInt = start := by
  rw [found, BitVec.toInt_eq_toNat_of_lt] <;> rw [BitVec.toNat_ofNat] <;> omega

/-- **Scanning for free bits.** If a bit of the bitmap is free, `bitmap_scan` returns the least
index with enough free bits, or -1, and looks at the bitmap only, if and only if it has enough free
bits from an index below 2³¹ on. -/
theorem bitmapScan_correct_iff (positive : 1 ≤ cnt.toNat)
    (free : ∃ k < 8 * btmp.btmpBytesLen.toNat, btmp.plain.test k = false) :
    btmp.ScanCorrect cnt ↔ ∃ start < 2 ^ 31, btmp.FreeRun cnt.toNat start := by
  obtain ⟨result, looked, scanned, ran, inside⟩ := bitmapScan_run positive free
  obtain ⟨_, scanned', first⟩ := Bitmap.scan_first positive free
  cases scanned.symm.trans scanned'
  constructor
  · rintro ⟨_, _, ran', isScan, only⟩
    cases ran.symm.trans ran'
    have run : ∃ start, btmp.FreeRun cnt.toNat start := by
      rcases inside.mp only with one | end_
      · obtain ⟨k, small, clear⟩ := free
        refine ⟨k, ?_, fun j less => ?_⟩
        · rw [one]
          exact small
        · rw [one] at less
          rwa [show j = 0 from Nat.lt_one_iff.mp less]
      · cases result with
        | none => exact absurd end_ (Nat.not_succ_le_self _)
        | some start => exact ⟨start, end_, ((first start).mp rfl).1.free⟩
    rcases isScan with ⟨start, same, free, -⟩ | ⟨-, none_⟩
    · have bound := @BitVec.two_mul_toInt_lt 32 (found result)
      exact ⟨start, by omega, free⟩
    · exact absurd run.choose_spec (none_ _)
  · rintro ⟨start, small, run⟩
    classical
    have some_ : ∃ start, btmp.FreeRun cnt.toNat start := ⟨start, run⟩
    have before := Nat.find_min' some_ run
    have here := Nat.find_spec some_
    have least := fun earlier => @Nat.find_min _ _ some_ earlier
    generalize Nat.find some_ = start at before here least
    have ends : start + cnt.toNat ≤ Bitmap.scanned btmp.btmpBytesLen.toNat cnt.toNat := by
      rw [Bitmap.scanned]
      have inside := here.1
      split <;> omega
    have is := (first start).mpr ⟨here.firstFree least, ends⟩
    rw [is] at ran inside
    refine ⟨_, looked, ran, .inl ⟨start, found_toInt (by omega), here, least⟩, ?_⟩
    exact inside.mpr (.inr here.1)

end Loops

end WordBitmap

/-- A bitmap of one byte, with zeros behind it. -/
def oneByte (byte : Byte) : WordBitmap where
  btmpBytesLen := 1
  bits i := if i = 0 then byte else 0
  numbered := by decide

/-- Two free bits in the middle of a byte. -/
theorem bitmapScan_correct_middle : (oneByte 0xe7).ScanCorrect 2 :=
  (WordBitmap.bitmapScan_correct_iff (by decide) ⟨3, by decide⟩).mpr
    ⟨3, by decide, by decide, by decide⟩

/-- The last bit is free, and the byte behind the bitmap happens to be zero. -/
theorem bitmapScan_behind : ¬ (oneByte 0x7f).ScanCorrect 2 := by
  rintro ⟨result, looked, ran, -, only⟩
  have runs : ((oneByte 0x7f).bitmapScan 2).run [] =
      .ok (7, 1 :: List.replicate 9 0) := by
    decide
  cases runs.symm.trans ran
  exact absurd (only 1 List.mem_cons_self) (by decide)

end UKernel.BitmapScan
