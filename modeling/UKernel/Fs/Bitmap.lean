import UKernel.Library.Bytes
import UKernel.Library.Fault

/-! # Bitmaps

`bitmap.c`: bit `i` of a bitmap is bit `i % 8` of its byte `i / 8`. `bitmap_scan` for one bit
finds the least free bit (`UKernel.Fs.Bitmap.scan_free`), and for several bits the first run
(`UKernel.Fs.Bitmap.scan_first`).
-/

namespace UKernel.Fs

open UKernel.Library

/-- `struct bitmap`, of `btmp_bytes_len` bytes. -/
structure Bitmap (btmpBytesLen : Nat) where
  bits : Memory

namespace Bitmap

variable {btmpBytesLen : Nat}

/-- `bitmap_scan_test`. -/
def test (btmp : Bitmap btmpBytesLen) (bitIdx : Nat) : Bool :=
  (btmp.bits (bitIdx / 8)).getLsbD (bitIdx % 8)

/-- `bitmap_set`. -/
def set (btmp : Bitmap btmpBytesLen) (bitIdx : Nat) (value : Bool) : Bitmap btmpBytesLen :=
  let byte := btmp.bits (bitIdx / 8)
  let mask := 1#8 <<< (bitIdx % 8)
  { bits := Function.update btmp.bits (bitIdx / 8)
      (if value then byte ||| mask else byte &&& ~~~mask) }

/-- The loop of `bitmap_scan` over full bytes; at most `left` bytes are left. -/
def skipFull (bits : Memory) : Nat → Nat → Nat
  | 0, idxByte => idxByte
  | left + 1, idxByte => if bits idxByte = 0xff then skipFull bits left (idxByte + 1) else idxByte

/-- The loop of `bitmap_scan` inside a byte that is not full; at most `left` bits are left. -/
def skipSet (byte : Byte) : Nat → Nat → Nat
  | 0, idxBit => idxBit
  | left + 1, idxBit => if byte.getLsbD idxBit then skipSet byte left (idxBit + 1) else idxBit

/-- The loop of `bitmap_scan` that counts consecutive free bits. -/
def scanRun (btmp : Bitmap btmpBytesLen) (cnt : Nat) : Nat → Nat → Nat → Option Nat
  | 0, _, _ => none
  | bitLeft + 1, nextBit, count =>
      let count := if btmp.test nextBit then 0 else count + 1
      if count = cnt then some (nextBit + 1 - cnt) else scanRun btmp cnt bitLeft (nextBit + 1) count

/-- `bitmap_scan`; `none` is the result `-1`. -/
def scan (btmp : Bitmap btmpBytesLen) (cnt : Nat) : Except Fault (Option Nat) := do
  let idxByte := skipFull btmp.bits btmpBytesLen 0
  require (idxByte < btmpBytesLen)
  if idxByte = btmpBytesLen then
    return none
  let bitIdxStart := idxByte * 8 + skipSet (btmp.bits idxByte) 8 0
  if cnt = 1 then
    return some bitIdxStart
  return scanRun btmp cnt (btmpBytesLen * 8 - bitIdxStart) (bitIdxStart + 1) 1

variable {btmp : Bitmap btmpBytesLen} {i j : Nat} {value : Bool}

/-- Setting a bit changes that bit only. -/
theorem test_set : (btmp.set i value).test j = if j = i then value else btmp.test j := by
  have small := Nat.mod_lt i (show 0 < 8 by decide)
  by_cases sameByte : j / 8 = i / 8
  · have bit : (j = i) ↔ (j % 8 = i % 8) := by omega
    simp only [test, set, sameByte, Function.update_self, bit]
    have small' := Nat.mod_lt j (show 0 < 8 by decide)
    generalize j % 8 = k at *
    generalize i % 8 = l at *
    cases value with
    | true =>
        by_cases same : k = l
        · simp [same, small]
        · by_cases less : k < l
          · simp [same, less]
          · have apart : k - l ≠ 0 := by omega
            simp [same, less, apart]
    | false =>
        by_cases same : k = l
        · simp [same, small]
        · by_cases less : k < l
          · simp [same, less, small']
          · have apart : k - l ≠ 0 := by omega
            simp [same, less, apart, small']
  · have apart : j ≠ i := fun same => sameByte (same ▸ rfl)
    simp [test, set, sameByte, apart]

/-- The bits determine the bitmap. -/
theorem eq_of_test {btmp' : Bitmap btmpBytesLen} (same : ∀ i, btmp.test i = btmp'.test i) :
    btmp = btmp' := by
  have bits : btmp.bits = btmp'.bits := by
    funext j
    apply BitVec.eq_of_getLsbD_eq
    intro k small
    have bit := same (8 * j + k)
    rw [test, test, show (8 * j + k) / 8 = j by omega, show (8 * j + k) % 8 = k by omega] at bit
    exact bit
  cases btmp
  cases btmp'
  exact congrArg Bitmap.mk bits

/-- A free bit that was taken and given back. -/
theorem set_set (free : btmp.test i = false) : (btmp.set i true).set i false = btmp := by
  apply eq_of_test
  intro j
  rw [test_set, test_set]
  by_cases here : j = i
  · rw [if_pos here, here, free]
  · rw [if_neg here, if_neg here]

/-- A byte that is not full has a clear bit, and the scan stops at the first. -/
theorem skipSet_spec {byte : Byte} (left idxBit : Nat) (covers : idxBit + left = 8)
    (clear : ∃ k, idxBit ≤ k ∧ k < 8 ∧ byte.getLsbD k = false) :
    skipSet byte left idxBit < 8 ∧ byte.getLsbD (skipSet byte left idxBit) = false ∧
      ∀ k, idxBit ≤ k → k < skipSet byte left idxBit → byte.getLsbD k = true := by
  induction left generalizing idxBit with
  | zero =>
      obtain ⟨k, low, high, -⟩ := clear
      omega
  | succ left ih =>
      unfold skipSet
      by_cases here : byte.getLsbD idxBit = true
      · rw [if_pos here]
        obtain ⟨k, low, high, free⟩ := clear
        have later : idxBit + 1 ≤ k := by
          by_contra less
          have same : k = idxBit := by omega
          rw [same, here] at free
          cases free
        obtain ⟨small, found, least⟩ := ih (idxBit + 1) (by omega) ⟨k, later, high, free⟩
        refine ⟨small, found, fun k low high => ?_⟩
        by_cases same : k = idxBit
        · rwa [same]
        · exact least k (by omega) high
      · rw [if_neg here]
        have small : idxBit < 8 := by omega
        exact ⟨small, by simpa using here, fun k low high => absurd high (by omega)⟩

/-- The bytes before the one at which the scan stops are full. -/
theorem skipFull_spec (bits : Memory) (left idxByte : Nat) :
    skipFull bits left idxByte ≤ idxByte + left ∧
      (∀ k, idxByte ≤ k → k < skipFull bits left idxByte → bits k = 0xff) ∧
      (skipFull bits left idxByte < idxByte + left →
        bits (skipFull bits left idxByte) ≠ 0xff) := by
  induction left generalizing idxByte with
  | zero => exact ⟨Nat.le_refl _, fun k low high => absurd high (by simp [skipFull]; omega),
      fun less => absurd less (by simp [skipFull])⟩
  | succ left ih =>
      unfold skipFull
      by_cases full : bits idxByte = 0xff
      · rw [if_pos full]
        obtain ⟨bound, before, stop⟩ := ih (idxByte + 1)
        refine ⟨by omega, fun k low high => ?_, fun less => stop (by omega)⟩
        by_cases same : k = idxByte
        · rwa [same]
        · exact before k (by omega) high
      · rw [if_neg full]
        exact ⟨by omega, fun k low high => absurd high (by omega), fun _ => full⟩

/-- A byte is full exactly when all of its bits are set. -/
theorem full_iff {byte : Byte} : byte = 0xff ↔ ∀ k < 8, byte.getLsbD k = true := by
  constructor
  · rintro rfl k small
    interval_cases k <;> rfl
  · intro all
    apply BitVec.eq_of_getLsbD_eq
    intro k small
    rw [all k small]
    interval_cases k <;> rfl

/-- **One free bit.** The scan for one bit finds the least free one, if there is any. -/
theorem scan_free (free : ∃ k < 8 * btmpBytesLen, btmp.test k = false) :
    ∃ k, btmp.scan 1 = .ok (some k) ∧ k < 8 * btmpBytesLen ∧ btmp.test k = false ∧
      ∀ l < k, btmp.test l = true := by
  obtain ⟨bound, before, stop⟩ := skipFull_spec btmp.bits btmpBytesLen 0
  rw [Nat.zero_add] at bound stop
  generalize found : skipFull btmp.bits btmpBytesLen 0 = byte at bound before stop
  have inside : byte < btmpBytesLen := by
    by_contra all
    obtain ⟨k, small, clear⟩ := free
    have full := before (k / 8) (Nat.zero_le _) (by omega)
    rw [test, full_iff.mp full (k % 8) (by omega)] at clear
    cases clear
  have clear : ∃ k, 0 ≤ k ∧ k < 8 ∧ (btmp.bits byte).getLsbD k = false := by
    by_contra none
    push Not at none
    exact stop inside (full_iff.mpr fun k small => by simpa using none k (Nat.zero_le _) small)
  obtain ⟨small, isFree, least⟩ := skipSet_spec 8 0 rfl clear
  generalize stopped : skipSet (btmp.bits byte) 8 0 = bit at small isFree least
  refine ⟨byte * 8 + bit, ?_, by omega, ?_, fun l less => ?_⟩
  · simp only [scan, found, require_of inside, except_ok_bind, Nat.ne_of_lt inside, if_false,
      stopped, if_true]
    rfl
  · rw [test, show (byte * 8 + bit) / 8 = byte by omega, show (byte * 8 + bit) % 8 = bit by omega]
    exact isFree
  · by_cases earlier : l / 8 < byte
    · exact full_iff.mp (before (l / 8) (Nat.zero_le _) earlier) (l % 8) (by omega)
    · rw [test, show l / 8 = byte by omega]
      exact least (l % 8) (Nat.zero_le _) (by omega)

/-- A scan returns only if there is a free bit: the assertion comes before the result -1. -/
theorem exists_free_of_scan {cnt : Nat} {found : Option Nat} (ran : btmp.scan cnt = .ok found) :
    ∃ k < 8 * btmpBytesLen, btmp.test k = false := by
  obtain ⟨bound, before, stop⟩ := skipFull_spec btmp.bits btmpBytesLen 0
  have inside : skipFull btmp.bits btmpBytesLen 0 < btmpBytesLen := by
    obtain ⟨done, holds, -⟩ := except_bind_eq_ok.mp ran
    exact require_eq_ok.mp holds
  rw [Nat.zero_add] at stop
  generalize skipFull btmp.bits btmpBytesLen 0 = byte at inside stop
  by_contra none
  push Not at none
  refine stop inside (full_iff.mpr fun k small => ?_)
  have set := none (8 * byte + k) (by omega)
  rw [test, show (8 * byte + k) / 8 = byte by omega,
    show (8 * byte + k) % 8 = k by omega] at set
  simpa using set

/-- The scan for one bit returns the least free one, or it does not return. -/
theorem scan_returns {found : Option Nat} (ran : btmp.scan 1 = .ok found) :
    ∃ k, found = some k ∧ k < 8 * btmpBytesLen ∧ btmp.test k = false ∧
      ∀ l < k, btmp.test l = true := by
  obtain ⟨k, ran', rest⟩ := scan_free (exists_free_of_scan ran)
  rw [ran'] at ran
  cases ran
  exact ⟨k, rfl, rest⟩

/-! ## The first run -/

/-- A run of `cnt` free bits with no such run before it. -/
structure FirstFree (btmp : Bitmap btmpBytesLen) (cnt start : Nat) : Prop where
  free : ∀ k < cnt, btmp.test (start + k) = false
  least : ∀ earlier < start, ∃ k < cnt, btmp.test (earlier + k) = true

theorem FirstFree.unique {cnt start start' : Nat} (first : FirstFree btmp cnt start)
    (first' : FirstFree btmp cnt start') : start = start' := by
  by_contra apart
  rcases Nat.lt_or_gt_of_ne apart with before | after
  · obtain ⟨k, small, taken⟩ := first'.least start before
    rw [first.free k small] at taken
    cases taken
  · obtain ⟨k, small, taken⟩ := first.least start' after
    rw [first'.free k small] at taken
    cases taken

/-- What the counting loop of `bitmap_scan` knows before `nextBit`: the free bits that end there
are `count`, and no run of `cnt` free bits ends there or earlier. -/
structure Counted (btmp : Bitmap btmpBytesLen) (cnt nextBit count : Nat) : Prop where
  small : count ≤ nextBit
  free : ∀ k < count, btmp.test (nextBit - 1 - k) = false
  most : ∀ m ≤ nextBit, (∀ k < m, btmp.test (nextBit - 1 - k) = false) → m ≤ count
  none_ : ∀ start, start + cnt ≤ nextBit → ∃ k < cnt, btmp.test (start + k) = true

/-- A taken bit begins the count anew. -/
theorem Counted.taken {cnt nextBit count : Nat} (counted : Counted btmp cnt nextBit count)
    (positive : 0 < cnt) (taken : btmp.test nextBit = true) :
    Counted btmp cnt (nextBit + 1) 0 where
  small := Nat.zero_le _
  free k small := absurd small (Nat.not_lt_zero k)
  most m _ free := by
    by_contra some_
    have last := free 0 (by omega)
    rw [Nat.add_sub_cancel, Nat.sub_zero, taken] at last
    cases last
  none_ start inside := by
    by_cases earlier : start + cnt ≤ nextBit
    · exact counted.none_ start earlier
    · refine ⟨cnt - 1, by omega, ?_⟩
      rw [show start + (cnt - 1) = nextBit by omega]
      exact taken

/-- A free bit is counted. -/
theorem Counted.extend {cnt nextBit count : Nat} (counted : Counted btmp cnt nextBit count)
    (clear : btmp.test nextBit = false) (short : count + 1 ≠ cnt) :
    Counted btmp cnt (nextBit + 1) (count + 1) where
  small := Nat.succ_le_succ counted.small
  free k small := by
    cases k with
    | zero => exact clear
    | succ k =>
        rw [show nextBit + 1 - 1 - (k + 1) = nextBit - 1 - k by omega]
        exact counted.free k (by omega)
  most m inside free := by
    cases m with
    | zero => exact Nat.zero_le _
    | succ m =>
        refine Nat.succ_le_succ (counted.most m (by omega) fun k small => ?_)
        have later := free (k + 1) (by omega)
        rwa [show nextBit + 1 - 1 - (k + 1) = nextBit - 1 - k by omega] at later
  none_ start inside := by
    by_cases earlier : start + cnt ≤ nextBit
    · exact counted.none_ start earlier
    · by_contra all
      push Not at all
      have suffix := counted.most (cnt - 1) (by omega) fun k small => by
        have bit := all (cnt - 2 - k) (by omega)
        rw [show start + (cnt - 2 - k) = nextBit - 1 - k by omega] at bit
        simpa using bit
      have within := counted.small
      obtain ⟨k, small, taken⟩ := counted.none_ (nextBit - cnt) (by omega)
      rw [show nextBit - cnt + k = nextBit - 1 - (cnt - 1 - k) by omega,
        counted.free _ (by omega)] at taken
      cases taken

/-- The counting loop finds the first run, if it ends early enough. -/
theorem scanRun_first {cnt bitLeft nextBit count : Nat} (positive : 0 < cnt)
    (counted : Counted btmp cnt nextBit count) (start : Nat) :
    scanRun btmp cnt bitLeft nextBit count = some start ↔
      FirstFree btmp cnt start ∧ start + cnt ≤ nextBit + bitLeft := by
  induction bitLeft generalizing nextBit count with
  | zero =>
      refine iff_of_false (by simp [scanRun]) ?_
      rintro ⟨first, inside⟩
      obtain ⟨k, small, taken⟩ := counted.none_ start inside
      rw [first.free k small] at taken
      cases taken
  | succ bitLeft ih =>
      rw [scanRun, show nextBit + (bitLeft + 1) = nextBit + 1 + bitLeft by omega]
      cases bit : btmp.test nextBit with
      | true =>
          simp only [if_true]
          rw [if_neg (Nat.ne_of_lt positive)]
          exact ih (counted.taken positive bit)
      | false =>
          simp only [Bool.false_eq_true, if_false]
          by_cases all : count + 1 = cnt
          · rw [if_pos all, Option.some_inj]
            have found : FirstFree btmp cnt (nextBit + 1 - cnt) := by
              refine ⟨fun k small => ?_, fun earlier before => counted.none_ earlier ?_⟩
              · by_cases last : k + 1 = cnt
                · rw [show nextBit + 1 - cnt + k = nextBit by have := counted.small; omega]
                  exact bit
                · have := counted.small
                  rw [show nextBit + 1 - cnt + k = nextBit - 1 - (cnt - 2 - k) by omega]
                  exact counted.free _ (by omega)
              · omega
            have inside := counted.small
            constructor
            · rintro rfl
              exact ⟨found, by omega⟩
            · rintro ⟨first, -⟩
              exact found.unique first
          · rw [if_neg all]
            exact ih (counted.extend bit all)

/-- The bits that a scan for `cnt` bits looks at: a run of several bits may end one bit after the
bitmap. -/
def scanned (btmpBytesLen cnt : Nat) : Nat :=
  if cnt = 1 then 8 * btmpBytesLen else 8 * btmpBytesLen + 1

/-- **Scanning for a run.** If a bit is free, the scan returns the first run of free bits among
those it looks at, or -1 if there is none. -/
theorem scan_first {cnt : Nat} (positive : 0 < cnt)
    (free : ∃ k < 8 * btmpBytesLen, btmp.test k = false) :
    ∃ found, btmp.scan cnt = .ok found ∧ ∀ start, found = some start ↔
      FirstFree btmp cnt start ∧ start + cnt ≤ scanned btmpBytesLen cnt := by
  obtain ⟨first, ran, small, clear, least⟩ := scan_free free
  unfold scan at ran ⊢
  dsimp only
  obtain ⟨done, inside, ran⟩ := except_bind_eq_ok.mp ran
  rw [if_neg (Nat.ne_of_lt (require_eq_ok.mp inside)), if_pos rfl] at ran
  have isFirst := Option.some_inj.mp (Except.ok.inj ran)
  rw [inside, except_ok_bind, if_neg (Nat.ne_of_lt (require_eq_ok.mp inside)), isFirst]
  by_cases one : cnt = 1
  · rw [if_pos one]
    have found : FirstFree btmp cnt first := by
      refine ⟨fun k less => ?_, fun earlier before => ⟨0, positive, least earlier before⟩⟩
      rw [show k = 0 by omega]
      exact clear
    refine ⟨_, rfl, fun start => ?_⟩
    rw [Option.some_inj, scanned, if_pos one]
    constructor
    · rintro rfl
      exact ⟨found, by omega⟩
    · rintro ⟨found', -⟩
      exact found.unique found'
  · rw [if_neg one]
    refine ⟨_, rfl, fun start => ?_⟩
    have counted : Counted btmp cnt (first + 1) 1 := by
      refine ⟨Nat.succ_le_succ (Nat.zero_le _), fun k less => ?_, fun m inside free => ?_,
        fun start inside => ⟨0, positive, least start (by omega)⟩⟩
      · rw [show k = 0 by omega]
        exact clear
      · by_contra more
        have before := free 1 (by omega)
        rw [least _ (by omega)] at before
        cases before
    rw [scanned, if_neg one, scanRun_first positive counted]
    refine and_congr_right fun _ => ?_
    rw [show first + 1 + (btmpBytesLen * 8 - first) = 8 * btmpBytesLen + 1 by omega]

/-- The scan finds a run of free bits, of which the last one may lie after the bitmap. -/
theorem scan_run {cnt start : Nat} (some_ : 0 < cnt) (ran : btmp.scan cnt = .ok (some start)) :
    ∀ k < cnt, btmp.test (start + k) = false := by
  obtain ⟨found, ran', first⟩ := scan_first some_ (exists_free_of_scan ran)
  rw [ran'] at ran
  exact ((first start).mp (Except.ok.inj ran)).1.free

end Bitmap

end UKernel.Fs
