import UKernel.Memory.Pages

/-! # The pools of physical frames

`mem_pool_init` splits the free memory between the kernel's pool and the users' pool, and lays their
bitmaps one after the other. `palloc` takes a frame from a pool, and a frame is given back to the
pool and the bit that its address selects. In every run these are the pool and the bit from which
it was taken, and a frame is not taken twice (`UKernel.PhysicalPools.frames_sound`).
-/

namespace UKernel.PhysicalPools

open UKernel.Library UKernel.Fs
open UKernel.Paging (PoolFlags)

/-- `PG_SIZE`. -/
def pgSize : Word := 4096

/-- `MEM_BITMAP_BASE`. -/
def memBitmapBase : Nat := 0xc009a000

/-- `K_HEAP_START`. -/
def kHeapStart : Word := 0xc0100000

/-- `struct pool`; `bits` is the address of the bytes of its bitmap. -/
structure Pool where
  bits : Nat
  btmpBytesLen : Nat
  phyAddrStart : Word
  poolSize : Word

/-- `struct virtual_addr`. -/
structure VirtualAddr where
  bits : Nat
  btmpBytesLen : Nat
  vaddrStart : Word

/-- `kernel_pool`, `user_pool` and `kernel_vaddr`, and the memory in which their bitmaps lie. -/
structure Frames where
  pool : PoolFlags → Pool
  kernelVaddr : VirtualAddr
  mem : Memory

namespace Frames

/-- The bitmap of a pool. -/
def bitmap (s : Frames) (pf : PoolFlags) : Bitmap (s.pool pf).btmpBytesLen :=
  ⟨s.mem.shift (s.pool pf).bits⟩

/-- The bits of a pool. -/
def bitCnt (s : Frames) (pf : PoolFlags) : Nat := 8 * (s.pool pf).btmpBytesLen

/-- `bitmap_set` on the bitmap of a pool. -/
def setBit (s : Frames) (pf : PoolFlags) (bitIdx : Nat) (value : Bool) : Frames :=
  { s with
    mem := Function.update s.mem ((s.pool pf).bits + bitIdx / 8)
      (((s.bitmap pf).set bitIdx value).bits (bitIdx / 8)) }

end Frames

/-! ## Initialisation -/

/-- `used_mem`: the low megabyte and the page tables. -/
def usedMem : Word := pgSize * 256 + 0x100000

/-- `all_free_pages`, in sixteen bits. -/
def allFreePages (allMem : Word) : BitVec 16 := ((allMem - usedMem) / pgSize).setWidth 16

/-- `kernel_free_pages`. -/
def kernelFreePages (allMem : Word) : BitVec 16 := allFreePages allMem / 4

/-- `user_free_pages`. -/
def userFreePages (allMem : Word) : BitVec 16 := allFreePages allMem - kernelFreePages allMem

/-- `kbm_length`. -/
def kbmLength (allMem : Word) : Nat := (kernelFreePages allMem).toNat / 8

/-- `ubm_length`. -/
def ubmLength (allMem : Word) : Nat := (userFreePages allMem).toNat / 8

/-- `up_start`. -/
def upStart (allMem : Word) : Word := usedMem + (kernelFreePages allMem).setWidth 32 * pgSize

/-- The pools that `mem_pool_init` sets up. -/
def poolsOf (allMem : Word) : PoolFlags → Pool
  | .kernel =>
      { bits := memBitmapBase
        btmpBytesLen := kbmLength allMem
        phyAddrStart := usedMem
        poolSize := (kernelFreePages allMem).setWidth 32 * pgSize }
  | .user =>
      { bits := memBitmapBase + kbmLength allMem
        btmpBytesLen := ubmLength allMem
        phyAddrStart := upStart allMem
        poolSize := (userFreePages allMem).setWidth 32 * pgSize }

/-- `bitmap_init`. -/
def bitmapInit (mem : Memory) (bits btmpBytesLen : Nat) : Memory :=
  mem.splice bits Memory.zeros btmpBytesLen

/-- `mem_pool_init`. -/
def memPoolInit (allMem : Word) (mem : Memory) : Frames where
  pool := poolsOf allMem
  kernelVaddr :=
    { bits := memBitmapBase + kbmLength allMem + ubmLength allMem
      btmpBytesLen := kbmLength allMem
      vaddrStart := kHeapStart }
  mem :=
    bitmapInit
      (bitmapInit (bitmapInit mem memBitmapBase (kbmLength allMem))
        (memBitmapBase + kbmLength allMem) (ubmLength allMem))
      (memBitmapBase + kbmLength allMem + ubmLength allMem) (kbmLength allMem)

/-! ## Frames -/

/-- `palloc`; `none` is the null pointer. -/
def palloc (pf : PoolFlags) : Call Frames (Option Word) := do
  let s ← get
  match ← (s.bitmap pf).scan 1 with
  | none => return none
  | some bitIdx =>
      modify fun s => s.setBit pf bitIdx true
      return some (BitVec.ofNat 32 bitIdx * pgSize + (s.pool pf).phyAddrStart)

/-- The pool and the bit that the address of a frame selects. -/
def Frames.frameOf (s : Frames) (pgPhyAddr : Word) : PoolFlags × Nat :=
  if (s.pool .user).phyAddrStart ≤ pgPhyAddr then
    (.user, ((pgPhyAddr - (s.pool .user).phyAddrStart) / pgSize).toNat)
  else
    (.kernel, ((pgPhyAddr - (s.pool .kernel).phyAddrStart) / pgSize).toNat)

/-- `pfree`. -/
def pfree (pgPhyAddr : Word) : Call Frames Unit :=
  modify fun s => s.setBit (s.frameOf pgPhyAddr).1 (s.frameOf pgPhyAddr).2 false

/-- `free_a_phy_page`, which has the same body. -/
def freeAPhyPage (pgPhyAddr : Word) : Call Frames Unit :=
  modify fun s => s.setBit (s.frameOf pgPhyAddr).1 (s.frameOf pgPhyAddr).2 false

/-! ## Runs -/

/-- The pools, and for the frames that were taken and not given back the pool and the bit that
`palloc` set. -/
structure PoolState where
  frames : Frames
  held : Word → Option (PoolFlags × Nat)

/-- A call. -/
inductive FrameOp where
  | palloc (pf : PoolFlags)
  | pfree (pgPhyAddr : Word)
  | freeAPhyPage (pgPhyAddr : Word)

/-- The bitmap of a pool has a free bit. -/
def HasFree (s : Frames) (pf : PoolFlags) : Prop :=
  ∃ bitIdx < s.bitCnt pf, (s.bitmap pf).test bitIdx = false

/-- A call set a bit that was clear. -/
def SetsBit (s s' : Frames) (pf : PoolFlags) (bitIdx : Nat) : Prop :=
  bitIdx < s.bitCnt pf ∧ (s.bitmap pf).test bitIdx = false ∧ (s'.bitmap pf).test bitIdx = true

/-- What a call does. A frame is given back only while it is held. -/
def PoolStep (s : PoolState) : FrameOp → PoolState → Prop
  | .palloc pf, next => HasFree s.frames pf ∧ ∃ pgPhyAddr bitIdx,
      (palloc pf).run s.frames = .ok (some pgPhyAddr, next.frames) ∧
      SetsBit s.frames next.frames pf bitIdx ∧
      next.held = Function.update s.held pgPhyAddr (some (pf, bitIdx))
  | .pfree pgPhyAddr, next => s.held pgPhyAddr ≠ none ∧
      (pfree pgPhyAddr).run s.frames = .ok ((), next.frames) ∧
      next.held = Function.update s.held pgPhyAddr none
  | .freeAPhyPage pgPhyAddr, next => s.held pgPhyAddr ≠ none ∧
      (freeAPhyPage pgPhyAddr).run s.frames = .ok ((), next.frames) ∧
      next.held = Function.update s.held pgPhyAddr none

/-- The frames of a machine with the given memory, from `mem_pool_init` on. -/
def pools (allMem : Word) : TransitionSystem PoolState FrameOp where
  initial s := (∃ mem, s.frames = memPoolInit allMem mem) ∧ s.held = fun _ => none
  step := PoolStep

/-! ## The layout -/

section Layout

variable {allMem : Word} {pf pf' : PoolFlags} {b b' : Nat}

theorem usedMem_toNat : usedMem.toNat = 0x200000 := rfl

/-- The pages of the two pools. -/
theorem freePages_toNat (large : 0x400000 ≤ allMem.toNat) :
    (kernelFreePages allMem).toNat = Paging.kernelFreePages allMem.toNat ∧
      (userFreePages allMem).toNat = Paging.userFreePages allMem.toNat := by
  have free : (allMem - usedMem).toNat = allMem.toNat - 0x200000 :=
    BitVec.toNat_sub_of_le (BitVec.le_def.mpr (by rw [usedMem_toNat]; omega))
  have pages : (allFreePages allMem).toNat = Paging.allFreePages allMem.toNat := by
    rw [allFreePages, BitVec.toNat_setWidth, BitVec.toNat_udiv, free]
    rfl
  have kernel : (kernelFreePages allMem).toNat = (allFreePages allMem).toNat / 4 := by
    rw [kernelFreePages, BitVec.toNat_udiv]
    rfl
  have user : (userFreePages allMem).toNat =
      (allFreePages allMem).toNat - (kernelFreePages allMem).toNat :=
    BitVec.toNat_sub_of_le (BitVec.le_def.mpr (by omega))
  rw [user, kernel, pages]
  exact ⟨rfl, rfl⟩

/-- The pages of the two pools lie in memory. -/
theorem pages_fit (large : 0x400000 ≤ allMem.toNat) :
    0x200000 + 4096 * ((kernelFreePages allMem).toNat + (userFreePages allMem).toNat) ≤
      allMem.toNat := by
  obtain ⟨kernel, user⟩ := freePages_toNat large
  have pages : Paging.allFreePages allMem.toNat = (allMem.toNat - 0x200000) / 4096 % 2 ^ 16 := rfl
  rw [kernel, user, Paging.userFreePages, Paging.kernelFreePages]
  omega

/-- The users' frames begin after the kernel's. -/
theorem upStart_toNat :
    (upStart allMem).toNat = 0x200000 + 4096 * (kernelFreePages allMem).toNat := by
  have small := (kernelFreePages allMem).isLt
  rw [upStart, BitVec.toNat_add, BitVec.toNat_mul, BitVec.toNat_setWidth, usedMem_toNat,
    show pgSize.toNat = 4096 from rfl]
  omega

/-- The sizes and the addresses of the pools that the page tables rest on are those that
`mem_pool_init` sets up. -/
theorem poolsOf_memPoolSizes (large : 0x400000 ≤ allMem.toNat) (pf : PoolFlags) :
    (poolsOf allMem pf).btmpBytesLen = (Paging.memPoolSizes allMem.toNat).btmpBytesLen pf ∧
      (poolsOf allMem pf).phyAddrStart.toNat =
        (Paging.memPoolSizes allMem.toNat).phyAddrStart pf := by
  obtain ⟨kernel, user⟩ := freePages_toNat large
  cases pf with
  | kernel => exact ⟨congrArg (· / 8) kernel, rfl⟩
  | user =>
      refine ⟨congrArg (· / 8) user, ?_⟩
      change (upStart allMem).toNat = Paging.usedMem + Paging.kernelFreePages allMem.toNat * 4096
      rw [upStart_toNat, kernel, Nat.mul_comm]
      rfl

/-- The address of a frame. -/
def frameAddr (allMem : Word) (pf : PoolFlags) (bitIdx : Nat) : Word :=
  BitVec.ofNat 32 bitIdx * pgSize + (poolsOf allMem pf).phyAddrStart

/-- The bits of a pool. -/
def bitsOf (allMem : Word) (pf : PoolFlags) : Nat := 8 * (poolsOf allMem pf).btmpBytesLen

theorem bitsOf_kernel : bitsOf allMem .kernel ≤ (kernelFreePages allMem).toNat :=
  Nat.mul_div_le _ 8

theorem bitsOf_user : bitsOf allMem .user ≤ (userFreePages allMem).toNat :=
  Nat.mul_div_le _ 8

theorem frameAddr_toNat (large : 0x400000 ≤ allMem.toNat) (small : b < bitsOf allMem pf) :
    (frameAddr allMem pf b).toNat = 4096 * b + (poolsOf allMem pf).phyAddrStart.toNat := by
  have fit := pages_fit large
  have size := allMem.isLt
  have kernel := @bitsOf_kernel allMem
  have user := @bitsOf_user allMem
  have up := @upStart_toNat allMem
  rw [frameAddr, BitVec.toNat_add, BitVec.toNat_mul, BitVec.toNat_ofNat,
    show pgSize.toNat = 4096 from rfl]
  cases pf with
  | kernel =>
      change (b % 2 ^ 32 * 4096 % 2 ^ 32 + usedMem.toNat) % 2 ^ 32 = 4096 * b + usedMem.toNat
      rw [usedMem_toNat]
      omega
  | user =>
      change (b % 2 ^ 32 * 4096 % 2 ^ 32 + (upStart allMem).toNat) % 2 ^ 32 =
        4096 * b + (upStart allMem).toNat
      omega

/-- The range of addresses of a pool. -/
def InPool (allMem : Word) (pf : PoolFlags) (pgPhyAddr : Word) : Prop :=
  match pf with
  | .kernel => (poolsOf allMem .kernel).phyAddrStart ≤ pgPhyAddr ∧
      pgPhyAddr < (poolsOf allMem .user).phyAddrStart
  | .user => (poolsOf allMem .user).phyAddrStart ≤ pgPhyAddr ∧ pgPhyAddr < allMem

theorem frameAddr_inPool (large : 0x400000 ≤ allMem.toNat) (small : b < bitsOf allMem pf) :
    InPool allMem pf (frameAddr allMem pf b) := by
  have fit := pages_fit large
  have addr := frameAddr_toNat large small
  have up := @upStart_toNat allMem
  cases pf with
  | kernel =>
      have kernel := @bitsOf_kernel allMem
      have addr : (frameAddr allMem .kernel b).toNat = 4096 * b + usedMem.toNat := addr
      rw [usedMem_toNat] at addr
      constructor
      · change usedMem.toNat ≤ (frameAddr allMem .kernel b).toNat
        rw [usedMem_toNat]
        omega
      · change (frameAddr allMem .kernel b).toNat < (upStart allMem).toNat
        omega
  | user =>
      have user := @bitsOf_user allMem
      have addr : (frameAddr allMem .user b).toNat = 4096 * b + (upStart allMem).toNat := addr
      constructor
      · change (upStart allMem).toNat ≤ (frameAddr allMem .user b).toNat
        omega
      · change (frameAddr allMem .user b).toNat < allMem.toNat
        omega

/-- The address of a frame selects its pool and its bit. -/
theorem frameOf_frameAddr {s : Frames} (same : s.pool = poolsOf allMem)
    (large : 0x400000 ≤ allMem.toNat) (small : b < bitsOf allMem pf) :
    s.frameOf (frameAddr allMem pf b) = (pf, b) := by
  have inside := frameAddr_inPool large small
  have addr := frameAddr_toNat large small
  have index : (poolsOf allMem pf).phyAddrStart ≤ frameAddr allMem pf b →
      ((frameAddr allMem pf b - (poolsOf allMem pf).phyAddrStart) / pgSize).toNat = b := by
    intro above
    rw [BitVec.toNat_udiv, BitVec.toNat_sub_of_le above, addr, Nat.add_sub_cancel]
    exact Nat.mul_div_cancel_left b (show 0 < 4096 by decide)
  unfold Frames.frameOf
  rw [same]
  cases pf with
  | kernel => rw [if_neg (BitVec.not_le.mpr inside.2), index inside.1]
  | user => rw [if_pos inside.1, index inside.1]

theorem frameAddr_inj (large : 0x400000 ≤ allMem.toNat) (small : b < bitsOf allMem pf)
    (small' : b' < bitsOf allMem pf') (same : frameAddr allMem pf b = frameAddr allMem pf' b') :
    (pf, b) = (pf', b') := by
  have frames : (memPoolInit allMem Memory.zeros).pool = poolsOf allMem := rfl
  rw [← frameOf_frameAddr frames large small, same, frameOf_frameAddr frames large small']

end Layout

/-! ## Bits -/

section Bits

variable {allMem : Word} {s : Frames} {pf pf' : PoolFlags} {b b' : Nat} {value : Bool}

/-- The address of the byte of a bit. -/
def byteAddr (allMem : Word) (pf : PoolFlags) (bitIdx : Nat) : Nat :=
  (poolsOf allMem pf).bits + bitIdx / 8

/-- The bytes of the two bitmaps lie apart. -/
theorem byteAddr_apart (other : pf' ≠ pf) (small : b < bitsOf allMem pf)
    (small' : b' < bitsOf allMem pf') : byteAddr allMem pf' b' ≠ byteAddr allMem pf b := by
  have kernel : bitsOf allMem .kernel = 8 * kbmLength allMem := rfl
  cases pf with
  | kernel =>
      cases pf' with
      | kernel => exact absurd rfl other
      | user =>
          change memBitmapBase + kbmLength allMem + b' / 8 ≠ memBitmapBase + b / 8
          omega
  | user =>
      cases pf' with
      | kernel =>
          change memBitmapBase + b' / 8 ≠ memBitmapBase + kbmLength allMem + b / 8
          omega
      | user => exact absurd rfl other

/-- Setting a bit of a pool changes no other bit of the two pools. -/
theorem test_setBit (same : s.pool = poolsOf allMem) (small : b < bitsOf allMem pf)
    (small' : b' < bitsOf allMem pf') : ((s.setBit pf b value).bitmap pf').test b' =
      if pf' = pf ∧ b' = b then value else (s.bitmap pf').test b' := by
  by_cases here : pf' = pf
  · subst here
    have bytes : ((s.setBit pf' b value).bitmap pf').bits = ((s.bitmap pf').set b value).bits := by
      funext i
      change Function.update s.mem ((s.pool pf').bits + b / 8) _ ((s.pool pf').bits + i) = _
      by_cases at_ : i = b / 8
      · rw [at_, Function.update_self]
      · rw [Function.update_of_ne (fun sum => at_ (Nat.add_left_cancel sum))]
        change (s.bitmap pf').bits i = Function.update (s.bitmap pf').bits (b / 8) _ i
        rw [Function.update_of_ne at_]
    have test : ((s.setBit pf' b value).bitmap pf').test b' =
        ((s.bitmap pf').set b value).test b' := by
      unfold Bitmap.test
      rw [bytes]
    rw [test, Bitmap.test_set]
    by_cases bit : b' = b
    · simp [bit]
    · simp [bit]
  · rw [if_neg fun both => here both.1]
    have apart := byteAddr_apart here small small'
    unfold byteAddr at apart
    rw [← same] at apart
    unfold Bitmap.test
    change (Function.update s.mem _ _ ((s.pool pf').bits + b' / 8)).getLsbD _ = _
    rw [Function.update_of_ne apart]
    rfl

/-- After `mem_pool_init` all frames are free. -/
theorem test_memPoolInit {mem : Memory} (small : b < bitsOf allMem pf) :
    ((memPoolInit allMem mem).bitmap pf).test b = false := by
  have zero : (memPoolInit allMem mem).mem ((poolsOf allMem pf).bits + b / 8) = 0 := by
    have kernel : bitsOf allMem .kernel = 8 * kbmLength allMem := rfl
    have user : bitsOf allMem .user = 8 * ubmLength allMem := rfl
    cases pf with
    | kernel =>
        change bitmapInit _ _ _ (memBitmapBase + b / 8) = 0
        rw [bitmapInit, Memory.splice_outside (by omega), bitmapInit,
          Memory.splice_outside (by omega), bitmapInit,
          Memory.splice_inside (by omega) (by omega)]
        rfl
    | user =>
        change bitmapInit _ _ _ (memBitmapBase + kbmLength allMem + b / 8) = 0
        rw [bitmapInit, Memory.splice_outside (by omega), bitmapInit,
          Memory.splice_inside (by omega) (by omega)]
        rfl
  unfold Bitmap.test
  change ((memPoolInit allMem mem).mem ((poolsOf allMem pf).bits + b / 8)).getLsbD _ = false
  rw [zero]
  simp

/-- `palloc` takes a free frame. -/
theorem palloc_returns {found : Option Word} {s' : Frames} (same : s.pool = poolsOf allMem)
    (ran : (palloc pf).run s = .ok (found, s')) :
    ∃ b, found = some (frameAddr allMem pf b) ∧ b < bitsOf allMem pf ∧
      (s.bitmap pf).test b = false ∧ s' = s.setBit pf b true := by
  rw [palloc, call_bind_of (call_get_returns.mpr ⟨rfl, rfl⟩)] at ran
  obtain ⟨scanned, _, lifted, ran⟩ := call_bind_returns.mp ran
  obtain ⟨scan, rfl⟩ := call_lift_returns.mp lifted
  obtain ⟨b, rfl, small, free, -⟩ := Bitmap.scan_returns scan
  obtain ⟨_, _, set, ran⟩ := call_bind_returns.mp ran
  cases call_modify_returns.mp set
  obtain ⟨rfl, rfl⟩ := call_pure_returns.mp ran
  rw [same] at small
  exact ⟨b, by rw [same]; rfl, small, free, rfl⟩

/-- `palloc` finds a free frame if there is one. -/
theorem palloc_finds (free : HasFree s pf) :
    ∃ pgPhyAddr s', (palloc pf).run s = .ok (some pgPhyAddr, s') := by
  obtain ⟨b, scan, -⟩ := Bitmap.scan_free free
  refine ⟨BitVec.ofNat 32 b * pgSize + (s.pool pf).phyAddrStart, s.setBit pf b true, ?_⟩
  rw [palloc, call_bind_of (call_get_returns.mpr ⟨rfl, rfl⟩),
    call_bind_of (call_lift_returns.mpr ⟨scan, rfl⟩)]
  rfl

end Bits

/-! ## The invariant -/

/-- A call cleared one bit of a pool, and changed nothing else. -/
structure ClearsOnly (s s' : Frames) (pf : PoolFlags) (bitIdx : Nat) : Prop where
  pool : s'.pool = s.pool
  kernelVaddr : s'.kernelVaddr = s.kernelVaddr
  before : bitIdx < s.bitCnt pf ∧ (s.bitmap pf).test bitIdx = true
  after : ∀ pf' b, b < s.bitCnt pf' → (s'.bitmap pf').test b =
    if pf' = pf ∧ b = bitIdx then false else (s.bitmap pf').test b
  elsewhere : ∀ addr ≠ (s.pool pf).bits + bitIdx / 8, s'.mem addr = s.mem addr

/-- What holds of the calls that can be made in a state. -/
structure FramesSound (allMem : Word) (s : PoolState) : Prop where
  finds : ∀ pf, HasFree s.frames pf →
    ∃ pgPhyAddr frames, (palloc pf).run s.frames = .ok (some pgPhyAddr, frames)
  fresh : ∀ pf pgPhyAddr frames, (palloc pf).run s.frames = .ok (some pgPhyAddr, frames) →
    s.held pgPhyAddr = none ∧ InPool allMem pf pgPhyAddr
  frees : ∀ pgPhyAddr pf bitIdx frames, s.held pgPhyAddr = some (pf, bitIdx) →
    (pfree pgPhyAddr).run s.frames = .ok ((), frames) ∨
      (freeAPhyPage pgPhyAddr).run s.frames = .ok ((), frames) →
    ClearsOnly s.frames frames pf bitIdx

/-- A frame is held exactly when its bit is set. -/
structure HeldExactly (allMem : Word) (s : PoolState) : Prop where
  pool : s.frames.pool = poolsOf allMem
  held : ∀ pgPhyAddr pf bitIdx, s.held pgPhyAddr = some (pf, bitIdx) ↔
    bitIdx < bitsOf allMem pf ∧ pgPhyAddr = frameAddr allMem pf bitIdx ∧
      (s.frames.bitmap pf).test bitIdx = true

section Invariant

variable {allMem : Word} {s next : PoolState} {pf : PoolFlags} {b : Nat} {pgPhyAddr : Word}

theorem HeldExactly.bitCnt (exact_ : HeldExactly allMem s) (pf : PoolFlags) :
    s.frames.bitCnt pf = bitsOf allMem pf := by
  unfold Frames.bitCnt
  rw [exact_.pool]
  rfl

/-- A bit is set, and its frame is held. -/
theorem HeldExactly.take (exact_ : HeldExactly allMem s) (large : 0x400000 ≤ allMem.toNat)
    (small : b < bitsOf allMem pf) :
    HeldExactly allMem ⟨s.frames.setBit pf b true,
      Function.update s.held (frameAddr allMem pf b) (some (pf, b))⟩ := by
  refine ⟨exact_.pool, ?_⟩
  intro addr pf' b'
  dsimp only
  by_cases here : addr = frameAddr allMem pf b
  · rw [here, Function.update_self]
    constructor
    · intro same
      cases same
      refine ⟨small, rfl, ?_⟩
      rw [test_setBit exact_.pool small small, if_pos ⟨rfl, rfl⟩]
    · rintro ⟨small', same, -⟩
      exact congrArg some (frameAddr_inj large small small' same)
  · rw [Function.update_of_ne here, exact_.held]
    refine and_congr_right fun small' => and_congr_right fun is => ?_
    rw [test_setBit exact_.pool small small']
    have other : ¬ (pf' = pf ∧ b' = b) := by
      rintro ⟨rfl, rfl⟩
      exact here is
    rw [if_neg other]

/-- A bit is cleared, and its frame is no longer held. -/
theorem HeldExactly.release (exact_ : HeldExactly allMem s) (large : 0x400000 ≤ allMem.toNat)
    (small : b < bitsOf allMem pf) :
    HeldExactly allMem ⟨s.frames.setBit pf b false,
      Function.update s.held (frameAddr allMem pf b) none⟩ := by
  refine ⟨exact_.pool, ?_⟩
  intro addr pf' b'
  dsimp only
  by_cases here : addr = frameAddr allMem pf b
  · rw [here, Function.update_self]
    refine iff_of_false (Option.some_ne_none _).symm ?_
    rintro ⟨small', same, set⟩
    cases frameAddr_inj large small small' same
    rw [test_setBit exact_.pool small small, if_pos ⟨rfl, rfl⟩] at set
    cases set
  · rw [Function.update_of_ne here, exact_.held]
    refine and_congr_right fun small' => and_congr_right fun is => ?_
    rw [test_setBit exact_.pool small small']
    have other : ¬ (pf' = pf ∧ b' = b) := by
      rintro ⟨rfl, rfl⟩
      exact here is
    rw [if_neg other]

/-- Giving back a frame that is held. -/
theorem HeldExactly.freed {frames : Frames} (exact_ : HeldExactly allMem s)
    (large : 0x400000 ≤ allMem.toNat) (held : s.held pgPhyAddr = some (pf, b))
    (ran : (pfree pgPhyAddr).run s.frames = .ok ((), frames)) :
    b < bitsOf allMem pf ∧ pgPhyAddr = frameAddr allMem pf b ∧
      frames = s.frames.setBit pf b false := by
  obtain ⟨small, rfl, -⟩ := (exact_.held pgPhyAddr pf b).mp held
  cases call_modify_returns.mp ran
  rw [frameOf_frameAddr exact_.pool large small]
  exact ⟨small, rfl, rfl⟩

theorem HeldExactly.clearsOnly (exact_ : HeldExactly allMem s) (large : 0x400000 ≤ allMem.toNat)
    (held : s.held pgPhyAddr = some (pf, b)) {frames : Frames}
    (ran : (pfree pgPhyAddr).run s.frames = .ok ((), frames)) :
    ClearsOnly s.frames frames pf b := by
  obtain ⟨small, -, rfl⟩ := exact_.freed large held ran
  refine ⟨rfl, rfl, ⟨by rwa [exact_.bitCnt], ((exact_.held pgPhyAddr pf b).mp held).2.2⟩, ?_, ?_⟩
  · intro pf' b' small'
    rw [exact_.bitCnt] at small'
    exact test_setBit exact_.pool small small'
  · intro addr other
    exact Function.update_of_ne other _ _

theorem HeldExactly.framesSound (exact_ : HeldExactly allMem s)
    (large : 0x400000 ≤ allMem.toNat) : FramesSound allMem s := by
  refine ⟨fun pf free => palloc_finds free, ?_, ?_⟩
  · intro pf addr frames ran
    obtain ⟨b, found, small, free, -⟩ := palloc_returns exact_.pool ran
    cases found
    refine ⟨?_, frameAddr_inPool large small⟩
    by_contra held
    obtain ⟨⟨pf', b'⟩, held⟩ := Option.ne_none_iff_exists'.mp held
    obtain ⟨small', same, set⟩ := (exact_.held _ pf' b').mp held
    cases frameAddr_inj large small small' same
    rw [free] at set
    cases set
  · intro addr pf b frames held ran
    exact exact_.clearsOnly large held (ran.elim id id)

/-- A call keeps the frames held exactly. -/
theorem heldExactly_step {op : FrameOp} (exact_ : HeldExactly allMem s)
    (large : 0x400000 ≤ allMem.toNat) (taken : PoolStep s op next) : HeldExactly allMem next := by
  obtain ⟨frames, held⟩ := next
  have gives : ∀ addr, s.held addr ≠ none → (pfree addr).run s.frames = .ok ((), frames) →
      held = Function.update s.held addr none → HeldExactly allMem ⟨frames, held⟩ := by
    rintro addr used ran rfl
    obtain ⟨⟨pf, b⟩, held⟩ := Option.ne_none_iff_exists'.mp used
    obtain ⟨small, rfl, rfl⟩ := exact_.freed large held ran
    exact exact_.release large small
  cases op with
  | palloc pf =>
      obtain ⟨-, addr, bitIdx, ran, sets, rfl⟩ := taken
      obtain ⟨b, found, small, free, same⟩ := palloc_returns exact_.pool ran
      cases found
      dsimp only at same sets
      subst same
      have small' : bitIdx < bitsOf allMem pf := exact_.bitCnt pf ▸ sets.1
      have bit : bitIdx = b := by
        by_contra other
        have set := sets.2.2
        rw [test_setBit exact_.pool small small', if_neg fun both => other both.2, sets.2.1] at set
        cases set
      subst bit
      exact exact_.take large small
  | pfree addr =>
      obtain ⟨used, ran, is⟩ := taken
      exact gives addr used ran is
  | freeAPhyPage addr =>
      obtain ⟨used, ran, is⟩ := taken
      exact gives addr used ran is

/-- **The pools of frames.** In every run, `palloc` of a pool with a free bit returns a frame of
that pool that is not held, and giving back a frame that is held clears the bit that `palloc` set,
and nothing else. -/
theorem frames_sound (large : 0x400000 ≤ allMem.toNat) (reachable : (pools allMem).Reachable s) :
    FramesSound allMem s := by
  have exact_ : HeldExactly allMem s := by
    apply reachable.invariant (HeldExactly allMem)
    · rintro ⟨frames, held⟩ ⟨⟨mem, rfl⟩, rfl⟩
      refine ⟨rfl, fun addr pf b => iff_of_false (Option.some_ne_none _).symm ?_⟩
      rintro ⟨small, -, set⟩
      rw [test_memPoolInit small] at set
      cases set
    · exact fun s op next _ exact_ taken => heldExactly_step exact_ large taken
  exact exact_.framesSound large

end Invariant

/-- A frame is taken from the kernel's pool of a machine with 32 megabytes. -/
theorem frames_sound_taken : ∃ s : PoolState,
    (∃ pgPhyAddr frame, s.held pgPhyAddr = some frame) ∧ FramesSound 0x2000000 s := by
  have same : (memPoolInit 0x2000000 Memory.zeros).pool = poolsOf 0x2000000 := rfl
  have small : 0 < bitsOf 0x2000000 .kernel := by decide
  have free : HasFree (memPoolInit 0x2000000 Memory.zeros) .kernel :=
    ⟨0, small, test_memPoolInit small⟩
  obtain ⟨addr, frames, ran⟩ := palloc_finds free
  obtain ⟨b, -, small, clear, rfl⟩ := palloc_returns same ran
  have sets : SetsBit (memPoolInit 0x2000000 Memory.zeros)
      ((memPoolInit 0x2000000 Memory.zeros).setBit .kernel b true) .kernel b :=
    ⟨small, clear, by rw [test_setBit same small small, if_pos ⟨rfl, rfl⟩]⟩
  have start : (pools 0x2000000).Reachable ⟨memPoolInit 0x2000000 Memory.zeros, fun _ => none⟩ :=
    .initial ⟨⟨_, rfl⟩, rfl⟩
  have reached : (pools 0x2000000).Reachable
      ⟨(memPoolInit 0x2000000 Memory.zeros).setBit .kernel b true,
        Function.update (fun _ => none) addr (some (.kernel, b))⟩ :=
    start.step (.palloc .kernel) ⟨free, addr, b, ran, sets, rfl⟩
  refine ⟨_, ⟨addr, (PoolFlags.kernel, b), ?_⟩, frames_sound (by decide) reached⟩
  dsimp only
  rw [Function.update_self]

end UKernel.PhysicalPools
