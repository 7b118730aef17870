import UKernel.Library.Bytes
import UKernel.Library.TableWalk

/-! # The page tables seen through their directory

The processor finds the physical address of a virtual address through the page directory and one
of its page tables (`UKernel.RecursiveMap.Mmu.translate`). The last entry of a page directory refers
to the directory itself, so that `pte_ptr` and `pde_ptr` of `memory.c` can build a virtual address
for every entry of the tables (`UKernel.RecursiveMap.recursive_mapping`). The page directory that
`setup_page` of the loader makes is such a directory (`UKernel.RecursiveMap.loaded_selfMapped`).
-/

namespace UKernel.RecursiveMap

open UKernel.Library UKernel.Library.TableWalk

/-! ## The two-level translation -/

/-- The number of a page frame. -/
abbrev Frame := BitVec 20

/-- The number of an entry in a page directory or page table. -/
abbrev Index := BitVec 10

/-- The bits of an address that choose the page directory entry. -/
def dirIndex (vaddr : Word) : Index := vaddr.extractLsb' 22 10

/-- The bits of an address that choose the page table entry. -/
def tableIndex (vaddr : Word) : Index := vaddr.extractLsb' 12 10

/-- The bits of an address within its page. -/
def pageOffset (vaddr : Word) : BitVec 12 := vaddr.extractLsb' 0 12

/-- The physical address of an entry of a table. -/
def entryAddr (table : Frame) (i : Index) : Word := table ++ (i ++ (0 : BitVec 2))

/-- Physical memory, and the register with the address of the page directory. -/
structure Mmu where
  mem : Memory
  cr3 : Word

namespace Mmu

/-- The frame of the page directory. -/
def directory (m : Mmu) : Frame := m.cr3.extractLsb' 12 20

/-- The frame that an entry of a table refers to, if the entry is present. -/
def entry (m : Mmu) (table : Frame) (i : Index) : Option Frame :=
  let word := getWord m.mem (entryAddr table i).toNat
  if word.getLsbD 0 then some (word.extractLsb' 12 20) else none

/-- The physical address of a virtual address. -/
def translate (m : Mmu) (vaddr : Word) : Option Word :=
  (walk m.entry m.directory [dirIndex vaddr, tableIndex vaddr]).map (· ++ pageOffset vaddr)

/-- Read a word that lies in one page. An address without translation is a page fault. -/
def load (m : Mmu) (vaddr : Word) : Option Word :=
  (m.translate vaddr).map fun addr => getWord m.mem addr.toNat

/-- Entry 1023 of the page directory refers to the page directory. -/
def SelfMapped (m : Mmu) : Prop := m.entry m.directory 1023 = some m.directory

end Mmu

/-! ## Pointers to the entries -/

/-- `PDE_IDX`. -/
def pdeIdx (addr : Word) : Word := (addr &&& 0xffc00000) >>> 22

/-- `PTE_IDX`. -/
def pteIdx (addr : Word) : Word := (addr &&& 0x003ff000) >>> 12

/-- `pte_ptr`. -/
def ptePtr (vaddr : Word) : Word :=
  (0xffc00000 : Word) + ((vaddr &&& 0xffc00000) >>> 10) + pteIdx vaddr * 4

/-- `pde_ptr`. -/
def pdePtr (vaddr : Word) : Word :=
  0xfffff000 + pdeIdx vaddr * 4

/-- `addr_v2p`. -/
def addrV2p (m : Mmu) (vaddr : Word) : Option Word := do
  let pte ← m.load (ptePtr vaddr)
  return (pte &&& 0xfffff000) + (vaddr &&& 0x00000fff)

variable {m : Mmu} {vaddr addr : Word} {table : Frame}

/-- An entry is read as a word: whether it is present, and its frame. -/
theorem Mmu.entry_eq_some {page : Frame} {i : Index} : m.entry table i = some page ↔
    (getWord m.mem (entryAddr table i).toNat).getLsbD 0 = true ∧
      (getWord m.mem (entryAddr table i).toNat).extractLsb' 12 20 = page := by
  dsimp only [Mmu.entry]
  split
  case isTrue present => simp only [present, Option.some.injEq, true_and]
  case isFalse absent => simp only [absent, reduceCtorEq, false_and]

/-! ## The fields of the pointers -/

theorem dirIndex_toNat (vaddr : Word) : (dirIndex vaddr).toNat = vaddr.toNat / 2 ^ 22 := by
  rw [dirIndex, toNat_extract]
  exact Nat.mod_eq_of_lt (by have := vaddr.isLt; omega)

theorem tableIndex_toNat (vaddr : Word) :
    (tableIndex vaddr).toNat = vaddr.toNat / 2 ^ 12 % 2 ^ 10 :=
  toNat_extract vaddr

theorem pageOffset_toNat (vaddr : Word) : (pageOffset vaddr).toNat = vaddr.toNat % 2 ^ 12 := by
  rw [pageOffset, toNat_extract, pow_zero, Nat.div_one]

theorem entryAddr_toNat (table : Frame) (i : Index) :
    (entryAddr table i).toNat = table.toNat * 2 ^ 12 + i.toNat * 4 := by
  rw [entryAddr, toNat_fields, toNat_fields]
  rfl

/-- The directory's bits of an address, kept in their place by `0xffc00000`. -/
theorem toNat_and_dir (vaddr : Word) :
    (vaddr &&& 0xffc00000).toNat = (dirIndex vaddr).toNat * 2 ^ 22 := by
  rw [toNat_and_field 22 10 rfl, dirIndex, toNat_extract]

theorem pdeIdx_toNat (vaddr : Word) : (pdeIdx vaddr).toNat = (dirIndex vaddr).toNat := by
  rw [pdeIdx, BitVec.toNat_ushiftRight, toNat_and_dir, Nat.shiftRight_eq_div_pow]
  exact Nat.mul_div_cancel _ (by decide)

theorem pteIdx_toNat (vaddr : Word) : (pteIdx vaddr).toNat = (tableIndex vaddr).toNat := by
  rw [pteIdx, BitVec.toNat_ushiftRight, toNat_and_field 12 10 rfl,
    tableIndex_toNat, Nat.shiftRight_eq_div_pow]
  exact Nat.mul_div_cancel _ (by decide)

theorem ptePtr_toNat (vaddr : Word) : (ptePtr vaddr).toNat =
    1023 * 2 ^ 22 + (dirIndex vaddr).toNat * 2 ^ 12 + (tableIndex vaddr).toNat * 4 := by
  have dir := (dirIndex vaddr).isLt
  have tab := (tableIndex vaddr).isLt
  have shifted : ((vaddr &&& 0xffc00000) >>> 10).toNat = (dirIndex vaddr).toNat * 2 ^ 12 := by
    rw [BitVec.toNat_ushiftRight, toNat_and_dir, Nat.shiftRight_eq_div_pow]
    omega
  rw [ptePtr, BitVec.toNat_add, BitVec.toNat_add, shifted, BitVec.toNat_mul, pteIdx_toNat]
  simp only [BitVec.ofNat_eq_ofNat, BitVec.toNat_ofNat]
  omega

theorem pdePtr_toNat (vaddr : Word) : (pdePtr vaddr).toNat =
    1023 * 2 ^ 22 + 1023 * 2 ^ 12 + (dirIndex vaddr).toNat * 4 := by
  have dir := (dirIndex vaddr).isLt
  simp only [pdePtr, BitVec.toNat_add, BitVec.toNat_mul, pdeIdx_toNat, BitVec.ofNat_eq_ofNat,
    BitVec.toNat_ofNat]
  omega

@[simp] theorem dirIndex_ptePtr (vaddr : Word) : dirIndex (ptePtr vaddr) = 1023 := by
  have dir := (dirIndex vaddr).isLt
  have tab := (tableIndex vaddr).isLt
  apply BitVec.eq_of_toNat_eq
  rw [dirIndex_toNat, ptePtr_toNat]
  change _ = 1023
  omega

@[simp] theorem tableIndex_ptePtr (vaddr : Word) :
    tableIndex (ptePtr vaddr) = dirIndex vaddr := by
  have dir := (dirIndex vaddr).isLt
  have tab := (tableIndex vaddr).isLt
  apply BitVec.eq_of_toNat_eq
  rw [tableIndex_toNat, ptePtr_toNat]
  omega

@[simp] theorem dirIndex_pdePtr (vaddr : Word) : dirIndex (pdePtr vaddr) = 1023 := by
  have dir := (dirIndex vaddr).isLt
  apply BitVec.eq_of_toNat_eq
  rw [dirIndex_toNat, pdePtr_toNat]
  change _ = 1023
  omega

@[simp] theorem tableIndex_pdePtr (vaddr : Word) : tableIndex (pdePtr vaddr) = 1023 := by
  have dir := (dirIndex vaddr).isLt
  apply BitVec.eq_of_toNat_eq
  rw [tableIndex_toNat, pdePtr_toNat]
  change _ = 1023
  omega

/-- The offset of a pointer to a page table entry is the place of the entry in its table. -/
theorem append_offset_ptePtr (table : Frame) (vaddr : Word) :
    table ++ pageOffset (ptePtr vaddr) = entryAddr table (tableIndex vaddr) := by
  have tab := (tableIndex vaddr).isLt
  apply BitVec.eq_of_toNat_eq
  rw [toNat_fields, pageOffset_toNat, ptePtr_toNat, entryAddr_toNat]
  omega

/-- The offset of a pointer to a directory entry is the place of the entry in the directory. -/
theorem append_offset_pdePtr (table : Frame) (vaddr : Word) :
    table ++ pageOffset (pdePtr vaddr) = entryAddr table (dirIndex vaddr) := by
  have dir := (dirIndex vaddr).isLt
  apply BitVec.eq_of_toNat_eq
  rw [toNat_fields, pageOffset_toNat, pdePtr_toNat, entryAddr_toNat]
  omega

/-! ## The tables of the loader -/

/-- Write a word. -/
def putWord (mem : Memory) (addr : Nat) (w : Word) : Memory :=
  mem.splice addr (wordByte w) 4

/-- Write words one behind the other, the first `cnt` of a sequence. -/
def putWords (mem : Memory) (addr : Nat) (words : Nat → Word) : Nat → Memory
  | 0 => mem
  | cnt + 1 => putWord (putWords mem addr words cnt) (addr + cnt * 4) (words cnt)

/-- `PAGE_DIR_TABLE_POS`. -/
def pageDirTablePos : Nat := 0x100000

/-- The loop `.create_pte`: the low megabyte is mapped by the first page table. -/
def createPte (mem : Memory) : Memory :=
  putWords mem (pageDirTablePos + 0x1000) (fun esi => BitVec.ofNat 32 (7 + esi * 4096)) 256

/-- The loop `.create_kernel_pde`: the page tables 769 to 1022 lie behind the first. -/
def createKernelPde (mem : Memory) : Memory :=
  putWords mem (pageDirTablePos + 769 * 4)
    (fun round => BitVec.ofNat 32 (pageDirTablePos + 0x2000 + 7 + round * 0x1000)) 254

/-- `setup_page` of the loader. -/
def setupPage (mem : Memory) : Memory :=
  let firstTable := BitVec.ofNat 32 (pageDirTablePos + 0x1000 + 7)
  let cleared := mem.splice pageDirTablePos Memory.zeros 4096
  let first := putWord cleared (pageDirTablePos + 0x0) firstTable
  let kernel := putWord first (pageDirTablePos + 0xc00) firstTable
  let last := putWord kernel (pageDirTablePos + 4092) (BitVec.ofNat 32 (pageDirTablePos + 7))
  createKernelPde (createPte last)

section Words

variable {mem : Memory} {w : Word} {addr off cnt i : Nat} {words : Nat → Word}

theorem getWord_putWord : getWord (putWord mem addr w) addr = w := by
  apply getWord_of_bytes
  intro k small
  rw [putWord, Memory.splice_inside (by omega) (by omega), Nat.add_sub_cancel_left]

theorem getWord_putWord_apart (apart : off + 4 ≤ addr ∨ addr + 4 ≤ off) :
    getWord (putWord mem addr w) off = getWord mem off := by
  apply getWord_congr
  intro k small
  rw [putWord, Memory.splice_outside (by omega)]

theorem getWord_putWords (inside : i < cnt) :
    getWord (putWords mem addr words cnt) (addr + i * 4) = words i := by
  induction cnt with
  | zero => omega
  | succ cnt ih =>
    rw [putWords]
    rcases Nat.lt_succ_iff_lt_or_eq.mp inside with before | rfl
    · rw [getWord_putWord_apart (by omega)]
      exact ih before
    · exact getWord_putWord

theorem getWord_putWords_apart (apart : off + 4 ≤ addr ∨ addr + cnt * 4 ≤ off) :
    getWord (putWords mem addr words cnt) off = getWord mem off := by
  induction cnt with
  | zero => rfl
  | succ cnt ih =>
    rw [putWords, getWord_putWord_apart (by omega)]
    exact ih (by omega)

end Words

/-- What the processor is given when it starts to translate. -/
def loaded (mem : Memory) : Mmu := ⟨setupPage mem, BitVec.ofNat 32 pageDirTablePos⟩

theorem loaded_directory (mem : Memory) : (loaded mem).directory = 0x100 := by
  change (BitVec.ofNat 32 0x100000).extractLsb' 12 20 = 0x100
  decide

/-- An entry of a table, from the word that the loader stored there. -/
theorem loaded_entry {mem : Memory} {page : Frame} {i : Index} {word : Word}
    (stored : getWord (setupPage mem) (entryAddr table i).toNat = word)
    (present : word.getLsbD 0 = true ∧ word.extractLsb' 12 20 = page) :
    (loaded mem).entry table i = some page := by
  apply Mmu.entry_eq_some.mpr
  change (getWord (setupPage mem) _).getLsbD 0 = true ∧
    (getWord (setupPage mem) _).extractLsb' 12 20 = _
  rw [stored]
  exact present

/-- The page directory of the loader refers to itself. -/
theorem loaded_selfMapped (mem : Memory) : (loaded mem).SelfMapped := by
  have stored : getWord (setupPage mem) (entryAddr 0x100 1023).toNat = 0x100007 := by
    rw [setupPage, createKernelPde, getWord_putWords_apart (by decide), createPte,
      getWord_putWords_apart (by decide)]
    exact getWord_putWord
  unfold Mmu.SelfMapped
  rw [loaded_directory]
  apply loaded_entry stored
  decide

/-- The first page table of the loader serves the bottom of both halves. -/
theorem loaded_firstTable (mem : Memory) (i : Index) (bottom : i = 0 ∨ i = 768) :
    (loaded mem).entry 0x100 i = some 0x101 := by
  have stored : getWord (setupPage mem) (entryAddr 0x100 i).toNat = 0x101007 := by
    rw [setupPage, createKernelPde, createPte]
    rcases bottom with rfl | rfl
    · rw [getWord_putWords_apart (by decide), getWord_putWords_apart (by decide),
        getWord_putWord_apart (by decide), getWord_putWord_apart (by decide)]
      exact getWord_putWord
    · rw [getWord_putWords_apart (by decide), getWord_putWords_apart (by decide),
        getWord_putWord_apart (by decide)]
      exact getWord_putWord
  apply loaded_entry stored
  decide

/-- The first page table maps the low megabyte. -/
theorem loaded_lowPage (mem : Memory) (i : Index) (low : i.toNat < 256) :
    (loaded mem).entry 0x101 i = some (i.setWidth 20) := by
  have place : (entryAddr 0x101 i).toNat = pageDirTablePos + 0x1000 + i.toNat * 4 := by
    rw [entryAddr_toNat]
    rfl
  have stored : getWord (setupPage mem) (entryAddr 0x101 i).toNat =
      BitVec.ofNat 32 (7 + i.toNat * 4096) := by
    have behind :
        pageDirTablePos + 769 * 4 + 254 * 4 ≤ pageDirTablePos + 0x1000 + i.toNat * 4 := by
      omega
    rw [setupPage, createKernelPde, place, getWord_putWords_apart (.inr behind), createPte,
      getWord_putWords low]
  apply loaded_entry stored
  constructor
  · rw [BitVec.getLsbD_ofNat, Nat.testBit_zero]
    simp only [Nat.zero_lt_succ, decide_true, Bool.true_and, decide_eq_true_eq]
    omega
  · apply BitVec.eq_of_toNat_eq
    rw [toNat_extract, BitVec.toNat_ofNat, BitVec.toNat_setWidth]
    omega

/-! ## The translation of the pointers -/

/-- `pte_ptr` points to the entry of the page table, if there is a page table. -/
theorem translate_ptePtr (self : m.SelfMapped) (vaddr : Word) :
    m.translate (ptePtr vaddr) =
      (m.entry m.directory (dirIndex vaddr)).map (entryAddr · (tableIndex vaddr)) := by
  unfold Mmu.translate
  rw [dirIndex_ptePtr, tableIndex_ptePtr, walk_self self, walk_cons]
  cases m.entry m.directory (dirIndex vaddr) with
  | none => rfl
  | some table => exact congrArg some (append_offset_ptePtr table vaddr)

/-- `pde_ptr` points to the entry of the page directory. -/
theorem translate_pdePtr (self : m.SelfMapped) (vaddr : Word) :
    m.translate (pdePtr vaddr) = some (entryAddr m.directory (dirIndex vaddr)) := by
  unfold Mmu.translate
  rw [dirIndex_pdePtr, tableIndex_pdePtr, walk_self self, walk_self self]
  exact congrArg some (append_offset_pdePtr m.directory vaddr)

/-- The frame and the offset of an address, put together with masks. -/
theorem frame_add_offset (word vaddr : Word) :
    (word &&& 0xfffff000) + (vaddr &&& 0x00000fff) =
      word.extractLsb' 12 20 ++ pageOffset vaddr := by
  have inPage := (pageOffset vaddr).isLt
  have frame := (word.extractLsb' 12 20).isLt
  have low : (vaddr &&& 0x00000fff).toNat = (pageOffset vaddr).toNat := by
    rw [toNat_and_field 0 12 rfl, pageOffset, toNat_extract, pow_zero, Nat.mul_one]
  have high : (word &&& 0xfffff000).toNat = (word.extractLsb' 12 20).toNat * 2 ^ 12 := by
    rw [toNat_and_field 12 20 rfl, toNat_extract]
  apply BitVec.eq_of_toNat_eq
  rw [BitVec.toNat_add, low, high, toNat_fields]
  exact Nat.mod_eq_of_lt (by omega)

/-- A virtual address is mapped if the two entries on its way are present. -/
theorem translate_eq_some : m.translate vaddr = some addr ↔
    ∃ table page, m.entry m.directory (dirIndex vaddr) = some table ∧
      m.entry table (tableIndex vaddr) = some page ∧ page ++ pageOffset vaddr = addr := by
  unfold Mmu.translate
  rw [walk_cons]
  simp only [Option.map_eq_some_iff, Option.bind_eq_some_iff, walk_cons, walk_nil,
    Option.some.injEq]
  constructor
  · rintro ⟨page, ⟨table, first, last, second, rfl⟩, whole⟩
    exact ⟨table, last, first, second, whole⟩
  · rintro ⟨table, page, first, second, whole⟩
    exact ⟨page, ⟨table, first, page, second, rfl⟩, whole⟩

/-- `addr_v2p` reads the entry in the page table, present or not. -/
theorem addrV2p_eq (self : m.SelfMapped) (vaddr : Word) :
    addrV2p m vaddr = (m.entry m.directory (dirIndex vaddr)).map fun table =>
      (getWord m.mem (entryAddr table (tableIndex vaddr)).toNat).extractLsb' 12 20 ++
        pageOffset vaddr := by
  unfold addrV2p Mmu.load
  rw [translate_ptePtr self]
  cases m.entry m.directory (dirIndex vaddr) with
  | none => rfl
  | some table => exact congrArg some (frame_add_offset _ vaddr)

/-- Where an address is mapped, `addr_v2p` is its translation. -/
theorem addrV2p_mapped (self : m.SelfMapped) (mapped : m.translate vaddr = some addr) :
    addrV2p m vaddr = some addr := by
  obtain ⟨table, page, first, second, rfl⟩ := translate_eq_some.mp mapped
  rw [addrV2p_eq self, first, Option.map_some, (Mmu.entry_eq_some.mp second).2]

/-- The two entries that translate an address of the low megabyte at the loader's start. -/
theorem translate_loaded (mem : Memory) (bottom : dirIndex vaddr = 0 ∨ dirIndex vaddr = 768)
    (low : (tableIndex vaddr).toNat < 256) : (loaded mem).translate vaddr =
      some ((tableIndex vaddr).setWidth 20 ++ pageOffset vaddr : BitVec (20 + 12)) := by
  apply translate_eq_some.mpr
  refine ⟨0x101, (tableIndex vaddr).setWidth 20, ?_, loaded_lowPage mem _ low, rfl⟩
  rw [loaded_directory]
  exact loaded_firstTable mem _ bottom

/-- The loader maps the low megabyte at the start of both halves of memory. -/
theorem translate_lowMegabyte (mem : Memory) (low : addr.toNat < 0x100000)
    (there : vaddr = addr ∨ vaddr = addr + 0xc0000000) :
    (loaded mem).translate vaddr = some addr := by
  have value : vaddr.toNat = addr.toNat ∨ vaddr.toNat = addr.toNat + 0xc0000000 := by
    rcases there with rfl | rfl
    · exact .inl rfl
    · right
      rw [BitVec.toNat_add]
      change (addr.toNat + 0xc0000000) % 2 ^ 32 = _
      omega
  have inTable : (tableIndex vaddr).toNat = addr.toNat / 2 ^ 12 := by
    rw [tableIndex_toNat]
    omega
  rw [translate_loaded mem]
  · refine congrArg some (BitVec.eq_of_toNat_eq ?_)
    rw [toNat_fields, BitVec.toNat_setWidth, inTable, pageOffset_toNat]
    omega
  · rcases value with same | high
    · left
      apply BitVec.eq_of_toNat_eq
      rw [dirIndex_toNat, same]
      change _ = 0
      omega
    · right
      apply BitVec.eq_of_toNat_eq
      rw [dirIndex_toNat, high]
      change _ = 768
      omega
  · omega

/-- With a page directory whose last entry refers to itself, `pte_ptr` and `pde_ptr` are virtual
addresses of the two entries that translate an address, and `addr_v2p` is the translation of every
address that is mapped. -/
theorem recursive_mapping (self : m.SelfMapped) (vaddr : Word) :
    (∀ table, m.entry m.directory (dirIndex vaddr) = some table →
      m.translate (ptePtr vaddr) = some (entryAddr table (tableIndex vaddr))) ∧
    m.translate (pdePtr vaddr) = some (entryAddr m.directory (dirIndex vaddr)) ∧
    ∀ addr, m.translate vaddr = some addr → addrV2p m vaddr = some addr := by
  refine ⟨fun table first => ?_, translate_pdePtr self vaddr, fun addr => addrV2p_mapped self⟩
  rw [translate_ptePtr self, first]
  rfl

/-- The pointers to the entries of an address of the low megabyte, in the loader's tables. -/
theorem recursive_mapping_loaded :
    (loaded Memory.zeros).translate (ptePtr 0xc0001234) = some 0x101004 ∧
    (loaded Memory.zeros).translate (pdePtr 0xc0001234) = some 0x100c00 ∧
    addrV2p (loaded Memory.zeros) 0xc0001234 = some 0x1234 := by
  obtain ⟨inTable, inDirectory, value⟩ :=
    recursive_mapping (loaded_selfMapped Memory.zeros) 0xc0001234
  rw [loaded_directory] at inTable inDirectory
  refine ⟨inTable 0x101 (loaded_firstTable _ _ (.inr ?_)), inDirectory, value _ ?_⟩
  · decide
  · exact translate_lowMegabyte _ (by decide) (.inr (by decide))

end UKernel.RecursiveMap
