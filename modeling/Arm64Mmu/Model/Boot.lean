import Arm64Mmu.Lib.Return
import Arm64Mmu.Model.Calls
import Arm64Mmu.Model.Walk

/-!
# From `entry` to the MMU

`entry.S` sets up `SCTLR_EL2`, clears the `.bss` section, sets `sp` and calls `main`, and
`early_init` maps the image and the UART and switches the MMU on.  An `Image` is what `Kopernik.ld`
says about the places of the sections.  Memory is the array of words of the table code; the C frames
are not in it, which is right as long as they are off the words of the tables (`Image.Clear`).
-/

namespace Arm64Mmu

open Lib Lib.Return

/-! ### The image -/

/-- `_image_start`. -/
def imageStart : ℕ := 0x40001000

/-- `STACK_SIZE * CORE_NUM`. -/
def cpuStackSize : ℕ := 0x4000 * 8

/-- The `n` bytes at `p` and the `k` bytes at `q` have none in common. -/
def Separate (p n q k : ℕ) : Prop := p + n ≤ q ∨ q + k ≤ p

instance (p n q k : ℕ) : Decidable (Separate p n q k) :=
  inferInstanceAs (Decidable (p + n ≤ q ∨ q + k ≤ p))

/-- The symbols of the linker script, and the variables that it puts into `.bss`. -/
structure Image extends Layout where
  bssStart : ℕ
  bssEnd : ℕ
  imageEnd : ℕ
  /-- The address of the static variable `table_idx`. -/
  tableIdx : ℕ
  /-- The address of the array `cpu_stack`. -/
  cpuStack : ℕ
  /-- `. = ALIGN(16)` stands before `_bss_start` and before `_bss_end`. -/
  bssStart_aligned : bssStart % 16 = 0
  bssEnd_aligned : bssEnd % 16 = 0
  /-- `. = ALIGN(4096)` stands before `_image_end`. -/
  imageEnd_aligned : imageEnd % 4096 = 0
  tableIdx_aligned : tableIdx % 4 = 0
  cpuStack_aligned : cpuStack % 64 = 0
  start_le : imageStart ≤ bssStart
  base_le : bssStart ≤ baseXlatTable
  le_base : baseXlatTable + 8 * numBaseLevelEntries ≤ bssEnd
  tables_le : bssStart ≤ xlatTables
  le_tables : xlatTables + 4096 * configMaxXlatTables ≤ bssEnd
  tableIdx_le : bssStart ≤ tableIdx
  le_tableIdx : tableIdx + 4 ≤ bssEnd
  cpuStack_le : bssStart ≤ cpuStack
  le_cpuStack : cpuStack + cpuStackSize ≤ bssEnd
  /-- The variables do not overlap. -/
  cpuStack_base : Separate cpuStack cpuStackSize baseXlatTable (8 * numBaseLevelEntries)
  cpuStack_tables : Separate cpuStack cpuStackSize xlatTables (4096 * configMaxXlatTables)
  cpuStack_tableIdx : Separate cpuStack cpuStackSize tableIdx 4
  tableIdx_base : Separate tableIdx 4 baseXlatTable (8 * numBaseLevelEntries)
  tableIdx_tables : Separate tableIdx 4 xlatTables (4096 * configMaxXlatTables)
  bssEnd_le : bssEnd ≤ imageEnd
  /-- The size of the image is an `int`. -/
  imageEnd_lt : imageEnd < imageStart + 2 ^ 31

/-- An image with little more than the tables and the stacks, which follow directly. -/
def sampleImage : Image where
  baseXlatTable := 0x40003000
  xlatTables := 0x40004000
  base_aligned := by decide
  tables_aligned := by decide
  disjoint := by decide
  base_lt := by decide
  tables_lt := by decide
  bssStart := 0x40002010
  bssEnd := 0x40044010
  imageEnd := 0x40049000
  tableIdx := 0x40044000
  cpuStack := 0x40024000
  bssStart_aligned := by decide
  bssEnd_aligned := by decide
  imageEnd_aligned := by decide
  tableIdx_aligned := by decide
  cpuStack_aligned := by decide
  start_le := by decide
  base_le := by decide
  le_base := by decide
  tables_le := by decide
  le_tables := by decide
  tableIdx_le := by decide
  le_tableIdx := by decide
  cpuStack_le := by decide
  le_cpuStack := by decide
  cpuStack_base := by decide
  cpuStack_tables := by decide
  cpuStack_tableIdx := by decide
  tableIdx_base := by decide
  tableIdx_tables := by decide
  bssEnd_le := by decide
  imageEnd_lt := by decide

/-! ### `entry.S` -/

/-- What `real_entry` does to `SCTLR_EL2`. -/
def realEntry (r : SysRegs) : SysRegs :=
  let r := { r with sctlrEl2 := r.sctlrEl2 &&& ~~~ sctlrEE }
  { r with sctlrEl2 := r.sctlrEl2 ||| (sctlrI ||| sctlrA ||| sctlrSA) }

/-- A turn of the loop `zero_16`, with `x1` and the memory and `x0`. -/
def zero16 (x1 : U64) : Mem × U64 → (Mem × U64) ⊕ Mem
  | (mem, x0) =>
      if x0 = x1 then .inr mem
      else
        .inl (Function.update (Function.update mem x0.toNat 0) (x0 + 8).toNat 0, x0 + 16)

/-- `zero_bss` returns with the memory `mem'`. -/
def ZeroBss (I : Image) (mem mem' : Mem) : Prop :=
  Returns (zero16 (BitVec.ofNat 64 I.bssEnd)) (mem, BitVec.ofNat 64 I.bssStart) mem'

namespace Image

/-- `prepare_for_c` sets `sp` to the start of `cpu_stack`. -/
def prepareForC (I : Image) : ℕ := I.cpuStack

/-- The `n` bytes at `p` are off the C frames, which take the `depth` bytes below the first `sp` and
so lie in front of `cpu_stack`. -/
def OffFrames (I : Image) (depth p n : ℕ) : Prop := Separate (I.prepareForC - depth) depth p n

instance (I : Image) (depth p n : ℕ) : Decidable (I.OffFrames depth p n) :=
  inferInstanceAs (Decidable (Separate _ _ _ _))

/-- The C frames are off the base table, the first `n` tables of the pool and `table_idx`. -/
structure Clear (I : Image) (depth n : ℕ) : Prop where
  base : I.OffFrames depth I.baseXlatTable (8 * numBaseLevelEntries)
  tables : ∀ t < n, I.OffFrames depth (I.xlatTable t) (8 * xlatTableEntries)
  tableIdx : I.OffFrames depth I.tableIdx 4

end Image

/-! ### `init.c` -/

/-- The 32-bit word at an address. -/
def word32 (mem : Mem) (p : ℕ) : U32 := (mem (p / 8 * 8) >>> (8 * (p % 8))).setWidth 32

namespace Image

/-- The machine when `main` is called. -/
def machine (I : Image) (mem : Mem) : Machine := ⟨mem, (word32 mem I.tableIdx).toNat, []⟩

/-- `add_map("all", ...)`. -/
def all (I : Image) : Call where
  phys := BitVec.ofNat 64 imageStart
  virt := BitVec.ofNat 64 imageStart
  size := BitVec.ofNat 32 (I.imageEnd - imageStart)
  attrs := mtNs ||| mtNormal ||| mtRw

end Image

/-- `add_map("uart", ...)`. -/
def uart : Call where
  phys := 0x09000000
  virt := 0x09000000
  size := 0x2000
  attrs := mtNs ||| mtNormal ||| mtRw

/-- `early_init` leads from the machine `m` and the registers `r` to `m'` and `r'`. -/
def EarlyInit (I : Image) (m : Machine) (r : SysRegs) (m' : Machine) (r' : SysRegs) : Prop :=
  AddMaps I.toLayout m [I.all, uart] m' ∧ r' = enableMmu I.toLayout r

/-- From `entry` on, with any memory and any registers, `early_init` returns with the machine `m'`
and the registers `r'`. -/
def Boots (I : Image) (mem : Mem) (r : SysRegs) (m' : Machine) (r' : SysRegs) : Prop :=
  ∃ mem', ZeroBss I mem mem' ∧ EarlyInit I (I.machine mem') (realEntry r) m' r'

end Arm64Mmu
