import Mathlib.Logic.Function.Basic
import Arm64Mmu.Lib.While
import Arm64Mmu.Model.Macros

/-!
# The table code of `mmu.c`

Memory is an array of 64-bit words indexed by byte address; a pointer is an address.  Every
access is to a multiple of 8, so that two words never overlap.  The two arrays of `mmu.c` lie
at the addresses of a `Layout`.  Nothing checks an address: a store past the end of an array
changes whatever word is there, as in the compiled program.

The printouts are left out.  In their place a machine keeps a trace of the stores to memory
and of the calls that write a descriptor; no definition reads it.
-/

namespace Arm64Mmu

open Lib

/-- The 64-bit word at each address. -/
abbrev Mem := ℕ → U64

/-- Where the linker put `base_xlat_table` and `xlat_tables`. -/
structure Layout where
  /-- The address of `base_xlat_table`. -/
  baseXlatTable : ℕ
  /-- The address of `xlat_tables`. -/
  xlatTables : ℕ
  /-- Both arrays are declared `__aligned(0x1000)`. -/
  base_aligned : baseXlatTable % 4096 = 0
  tables_aligned : xlatTables % 4096 = 0
  /-- The arrays do not overlap. -/
  disjoint : baseXlatTable + 8 * numBaseLevelEntries ≤ xlatTables ∨
    xlatTables + 4096 * configMaxXlatTables ≤ baseXlatTable
  /-- The arrays lie in the 48-bit physical address space. -/
  base_lt : baseXlatTable + 8 * numBaseLevelEntries ≤ 2 ^ 48
  tables_lt : xlatTables + 4096 * configMaxXlatTables ≤ 2 ^ 48

/-- A place for the two arrays. -/
def sampleLayout : Layout where
  baseXlatTable := 0x80000
  xlatTables := 0x81000
  base_aligned := by decide
  tables_aligned := by decide
  disjoint := by decide
  base_lt := by decide
  tables_lt := by decide

/-- What the trace of a machine records. -/
inductive Event where
  /-- A store to memory. -/
  | store (p : ℕ) (v : U64)
  /-- A call of `set_pte_table_desc`. -/
  | setPteTableDesc (pte table : ℕ) (level : U32)
  /-- A call of `set_pte_block_desc`. -/
  | setPteBlockDesc (pte : ℕ) (addrPa : U64) (attrs level : U32)
deriving DecidableEq

/-- The memory, the static counter of `new_prealloc_table`, and the trace. -/
structure Machine where
  mem : Mem
  /-- `table_idx`, the value of an `unsigned int`.  It is not one of the words of `mem`, which is
  right as long as no store goes to it; stores behind the end of the pool can do so. -/
  tableIdx : ℕ
  trace : List Event

namespace Machine

/-- Record an event. -/
def emit (m : Machine) (e : Event) : Machine := { m with trace := m.trace ++ [e] }

/-- `*p = v`. -/
def store (m : Machine) (p : ℕ) (v : U64) : Machine :=
  { m with mem := Function.update m.mem p v, trace := m.trace ++ [.store p v] }

end Machine

/-! ### Descriptors -/

def pteDescType (mem : Mem) (pte : ℕ) : U64 := mem pte &&& pteDescTypeMask

/-- The pointer in a table descriptor: `(u64 *)(d & 0x0000fffffffff000ULL)`. -/
def descTable (d : U64) : ℕ := (d &&& 0x0000fffffffff000).toNat

/-- The loop of `calculate_pte_index`: `n` is the number of iterations left, `i` the loop
counter and `pte` the pointer before the index is added. -/
def calculatePteIndexLoop (mem : Mem) (addr : U64) (level : U32) : ℕ → U32 → ℕ → Option ℕ
  | 0, _, _ => none
  | n + 1, i, pte =>
      let idx := xlatTableVaIdx addr i
      let pte := pte + 8 * idx.toNat
      if i = level then some pte
      else if pteDescType mem pte ≠ pteTableDesc then none
      else calculatePteIndexLoop mem addr level n (i + 1) (descTable (mem pte))

/-- `calculate_pte_index`: the loop counter runs from the base level up to
`CONFIG_MAX_XLAT_TABLES`; `none` is `NULL`. -/
def calculatePteIndex (L : Layout) (mem : Mem) (addr : U64) (level : U32) : Option ℕ :=
  calculatePteIndexLoop mem addr level (configMaxXlatTables + 1 - xlatTableBaseLevel.toNat)
    xlatTableBaseLevel L.baseXlatTable

def setPteTableDesc (m : Machine) (pte table : ℕ) (level : U32) : Machine :=
  (m.emit (.setPteTableDesc pte table level)).store pte (pteTableDesc ||| BitVec.ofNat 64 table)

/-- The descriptor that `set_pte_block_desc` assembles. -/
def blockDesc (addrPa : U64) (attrs level : U32) : U64 :=
  let desc := addrPa
  let desc := desc ||| (if level = 3 then ptePageDesc else pteBlockDesc)
  let desc := desc ||| (if attrs &&& mtNs ≠ 0 then pteBlockDescNs else 0)
  let desc := desc ||| (if attrs &&& mtRw ≠ 0 then pteBlockDescApRw else pteBlockDescApRo)
  let desc := desc ||| pteBlockDescAf
  let memType := mtType attrs
  let desc := desc ||| (pteBlockDescMemtype memType).setWidth 64
  if memType = mtDeviceNGnRnE ∨ memType = mtDeviceNGnRE ∨ memType = mtDeviceGRE then
    let desc := desc ||| pteBlockDescOuterShare
    let desc := desc ||| pteBlockDescPxn
    desc ||| pteBlockDescUxn
  else if memType = mtNormalNc ∨ memType = mtNormal then
    if memType = mtNormal then desc ||| pteBlockDescInnerShare else desc ||| pteBlockDescOuterShare
  else desc

def setPteBlockDesc (m : Machine) (pte : ℕ) (addrPa : U64) (attrs level : U32) : Machine :=
  (m.emit (.setPteBlockDesc pte addrPa attrs level)).store pte (blockDesc addrPa attrs level)

/-! ### Tables -/

/-- The address of `xlat_tables[t]`. -/
def Layout.xlatTable (L : Layout) (t : ℕ) : ℕ := L.xlatTables + 8 * xlatTableEntries * t

/-- `new_prealloc_table`; it does not compare `table_idx` with `CONFIG_MAX_XLAT_TABLES`, and
`table_idx++` wraps around. -/
def newPreallocTable (L : Layout) (m : Machine) : ℕ × Machine :=
  (L.xlatTable m.tableIdx, { m with tableIdx := (m.tableIdx + 1) % 2 ^ 32 })

/-- One iteration of the loop of `split_pte_block_desc`; `i << levelshift` is a 32-bit shift. -/
def splitEntry (oldBlockDesc : U64) (levelshift level : U32) (newTable : ℕ) (m : Machine)
    (i : ℕ) : Machine :=
  let pte := newTable + 8 * i
  let m := m.store pte (oldBlockDesc ||| (BitVec.ofNat 32 i <<< levelshift).setWidth 64)
  if level + 1 = 3 then m.store pte (m.mem pte ||| ptePageDesc) else m

def splitPteBlockDesc (L : Layout) (m : Machine) (pte : ℕ) (level : U32) : Machine :=
  let oldBlockDesc := m.mem pte
  let levelshift := levelToVaSizeShift (level + 1)
  let (newTable, m) := newPreallocTable L m
  let m := (List.range xlatTableEntries).foldl
    (splitEntry oldBlockDesc levelshift level newTable) m
  setPteTableDesc m pte newTable level

/-! ### `add_map` -/

/-- The arguments of a call of `add_map`; the name is not used. -/
structure Call where
  phys : U64
  virt : U64
  size : U32
  attrs : U32

/-- The machine and the local variables at the head of the loop of `add_map`. -/
structure Loop where
  m : Machine
  phys : U64
  virt : U64
  size : U32
  level : U32

/-- The body of the loop.  `none` stands for an execution to which C gives no meaning: a shift
by 64 or more in `calculate_pte_index`, or a `NULL` result, which every branch dereferences.
An entry of type 2 has no branch, so the loop goes round with the state unchanged. -/
def addMapBody (L : Layout) (attrs : U32) (s : Loop) : Option Loop :=
  if 64 ≤ (levelToVaSizeShift s.level).toNat then none
  else
    match calculatePteIndex L s.m.mem s.virt s.level with
    | none => none
    | some pte =>
        let levelSize := 1#64 <<< levelToVaSizeShift s.level
        if levelSize ≤ s.size.signExtend 64 ∧ s.virt &&& (levelSize - 1) = 0 then
          some
            { m := setPteBlockDesc s.m pte s.phys attrs s.level
              virt := s.virt + levelSize
              phys := s.phys + levelSize
              size := (s.size.signExtend 64 - levelSize).setWidth 32
              level := xlatTableBaseLevel }
        else if pteDescType s.m.mem pte = pteInvalidDesc then
          let (newTable, m) := newPreallocTable L s.m
          some { s with m := setPteTableDesc m pte newTable s.level, level := s.level + 1 }
        else if pteDescType s.m.mem pte = pteBlockDesc then
          some { s with m := splitPteBlockDesc L s.m pte s.level, level := s.level + 1 }
        else if pteDescType s.m.mem pte = pteTableDesc then
          some { s with level := s.level + 1 }
        else some s

/-- The loop variables when `add_map` reaches its loop. -/
def Call.start (c : Call) (m : Machine) : Loop := ⟨m, c.phys, c.virt, c.size, xlatTableBaseLevel⟩

/-- The condition of the loop, `while (size)`. -/
def Loop.Goes (s : Loop) : Prop := s.size ≠ 0

instance : DecidablePred Loop.Goes := fun s => inferInstanceAs (Decidable (s.size ≠ 0))

/-- The loop of `add_map`: the state after at most `n` iterations. -/
def addMapLoop (L : Layout) (attrs : U32) : ℕ → Loop → Option Loop :=
  While.run Loop.Goes (addMapBody L attrs)

example : (addMapLoop sampleLayout 12 3 (Call.start ⟨0, 0, 0x1000, 12⟩ ⟨fun _ => 0, 0, []⟩)).map
    (fun s => (s.size, s.m.tableIdx, s.m.mem 0x82000)) = some (0, 2, 0x713) := by decide

/-- `s` is met at the head of the loop of the call `c` on `m`. -/
def Call.Visits (L : Layout) (m : Machine) (c : Call) (s : Loop) : Prop :=
  While.Visits Loop.Goes (addMapBody L c.attrs) (c.start m) s

end Arm64Mmu
