import Arm64Mmu.Lib.Bits
import Arm64Mmu.Model.AddMap

/-!
# The registers of `enable_mmu` and the table walk

`getTcr` and `enableMmu` are the functions of `mmu.c`.  `walk` is the stage 1 table walk that
the hardware makes under the values of the EL2 registers, for the 4 KiB granule: the size of
the input addresses and the level at which the walk starts come from `TCR_EL2`, the base table
from `TTBR0_EL2`.  Only what decides the result of the walk is there; faults on access
permissions are not.
-/

namespace Arm64Mmu

/-- `get_tcr`. -/
def getTcr (el : U32) : U64 :=
  let paBits := configArm64PaBits
  let vaBits := configArm64VaBits
  let tcrPsBits :=
    if paBits = 48 then tcrPsBits256TB
    else if paBits = 44 then tcrPsBits16TB
    else if paBits = 42 then tcrPsBits4TB
    else if paBits = 40 then tcrPsBits1TB
    else if paBits = 36 then tcrPsBits64GB
    else tcrPsBits4GB
  let tcr :=
    if el = 1 then tcrPsBits <<< tcrEl1IpsShift ||| tcrEpd1Disable
    else tcrPsBits <<< tcrEl2PsShift
  let tcr := tcr ||| tcrT0sz vaBits
  tcr ||| (tcrTg04K ||| tcrSharedInner ||| tcrOrgnWbwa ||| tcrIrgnWbwa)

/-- The system registers that `enable_mmu` writes. -/
structure SysRegs where
  mairEl2 : U64
  tcrEl2 : U64
  ttbr0El2 : U64
  sctlrEl2 : U64

/-- `enable_mmu`. -/
def enableMmu (L : Layout) (r : SysRegs) : SysRegs where
  mairEl2 := memoryAttributes
  tcrEl2 := getTcr 2
  ttbr0El2 := BitVec.ofNat 64 L.baseXlatTable
  sctlrEl2 := r.sctlrEl2 ||| (sctlrM ||| sctlrC)

/-! ### The table walk -/

/-- An entry that the walk reads. -/
structure Fetch where
  /-- The level of the table that holds the entry. -/
  level : ℕ
  /-- The address of the entry. -/
  pte : ℕ
deriving DecidableEq

/-- The result of a walk that finds a block or a page. -/
structure Leaf where
  /-- The level of the table that holds the descriptor. -/
  level : ℕ
  desc : U64
  /-- The physical address. -/
  pa : ℕ
deriving DecidableEq

/-- The attribute fields of a leaf. -/
def Leaf.attrs (l : Leaf) : U64 := l.desc &&& descAttrsMask

/-- The address field `[47:s]` of a descriptor. -/
def addrField (s : ℕ) (d : U64) : ℕ := Lib.Bits.field 48 s d.toNat

/-- The entries that the walk reads, from a table whose entries span `2 ^ (12 + 9 * n)` bytes when
`n + 1` levels are left.  A word of type 3 is a page at the last level and leads on to the next
table above it. -/
def fetchesFrom (mem : Mem) (va : ℕ) : ℕ → ℕ → List Fetch
  | 0, _ => []
  | n + 1, table =>
      let pte := table + 8 * (va / 2 ^ (12 + 9 * n) % 512)
      let d := mem pte
      ⟨3 - n, pte⟩ :: if n ≠ 0 ∧ d &&& 3 = 3 then fetchesFrom mem va n (addrField 12 d) else []

/-- The entries that the walk for a virtual address reads: `TCR_EL2.T0SZ` gives the number of
address bits, and each level but the last page offset resolves nine of them.  Granules other than
4 KiB (`TCR_EL2.TG0`) are not modelled. -/
def fetches (r : SysRegs) (mem : Mem) (va : ℕ) : List Fetch :=
  let bits := 64 - (r.tcrEl2 &&& 0x3f).toNat
  if r.tcrEl2 >>> 14 &&& 3 ≠ 0 ∨ 2 ^ bits ≤ va then []
  else fetchesFrom mem va ((bits - 12 + 8) / 9) (addrField 12 r.ttbr0El2)

/-- Where a walk ends: with the descriptor of a leaf, or with a translation fault that is
reported for a level. -/
inductive WalkEnd where
  | leaf (l : Leaf)
  | fault (level : ℕ)
deriving DecidableEq

/-- What the last entry says: type 3 is a page at level 3, and type 1 is a block, which exists at
the levels 1 and 2. -/
def WalkEnd.ofFetch (mem : Mem) (va : ℕ) (e : Fetch) : WalkEnd :=
  let s := 39 - 9 * e.level
  let d := mem e.pte
  if (e.level = 3 ∧ d &&& 3 = 3) ∨ ((e.level = 1 ∨ e.level = 2) ∧ d &&& 3 = 1) then
    .leaf ⟨e.level, d, addrField s d + va % 2 ^ s⟩
  else .fault e.level

/-- The end of the walk for a virtual address; an address that the registers exclude faults at
level 0. -/
def walkEnd (r : SysRegs) (mem : Mem) (va : ℕ) : WalkEnd :=
  match (fetches r mem va).getLast? with
  | some e => .ofFetch mem va e
  | none => .fault 0

/-- The leaf at the end of a walk. -/
def WalkEnd.toOption : WalkEnd → Option Leaf
  | .leaf l => some l
  | .fault _ => none

/-- The leaf that the walk for a virtual address finds. -/
def walk (r : SysRegs) (mem : Mem) (va : ℕ) : Option Leaf := (walkEnd r mem va).toOption

/-- What a translation yields: the physical address and the attribute fields. -/
def translate (r : SysRegs) (mem : Mem) (va : ℕ) : Option (ℕ × U64) :=
  (walk r mem va).map fun l => (l.pa, l.attrs)

example : getTcr 2 = 0x3520 := by decide

end Arm64Mmu
