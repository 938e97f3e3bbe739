import Mathlib.Algebra.Group.Nat.Defs

/-!
# The constants of `mmu.h`

The macros of `arch/arm64/include/mmu.h` and the `SCTLR` bits of `arch.h`, each under its own
name.  A C `u64` is a `BitVec 64`; an `unsigned int` and an `int` are a `BitVec 32`.
-/

namespace Arm64Mmu

/-- The C type `u64` (and `unsigned long`). -/
abbrev U64 := BitVec 64

/-- The C type `unsigned int`; an `int` is the same 32 bits read as a signed number. -/
abbrev U32 := BitVec 32

def configArm64VaBits : U64 := 32
def configArm64PaBits : U64 := 32
def configMaxXlatTables : ℕ := 32
def numBaseLevelEntries : ℕ := 64
def xlatTableEntries : ℕ := 512
def xlatTableBaseLevel : U32 := 1

/-! ### Levels -/

def pageSizeShift : U32 := 12
def vaSizeShiftMax : U32 := 48
def xlatLevelMax : U32 := 4
def l3XlatVaSizeShift : U32 := pageSizeShift

/-- `Ln_XLAT_VA_SIZE_SHIFT`: the number of address bits each table indexes. -/
def lnXlatVaSizeShift : U32 := (vaSizeShiftMax - l3XlatVaSizeShift) / xlatLevelMax

/-- `LEVEL_TO_VA_SIZE_SHIFT`, in unsigned arithmetic: it wraps past level 3. -/
def levelToVaSizeShift (level : U32) : U32 :=
  pageSizeShift + lnXlatVaSizeShift * ((xlatLevelMax - 1) - level)

/-- `Ln_XLAT_NUM_ENTRIES`. -/
def lnXlatNumEntries : U32 := 1#32 <<< lnXlatVaSizeShift

/-- `XLAT_TABLE_VA_IDX`. -/
def xlatTableVaIdx (vaAddr : U64) (level : U32) : U64 :=
  (vaAddr >>> levelToVaSizeShift level) &&& (lnXlatNumEntries - 1).setWidth 64

/-! ### The translation control register -/

def tcrEl1IpsShift : ℕ := 32
def tcrEl2PsShift : ℕ := 16
def tcrT0szShift : ℕ := 0

def tcrT0sz (x : U64) : U64 := (64 - x) <<< tcrT0szShift

def tcrIrgnWbwa : U64 := 1#64 <<< 8
def tcrOrgnWbwa : U64 := 1#64 <<< 10
def tcrSharedInner : U64 := 3#64 <<< 12
def tcrTg04K : U64 := 0#64 <<< 14
def tcrEpd1Disable : U64 := 1#64 <<< 23

def tcrPsBits4GB : U64 := 0
def tcrPsBits64GB : U64 := 1
def tcrPsBits1TB : U64 := 2
def tcrPsBits4TB : U64 := 3
def tcrPsBits16TB : U64 := 4
def tcrPsBits256TB : U64 := 5

/-! ### Descriptors -/

def pteDescTypeMask : U64 := 3
def pteBlockDesc : U64 := 1
def pteTableDesc : U64 := 3
def ptePageDesc : U64 := 3
def pteInvalidDesc : U64 := 0

/-- `DESC_ATTRS_MASK`: the bits `[63:51]` and `[11:2]`. -/
def descAttrsMask : U64 := 0xfff8000000000ffc

def pteBlockDescMemtype (x : U32) : U32 := x <<< 2
def pteBlockDescNs : U64 := 1#64 <<< 5
def pteBlockDescApRo : U64 := 1#64 <<< 7
def pteBlockDescApRw : U64 := 0#64 <<< 7
def pteBlockDescOuterShare : U64 := 2#64 <<< 8
def pteBlockDescInnerShare : U64 := 3#64 <<< 8
def pteBlockDescAf : U64 := 1#64 <<< 10
def pteBlockDescPxn : U64 := 1#64 <<< 53
def pteBlockDescUxn : U64 := 1#64 <<< 54

/-! ### Memory types and the flags of `attrs` -/

def mtTypeMask : U32 := 7
def mtType (attr : U32) : U32 := attr &&& mtTypeMask

def mtDeviceNGnRnE : U32 := 0
def mtDeviceNGnRE : U32 := 1
def mtDeviceGRE : U32 := 2
def mtNormalNc : U32 := 3
def mtNormal : U32 := 4
def mtNormalWt : U32 := 5

/-- `MEMORY_ATTRIBUTES`, the value of `MAIR_EL2`: one byte for each memory type.  The first
four summands are shifts of an `int`. -/
def memoryAttributes : U64 :=
  ((0x00#32 <<< (mtDeviceNGnRnE * 8)) ||| (0x04#32 <<< (mtDeviceNGnRE * 8)) |||
    (0x0c#32 <<< (mtDeviceGRE * 8)) ||| (0x44#32 <<< (mtNormalNc * 8))).setWidth 64 |||
    (0xff#64 <<< (mtNormal * 8)) ||| (0xbb#64 <<< (mtNormalWt * 8))

def mtRw : U32 := 1#32 <<< 3
def mtNs : U32 := 1#32 <<< 4
def mtPExecuteNever : U32 := 1#32 <<< 5
def mtUExecuteNever : U32 := 1#32 <<< 6
def mtRwApELx : U32 := 1#32 <<< 7

/-! ### The system control register -/

def sctlrM : U64 := 1#64 <<< 0
def sctlrC : U64 := 1#64 <<< 2
def sctlrA : U64 := 1#64 <<< 1
def sctlrSA : U64 := 1#64 <<< 3
def sctlrI : U64 := 1#64 <<< 12
def sctlrEE : U64 := 1#64 <<< 25

example : levelToVaSizeShift 1 = 30 ∧ levelToVaSizeShift 2 = 21 ∧ levelToVaSizeShift 3 = 12 ∧
    levelToVaSizeShift 4 = 3 := by decide

end Arm64Mmu
