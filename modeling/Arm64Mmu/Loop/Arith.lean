import Arm64Mmu.Table.Stores

/-!
# The arithmetic of `add_map`

`size` is an `int` that is compared with, and reduced by, a `u64`.  The comparison sign-extends
it; a negative size becomes a number larger than every level size, and since its 32 bits read
as a number are at least 2 GiB that is the right answer.  So the condition of the first branch
of the loop says that the span fits (`fits_iff`), and the truncating subtraction takes the
level size off the number of bytes that are left (`size_sub`).
-/

namespace Arm64Mmu

open Lib

variable {ℓ b : ℕ} {virt : U64} {size : U32}

/-- `level_size` in `add_map`. -/
abbrev levelSize (level : U32) : U64 := 1#64 <<< levelToVaSizeShift level

/-- A level is the number that it stands for. -/
lemma level_eq (level : U32) : level = BitVec.ofNat 32 level.toNat := by
  rw [BitVec.ofNat_toNat, BitVec.setWidth_eq]

lemma levelSize_toNat (h1 : 1 ≤ ℓ) (h3 : ℓ ≤ 3) :
    (levelSize (BitVec.ofNat 32 ℓ)).toNat = gran ℓ := by
  interval_cases ℓ <;> decide

lemma gran_le (h1 : 1 ≤ ℓ) (h3 : ℓ ≤ 3) : 4096 ≤ gran ℓ ∧ gran ℓ ≤ 2 ^ 30 := by
  interval_cases ℓ <;> decide

lemma signExtend_toNat (size : U32) : (size.signExtend 64).toNat =
    size.toNat + if 2 ^ 31 ≤ size.toNat then 2 ^ 64 - 2 ^ 32 else 0 := by
  rw [BitVec.toNat_signExtend, BitVec.msb_eq_decide, BitVec.toNat_setWidth]
  have := size.isLt
  simp only [decide_eq_true_eq]
  rw [Nat.mod_eq_of_lt (by omega)]

/-- A level size compares with the sign-extended size as with the bytes that are left. -/
lemma levelSize_le_iff (h1 : 1 ≤ ℓ) (h3 : ℓ ≤ 3) :
    levelSize (BitVec.ofNat 32 ℓ) ≤ size.signExtend 64 ↔ gran ℓ ≤ size.toNat := by
  have hg := gran_le h1 h3
  rw [BitVec.le_def, levelSize_toNat h1 h3, signExtend_toNat]
  split_ifs <;> omega

lemma and_levelSize_eq_zero_iff (h1 : 1 ≤ ℓ) (h3 : ℓ ≤ 3) :
    virt &&& (levelSize (BitVec.ofNat 32 ℓ) - 1) = 0 ↔ virt.toNat % gran ℓ = 0 := by
  have hmask : (levelSize (BitVec.ofNat 32 ℓ) - 1).toNat = 2 ^ (39 - 9 * ℓ) - 1 := by
    interval_cases ℓ <;> decide
  rw [← BitVec.toNat_inj, BitVec.toNat_and, hmask, Nat.and_two_pow_sub_one_eq_mod]
  rfl

/-- The condition under which `add_map` writes a leaf. -/
theorem fits_iff (h1 : 1 ≤ ℓ) (h3 : ℓ ≤ 3) (hb : virt.toNat + size.toNat = b) :
    (levelSize (BitVec.ofNat 32 ℓ) ≤ size.signExtend 64 ∧
      virt &&& (levelSize (BitVec.ofNat 32 ℓ) - 1) = 0) ↔
      Greedy.Fits gran b ⟨virt.toNat, ℓ⟩ := by
  rw [levelSize_le_iff h1 h3, and_levelSize_eq_zero_iff h1 h3, Greedy.Fits, and_comm]
  refine and_congr_right fun _ => ?_
  simp only
  omega

/-- What is left of the size when a span is mapped. -/
theorem size_sub (h1 : 1 ≤ ℓ) (h3 : ℓ ≤ 3) (h : gran ℓ ≤ size.toNat) :
    ((size.signExtend 64 - levelSize (BitVec.ofNat 32 ℓ)).setWidth 32).toNat =
      size.toNat - gran ℓ := by
  have hg := gran_le h1 h3
  have hlt := size.isLt
  rw [BitVec.toNat_setWidth, BitVec.toNat_sub, levelSize_toNat h1 h3, signExtend_toNat]
  split_ifs <;> omega

lemma virt_add (h1 : 1 ≤ ℓ) (h3 : ℓ ≤ 3) (h : virt.toNat + gran ℓ < 2 ^ 64) :
    (virt + levelSize (BitVec.ofNat 32 ℓ)).toNat = virt.toNat + gran ℓ := by
  rw [BitVec.toNat_add, levelSize_toNat h1 h3, Nat.mod_eq_of_lt h]

lemma levelSize_eq (h1 : 1 ≤ ℓ) (h3 : ℓ ≤ 3) :
    levelSize (BitVec.ofNat 32 ℓ) = BitVec.ofNat 64 (gran ℓ) := by
  apply BitVec.eq_of_toNat_eq
  have hg := gran_le h1 h3
  rw [levelSize_toNat h1 h3, BitVec.toNat_ofNat, Nat.mod_eq_of_lt (by omega)]

end Arm64Mmu
