import Mathlib.Data.Nat.Bitwise

/-!
# Bit fields kept in place

`field hi lo n` is the number made of the bits `[hi-1:lo]` of `n`, left at their places.
Fields distribute over bitwise or, a number all of whose bits are in the field is its own
field, and numbers with disjoint bits are added by or.
-/

namespace Arm64Mmu.Lib.Bits

/-- The bits `[hi-1:lo]` of `n`, in place. -/
def field (hi lo n : ℕ) : ℕ := n % 2 ^ hi / 2 ^ lo * 2 ^ lo

variable {hi lo a b n : ℕ}

lemma testBit_field (hi lo n i : ℕ) :
    (field hi lo n).testBit i = (decide (lo ≤ i) && decide (i < hi) && n.testBit i) := by
  rw [field, Nat.testBit_mul_two_pow, Nat.testBit_div_two_pow, Nat.testBit_mod_two_pow]
  by_cases h : lo ≤ i
  · simp [h]
  · simp [h]

lemma field_or (hi lo a b : ℕ) : field hi lo (a ||| b) = field hi lo a ||| field hi lo b := by
  refine Nat.eq_of_testBit_eq fun i => ?_
  simp only [testBit_field, Nat.testBit_or, Bool.and_or_distrib_left]

/-- Masking with ones at `[hi-1:lo]` selects the field. -/
lemma and_mask (hi lo n : ℕ) : n &&& ((2 ^ (hi - lo) - 1) * 2 ^ lo) = field hi lo n := by
  refine Nat.eq_of_testBit_eq fun i => ?_
  rw [testBit_field, Nat.testBit_and, Nat.testBit_mul_two_pow, Nat.testBit_two_pow_sub_one]
  by_cases h : lo ≤ i
  · have : (i - lo < hi - lo) = (i < hi) := by
      apply propext
      omega
    simp [h, this, Bool.and_comm]
  · simp [h]

/-- A multiple of `2 ^ lo` below `2 ^ hi` is its own field. -/
lemma field_eq_self (hlo : n % 2 ^ lo = 0) (hhi : n < 2 ^ hi) : field hi lo n = n := by
  rw [field, Nat.mod_eq_of_lt hhi, Nat.div_mul_cancel (Nat.dvd_of_mod_eq_zero hlo)]

/-- A number below `2 ^ lo` has nothing in the field. -/
lemma field_eq_zero (h : n < 2 ^ lo) : field hi lo n = 0 := by
  have h1 : n % 2 ^ hi < 2 ^ lo := (Nat.mod_le _ _).trans_lt h
  rw [field, Nat.div_eq_of_lt h1, Nat.zero_mul]

/-- A coarser field is what remains when the low part of a field is removed. -/
lemma field_field {m : ℕ} (h : lo ≤ m) : field hi m (field hi lo n) = field hi m n := by
  refine Nat.eq_of_testBit_eq fun i => ?_
  simp only [testBit_field]
  by_cases hi' : m ≤ i
  · simp [hi', h.trans hi']
  · simp [hi']

/-- Or adds a number that fits below the low end of a multiple of a power of two. -/
lemma or_eq_add (ha : a % 2 ^ n = 0) (hb : b < 2 ^ n) : a ||| b = a + b := by
  obtain ⟨k, rfl⟩ := Nat.dvd_of_mod_eq_zero ha
  exact (Nat.two_pow_add_eq_or_of_lt hb k).symm

end Arm64Mmu.Lib.Bits
