import Mathlib.Data.Nat.Digits.Lemmas

/-!
# Numerals

The digits of a number as they are printed: 0 has one digit, the highest digit stands first, and
zeros may stand in front to fill a width.  `low` are the digits in the order in which division by
the base yields them.
-/

namespace Arm64Mmu.Lib.Numeral

variable {b n k d : ℕ}

/-- The digits of `n` to the base `b`, the lowest first. -/
def low (b n : ℕ) : List ℕ := if n = 0 then [0] else Nat.digits b n

/-- Division by the base yields the digits one after the other. -/
lemma low_eq (hb : 1 < b) (n : ℕ) :
    low b n = n % b :: if n / b = 0 then [] else low b (n / b) := by
  rcases Nat.eq_zero_or_pos n with rfl | hn
  · rw [low, if_pos rfl, Nat.zero_mod, Nat.zero_div, if_pos rfl]
  · rw [low, if_neg (Nat.pos_iff_ne_zero.1 hn), Nat.digits_def' hb hn]
    by_cases h : n / b = 0
    · rw [if_pos h, h, Nat.digits_zero]
    · rw [if_neg h, low, if_neg h]

lemma lt_of_mem_low (hb : 1 < b) (hd : d ∈ low b n) : d < b := by
  rw [low] at hd
  split_ifs at hd with h
  · obtain rfl := List.mem_singleton.1 hd
    omega
  · exact Nat.digits_lt_base hb hd

lemma length_low_pos (b n : ℕ) : 0 < (low b n).length := by
  rw [low]
  split_ifs with h
  · simp
  · rw [List.length_pos_iff]
    exact Nat.digits_ne_nil_iff_ne_zero.2 h

lemma length_low_le (hb : 1 < b) (hk : 0 < k) (hn : n < b ^ k) : (low b n).length ≤ k := by
  rw [low]
  split_ifs with h
  · exact hk
  · exact (Nat.digits_length_le_iff hb n).2 hn

/-- `n` as a numeral with at least `k` digits. -/
def numeral (b k n : ℕ) : List ℕ := List.replicate (k - (low b n).length) 0 ++ (low b n).reverse

lemma length_numeral (b k n : ℕ) : (numeral b k n).length = max k (low b n).length := by
  rw [numeral, List.length_append, List.length_replicate, List.length_reverse]
  omega

lemma lt_of_mem_numeral (hb : 1 < b) (hd : d ∈ numeral b k n) : d < b := by
  rw [numeral, List.mem_append, List.mem_reverse] at hd
  rcases hd with hd | hd
  · obtain rfl := List.eq_of_mem_replicate hd
    omega
  · exact lt_of_mem_low hb hd

/-- The number that a numeral stands for. -/
def value (b : ℕ) (ds : List ℕ) : ℕ := Nat.ofDigits b ds.reverse

@[simp] lemma value_nil (b : ℕ) : value b [] = 0 := rfl

lemma value_snoc (b : ℕ) (ds : List ℕ) (d : ℕ) : value b (ds ++ [d]) = value b ds * b + d := by
  rw [value, List.reverse_append, List.reverse_singleton, List.singleton_append, Nat.ofDigits_cons,
    value, Nat.mul_comm, Nat.add_comm]

lemma value_lt {ds : List ℕ} (hb : 1 < b) (h : ∀ d ∈ ds, d < b) : value b ds < b ^ ds.length := by
  have hlt := Nat.ofDigits_lt_base_pow_length hb fun d hd => h d (List.mem_reverse.1 hd)
  rwa [List.length_reverse] at hlt

/-- A numeral stands for the number that it was made of. -/
theorem value_numeral (b k n : ℕ) : value b (numeral b k n) = n := by
  rw [value, numeral, List.reverse_append, List.reverse_reverse, List.reverse_replicate,
    Nat.ofDigits_append_replicate_zero, low]
  split_ifs with h
  · rw [h, Nat.ofDigits_singleton]
  · exact Nat.ofDigits_digits b n

end Arm64Mmu.Lib.Numeral
