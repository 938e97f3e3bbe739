import Arm64Mmu.Lib.Compare
import Arm64Mmu.Model.Libc

/-!
# Comparing

The sign of what `memcmp`, `strcmp` and `strncmp` return says how the bytes compare
lexicographically as unsigned numbers.  `strncmp` needs no terminator: it compares what `strTake`
reads, the strings cut after `n` bytes.
-/

namespace Arm64Mmu.Libc

open Lib Lib.Bytes Lib.Return

variable {m : ByteMem} {p q s d : Ptr} {n : ℕ} {x y : List U8}

lemma byteDiff_compares (a b : U8) : Compares (byteDiff a b) a b where
  lt := by rw [byteDiff, BitVec.lt_def]; omega
  eq := by rw [byteDiff, ← BitVec.toNat_inj]; omega
  gt := by rw [byteDiff, BitVec.lt_def]; omega

lemma byteDiff_ne_zero {a b : U8} : byteDiff a b ≠ 0 ↔ a ≠ b := not_congr (byteDiff_compares a b).eq

lemma memcmpLoop_compares (m : ByteMem) (s d : Ptr) (n : ℕ) :
    Compares (memcmpLoop m s d n) (bytes m s n) (bytes m d n) := by
  induction n generalizing s d with
  | zero => exact .nil
  | succ n ih =>
      rw [memcmpLoop, bytes_succ, bytes_succ]
      by_cases h : byteDiff (m s) (m d) ≠ 0
      · rw [if_pos h]
        exact (byteDiff_compares _ _).cons_of_ne h
      · rw [if_neg h]
        have he : m s = m d := (byteDiff_compares _ _).eq.1 (not_not.1 h)
        rw [he]
        exact (ih (s + 1) (d + 1)).cons _

/-- `memcmp` compares the `len` bytes lexicographically. -/
theorem memcmp_compares (m : ByteMem) (s1 s2 : Ptr) (len : U64) :
    Compares (memcmp m s1 s2 len) (bytes m s1 len.toNat) (bytes m s2 len.toNat) :=
  memcmpLoop_compares m s1 s2 len.toNat

/-- The terminator compares as the end of the string. -/
lemma byteDiff_compares_end {a b : U8} (h : a ≠ b) (x y : List U8) :
    Compares (byteDiff a b) (if a = 0 then [] else a :: x) (if b = 0 then [] else b :: y) := by
  have hne := byteDiff_ne_zero.2 h
  by_cases ha : a = 0
  · rw [if_pos ha, if_neg fun hb => h (ha.trans hb.symm)]
    exact .nil_cons b y (by rw [byteDiff, ha] at hne ⊢; simp at hne ⊢; omega)
  · rw [if_neg ha]
    by_cases hb : b = 0
    · rw [if_pos hb]
      exact .cons_nil a x (by rw [byteDiff, hb] at hne ⊢; simp at hne ⊢; omega)
    · rw [if_neg hb]
      exact (byteDiff_compares a b).cons_of_ne hne

lemma strncmpLoop_compares (m : ByteMem) (p q : Ptr) (n : ℕ) :
    Compares (strncmpLoop m p q n) (strTake m p n) (strTake m q n) := by
  induction n generalizing p q with
  | zero => exact .nil
  | succ n ih =>
      rw [strncmpLoop, strTake_succ, strTake_succ, BitVec.add_sub_cancel]
      by_cases h : m p ≠ m q
      · rw [if_pos h]
        exact byteDiff_compares_end h _ _
      · have he : m p = m q := not_not.1 h
        rw [if_neg h, he]
        by_cases h0 : m q = 0
        · rw [if_pos h0, if_pos h0, if_pos h0]
          exact .nil
        · rw [if_neg h0, if_neg h0, if_neg h0]
          exact (ih (p + 1) (q + 1)).cons _

/-- `strncmp` compares the strings cut after `n` bytes lexicographically. -/
theorem strncmp_compares (m : ByteMem) (s1 s2 : Ptr) (n : U64) :
    Compares (strncmp m s1 s2 n) (strTake m s1 n.toNat) (strTake m s2 n.toNat) :=
  strncmpLoop_compares m s1 s2 n.toNat

/-- `strcmp` is `strncmp` with a limit that is not reached. -/
lemma strcmp_of_strncmpLoop (h : IsStr m p x) (q : Ptr) (hn : x.length < n) :
    Strcmp m p q (strncmpLoop m p q n) := by
  induction x generalizing p q n with
  | nil =>
      obtain ⟨n, rfl⟩ : ∃ k, n = k + 1 := ⟨n - 1, by omega⟩
      have h0 : m p = 0 := isStr_nil.1 h
      refine .of_inr ?_
      rw [strcmpBody, strncmpLoop, if_pos h0, if_pos h0, ite_not]
      split_ifs <;> rfl
  | cons c x ih =>
      obtain ⟨n, rfl⟩ : ∃ k, n = k + 1 := ⟨n - 1, by omega⟩
      obtain ⟨hc, hc0, hx⟩ := isStr_cons.1 h
      have h0 : m p ≠ 0 := fun he => hc0 (hc.symm.trans he)
      rw [Strcmp, strncmpLoop]
      by_cases he : m p = m q
      · rw [if_neg (not_not.2 he), if_neg h0]
        refine Returns.head ?_ (ih hx (q + 1) (by simpa using hn))
        rw [strcmpBody, if_pos he, if_neg h0]
      · rw [if_pos he]
        exact .of_inr (by rw [strcmpBody, if_neg he])

/-- On terminated strings `strcmp` returns, and compares them lexicographically. -/
theorem strcmp_compares (m : ByteMem) (s1 s2 : Ptr) (x y : List U8) (hx : IsStr m s1 x)
    (hy : IsStr m s2 y) : ∃ r, Strcmp m s1 s2 r ∧ Compares r x y := by
  have h := strncmpLoop_compares m s1 s2 (x.length + y.length + 1)
  rw [hx.strTake, hy.strTake, List.take_of_length_le (by omega),
    List.take_of_length_le (by omega)] at h
  exact ⟨_, strcmp_of_strncmpLoop hx s2 (by omega), h⟩

end Arm64Mmu.Libc
