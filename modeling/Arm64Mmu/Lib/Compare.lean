import Mathlib.Data.Int.Notation
import Mathlib.Data.Nat.Notation

/-!
# Three-way comparison

A comparison function returns a number whose sign says how its arguments compare
(`Compares r x y`).  Comparing two lists element by element up to the first difference compares
them lexicographically.
-/

namespace Arm64Mmu.Lib

variable {α : Type*} [LT α]

/-- The sign of `r` says how `x` compares to `y`. -/
structure Compares (r : ℤ) (x y : α) : Prop where
  lt : r < 0 ↔ x < y
  eq : r = 0 ↔ x = y
  gt : 0 < r ↔ y < x

namespace Compares

variable {r : ℤ} {x y a b : α} {l l' : List α}

/-- Comparing the other way round turns the sign. -/
lemma symm (h : Compares r x y) : Compares (-r) y x where
  lt := by rw [← h.gt]; omega
  eq := by rw [eq_comm (a := y), ← h.eq]; omega
  gt := by rw [← h.lt]; omega

lemma nil : Compares 0 ([] : List α) [] := ⟨by simp, by simp, by simp⟩

lemma nil_cons (a : α) (l : List α) (hr : r < 0) : Compares r [] (a :: l) where
  lt := iff_of_true hr (List.nil_lt_cons a l)
  eq := iff_of_false (by omega) (by simp)
  gt := iff_of_false (by omega) (List.not_lt_nil _)

lemma cons_nil (a : α) (l : List α) (hr : 0 < r) : Compares r (a :: l) [] := by
  have h := (nil_cons a l (show -r < 0 by omega)).symm
  rwa [Int.neg_neg] at h

/-- Equal elements in front do not matter. -/
lemma cons [Std.Irrefl (· < · : α → α → Prop)] (a : α) (h : Compares r l l') :
    Compares r (a :: l) (a :: l') where
  lt := by rw [h.lt, List.cons_lt_cons_self]
  eq := by rw [h.eq, List.cons.injEq, eq_self_iff_true, true_and]
  gt := by rw [h.gt, List.cons_lt_cons_self]

/-- The first difference decides. -/
lemma cons_of_ne (h : Compares r a b) (hr : r ≠ 0) : Compares r (a :: l) (b :: l') := by
  have hne : a ≠ b := fun he => hr (h.eq.2 he)
  refine ⟨?_, ?_, ?_⟩
  · rw [h.lt, List.cons_lt_cons_iff]
    simp [hne]
  · rw [h.eq, List.cons.injEq]
    simp [hne]
  · rw [h.gt, List.cons_lt_cons_iff]
    simp [hne.symm]

end Compares

end Arm64Mmu.Lib
