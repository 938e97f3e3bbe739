import Mathlib.Data.Set.Finite.Basic
import Mathlib.Order.Interval.Finset.Nat

/-!
# Renaming what was allocated

Two runs that start from the same state, with the names below `n` allocated, and allocate the
names below `N`, may use the new names for different purposes.  If the purposes match them one to
one, there is a renaming of the names below `N` that fixes those below `n`.
-/

namespace Arm64Mmu.Lib

/-- A one-to-one matching of the new names extends to a renaming of all names. -/
theorem exists_renaming {n N : ℕ} {R : ℕ → ℕ → Prop}
    (hR : ∀ t, n ≤ t → t < N → ∃ t', n ≤ t' ∧ t' < N ∧ R t t')
    (hinj : ∀ {t₁ t₂ t'}, R t₁ t' → R t₂ t' → t₁ = t₂) :
    ∃ σ : ℕ → ℕ, (∀ t < n, σ t = t) ∧ (∀ t, n ≤ t → t < N → R t (σ t)) ∧
      Set.BijOn σ (Set.Iio N) (Set.Iio N) := by
  classical
  choose! f hf using hR
  refine ⟨fun t => if t < n then t else f t, fun t ht => if_pos ht, fun t hle hlt => ?_, ?_⟩
  · simp only [if_neg (Nat.not_lt.2 hle)]
    exact (hf t hle hlt).2.2
  · have hmaps : Set.MapsTo (fun t => if t < n then t else f t) (Set.Iio N) (Set.Iio N) := by
      intro t ht
      simp only [Set.mem_Iio] at ht ⊢
      split_ifs with h
      · exact ht
      · exact (hf t (Nat.not_lt.1 h) ht).2.1
    refine ((Set.finite_Iio N).injOn_iff_bijOn_of_mapsTo hmaps).1 fun t ht t' ht' he => ?_
    simp only [Set.mem_Iio] at ht ht' he
    -- an old name is not confused with a new one, and new names do not share a match
    split_ifs at he with h h' h'
    · exact he
    · have := (hf t' (Nat.not_lt.1 h') ht').1
      omega
    · have := (hf t (Nat.not_lt.1 h) ht).1
      omega
    · have h1 := (hf t (Nat.not_lt.1 h) ht).2.2
      have h2 := (hf t' (Nat.not_lt.1 h') ht').2.2
      exact hinj h1 (he ▸ h2)

end Arm64Mmu.Lib
