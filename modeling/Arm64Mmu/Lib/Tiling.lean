import Mathlib.Data.Set.Pairwise.Basic
import Mathlib.Order.Interval.Set.LinearOrder
import Mathlib.Data.Finset.Card
import Mathlib.Order.CompleteLattice.Finset
import Mathlib.Order.CompletePartialOrder
import Arm64Mmu.Lib.Greedy

/-!
# Tilings by grid spans

A tiling of `[a, b)` is a partition into spans of the levels `1` to `N` of a ladder of nested
grids.  No tiling has fewer pieces than one all of whose pieces are the coarsest spans inside the
region (`Tiling.card_le`): a piece of any tiling that contains the start of a coarsest span is
nested in it, so it starts there too.
-/

namespace Arm64Mmu.Lib.Greedy

/-- The pieces `P`, as pairs of a level and a start, partition `[a, b)`. -/
structure Tiling (g : ℕ → ℕ) (N a b : ℕ) (P : Finset (ℕ × ℕ)) : Prop where
  level : ∀ p ∈ P, 1 ≤ p.1 ∧ p.1 ≤ N
  aligned : ∀ p ∈ P, p.2 % g p.1 = 0
  disjoint : (P : Set (ℕ × ℕ)).PairwiseDisjoint fun p => Set.Ico p.2 (p.2 + g p.1)
  cover : ⋃ p ∈ P, Set.Ico p.2 (p.2 + g p.1) = Set.Ico a b

variable {g : ℕ → ℕ} {N a b ℓ x : ℕ} {P P' : Finset (ℕ × ℕ)} {p q : ℕ × ℕ}

namespace Tiling

/-- Nothing tiles the empty region. -/
lemma empty (g : ℕ → ℕ) (N a : ℕ) : Tiling g N a a ∅ where
  level := by simp
  aligned := by simp
  disjoint := by simp
  cover := by simp

variable (h : Tiling g N a b P)
include h

/-- Every number of the region is in a piece. -/
lemma exists_mem (ha : a ≤ x) (hb : x < b) : ∃ p ∈ P, p.2 ≤ x ∧ x < p.2 + g p.1 := by
  have hx : x ∈ ⋃ p ∈ P, Set.Ico p.2 (p.2 + g p.1) := by
    rw [h.cover]
    exact ⟨ha, hb⟩
  obtain ⟨p, hp, hin⟩ := Set.mem_iUnion₂.1 hx
  exact ⟨p, hp, hin⟩

/-- The numbers of a piece are in the region. -/
lemma mem_region (hp : p ∈ P) (hle : p.2 ≤ x) (hlt : x < p.2 + g p.1) : a ≤ x ∧ x < b := by
  have hx : x ∈ ⋃ p ∈ P, Set.Ico p.2 (p.2 + g p.1) := Set.mem_iUnion₂.2 ⟨p, hp, hle, hlt⟩
  rwa [h.cover] at hx

variable (hg : Nested g)
include hg

/-- A piece is the span of its level around each of its numbers. -/
lemma floor_eq (hp : p ∈ P) (hle : p.2 ≤ x) (hlt : x < p.2 + g p.1) : floor g p.1 x = p.2 := by
  have hmod := h.aligned p hp
  rw [floor_congr ((hg.div_eq_iff hmod).2 ⟨hle, hlt⟩), floor_eq_self hmod]

/-- The pieces are inside the region. -/
lemma inside (hp : p ∈ P) (hle : p.2 ≤ x) (hlt : x < p.2 + g p.1) : Inside g a b p.1 x := by
  have hpos := hg.pos p.1
  have hfirst := h.mem_region hp le_rfl (by omega)
  have hlast := h.mem_region (x := p.2 + g p.1 - 1) hp (by omega) (by omega)
  rw [Inside, h.floor_eq hg hp hle hlt]
  omega

/-- Two pieces with the same start are the same. -/
lemma start_inj (hp : p ∈ P) (hq : q ∈ P) (he : p.2 = q.2) : p = q := by
  by_contra hne
  have hdisj := h.disjoint hp hq hne
  have h1 := hg.pos p.1
  have h2 := hg.pos q.1
  have hmem : p.2 ∈ Set.Ico p.2 (p.2 + g p.1) := ⟨le_rfl, by omega⟩
  exact Set.disjoint_left.1 hdisj hmem ⟨he.ge, by omega⟩

/-- Every tiling has a piece that starts where a coarsest span starts. -/
lemma exists_start (hco : Coarsest g a b ℓ x) (hx : x % g ℓ = 0) : ∃ p ∈ P, p.2 = x := by
  obtain ⟨ha, hb⟩ := hg.mem_of_inside hco.2.1
  obtain ⟨p, hp, hle, hlt⟩ := h.exists_mem ha hb
  refine ⟨p, hp, ?_⟩
  have hin := h.inside hg hp hle hlt
  -- the piece is not coarser than the coarsest span, so `x` is a grid point of its level
  have hℓ : ℓ ≤ p.1 := by
    by_contra hlt'
    exact hco.2.2 p.1 (h.level p hp).1 (Nat.lt_of_not_le hlt') hin
  have hmod : x % g p.1 = 0 :=
    Nat.mod_eq_zero_of_dvd ((hg.dvd hℓ).trans (Nat.dvd_of_mod_eq_zero hx))
  rw [← h.floor_eq hg hp hle hlt, floor_eq_self hmod]

/-- A tiling by coarsest spans has the fewest pieces. -/
theorem card_le (hco : ∀ p ∈ P, Coarsest g a b p.1 p.2) (h' : Tiling g N a b P') :
    P.card ≤ P'.card := by
  have hinj : Set.InjOn Prod.snd (P : Set (ℕ × ℕ)) := fun p hp q hq he => h.start_inj hg hp hq he
  have hsub : P.image Prod.snd ⊆ P'.image Prod.snd := by
    intro x hx
    obtain ⟨p, hp, rfl⟩ := Finset.mem_image.1 hx
    obtain ⟨q, hq, he⟩ := h'.exists_start hg (hco p hp) (h.aligned p hp)
    exact Finset.mem_image.2 ⟨q, hq, he⟩
  calc P.card = (P.image Prod.snd).card := (Finset.card_image_of_injOn hinj).symm
    _ ≤ (P'.image Prod.snd).card := Finset.card_le_card hsub
    _ ≤ P'.card := Finset.card_image_le

/-- A tiling goes on with one more piece. -/
lemma insert (hab : a ≤ b) (h1 : 1 ≤ ℓ) (hN : ℓ ≤ N) (hb : b % g ℓ = 0) :
    (ℓ, b) ∉ P ∧ Tiling g N a (b + g ℓ) (insert (ℓ, b) P) := by
  have hpos := hg.pos ℓ
  have hnew : ∀ p ∈ P, Disjoint (Set.Ico b (b + g ℓ)) (Set.Ico p.2 (p.2 + g p.1)) := by
    intro p hp
    refine Set.disjoint_left.2 fun x hx hx' => ?_
    have := h.mem_region hp hx'.1 hx'.2
    exact absurd this.2 (Nat.not_lt.2 hx.1)
  refine ⟨fun hp => ?_, ?_, ?_, ?_, ?_⟩
  · have := h.mem_region hp le_rfl (by show b < b + g ℓ; omega)
    exact absurd this.2 (Nat.lt_irrefl b)
  · intro p hp
    rcases Finset.mem_insert.1 hp with rfl | hp
    · exact ⟨h1, hN⟩
    · exact h.level p hp
  · intro p hp
    rcases Finset.mem_insert.1 hp with rfl | hp
    · exact hb
    · exact h.aligned p hp
  · rw [Finset.coe_insert]
    refine h.disjoint.insert fun p hp _ => ?_
    exact hnew p hp
  · rw [Finset.set_biUnion_insert, h.cover, Set.union_comm, Set.Ico_union_Ico_eq_Ico hab (by omega)]

end Tiling

end Arm64Mmu.Lib.Greedy
