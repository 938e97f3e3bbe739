import Mathlib.Data.Nat.Notation
import Mathlib.Tactic.Ring

/-!
# Greedy tiling over nested grids

A ladder of grid sizes `g 1, g 2, …`, each dividing the one before, cuts the numbers into
nested spans.  The greedy tiling of `[a, b)` keeps a position and a level: if the position is
a grid point of the level and the span fits before `b`, the span is taken and the search
starts again at level `1`; otherwise the next finer level is tried.

The invariant `Inv` says what the position and the level remember of the search: no coarser
span fits at the position, and a span that the position has already entered is not wholly
inside `[a, b)`.  From it, a level that fails at the position is a level whose span is cut by
one of the two ends of the region (`Inv.cut_of_not_fits`), and a span that is taken is the
coarsest one inside the region (`Inv.not_inside`).
-/

namespace Arm64Mmu.Lib.Greedy

variable (g : ℕ → ℕ)

/-- The grid sizes are positive and each divides the coarser ones. -/
structure Nested : Prop where
  pos : ∀ ℓ, 0 < g ℓ
  dvd : ∀ {ℓ ℓ'}, ℓ ≤ ℓ' → g ℓ' ∣ g ℓ

/-- The first number of the span of level `ℓ` that contains `x`. -/
def floor (ℓ x : ℕ) : ℕ := x / g ℓ * g ℓ

/-- The span of level `ℓ` around `x` lies inside `[a, b)`. -/
def Inside (a b ℓ x : ℕ) : Prop := a ≤ floor g ℓ x ∧ floor g ℓ x + g ℓ ≤ b

/-- The span of level `ℓ` around `x` lies inside `[a, b)`, and no coarser one around `x` does. -/
def Coarsest (a b ℓ x : ℕ) : Prop :=
  1 ≤ ℓ ∧ Inside g a b ℓ x ∧ ∀ j, 1 ≤ j → j < ℓ → ¬ Inside g a b j x

/-- The span of level `ℓ` around `x` has a number in common with `[a, b)`. -/
def Meets (a b ℓ x : ℕ) : Prop := a < b ∧ floor g ℓ x < b ∧ a < floor g ℓ x + g ℓ

/-- The span of level `ℓ` around `x` meets `[a, b)` without lying inside it. -/
def Cut (a b ℓ x : ℕ) : Prop := Meets g a b ℓ x ∧ ¬ Inside g a b ℓ x

instance (a b ℓ x : ℕ) : Decidable (Inside g a b ℓ x) :=
  inferInstanceAs (Decidable (_ ∧ _))

instance (a b ℓ x : ℕ) : Decidable (Meets g a b ℓ x) :=
  inferInstanceAs (Decidable (_ ∧ _))

instance (a b ℓ x : ℕ) : Decidable (Cut g a b ℓ x) :=
  inferInstanceAs (Decidable (_ ∧ _))

/-- The state of the search. -/
structure Cursor where
  /-- Everything of the region before `pos` is tiled. -/
  pos : ℕ
  /-- The level that is tried next. -/
  level : ℕ

/-- The span of the cursor's level starts at its position and ends before `b`. -/
def Fits (b : ℕ) (c : Cursor) : Prop := c.pos % g c.level = 0 ∧ c.pos + g c.level ≤ b

instance (b : ℕ) (c : Cursor) : Decidable (Fits g b c) := inferInstanceAs (Decidable (_ ∧ _))

variable {g} {a b ℓ ℓ' x y : ℕ}

/-! ### Spans -/

lemma floor_le (g : ℕ → ℕ) (ℓ x : ℕ) : floor g ℓ x ≤ x := Nat.div_mul_le_self x (g ℓ)

lemma floor_congr (h : x / g ℓ = y / g ℓ) : floor g ℓ x = floor g ℓ y := by
  rw [floor, floor, h]

lemma floor_eq_self (h : x % g ℓ = 0) : floor g ℓ x = x := by
  have h1 := Nat.div_add_mod x (g ℓ)
  rw [h, Nat.add_zero, Nat.mul_comm] at h1
  exact h1

lemma inside_congr (h : x / g ℓ = y / g ℓ) : Inside g a b ℓ x ↔ Inside g a b ℓ y := by
  rw [Inside, Inside, floor_congr h]

/-- Two coarsest spans around a number are the same. -/
lemma Coarsest.unique (h : Coarsest g a b ℓ x) (h' : Coarsest g a b ℓ' x) : ℓ = ℓ' := by
  rcases Nat.lt_trichotomy ℓ ℓ' with hlt | heq | hlt
  · exact absurd h.2.1 (h'.2.2 ℓ h.1 hlt)
  · exact heq
  · exact absurd h'.2.1 (h.2.2 ℓ' h'.1 hlt)

lemma meets_congr (h : x / g ℓ = y / g ℓ) : Meets g a b ℓ x ↔ Meets g a b ℓ y := by
  rw [Meets, Meets, floor_congr h]

lemma cut_congr (h : x / g ℓ = y / g ℓ) : Cut g a b ℓ x ↔ Cut g a b ℓ y := by
  rw [Cut, Cut, inside_congr h, meets_congr h]

namespace Nested

variable (hg : Nested g)
include hg

lemma lt_floor_add (ℓ x : ℕ) : x < floor g ℓ x + g ℓ := by
  have h1 := Nat.mod_lt x (hg.pos ℓ)
  have h2 := Nat.div_add_mod x (g ℓ)
  rw [Nat.mul_comm] at h2
  rw [floor]
  omega

/-- Two numbers in the same fine span are in the same coarse span. -/
lemma div_eq_of_le (h : ℓ ≤ ℓ') (hxy : x / g ℓ' = y / g ℓ') : x / g ℓ = y / g ℓ := by
  obtain ⟨k, hk⟩ := hg.dvd h
  rw [hk, ← Nat.div_div_eq_div_mul, ← Nat.div_div_eq_div_mul, hxy]

/-- The first number of a fine span lies in the coarse span. -/
lemma floor_div (h : ℓ ≤ ℓ') : floor g ℓ' x / g ℓ = x / g ℓ := by
  refine hg.div_eq_of_le h ?_
  rw [floor, Nat.mul_div_cancel _ (hg.pos ℓ')]

lemma floor_le_floor (h : ℓ ≤ ℓ') : floor g ℓ x ≤ floor g ℓ' x := by
  have h1 := floor_le g ℓ (floor g ℓ' x)
  rwa [floor_congr (hg.floor_div h)] at h1

/-- The fine span ends before the coarse one does. -/
lemma floor_add_le (h : ℓ ≤ ℓ') : floor g ℓ' x + g ℓ' ≤ floor g ℓ x + g ℓ := by
  obtain ⟨k, hk⟩ := hg.dvd h
  have hx : x / g ℓ' / k = x / g ℓ := by rw [Nat.div_div_eq_div_mul, ← hk]
  have hkpos : 0 < k := by
    rcases Nat.eq_zero_or_pos k with rfl | h0
    · have := hg.pos ℓ
      omega
    · exact h0
  have h1 : x / g ℓ' + 1 ≤ (x / g ℓ + 1) * k := by
    have h2 := Nat.lt_div_mul_add hkpos (a := x / g ℓ')
    rw [hx] at h2
    have h3 : (x / g ℓ + 1) * k = x / g ℓ * k + k := by ring
    omega
  calc floor g ℓ' x + g ℓ' = (x / g ℓ' + 1) * g ℓ' := by rw [floor]; ring
    _ ≤ (x / g ℓ + 1) * k * g ℓ' := Nat.mul_le_mul_right _ h1
    _ = floor g ℓ x + g ℓ := by rw [floor, hk]; ring

lemma inside_mono (h : ℓ ≤ ℓ') (hin : Inside g a b ℓ x) : Inside g a b ℓ' x :=
  ⟨hin.1.trans (hg.floor_le_floor h), (hg.floor_add_le h).trans hin.2⟩

lemma mem_of_inside (hin : Inside g a b ℓ x) : a ≤ x ∧ x < b :=
  ⟨hin.1.trans (floor_le g ℓ x), (hg.lt_floor_add ℓ x).trans_le hin.2⟩

lemma meets_of_mem (ha : a ≤ x) (hb : x < b) : Meets g a b ℓ x :=
  ⟨ha.trans_lt hb, (floor_le g ℓ x).trans_lt hb, ha.trans_lt (hg.lt_floor_add ℓ x)⟩

/-- The numbers of the span that starts at a grid point. -/
lemma div_eq_iff (h : x % g ℓ = 0) : y / g ℓ = x / g ℓ ↔ x ≤ y ∧ y < x + g ℓ := by
  constructor
  · intro hxy
    have h1 := floor_le g ℓ y
    have h2 := hg.lt_floor_add ℓ y
    rw [floor_congr hxy, floor_eq_self h] at h1 h2
    exact ⟨h1, h2⟩
  · rintro ⟨h1, h2⟩
    have hx := floor_eq_self h
    rw [floor] at hx
    rw [Nat.div_eq_iff (hg.pos ℓ), hx]
    omega

/-- A span that meets the region has a number in common with it. -/
lemma exists_mem_of_meets (hm : Meets g a b ℓ x) :
    ∃ y, y / g ℓ = x / g ℓ ∧ a ≤ y ∧ y < b := by
  obtain ⟨hab, hlt, hlt'⟩ := hm
  have hpos := hg.pos ℓ
  have hmod : floor g ℓ x % g ℓ = 0 := Nat.mul_mod_left _ _
  have hx : floor g ℓ x / g ℓ = x / g ℓ := hg.floor_div le_rfl
  refine ⟨max a (floor g ℓ x), ?_, le_max_left _ _, max_lt hab hlt⟩
  rw [← hx, hg.div_eq_iff hmod]
  exact ⟨le_max_right _ _, max_lt hlt' (by omega)⟩

end Nested

/-! ### The invariant of the search -/

/-- What the cursor remembers of the search so far. -/
structure Inv (g : ℕ → ℕ) (a b : ℕ) (c : Cursor) : Prop where
  low : a ≤ c.pos
  high : c.pos ≤ b
  /-- No level tried at this position fits. -/
  tried : ∀ j, 1 ≤ j → j < c.level → ¬ Fits g b ⟨c.pos, j⟩
  /-- A span that was entered before this position is cut. -/
  entered : ∀ j, 1 ≤ j → c.pos % g j ≠ 0 → ¬ Inside g a b j c.pos

namespace Inv

variable {c : Cursor}

lemma init (g : ℕ → ℕ) (hab : a ≤ b) : Inv g a b ⟨a, 1⟩ where
  low := le_rfl
  high := hab
  tried := by intro j h1 h2; simp only at h2; omega
  entered := by
    intro j _ hne hin
    have h1 := floor_le g j a
    have h2 : floor g j a = a := by have := hin.1; simp only at *; omega
    exact hne (by rw [← h2, floor]; exact Nat.mul_mod_left _ _)

/-- A level that was tried at the position, or is coarser than the one that fits, has a span
that is not inside the region. -/
lemma not_inside (h : Inv g a b c) {j : ℕ} (h1 : 1 ≤ j) (h2 : j < c.level) :
    ¬ Inside g a b j c.pos := by
  by_cases hmod : c.pos % g j = 0
  · intro hin
    refine h.tried j h1 h2 ⟨hmod, ?_⟩
    have := hin.2
    rwa [floor_eq_self hmod] at this
  · exact h.entered j h1 hmod

/-- Where the current level fails, an end of the region cuts the span. -/
lemma cut_of_not_fits (h : Inv g a b c) (hg : Nested g) (hpos : c.pos < b) (h1 : 1 ≤ c.level)
    (hf : ¬ Fits g b c) : Cut g a b c.level c.pos := by
  refine ⟨hg.meets_of_mem h.low hpos, ?_⟩
  by_cases hmod : c.pos % g c.level = 0
  · intro hin
    refine hf ⟨hmod, ?_⟩
    have := hin.2
    rwa [floor_eq_self hmod] at this
  · exact h.entered _ h1 hmod

/-- Where the current level fits, its span is inside the region. -/
lemma inside_of_fits (h : Inv g a b c) (hf : Fits g b c) : Inside g a b c.level c.pos := by
  rw [Inside, floor_eq_self hf.1]
  exact ⟨h.low, hf.2⟩

/-- The span that is taken is the coarsest one inside the region. -/
lemma coarsest_of_fits (h : Inv g a b c) (h1 : 1 ≤ c.level) (hf : Fits g b c) :
    Coarsest g a b c.level c.pos :=
  ⟨h1, h.inside_of_fits hf, fun _ h2 h3 => h.not_inside h2 h3⟩

lemma next_of_fits (h : Inv g a b c) (hg : Nested g) (hf : Fits g b c) :
    Inv g a b ⟨c.pos + g c.level, 1⟩ where
  low := by have := h.low; simp only; omega
  high := hf.2
  tried := by intro j h1 h2; simp only at h2; omega
  entered := by
    intro j h1 hne
    simp only at hne ⊢
    -- a grid point of the taken level is one of every finer level, so `j` is coarser
    have hj : j < c.level := by
      by_contra hle
      have hd := hg.dvd (Nat.le_of_not_lt hle)
      have h2 : g j ∣ c.pos := hd.trans (Nat.dvd_of_mod_eq_zero hf.1)
      exact hne (Nat.mod_eq_zero_of_dvd (Nat.dvd_add h2 hd))
    -- the taken span does not end the coarser one, which was not inside before
    have hsame : (c.pos + g c.level) / g j = c.pos / g j := by
      obtain ⟨p, hp⟩ := Nat.dvd_of_mod_eq_zero hf.1
      obtain ⟨k, hk⟩ := hg.dvd hj.le
      have hpos := hg.pos c.level
      have hne' : ¬ k ∣ p + 1 := by
        intro hd
        refine hne (Nat.mod_eq_zero_of_dvd ?_)
        have : c.pos + g c.level = g c.level * (p + 1) := by rw [hp]; ring
        rw [this, hk]
        exact Nat.mul_dvd_mul_left _ hd
      have e1 : c.pos + g c.level = g c.level * (p + 1) := by rw [hp]; ring
      rw [e1, hk, ← Nat.div_div_eq_div_mul, Nat.mul_div_cancel_left _ hpos, hp,
        ← Nat.div_div_eq_div_mul, Nat.mul_div_cancel_left _ hpos, Nat.succ_div_of_not_dvd hne']
    rw [inside_congr hsame]
    exact h.not_inside h1 hj

lemma next_of_not_fits (h : Inv g a b c) (hf : ¬ Fits g b c) :
    Inv g a b ⟨c.pos, c.level + 1⟩ where
  low := h.low
  high := h.high
  tried := by
    intro j h1 h2
    simp only at h2
    rcases Nat.lt_succ_iff_lt_or_eq.1 h2 with h3 | rfl
    · exact h.tried j h1 h3
    · exact hf
  entered := h.entered

end Inv

end Arm64Mmu.Lib.Greedy
