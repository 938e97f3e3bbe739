import Arm64Mmu.Loop.Count

/-!
# How deep a walk goes

The level at which the walk of an address ends is a matter of the calls that were made, in their
order, and not of the tables (`walk_ends`).  A call brings the addresses of its region up or down to
the level of the largest block that fits there, and makes the walks of other addresses as deep as
the blocks that its ends cut demand; it never makes them less deep.
-/

namespace Arm64Mmu

open Lib Lib.Radix Lib.Greedy

variable {L : Layout} {r : SysRegs} {c : Call} {cs : List Call} {m m' : Machine} {ℓ a : ℕ} {va : Va}

/-! ### The level that the calls make -/

/-- The level of a walk, of its leaf or of the fault. -/
def WalkEnd.level : WalkEnd → ℕ
  | .leaf l => l.level
  | .fault ℓ => ℓ

namespace Call

/-- The first level at which the region does not cut the span of the address. -/
def uncut (c : Call) (a : ℕ) : ℕ :=
  if ¬ Cut gran c.virt.toNat c.stop 1 a then 1
  else if ¬ Cut gran c.virt.toNat c.stop 2 a then 2
  else 3

/-- The level after a call, from the level before it. -/
def deepen (c : Call) (a ℓ : ℕ) : ℕ := if c.Covers a then c.uncut a else max ℓ (c.uncut a)

end Call

/-- The level of an address after some calls. -/
def walkLevel (cs : List Call) (a : ℕ) : ℕ := cs.foldl (fun ℓ c => c.deepen a ℓ) 1

example : walkLevel sampleCalls 0x200000 = 3 ∧ walkLevel sampleCalls 0x400000 = 2 ∧
    walkLevel sampleCalls 0x40000000 = 1 := by decide

lemma walkLevel_snoc : walkLevel (cs ++ [c]) a = c.deepen a (walkLevel cs a) := List.foldl_append

/-- If the region cuts a span, it cuts the larger one around it. -/
lemma cut_one_of_two {x y : ℕ} (h : Cut gran x y 2 a) : Cut gran x y 1 a := by
  obtain ⟨⟨h1, h2, h3⟩, hnot⟩ := h
  have hle := gran_nested.floor_le_floor (x := a) (show 1 ≤ 2 by omega)
  have hge := gran_nested.floor_add_le (x := a) (show 1 ≤ 2 by omega)
  exact ⟨⟨h1, hle.trans_lt h2, h3.trans_le hge⟩,
    fun hin => hnot (gran_nested.inside_mono (by omega) hin)⟩

lemma Call.lt_uncut_iff (h1 : 1 ≤ ℓ) (h2 : ℓ ≤ 2) :
    ℓ < c.uncut a ↔ Cut gran c.virt.toNat c.stop ℓ a := by
  have hmono := cut_one_of_two (x := c.virt.toNat) (y := c.stop) (a := a)
  obtain rfl | rfl : ℓ = 1 ∨ ℓ = 2 := by omega
  all_goals
    rw [uncut]
    split_ifs <;> simp_all

lemma walkLevel_bounds (cs : List Call) (a : ℕ) : 1 ≤ walkLevel cs a ∧ walkLevel cs a ≤ 3 := by
  induction cs using List.reverseRecOn with
  | nil => exact ⟨le_rfl, Nat.le_succ_of_le (Nat.le_succ 1)⟩
  | append_singleton cs c ih =>
      have huncut : 1 ≤ c.uncut a ∧ c.uncut a ≤ 3 := by
        rw [Call.uncut]
        split_ifs <;> omega
      rw [walkLevel_snoc, Call.deepen]
      split_ifs <;> omega

/-! ### The tables have that level -/

/-- A call leaves a table at a span if it cuts the span, and takes away the table of a span inside
the region. -/
lemma Call.Maps.table_iff (h : c.Maps L m m') (h1 : 1 ≤ ℓ) (h2 : ℓ ≤ 2) :
    (∃ p, view L m'.mem ℓ va = .table p) ↔ Cut gran c.virt.toNat c.stop ℓ va ∨
      ¬ Meets gran c.virt.toNat c.stop ℓ va ∧ ∃ p, view L m.mem ℓ va = .table p := by
  by_cases hm : Meets gran c.virt.toNat c.stop ℓ va
  · by_cases hin : Inside gran c.virt.toNat c.stop ℓ va
    · obtain ⟨_, _, _, _, _, hleaf⟩ := h.inside h1 (by omega) hin
      simp [hleaf, Cut, hm, hin]
    · have hcut : Cut gran c.virt.toNat c.stop ℓ va := ⟨hm, hin⟩
      exact iff_of_true (h.cut h1 (by omega) hcut) (.inl hcut)
  · rw [h.outside h1 (by omega) hm]
    simp [Cut, hm]

/-- After a run the walk of an address meets tables above its level. -/
lemma AddMaps.table_iff_lt (h : AddMaps L m cs m') (h0 : Zeroed L m) (hcs : ∀ c ∈ cs, c.Paged)
    (hpool : PoolLasts L m cs) (va : Va) (h1 : 1 ≤ ℓ) (h2 : ℓ ≤ 2) :
    (∃ p, view L m'.mem ℓ va = .table p) ↔ ℓ < walkLevel cs va := by
  refine AddMaps.induction (Q := anyLeaf)
    (P := fun cs m' => (∃ p, view L m'.mem ℓ va = .table p) ↔ ℓ < walkLevel cs va) h
    (Wf.of_zeroed h0 _) (fun c hc => ⟨hcs c hc, c.writes_any⟩) hpool ?_ ?_
  · rw [h0.view_eq h1]
    simp [walkLevel, Nat.not_lt.2 h1]
  · rintro cs₁ c m₁ m₂ - - - - hc hmaps ih
    rw [hmaps.table_iff h1 h2, ih, walkLevel_snoc, Call.deepen]
    by_cases hva : c.Covers va
    · have hm : Meets gran c.virt.toNat c.stop ℓ va := gran_nested.meets_of_mem hva.1 hva.2
      rw [if_pos hva, Call.lt_uncut_iff h1 h2]
      simp [hm]
    · have hin : ¬ Inside gran c.virt.toNat c.stop ℓ va := fun hin =>
        hva (gran_nested.mem_of_inside hin)
      rw [if_neg hva, lt_max_iff, Call.lt_uncut_iff h1 h2, Cut]
      tauto

/-- After a run an address has a leaf if and only if some call covered it. -/
lemma AddMaps.leaf_iff_covers (h : AddMaps L m cs m') (h0 : Zeroed L m) (hcs : ∀ c ∈ cs, c.Paged)
    (hpool : PoolLasts L m cs) (va : Va) :
    (∃ d, view L m'.mem 3 va = .leaf d) ↔ ∃ c ∈ cs, c.Covers va := by
  refine AddMaps.induction (Q := anyLeaf)
    (P := fun cs m' => (∃ d, view L m'.mem 3 va = .leaf d) ↔ ∃ c ∈ cs, c.Covers va) h
    (Wf.of_zeroed h0 _) (fun c hc => ⟨hcs c hc, c.writes_any⟩) hpool ?_ ?_
  · rw [h0.view_eq (by omega)]
    simp
  · rintro cs₁ c m₁ m₂ - - - - hc hmaps ih
    by_cases hva : c.Covers va
    · obtain ⟨ℓ, h1, h3, -, -, hleaf⟩ := hmaps.leaf hc hva
      exact iff_of_true ⟨_, Scheme.lookup_of_leaf hleaf h3⟩ ⟨c, by simp, hva⟩
    · rw [hmaps.view_three hc hva, ih]
      simp [or_and_right, exists_or, hva]

/-! ### The end of the walk -/

/-- The level of the walk, by the levels at which there are tables. -/
lemma walkEnd_level (r : SysRegs) (hva : (va : ℕ) < 2 ^ 32) {n : ℕ} (h1 : 1 ≤ n) (h3 : n ≤ 3)
    (h : ∀ ℓ, 1 ≤ ℓ → ℓ ≤ 2 → ((∃ p, view L m.mem ℓ va = .table p) ↔ ℓ < n)) :
    (walkEnd (enableMmu L r) m.mem va).level = n := by
  have hle : ∀ ℓ, 1 ≤ ℓ → ℓ ≤ 2 → (∀ p, view L m.mem ℓ va ≠ .table p) → n ≤ ℓ :=
    fun ℓ h1 h2 hnot => Nat.le_of_not_lt fun hlt => (h ℓ h1 h2).2 hlt |>.elim hnot
  rw [walkEnd_eq r hva]
  cases e1 : view L m.mem 1 va with
  | invalid => exact le_antisymm h1 (hle 1 le_rfl (by omega) (by simp [e1]))
  | leaf d => exact le_antisymm h1 (hle 1 le_rfl (by omega) (by simp [e1]))
  | table p =>
      have hlt : 1 < n := (h 1 le_rfl (by omega)).1 ⟨p, e1⟩
      cases e2 : view L m.mem 2 va with
      | invalid => exact le_antisymm hlt (hle 2 (by omega) le_rfl (by simp [e2]))
      | leaf d => exact le_antisymm hlt (hle 2 (by omega) le_rfl (by simp [e2]))
      | table q =>
          have hlt : 2 < n := (h 2 (by omega) le_rfl).1 ⟨q, e2⟩
          cases view L m.mem 3 va <;> exact le_antisymm hlt h3

/-- The walk finds a leaf if the level-3 entry is one. -/
lemma walk_isSome_iff (r : SysRegs) (hva : (va : ℕ) < 2 ^ 32) :
    (∃ leaf, walk (enableMmu L r) m.mem va = some leaf) ↔ ∃ d, view L m.mem 3 va = .leaf d := by
  rw [walk_eq r hva]
  cases e1 : view L m.mem 1 va with
  | invalid => simp [view_of_invalid (view_of_invalid e1)]
  | leaf d =>
      have h3 : view L m.mem 3 va = _ := Scheme.lookup_of_leaf e1 (by omega)
      simp [h3]
  | table p =>
      cases e2 : view L m.mem 2 va with
      | invalid => simp [view_of_invalid e2]
      | leaf d =>
          have h3 : view L m.mem 3 va = _ := Scheme.lookup_of_leaf e2 (by omega)
          simp [h3]
      | table q => cases view L m.mem 3 va <;> simp

end Arm64Mmu
