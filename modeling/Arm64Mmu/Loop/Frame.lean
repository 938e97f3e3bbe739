import Arm64Mmu.Loop.Leaves

/-!
# The words that a call leaves alone

A call changes entries of spans that its region meets, below spans that it cuts, and words of the
tables that it takes.  The words of every other table, reached or not, stay as they are.
-/

namespace Arm64Mmu

open Lib Lib.Radix Lib.Greedy

/-- The word at `p` is in a table that is not handed out yet, or it is the entry of an address
of a span that the region meets, below spans that it cuts. -/
def Call.Touches (L : Layout) (m : Machine) (c : Call) (p : ℕ) : Prop :=
  (∃ t i, m.tableIdx ≤ t ∧ t < 32 ∧ i < 512 ∧ p = (Table.pool t).slot L i) ∨
    ∃ (ℓ q : ℕ) (va : Va), ℓ ≤ 2 ∧ view L m.mem ℓ va = .table q ∧ p = q + 8 * vaIdx (ℓ + 1) va ∧
      Meets gran c.virt.toNat c.stop (ℓ + 1) va ∧
      ∀ j, 1 ≤ j → j ≤ ℓ → Cut gran c.virt.toNat c.stop j va

variable {L : Layout} {Q : LeafInv} {c : Call} {m m' : Machine} {s s' : Loop} {ℓ p : ℕ} {va : Va}
  {T : Table}

/-- An iteration writes to the entry that it is at and to the table that it takes. -/
lemma Iter.mem_other (h : Iter L c s ℓ va T s') (ha : AtSlot L s ℓ va T)
    (hle : s.m.tableIdx ≤ 32) (hp : p ≠ T.slot L (vaIdx (ℓ + 1) va))
    (hnew : s.m.tableIdx < s'.m.tableIdx → ∀ j < 512, p ≠ (Table.pool s.m.tableIdx).slot L j) :
    s'.m.mem p = s.m.mem p := by
  cases h with
  | fits hf => exact Function.update_of_ne hp _ _
  | invalid hf hℓ hv => exact Function.update_of_ne hp _ _
  | block hf hℓ hv hd =>
      obtain ⟨m₁, hfill, heq⟩ := splitPteBlockDesc_spec L s.m (T.slot L (vaIdx (ℓ + 1) va))
        (Nat.succ_pos ℓ) hℓ ha.level
      have hidx : (splitPteBlockDesc L s.m (T.slot L (vaIdx (ℓ + 1) va)) s.level).tableIdx =
          s.m.tableIdx + 1 := splitPteBlockDesc_tableIdx _ _ _ hle
      have hnew := hnew (by rw [Loop.deeper, hidx]; exact Nat.lt_succ_self _)
      rw [Loop.deeper, heq]
      refine (Function.update_of_ne hp _ _).trans ?_
      exact hfill.mem_other p hnew
  | table hf hℓ hv => rfl

namespace Sim

variable (h : Sim L Q c m s)
include h

/-- The spans above the current one are cut. -/
lemma cut_above (hgo : s.Goes) (ha : AtSlot L s ℓ va T) {j : ℕ} (h1 : 1 ≤ j) (hj : j ≤ ℓ) :
    Cut gran c.virt.toNat c.stop j va := by
  have hcur := h.swept.cur
  rw [abs_eq ha] at hcur
  rw [ha.pos]
  exact ⟨gran_nested.meets_of_mem hcur.low (h.pos_lt hgo),
    hcur.not_inside h1 (Nat.lt_succ_of_le hj)⟩

/-- The entry that an iteration is at is one that the call may change. -/
lemma touches (hgo : s.Goes) (ha : AtSlot L s ℓ va T) :
    c.Touches L m (T.slot L (vaIdx (ℓ + 1) va)) := by
  have hℓ := ha.le
  have hmeets : Meets gran c.virt.toNat c.stop (ℓ + 1) va := by
    rw [ha.pos]
    exact gran_nested.meets_of_mem h.swept.cur.low (h.pos_lt hgo)
  have hold : view L m.mem ℓ va = .table (T.addr L) →
      c.Touches L m (T.slot L (vaIdx (ℓ + 1) va)) := fun hv =>
    .inr ⟨ℓ, T.addr L, va, hℓ, hv, rfl, hmeets, fun j h1 hj => h.cut_above hgo ha h1 hj⟩
  rcases Nat.eq_zero_or_pos ℓ with rfl | hpos
  · exact hold ha.path
  · rcases h.swept.cut hpos (by omega) (h.cut_above hgo ha hpos le_rfl) with hv | ⟨n, h1, h2, hv⟩
    · exact hold (hv.symm.trans ha.path)
    · -- the table was taken by this call
      have hT : T.addr L = L.xlatTable n := Entry.table.inj (ha.path.symm.trans hv)
      refine .inl ⟨n, _, h1, (h2.trans_le h.wf.idx_le), vaIdx_lt (ℓ + 1) va, ?_⟩
      rw [Table.slot, hT]
      rfl

end Sim

/-- A call leaves the other words alone. -/
theorem AddMap.frame (h : AddMap L m c m') (hc : c.Paged) (hQ : c.Writes Q) (hwf : Wf L Q m)
    (hroom : c.HasRoom L m) (hp : ¬ c.Touches L m p) : m'.mem p = m.mem p := by
  obtain ⟨t, ⟨ht, -⟩, rfl⟩ := h
  refine ht.invariant (P := fun s => s.m.mem p = m.mem p) rfl fun a b hv ha hgo hb => ?_
  have hsim : Sim L Q c m a := .of_visits hc hQ hwf hroom hv
  obtain ⟨ℓ, va, T, hat, hiter⟩ := hsim.iter_of_body hc hgo hb
  refine (hiter.mem_other hat hsim.wf.idx_le ?_ fun hlt j hj => ?_).trans ha
  · rintro rfl
    exact hp (hsim.touches hgo hat)
  · rintro rfl
    have hle : b.m.tableIdx ≤ 32 := hroom b (hv.tail hgo hb)
    exact hp (.inl ⟨_, j, hsim.swept.used_le, hlt.trans_le hle, hj, rfl⟩)

end Arm64Mmu
