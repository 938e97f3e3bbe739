import Arm64Mmu.Loop.Shadow

/-!
# The entries of the base table

`XLAT_TABLE_VA_IDX` takes nine bits of the address at every level, and the base table has 64
entries.  A call that ends above 64 GiB comes to an address whose entry is not in the base table,
at its start or, following the part of the region below 64 GiB, in the middle.
-/

namespace Arm64Mmu

open Lib Lib.Radix Lib.Greedy

/-- The index of the entry that `calculate_pte_index` steps to at the base level. -/
def Loop.baseIdx (s : Loop) : ℕ := (xlatTableVaIdx s.virt xlatTableBaseLevel).toNat

/-- During the call `c` on `m` the base table is used within its bounds. -/
structure InBase (L : Layout) (m : Machine) (c : Call) : Prop where
  /-- The entry is one of those of `base_xlat_table`. -/
  index : ∀ s, c.Visits L m s → s.Goes → s.baseIdx < numBaseLevelEntries
  /-- The entry is the one of the gigabyte of the address. -/
  region : ∀ s, c.Visits L m s → s.Goes → s.baseIdx = s.virt.toNat / gran 1
  /-- No store leaves the two arrays. -/
  written : ∀ s p v, c.Visits L m s → .store p v ∈ s.m.trace →
    ∃ T : Table, ∃ i, T.Live configMaxXlatTables ∧ i < T.entries ∧ p = T.slot L i

variable {L : Layout} {c : Call} {m m₀ : Machine} {s : Loop} {va : Va} {vmax pmax : ℕ}

lemma Loop.baseIdx_eq (h : s.virt.toNat = va) : s.baseIdx = va / gran 1 := by
  have hidx : (xlatTableVaIdx s.virt (BitVec.ofNat 32 1)).toNat = vaIdx 1 va :=
    xlatTableVaIdx_toNat h le_rfl (by omega)
  have hva := va.isLt
  rw [Loop.baseIdx, show xlatTableBaseLevel = BitVec.ofNat 32 1 from rfl, hidx, vaIdx]
  simp only [gran]
  omega

/-- Addresses with an entry of their own are below 64 GiB. -/
lemma InBase.virt_lt (h : InBase L m c) (hs : c.Visits L m s) (hgo : s.Goes) :
    s.virt.toNat < 2 ^ 36 := by
  have h1 := h.index s hs hgo
  rw [h.region s hs hgo] at h1
  simp only [gran, numBaseLevelEntries] at h1
  omega

/-- A call that ends at 64 GiB at the latest stays in the base table. -/
lemma Call.Paged.inBase (h0 : Zeroed L m₀) (hc : c.Paged) : InBase L m₀ c := by
  have hidx : ∀ s, c.Visits L m₀ s → s.Goes → s.baseIdx = s.virt.toNat / gran 1 ∧
      s.virt.toNat < 2 ^ 36 := fun s hs hgo => by
    have hlt := ((h0.sim hc hs).pos_lt hgo).trans_le hc.stop_le
    exact ⟨Loop.baseIdx_eq (show s.virt.toNat = ((⟨_, hlt⟩ : Va) : ℕ) from rfl), hlt⟩
  refine ⟨fun s hs hgo => ?_, fun s hs hgo => (hidx s hs hgo).1, fun s p v hs hp => ?_⟩
  · obtain ⟨he, hlt⟩ := hidx s hs hgo
    rw [he]
    simp only [gran, numBaseLevelEntries]
    omega
  · obtain ⟨T, ℓ, i, hT, hi, rfl⟩ := (h0.sim hc hs).wf.written hp
    exact ⟨T, i, (h0.sim hc hs).wf.live32 hT, hi, rfl⟩

/-- A call that crosses 64 GiB comes to that address. -/
lemma Call.Dom.visits_end (hc : c.Dom vmax pmax) (h0 : Zeroed L m₀)
    (hlow : c.virt.toNat < 2 ^ 36) (hhigh : 2 ^ 36 < c.stop) :
    ∃ s, c.Visits L m₀ s ∧ s.Goes ∧ s.virt.toNat = 2 ^ 36 := by
  obtain ⟨e, he⟩ : ∃ e, c.stop = 2 ^ 36 + e := ⟨c.stop - 2 ^ 36, by omega⟩
  have hend : c.stop = c.virt.toNat + c.size.toNat := rfl
  have hvirt := hc.virt
  have hle : e ≤ c.size.toNat := by omega
  have hstop : (c.trim e).stop = 2 ^ 36 := by
    have := c.trim_stop hle
    omega
  have hpaged : (c.trim e).Paged := c.trim_paged hvirt hle (by omega) he.le
  -- below 64 GiB every aligned span fits
  have hfollows : c.Follows e (c.trim e) := c.trim_follows hle fun {ℓ x} _ _ _ hlt => by
    rw [hstop] at hlt ⊢
    have hdvd : gran ℓ ∣ 2 ^ 36 := Nat.pow_dvd_pow 2 (by omega)
    refine and_congr_right fun hmod => ?_
    have hmod : x ≡ 2 ^ 36 [MOD gran ℓ] := Eq.trans hmod (Nat.mod_eq_zero_of_dvd hdvd).symm
    have hfit : x + gran ℓ ≤ 2 ^ 36 := hmod.add_le_of_lt hlt
    show x + gran ℓ ≤ c.stop ↔ x + gran ℓ ≤ 2 ^ 36
    omega
  obtain ⟨s, m', hs, -, -, hpos, hleft, -⟩ := hfollows.reaches_stop h0 hpaged
  exact ⟨s, hs, Loop.goes_iff.2 (by omega), hpos.trans hstop⟩

/-- A call uses the base table within its bounds if and only if its region ends at 64 GiB at the
latest. -/
theorem in_base_iff (L : Layout) (m₀ : Machine) (c : Call) (h0 : Zeroed L m₀)
    (hc : c.Dom (2 ^ 64) (2 ^ 48)) : InBase L m₀ c ↔ c.virt.toNat + c.size.toNat ≤ 2 ^ 36 := by
  constructor
  · intro h
    by_contra hnot
    have hstart : (c.start m₀).Goes := Loop.goes_iff.2 hc.size_ne_zero.ne'
    have hlow : c.virt.toNat < 2 ^ 36 := h.virt_lt (.refl _) hstart
    obtain ⟨s, hs, hgo, hpos⟩ := hc.visits_end h0 hlow (Nat.lt_of_not_le hnot)
    exact absurd hpos (h.virt_lt hs hgo).ne
  · intro hle
    exact Call.Paged.inBase h0 ⟨hc.phys, hc.virt, hc.size, hle⟩

/-- The last page that has an entry in the base table. -/
theorem in_base_sample : InBase sampleLayout bootMachine ⟨0, 0xffffff000, 0x1000, 12⟩ :=
  (in_base_iff sampleLayout bootMachine _ (zeroed_bootMachine _) (by decide)).2 (by decide)

/-- The page at 64 GiB has its entry behind the base table. -/
theorem base_index_overrun :
    Zeroed sampleLayout bootMachine ∧ Call.Dom (2 ^ 64) (2 ^ 48) ⟨0, 0x1000000000, 0x1000, 12⟩ ∧
      ¬ InBase sampleLayout bootMachine ⟨0, 0x1000000000, 0x1000, 12⟩ := by
  refine ⟨zeroed_bootMachine _, by decide, fun h => ?_⟩
  have hlt := h.index (Call.start ⟨0, 0x1000000000, 0x1000, 12⟩ bootMachine) (.refl _)
    (show (0x1000 : U32) ≠ 0 by decide)
  have hidx : Loop.baseIdx (Call.start ⟨0, 0x1000000000, 0x1000, 12⟩ bootMachine) = 64 := by decide
  rw [hidx] at hlt
  exact absurd hlt (by decide)

end Arm64Mmu
