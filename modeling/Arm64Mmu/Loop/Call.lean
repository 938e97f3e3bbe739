import Arm64Mmu.Loop.Turn

/-!
# A whole call of `add_map`

If the pool lasts, a call returns (`Call.returns`), keeps the tables well-formed, and changes
the view as `Call.Maps` says: a span inside the region holds the piece of its leaf, a span
outside is as before, and a span that an end of the region cuts has a table, the one it had
before if it had one.
-/

namespace Arm64Mmu

open Lib Lib.Radix Lib.Greedy

/-- What a call of `add_map` does to the view of the tables. -/
structure Call.Maps (L : Layout) (c : Call) (m m' : Machine) : Prop where
  idx_le : m.tableIdx ≤ m'.tableIdx
  inside : ∀ {ℓ} {va : Va}, 1 ≤ ℓ → ℓ ≤ 3 → Inside gran c.virt.toNat c.stop ℓ va →
    Sweep.Mapped (scheme L) gran (fun va => va) c.virt.toNat c.stop c.leafAt
      (view L m'.mem) ℓ va
  outside : ∀ {ℓ} {va : Va}, 1 ≤ ℓ → ℓ ≤ 3 → ¬ Meets gran c.virt.toNat c.stop ℓ va →
    view L m'.mem ℓ va = view L m.mem ℓ va
  cut : ∀ {ℓ} {va : Va}, 1 ≤ ℓ → ℓ ≤ 3 → Cut gran c.virt.toNat c.stop ℓ va →
    ∃ p, view L m'.mem ℓ va = .table p
  kept : ∀ {ℓ p} {va : Va}, 1 ≤ ℓ → ℓ ≤ 3 → Cut gran c.virt.toNat c.stop ℓ va →
    view L m.mem ℓ va = .table p → view L m'.mem ℓ va = .table p
  /-- A cut span that had no table got one that was not handed out before. -/
  linked : ∀ {ℓ} {va : Va}, 1 ≤ ℓ → ℓ ≤ 3 → Cut gran c.virt.toNat c.stop ℓ va →
    (∀ p, view L m.mem ℓ va ≠ .table p) →
    ∃ t, m.tableIdx ≤ t ∧ t < m'.tableIdx ∧ view L m'.mem ℓ va = .table (L.xlatTable t)
  /-- Every table that was handed out hangs in a cut span. -/
  grafted : ∀ t, m.tableIdx ≤ t → t < m'.tableIdx → ∃ ℓ, ∃ va : Va, 1 ≤ ℓ ∧ ℓ ≤ 3 ∧
    Cut gran c.virt.toNat c.stop ℓ va ∧ view L m'.mem ℓ va = .table (L.xlatTable t)

variable {L : Layout} {Q : LeafInv} {c : Call} {m m' : Machine} {s s' : Loop} {ℓ : ℕ} {va : Va}

/-- A span that meets the region has an address in it. -/
lemma Call.exists_mem_of_meets (hc : c.Paged) (hm : Meets gran c.virt.toNat c.stop ℓ va) :
    ∃ va' : Va, (va : ℕ) / gran ℓ = va' / gran ℓ ∧ c.virt.toNat ≤ (va' : ℕ) ∧
      (va' : ℕ) < c.stop := by
  obtain ⟨y, hy, h1, h2⟩ := gran_nested.exists_mem_of_meets hm
  exact ⟨⟨y, h2.trans_le hc.stop_le⟩, hy.symm, h1, h2⟩

namespace Sim

lemma maps (hc : c.Paged) (h : Sim L Q c m s) (hgo : ¬ s.Goes) : c.Maps L m s.m := by
  have hpos : (s.abs L).cur.pos = c.stop := h.pos_eq hgo
  have hcut : ∀ {ℓ} {va : Va}, 1 ≤ ℓ → ℓ ≤ 3 → Cut gran c.virt.toNat c.stop ℓ va →
      ∃ p, view L s.m.mem ℓ va = .table p := by
    intro ℓ va h1 h3 hcut
    obtain ⟨va', hdiv, hle, hlt⟩ := Call.exists_mem_of_meets hc hcut.1
    exact h.swept.opened h1 h3 hcut ((same_iff h3).2 hdiv) hle (by rwa [hpos])
  refine
    { idx_le := h.swept.used_le
      inside := ?_
      outside := h.swept.outside
      cut := hcut
      kept := h.swept.kept
      linked := ?_
      grafted := h.swept.grafted }
  · intro ℓ va h1 h3 hin
    refine h.swept.behind h1 h3 hin ?_
    rw [hpos]
    exact (gran_nested.mem_of_inside hin).2
  · intro ℓ va h1 h3 hc' hnot
    rcases h.swept.cut h1 h3 hc' with he | he
    · obtain ⟨p, hp⟩ := hcut h1 h3 hc'
      exact absurd (he.symm.trans hp) (hnot p)
    · exact he

/-- While the pool lasts, the states that the loop visits are states of the sweep. -/
theorem of_visits (hc : c.Paged) (hQ : c.Writes Q) (hwf : Wf L Q m) (hroom : c.HasRoom L m)
    (hs : c.Visits L m s) : Sim L Q c m s := by
  refine hs.invariant (c.sim_start hc hwf) fun a b hv ha hgo hb => ?_
  exact (ha.turn_of_body hc hQ hgo hb (hroom _ (hv.tail hgo hb))).sim

end Sim

/-- While the pool lasts, a call returns, with well-formed tables that map the region. -/
theorem Call.returns (hc : c.Paged) (hQ : c.Writes Q) (hwf : Wf L Q m) (hroom : c.HasRoom L m) :
    ∃ m', AddMap L m c m' ∧ Wf L Q m' ∧ c.Maps L m m' := by
  obtain ⟨s, hs, hsim⟩ := While.exits_of_variant (P := Sim L Q c m) Loop.rest
    (c.sim_start hc hwf) fun a hv ha hgo => by
      obtain ⟨b, hb, hlt, -, hturn⟩ := ha.turn hc hQ hgo
      exact ⟨b, hb, (hturn (hroom _ (hv.tail hgo hb))).sim, hlt⟩
  exact ⟨s.m, ⟨s, hs, rfl⟩, hsim.wf, hsim.maps hc hs.2⟩

end Arm64Mmu
