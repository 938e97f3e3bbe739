import Arm64Mmu.Loop.Count

/-!
# The output addresses of blocks

`add_map` chooses the level from the virtual address and the size alone, and does not look at
the physical address.  Blocks with an output address that is no multiple of their size appear
exactly when a region contains a whole aligned span that the physical addresses do not follow.
-/

namespace Arm64Mmu

open Lib Lib.Radix Lib.Greedy

/-- The output address of every block is a multiple of the size of the block. -/
def BlocksAligned (L : Layout) (m : Machine) : Prop :=
  ∀ ℓ d, ℓ ≤ 2 → LeafIn L m ℓ d → addrField 12 d % gran ℓ = 0

variable {L : Layout} {Q : LeafInv} {c : Call} {cs : List Call} {m m' : Machine} {ℓ : ℕ} {d : U64}
  {va : Va} {vmax : ℕ}

/-- After a call that contains a whole span which the physical addresses do not follow, a block
is not aligned. -/
lemma Call.Maps.not_aligned (h : c.Maps L m m') (hc : c.Dom (2 ^ 36) (2 ^ 48)) (hwf : Wf L Q m')
    (hnot : ¬ c.AlignOk) : ¬ BlocksAligned L m' := by
  intro hal
  simp only [Call.AlignOk, not_forall] at hnot
  obtain ⟨ℓ, h1, h2, ⟨x, hx, hlow, hle⟩, hne⟩ := hnot
  have hg := gran_pos ℓ
  have hlt : x < 2 ^ 36 := by
    have h3 := hc.virt_le
    rw [Call.stop] at hle
    omega
  obtain ⟨va, rfl⟩ : ∃ va : Va, (va : ℕ) = x := ⟨⟨x, hlt⟩, rfl⟩
  obtain ⟨j, hj1, hj3, ⟨hjlow, hjle⟩, hout, hleaf⟩ :=
    h.leafIn (hc.paged le_rfl) hwf (show c.Covers va from ⟨hlow, by omega⟩)
  -- the leaf that the address uses is at this level or at a coarser one
  have hjℓ : j ≤ ℓ := by
    by_contra hlt
    refine hout ℓ h1 (Nat.lt_of_not_le hlt) ?_
    rw [Inside, floor_eq_self hx]
    exact ⟨hlow, hle⟩
  have hgj := gran_pos j
  have hfl : floor gran j va % gran j = 0 := Nat.mul_mod_left _ _
  have hmod := hal j _ (by omega) hleaf
  rw [hc.leafAt_addrField (floor_mod_page hj3 _) hjlow (by omega), add_sub_mod hfl hjlow] at hmod
  have hdvd : gran ℓ ∣ gran j := gran_nested.dvd hjℓ
  exact hne (Nat.ModEq.of_dvd hdvd hmod)

/-- Every block has an aligned output address throughout a run if and only if every call maps
the whole aligned spans of its region to physical addresses that follow them. -/
theorem blocks_aligned_iff (L : Layout) (m₀ : Machine) (cs : List Call) (h0 : Zeroed L m₀)
    (hcs : ∀ c ∈ cs, c.Dom (2 ^ 32) (2 ^ 32)) (hpool : PoolLasts L m₀ cs) :
    Throughout L m₀ cs (BlocksAligned L) ↔ ∀ c ∈ cs, c.AlignOk := by
  have hdom : ∀ c ∈ cs, c.Dom (2 ^ 36) (2 ^ 48) := fun c hc =>
    (hcs c hc).mono (by omega) (by omega)
  constructor
  · intro h c hc
    by_contra hnot
    obtain ⟨m₁, m₂, hwf, hmaps, hal⟩ :=
      h.after (Wf.of_zeroed h0 anyLeaf) (fine_of_dom le_rfl hdom) hpool hc
    exact hmaps.not_aligned (hdom c hc) hwf hnot hal
  · intro h
    have hfine : Fine alignInv cs := fun c hc =>
      ⟨(hdom c hc).paged le_rfl, (hdom c hc).writes_align (h c hc)⟩
    exact throughout_of_wf (Wf.of_zeroed h0 alignInv) hfine hpool fun m hwf ℓ d _ hd =>
      hwf.leafIn_holds hd

/-- The sample run maps identically, so that its blocks are aligned. -/
theorem blocks_aligned_sample :
    Throughout sampleLayout bootMachine sampleCalls (BlocksAligned sampleLayout) := by
  refine (blocks_aligned_iff sampleLayout bootMachine sampleCalls (zeroed_bootMachine _)
    (by decide) (poolLasts_sampleCalls _)).2 fun c hc => Call.alignOk_of_congr ?_
  exact (show ∀ c ∈ sampleCalls, c.phys.toNat % 2 ^ 30 = c.virt.toNat % 2 ^ 30 by decide) c hc

/-- A mapping of 1 GiB at the virtual address 0 to the physical address `0x1000` writes a block
whose output address is not aligned. -/
theorem block_misaligned :
    Call.Dom (2 ^ 32) (2 ^ 32) ⟨0x1000, 0, 0x40000000, 12⟩ ∧
      PoolLasts sampleLayout bootMachine [⟨0x1000, 0, 0x40000000, 12⟩] ∧
      ¬ Throughout sampleLayout bootMachine [⟨0x1000, 0, 0x40000000, 12⟩]
        (BlocksAligned sampleLayout) := by
  have hcs : ∀ c ∈ [(⟨0x1000, 0, 0x40000000, 12⟩ : Call)], c.Dom (2 ^ 36) (2 ^ 48) := by decide
  have hwf := Wf.of_zeroed (zeroed_bootMachine sampleLayout) anyLeaf
  have hfine := fine_of_dom (by omega) hcs
  have hpool := poolLasts_of_length rfl hwf hfine (by simp)
  refine ⟨by decide, hpool, fun h => ?_⟩
  obtain ⟨m₁, m₂, hwf₂, hmaps, hal⟩ := h.after hwf hfine hpool (List.mem_singleton_self _)
  refine hmaps.not_aligned (hcs _ (List.mem_singleton_self _)) hwf₂ (fun hok => ?_) hal
  -- the region contains the first GiB as a whole
  have := hok 1 le_rfl (by decide) ⟨0, by decide, by decide, by decide⟩
  exact absurd this (by decide)

end Arm64Mmu
