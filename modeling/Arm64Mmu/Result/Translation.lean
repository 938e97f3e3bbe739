import Arm64Mmu.Loop.Count

/-!
# What the hardware walk sees

The purpose of `add_map`: the tables stand for a partial map from virtual addresses to physical
addresses and attributes, and a call overlays its region on that map.  If the physical
addresses are congruent to the virtual ones modulo the largest block, the walk that `enable_mmu`
configures computes this map after every call (`AddMap.refines`), so that in a run the last
mapping of an address wins (`last_mapping_wins`).
-/

namespace Arm64Mmu

open Lib Lib.Radix Lib.Greedy

/-! ### The abstract map -/

/-- The physical address and the attributes of the mapped addresses. -/
abbrev AddrMap := ℕ → Option (ℕ × U64)

namespace Call

/-- What a call maps an address of its region to. -/
def target (c : Call) (va : ℕ) : ℕ × U64 :=
  (c.phys.toNat + (va - c.virt.toNat), attrWord c.attrs)

/-- The map with the region of the call laid over it. -/
def overlay (c : Call) (f : AddrMap) : AddrMap := fun va =>
  if c.Covers va then some (c.target va) else f va

end Call

/-- The map that a list of calls makes. -/
def mapping (cs : List Call) : AddrMap := cs.foldl (fun f c => c.overlay f) fun _ => none

variable {L : Layout} {r : SysRegs} {c : Call} {cs cs₁ cs₂ : List Call} {m m' : Machine} {a : ℕ}

lemma mapping_snoc : mapping (cs ++ [c]) = c.overlay (mapping cs) := List.foldl_append

lemma mapping_none (h : ∀ c ∈ cs, ¬ c.Covers a) : mapping cs a = none := by
  induction cs using List.reverseRecOn with
  | nil => rfl
  | append_singleton cs c ih =>
      rw [mapping_snoc, Call.overlay, if_neg (h c (by simp))]
      exact ih fun c' hc' => h c' (by simp [hc'])

lemma mapping_last (hc : c.Covers a) (h : ∀ c' ∈ cs₂, ¬ c'.Covers a) :
    mapping (cs₁ ++ c :: cs₂) a = some (c.target a) := by
  induction cs₂ using List.reverseRecOn with
  | nil => rw [mapping_snoc, Call.overlay, if_pos hc]
  | append_singleton cs₂ c' ih =>
      rw [← List.cons_append, ← List.append_assoc, mapping_snoc, Call.overlay,
        if_neg (h c' (by simp))]
      exact ih fun c'' hc'' => h c'' (by simp [hc''])

/-! ### The walk computes the map -/

lemma fine_of_congruent (h : ∀ c ∈ cs, c.Congruent) : Fine alignInv cs := fun c hc =>
  ⟨(h c hc).paged, (h c hc).writes⟩

/-- Well-formed tables with aligned blocks translate as the level-3 entries say. -/
lemma Wf.translate_eq (h : Wf L alignInv m) (va : Va) (hva : (va : ℕ) < 2 ^ 32) :
    translate (enableMmu L r) m.mem va = decode va (view L m.mem 3 va) :=
  Arm64Mmu.translate_eq r hva fun _ h2 hd => (h.leaf_holds (by omega) hd).2

/-- What the leaf of a call says to an address of the region. -/
lemma Call.Congruent.decode_leaf (hc : c.Congruent) {ℓ : ℕ} {va : Va} {mem : Mem} (h1 : 1 ≤ ℓ)
    (h3 : ℓ ≤ 3) (hin : Inside gran c.virt.toNat c.stop ℓ va)
    (hv : view L mem ℓ va = .leaf (c.leafAt ℓ (floor gran ℓ va))) :
    decode va (view L mem 3 va) = some (c.target va) := by
  obtain ⟨hlow, hle⟩ := hin
  have hg := gran_pos ℓ
  have hdom := hc.1.mono le_rfl (show 2 ^ 32 ≤ 2 ^ 48 by omega)
  have hpage := floor_mod_page h3 (va : ℕ)
  have haddr := hdom.leafAt_addrField (ℓ := ℓ) hpage hlow (by omega)
  have hal : addrField 12 (c.leafAt ℓ (floor gran ℓ va)) % gran ℓ = 0 :=
    hc.writes ℓ _ h1 h3 (Nat.mul_mod_left _ _) hlow hle
  have hmod := Nat.div_add_mod' (va : ℕ) (gran ℓ)
  rw [decode_of_leaf h1 h3 hv hal, haddr, hdom.leafAt_attrs hpage hlow (by omega), Call.target]
  have : c.phys.toNat + (floor gran ℓ va - c.virt.toNat) + va % gran ℓ =
      c.phys.toNat + (va - c.virt.toNat) := by
    rw [floor] at hlow ⊢
    omega
  rw [this]

/-- A call overlays its region on what the walk computes. -/
theorem AddMap.refines (hwf : Wf L alignInv m) (hwf' : Wf L alignInv m') (hc : c.Congruent)
    (hmaps : c.Maps L m m') (ha : a < 2 ^ 32) :
    translate (enableMmu L r) m'.mem a = c.overlay (translate (enableMmu L r) m.mem) a := by
  obtain ⟨va, rfl⟩ : ∃ va : Va, (va : ℕ) = a := ⟨⟨a, by omega⟩, rfl⟩
  rw [Call.overlay, hwf'.translate_eq va ha]
  by_cases hva : c.Covers va
  · obtain ⟨ℓ, h1, h3, hin, -, hv⟩ := hmaps.leaf hc.paged hva
    rw [if_pos hva, hc.decode_leaf h1 h3 hin hv]
  · rw [if_neg hva, hmaps.view_three hc.paged hva, hwf.translate_eq va ha]

/-- With zeroed tables every address faults. -/
lemma Zeroed.translate (h : Zeroed L m) (ha : a < 2 ^ 32) :
    translate (enableMmu L r) m.mem a = none := by
  obtain ⟨va, rfl⟩ : ∃ va : Va, (va : ℕ) = a := ⟨⟨a, by omega⟩, rfl⟩
  have h1 : view L m.mem 1 va = .invalid := by
    rw [view_of_table (view_zero L m.mem va), h.base _ (vaIdx_one_lt va)]
    rfl
  rw [(Wf.of_zeroed h alignInv).translate_eq va ha, view_of_invalid (view_of_invalid h1)]
  rfl

/-- After a run, the walk computes the map that the calls make. -/
theorem AddMaps.translate_eq_mapping (h : AddMaps L m cs m') (h0 : Zeroed L m)
    (hcs : ∀ c ∈ cs, c.Congruent) (hpool : PoolLasts L m cs) (ha : a < 2 ^ 32) :
    translate (enableMmu L r) m'.mem a = mapping cs a := by
  refine AddMaps.induction (P := fun cs m' => translate (enableMmu L r) m'.mem a = mapping cs a)
    h (Wf.of_zeroed h0 _) (fine_of_congruent hcs) hpool (h0.translate ha) ?_
  intro cs₁ c m₁ m₂ hpre _ hwf₁ hwf₂ _ hmaps ih
  have hc : c.Congruent := hcs c (hpre.subset (by simp))
  rw [AddMap.refines hwf₁ hwf₂ hc hmaps ha, mapping_snoc, Call.overlay, Call.overlay, ih]

/-- Last mapping wins: while the pool lasts, the calls of a run return, and then an address
that no region covers faults, and any other address is translated as the last call says whose
region covers it. -/
theorem last_mapping_wins (L : Layout) (r : SysRegs) (m₀ : Machine) (cs : List Call)
    (h0 : Zeroed L m₀) (hcs : ∀ c ∈ cs, c.Congruent) (hpool : PoolLasts L m₀ cs) :
    ∃ m, AddMaps L m₀ cs m ∧ ∀ a < 2 ^ 32,
      ((∀ c ∈ cs, ¬ c.Covers a) → walk (enableMmu L r) m.mem a = none) ∧
      ∀ cs₁ c cs₂, cs = cs₁ ++ c :: cs₂ → c.Covers a → (∀ c' ∈ cs₂, ¬ c'.Covers a) →
        ∃ leaf, walk (enableMmu L r) m.mem a = some leaf ∧
          leaf.pa = c.phys.toNat + (a - c.virt.toNat) ∧ leaf.attrs = attrWord c.attrs := by
  obtain ⟨m, hm, -⟩ := AddMaps.returns (Wf.of_zeroed h0 _) (fine_of_congruent hcs) hpool
  refine ⟨m, hm, fun a ha => ⟨fun hno => ?_, ?_⟩⟩
  · have h := hm.translate_eq_mapping (r := r) h0 hcs hpool ha
    rw [mapping_none hno, translate, Option.map_eq_none_iff] at h
    exact h
  · rintro cs₁ c cs₂ rfl hc hno
    have h := hm.translate_eq_mapping (r := r) h0 hcs hpool ha
    rw [mapping_last hc hno, translate, Option.map_eq_some_iff] at h
    obtain ⟨leaf, hleaf, he⟩ := h
    obtain ⟨hpa, hattrs⟩ := Prod.mk.inj he
    exact ⟨leaf, hleaf, hpa, hattrs⟩

/-- In the sample run the page is found where the second call put it, with the block around it,
and the address after the block faults. -/
theorem last_mapping_wins_sample :
    ∃ m, AddMaps sampleLayout bootMachine sampleCalls m ∧
      walk (enableMmu sampleLayout ⟨0, 0, 0, 0⟩) m.mem 0x40000000 = none ∧
      (∃ leaf, walk (enableMmu sampleLayout ⟨0, 0, 0, 0⟩) m.mem 0x200010 = some leaf ∧
        leaf.pa = 0x200010 ∧ leaf.attrs = attrWord 0) ∧
      ∃ leaf, walk (enableMmu sampleLayout ⟨0, 0, 0, 0⟩) m.mem 0x201010 = some leaf ∧
        leaf.pa = 0x201010 ∧ leaf.attrs = attrWord 12 := by
  obtain ⟨m, hm, h⟩ := last_mapping_wins sampleLayout ⟨0, 0, 0, 0⟩ bootMachine sampleCalls
    (zeroed_bootMachine _) (by decide) (poolLasts_sampleCalls _)
  refine ⟨m, hm, (h _ (by decide)).1 (by decide), ?_, ?_⟩
  · exact (h 0x200010 (by decide)).2 [_] _ [] rfl (by decide) (by decide)
  · exact (h 0x201010 (by decide)).2 [] _ [_] rfl (by decide) (by decide)

end Arm64Mmu
