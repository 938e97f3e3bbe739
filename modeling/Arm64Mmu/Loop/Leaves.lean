import Mathlib.Data.Nat.ModEq
import Arm64Mmu.Loop.Run

/-!
# The leaves of a call

Which words a call writes, and where they stand when it has returned: every address of the
region uses the leaf of the coarsest span around it that lies inside the region, and that leaf
stands in an entry of a table in use.
-/

namespace Arm64Mmu

open Lib Lib.Radix Lib.Greedy

variable {L : Layout} {Q : LeafInv} {c : Call} {m m' : Machine} {ℓ x t p vmax : ℕ} {va : Va}

/-! ### Pages -/

/-- The pages of a page-aligned region are inside it. -/
lemma Call.Paged.inside_three (hc : c.Paged) (h : c.Covers va) :
    Inside gran c.virt.toNat c.stop 3 va := by
  have h1 := hc.virt
  have h2 := hc.size
  obtain ⟨h3, h4⟩ := h
  simp only [Inside, floor, gran, Call.stop] at *
  omega

/-- The other pages are outside it. -/
lemma Call.Paged.not_meets_three (hc : c.Paged) (h : ¬ c.Covers va) :
    ¬ Meets gran c.virt.toNat c.stop 3 va := by
  intro hm
  obtain ⟨va', hdiv, h1, h2⟩ := Call.exists_mem_of_meets hc hm
  have hin := hc.inside_three ⟨h1, h2⟩
  rw [← inside_congr hdiv] at hin
  exact h (gran_nested.mem_of_inside hin)

/-- An address outside the region keeps its level-3 entry. -/
lemma Call.Maps.view_three (h : c.Maps L m m') (hc : c.Paged) (hva : ¬ c.Covers va) :
    view L m'.mem 3 va = view L m.mem 3 va :=
  h.outside (by omega) le_rfl (hc.not_meets_three hva)

/-- The entry of the coarsest span inside the region holds its leaf. -/
lemma Call.Maps.of_coarsest (h : c.Maps L m m') (h3 : ℓ ≤ 3)
    (hco : Coarsest gran c.virt.toNat c.stop ℓ va) :
    view L m'.mem ℓ va = .leaf (c.leafAt ℓ (floor gran ℓ va)) := by
  obtain ⟨ℓ', h1, -, hin, hout, hv⟩ := h.inside hco.1 h3 hco.2.1
  obtain rfl : ℓ' = ℓ := Coarsest.unique ⟨h1, hin, hout⟩ hco
  rw [hv, Scheme.refine_self]

/-- The leaf that an address of the region uses. -/
theorem Call.Maps.leaf (h : c.Maps L m m') (hc : c.Paged) (hva : c.Covers va) :
    ∃ ℓ, 1 ≤ ℓ ∧ ℓ ≤ 3 ∧ Inside gran c.virt.toNat c.stop ℓ va ∧
      (∀ j, 1 ≤ j → j < ℓ → Cut gran c.virt.toNat c.stop j va) ∧
      view L m'.mem ℓ va = .leaf (c.leafAt ℓ (floor gran ℓ va)) := by
  obtain ⟨ℓ, h1, h3, hin, hout, hv⟩ :=
    Sweep.exists_leaf (by omega) (hc.inside_three hva) h.inside
  exact ⟨ℓ, h1, h3, hin, fun j hj1 hj => ⟨gran_nested.meets_of_mem hva.1 hva.2, hout j hj1 hj⟩, hv⟩

/-- An address of the region uses a leaf of the call that stands in a table in use. -/
lemma Call.Maps.leafIn (h : c.Maps L m m') (hc : c.Paged) (hwf : Wf L Q m') (hva : c.Covers va) :
    ∃ ℓ, 1 ≤ ℓ ∧ ℓ ≤ 3 ∧ Inside gran c.virt.toNat c.stop ℓ va ∧
      (∀ j, 1 ≤ j → j < ℓ → ¬ Inside gran c.virt.toNat c.stop j va) ∧
      LeafIn L m' ℓ (c.leafAt ℓ (floor gran ℓ va)) := by
  obtain ⟨ℓ, h1, h3, hin, hcut, hv⟩ := h.leaf hc hva
  obtain ⟨ℓ, rfl⟩ : ∃ k, ℓ = k + 1 := ⟨ℓ - 1, by omega⟩
  obtain ⟨p, hp⟩ : ∃ p, view L m'.mem ℓ va = .table p := by
    rcases Nat.eq_zero_or_pos ℓ with rfl | hpos
    · exact ⟨_, view_zero ..⟩
    · exact h.cut hpos (by omega) (hcut ℓ hpos (Nat.lt_succ_self ℓ))
  obtain ⟨hleaf, -, T, hT, hi, he⟩ := hwf.leaf_entry hp hv
  exact ⟨ℓ + 1, h1, h3, hin, fun j hj hlt => (hcut j hj hlt).2, hleaf, T, _, hT, hi, he⟩

/-- A call keeps the tables of the spans that are not inside its region. -/
lemma Call.Maps.table_kept (h : c.Maps L m m') (h1 : 1 ≤ ℓ) (h3 : ℓ ≤ 3)
    (hin : ¬ Inside gran c.virt.toNat c.stop ℓ va) (hv : view L m.mem ℓ va = .table p) :
    view L m'.mem ℓ va = .table p := by
  by_cases hm : Meets gran c.virt.toNat c.stop ℓ va
  · exact h.kept h1 h3 ⟨hm, hin⟩ hv
  · rw [h.outside h1 h3 hm, hv]

/-- A call does not hang a table that was handed out before anywhere else. -/
lemma Call.Maps.view_of_old (h : c.Maps L m m') (h1 : 1 ≤ ℓ) (h3 : ℓ ≤ 3) (ht : t < m.tableIdx)
    (hv : view L m'.mem ℓ va = .table (L.xlatTable t)) :
    view L m.mem ℓ va = .table (L.xlatTable t) := by
  by_cases hm : Meets gran c.virt.toNat c.stop ℓ va
  · by_cases hin : Inside gran c.virt.toNat c.stop ℓ va
    · obtain ⟨_, _, _, _, _, hleaf⟩ := h.inside h1 h3 hin
      rw [hv] at hleaf
      exact absurd hleaf (by simp)
    · by_cases htab : ∃ p, view L m.mem ℓ va = .table p
      · obtain ⟨p, hp⟩ := htab
        rw [← hv, hp, h.kept h1 h3 ⟨hm, hin⟩ hp]
      · obtain ⟨t', hle, -, hv'⟩ := h.linked h1 h3 ⟨hm, hin⟩ (not_exists.1 htab)
        rw [hv] at hv'
        obtain rfl := xlatTable_inj (Entry.table.inj hv')
        omega
  · rwa [h.outside h1 h3 hm] at hv

/-! ### The words -/

/-- The address of a leaf of a call whose physical range is below `2 ^ 48`. -/
lemma Call.Dom.leaf_addr (hc : c.Dom vmax (2 ^ 48)) (hx : x % 4096 = 0) (hlow : c.virt.toNat ≤ x)
    (hlt : x < c.stop) :
    (c.phys + BitVec.ofNat 64 (x - c.virt.toNat)).toNat = c.phys.toNat + (x - c.virt.toNat) ∧
      (c.phys.toNat + (x - c.virt.toNat)) % 4096 = 0 ∧
      c.phys.toNat + (x - c.virt.toNat) < 2 ^ 48 := by
  have h1 := hc.phys
  have h2 := hc.virt
  have h3 := hc.phys_le
  rw [Call.stop] at hlt
  rw [BitVec.toNat_add, BitVec.toNat_ofNat]
  omega

lemma Call.Dom.leafAt_addrField (hc : c.Dom vmax (2 ^ 48)) (hx : x % 4096 = 0)
    (hlow : c.virt.toNat ≤ x) (hlt : x < c.stop) :
    addrField 12 (c.leafAt ℓ x) = c.phys.toNat + (x - c.virt.toNat) := by
  obtain ⟨h1, h2, h3⟩ := hc.leaf_addr hx hlow hlt
  rw [Call.leafAt, blockDesc_addrField (by rwa [h1]) (by rwa [h1]), h1]

lemma Call.Dom.leafAt_attrs (hc : c.Dom vmax (2 ^ 48)) (hx : x % 4096 = 0)
    (hlow : c.virt.toNat ≤ x) (hlt : x < c.stop) :
    c.leafAt ℓ x &&& descAttrsMask = attrWord c.attrs := by
  obtain ⟨h1, h2, h3⟩ := hc.leaf_addr hx hlow hlt
  exact blockDesc_attrs (by rwa [h1]) (by rwa [h1]) _ _

/-- The domain with a larger bound. -/
lemma Call.Dom.mono {vmax' pmax pmax' : ℕ} (h : c.Dom vmax pmax) (hv : vmax ≤ vmax')
    (hp : pmax ≤ pmax') : c.Dom vmax' pmax' :=
  { h with virt_le := h.virt_le.trans hv, phys_le := h.phys_le.trans hp }

/-- The first address of a span. -/
lemma floor_mod_page (h3 : ℓ ≤ 3) (x : ℕ) : floor gran ℓ x % 4096 = 0 := by
  have h1 : gran 3 ∣ floor gran ℓ x := (gran_nested.dvd h3).trans (Nat.dvd_mul_left _ _)
  exact Nat.mod_eq_zero_of_dvd h1

/-- No condition on the leaves. -/
def anyLeaf : LeafInv := ⟨fun _ _ => True, fun _ _ _ _ _ => trivial⟩

/-- Page-aligned calls fulfil the empty condition on leaves. -/
lemma Call.writes_any (c : Call) : c.Writes anyLeaf := fun _ _ _ _ _ _ _ => trivial

/-- Calls in the domain fulfil the empty condition on leaves. -/
lemma fine_of_dom {cs : List Call} {pmax : ℕ} (hv : vmax ≤ 2 ^ 36)
    (hcs : ∀ c ∈ cs, c.Dom vmax pmax) : Fine anyLeaf cs := fun c hc =>
  ⟨(hcs c hc).paged hv, c.writes_any⟩

/-- The tables that a run of page-aligned calls leaves to one more call. -/
theorem exists_reached {cs : List Call} {m₀ : Machine} (h0 : Zeroed L m₀)
    (hcs : ∀ c ∈ cs, c.Paged) (hpool : PoolLasts L m₀ (cs ++ [c])) :
    ∃ m, AddMaps L m₀ cs m ∧ Wf L anyLeaf m ∧ c.HasRoom L m := by
  obtain ⟨hpool, hroom⟩ := poolLasts_snoc.1 hpool
  obtain ⟨m, hm, hwf⟩ := AddMaps.returns (Wf.of_zeroed h0 anyLeaf)
    (fun c hc => ⟨hcs c hc, c.writes_any⟩) hpool
  exact ⟨m, hm, hwf, hroom m hm⟩

/-! ### Alignment -/

/-- The output address of a block or page is a multiple of its size. -/
def alignInv : LeafInv where
  holds ℓ d := addrField 12 d % gran ℓ = 0
  split h1 h2 hi _ h := (splitPiece_aligned h1 h2 hi h).2

/-- The physical addresses are congruent to the virtual ones modulo every block size of which
the region contains a whole aligned span. -/
def Call.AlignOk (c : Call) : Prop :=
  ∀ ℓ, 1 ≤ ℓ → ℓ ≤ 2 → (∃ x, x % gran ℓ = 0 ∧ c.virt.toNat ≤ x ∧ x + gran ℓ ≤ c.stop) →
    c.phys.toNat % gran ℓ = c.virt.toNat % gran ℓ

lemma add_sub_mod {p v g : ℕ} (hx : x % g = 0) (hv : v ≤ x) :
    (p + (x - v)) % g = 0 ↔ p % g = v % g := by
  have h1 : (p + (x - v) + v) % g = p % g := by
    rw [Nat.add_assoc, Nat.sub_add_cancel hv, Nat.add_mod, hx, Nat.add_zero, Nat.mod_mod]
  constructor
  · intro h
    rw [← h1, Nat.add_mod, h, Nat.zero_add, Nat.mod_mod]
  · intro h
    have h2 : (p + (x - v) + v) % g = (0 + v) % g := by rw [h1, h, Nat.zero_add]
    exact Nat.ModEq.add_right_cancel' v h2

/-- The calls that write aligned leaves only. -/
lemma Call.Dom.writes_align (hc : c.Dom vmax (2 ^ 48)) (h : c.AlignOk) : c.Writes alignInv := by
  intro ℓ x h1 h3 hx hlow hle
  have hg := gran_le h1 h3
  have hpage : x % 4096 = 0 :=
    Nat.mod_eq_zero_of_dvd ((gran_nested.dvd h3).trans (Nat.dvd_of_mod_eq_zero hx))
  show addrField 12 (c.leafAt ℓ x) % gran ℓ = 0
  rw [hc.leafAt_addrField hpage hlow (by omega)]
  rcases Nat.lt_or_eq_of_le h3 with h2 | rfl
  · rw [add_sub_mod hx hlow]
    exact h ℓ h1 (by omega) ⟨x, hx, hlow, hle⟩
  · obtain ⟨-, h2, -⟩ := hc.leaf_addr hpage hlow (by omega)
    exact h2

lemma Call.alignOk_of_congr (h : c.phys.toNat % 2 ^ 30 = c.virt.toNat % 2 ^ 30) : c.AlignOk := by
  intro ℓ h1 h2 _
  obtain rfl | rfl : ℓ = 1 ∨ ℓ = 2 := by omega
  · exact h
  · simp only [gran]
    omega

lemma Call.Congruent.paged (h : c.Congruent) : c.Paged := h.1.paged (by omega)

lemma Call.Congruent.writes (h : c.Congruent) : c.Writes alignInv :=
  (h.1.mono le_rfl (by omega)).writes_align (Call.alignOk_of_congr h.2)

end Arm64Mmu
