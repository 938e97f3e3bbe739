import Arm64Mmu.Result.Attributes

/-!
# The permissions that are enforced

`mmu.h` documents five permission flags of `attrs`.  `set_pte_block_desc` reads two of them, and
makes Device memory execute-never whatever the flags say.  So the leaf that the walk finds for
an address enforces what the last call for this address asks for exactly when the call asks for
nothing that these do not give (`permissions_enforced_iff`).
-/

namespace Arm64Mmu

open Lib Lib.Radix Lib.Greedy

/-- The permission bits of a leaf are the ones that `attrs` asks for: `AP[2]` (bit 7) unless
`MT_RW` is set, `AP[1]` (bit 6) if `MT_RW_AP_ELx` is, and the execute-never bits. -/
structure Enforced (attrs : U32) (d : U64) : Prop where
  readOnly : d.getLsbD 7 = true ↔ attrs &&& mtRw = 0
  el0 : d.getLsbD 6 = true ↔ attrs &&& mtRwApELx ≠ 0
  pxn : attrs &&& mtPExecuteNever ≠ 0 → pxn d = true
  uxn : attrs &&& mtUExecuteNever ≠ 0 → uxn d = true

variable {L : Layout} {r : SysRegs} {c : Call} {cs cs' : List Call} {m₀ m m' : Machine} {d : U64}
  {attrs : U32} {va : Va}

lemma flagWord_permissions : ∀ (ty : BitVec 3) (rw ns : Bool),
    (flagWord ty rw ns true).getLsbD 7 = !rw ∧ (flagWord ty rw ns true).getLsbD 6 = false ∧
      pxn (flagWord ty rw ns true) = decide (ty.toNat ≤ 2) ∧
      uxn (flagWord ty rw ns true) = decide (ty.toNat ≤ 2) := by decide

/-- The permissions that `set_pte_block_desc` enforces: it reads neither the execute-never flags
nor `MT_RW_AP_ELx`, and makes device memory execute-never always. -/
def PermissionsRead (attrs : U32) : Prop :=
  attrs &&& mtRwApELx = 0 ∧
    ((mtType attrs).toNat ≤ 2 ∨ (attrs &&& mtPExecuteNever = 0 ∧ attrs &&& mtUExecuteNever = 0))

instance (attrs : U32) : Decidable (PermissionsRead attrs) := inferInstanceAs (Decidable (_ ∧ _))

lemma enforced_iff (hd : d &&& descAttrsMask = attrWord attrs) :
    Enforced attrs d ↔ PermissionsRead attrs := by
  rw [attrWord_eq] at hd
  obtain ⟨h7, h6, hp, hu⟩ :=
    flagWord_permissions (attrs.setWidth 3) (attrs.getLsbD 3) (attrs.getLsbD 4)
  rw [setWidth_toNat] at hp hu
  have e7 : d.getLsbD 7 = true ↔ attrs &&& mtRw = 0 := by
    rw [getLsbD_congr (by decide) hd, h7, Bool.not_eq_true', ← Bool.not_eq_true,
      ← not_ne_iff (b := 0)]
    exact not_congr (and_flag_ne_zero attrs 3 (by omega)).symm
  have e6 : d.getLsbD 6 = false := (getLsbD_congr (by decide) hd).trans h6
  have ep : pxn d = decide ((mtType attrs).toNat ≤ 2) :=
    (getLsbD_congr (i := 53) (by decide) hd).trans hp
  have eu : uxn d = decide ((mtType attrs).toNat ≤ 2) :=
    (getLsbD_congr (i := 54) (by decide) hd).trans hu
  constructor
  · rintro ⟨-, h2, h3, h4⟩
    refine ⟨not_ne_iff.1 fun h => ?_, ?_⟩
    · rw [h2.2 h] at e6
      exact absurd e6 (by decide)
    · by_cases hty : (mtType attrs).toNat ≤ 2
      · exact .inl hty
      · rw [ep, decide_eq_false hty] at h3
        rw [eu, decide_eq_false hty] at h4
        exact .inr ⟨not_ne_iff.1 fun h => absurd (h3 h) (by decide),
          not_ne_iff.1 fun h => absurd (h4 h) (by decide)⟩
  · rintro ⟨h1, h2⟩
    refine ⟨e7, iff_of_false (by rw [e6]; decide) (not_ne_iff.2 h1), fun h5 => ?_, fun h6 => ?_⟩
    · rcases h2 with h2 | ⟨h2, -⟩
      · rw [ep, decide_eq_true h2]
      · exact absurd h2 h5
    · rcases h2 with h2 | ⟨-, h2⟩
      · rw [eu, decide_eq_true h2]
      · exact absurd h2 h6

/-- After the calls `cs` and `c`, and any later calls that map only addresses outside the region
of `c`, the walk finds leaves with the permissions of `c` for the addresses of this region. -/
def PermissionsEnforced (L : Layout) (r : SysRegs) (m₀ : Machine) (cs : List Call) (c : Call) :
    Prop :=
  ∀ cs', (∀ c' ∈ cs', c'.Paged ∧ ∀ a, c.Covers a → ¬ c'.Covers a) →
    PoolLasts L m₀ (cs ++ c :: cs') → ∃ m, AddMaps L m₀ (cs ++ c :: cs') m ∧
      ∀ a, c.Covers a →
        ∃ leaf, walk (enableMmu L r) m.mem a = some leaf ∧ Enforced c.attrs leaf.desc

/-- A call gives the level-3 entries of its region its attribute fields. -/
lemma Call.Maps.decode_attrs {vmax : ℕ} (h : c.Maps L m m') (hc : c.Dom vmax (2 ^ 48))
    (hv : vmax ≤ 2 ^ 36) (hva : c.Covers va) :
    (decode va (view L m'.mem 3 va)).map Prod.snd = some (attrWord c.attrs) := by
  obtain ⟨ℓ, h1, h3, ⟨hlow, hle⟩, -, hleaf⟩ := h.leaf (hc.paged hv) hva
  have hg := gran_pos ℓ
  have hview : view L m'.mem 3 va = .leaf ((scheme L).refine ℓ _ va 3) :=
    Scheme.lookup_of_leaf hleaf h3
  rw [hview, decode, Option.map_some, refine_attrs h1 h3 le_rfl,
    hc.leafAt_attrs (floor_mod_page h3 _) hlow (by omega)]

/-- Later calls that avoid an address leave its level-3 entry alone. -/
lemma AddMaps.view_three_of_avoid (h : AddMaps L m cs' m') (hwf : Wf L anyLeaf m)
    (hcs : ∀ c' ∈ cs', c'.Paged ∧ ¬ c'.Covers va) (hpool : PoolLasts L m cs') :
    view L m'.mem 3 va = view L m.mem 3 va := by
  refine AddMaps.induction (P := fun _ m' => view L m'.mem 3 va = view L m.mem 3 va) h hwf
    (fun c' hc' => ⟨(hcs c' hc').1, fun _ _ _ _ _ _ _ => trivial⟩) hpool rfl ?_
  intro cs₁ c' m₁ m₂ hpre _ _ _ hc' hmaps ih
  rw [hmaps.view_three hc' (hcs c' (hpre.subset (by simp))).2, ih]

/-- The leaves that the walk finds for the region have the attribute fields of the call. -/
lemma walk_after (h0 : Zeroed L m₀) (hcs : ∀ c' ∈ cs, c'.Paged) (hc : c.Congruent)
    (hcs' : ∀ c' ∈ cs', c'.Paged ∧ ∀ a, c.Covers a → ¬ c'.Covers a)
    (hpool : PoolLasts L m₀ (cs ++ c :: cs')) :
    ∃ m, AddMaps L m₀ (cs ++ c :: cs') m ∧ ∀ a, c.Covers a → ∃ leaf,
      walk (enableMmu L r) m.mem a = some leaf ∧
        leaf.desc &&& descAttrsMask = attrWord c.attrs := by
  have hfine : Fine anyLeaf (cs ++ c :: cs') := fun c' hc' => by
    refine ⟨?_, fun _ _ _ _ _ _ _ => trivial⟩
    rcases List.mem_append.1 hc' with hc' | hc'
    · exact hcs c' hc'
    · rcases List.mem_cons.1 hc' with rfl | hc'
      · exact hc.paged
      · exact (hcs' c' hc').1
  obtain ⟨m₁, m₂, m, hm₁, hm₂, hm, -, hwf₂, -, hmaps, hpool₂⟩ :=
    AddMaps.returns_around (Wf.of_zeroed h0 anyLeaf) hfine hpool
  have hrun : AddMaps L m₁ ([c] ++ cs') m := Run.append_iff.2 ⟨m₂, (Run.nil m₁).snoc hm₂, hm⟩
  refine ⟨m, Run.append_iff.2 ⟨m₁, hm₁, hrun⟩, ?_⟩
  intro a ha
  have hlt : a < 2 ^ 32 := ha.2.trans_le hc.1.virt_le
  obtain ⟨va, rfl⟩ : ∃ va : Va, (va : ℕ) = a := ⟨⟨a, by omega⟩, rfl⟩
  have hdom := hc.1.mono le_rfl (show 2 ^ 32 ≤ 2 ^ 48 by omega)
  have hview : view L m.mem 3 va = view L m₂.mem 3 va :=
    AddMaps.view_three_of_avoid hm hwf₂
      (fun c' hc' => ⟨(hcs' c' hc').1, (hcs' c' hc').2 _ ha⟩) hpool₂
  have hattrs := walk_attrs L m.mem r hlt
  rw [hview, hmaps.decode_attrs hdom (by omega) ha, Option.map_eq_some_iff] at hattrs
  exact hattrs

/-- What is enforced is what `set_pte_block_desc` reads. -/
lemma PermissionsEnforced.read (h : PermissionsEnforced L r m₀ cs c) (h0 : Zeroed L m₀)
    (hcs : ∀ c' ∈ cs, c'.Paged) (hc : c.Congruent) (hpool : PoolLasts L m₀ (cs ++ [c])) :
    PermissionsRead c.attrs := by
  have hnil : ∀ c' ∈ [], Call.Paged c' ∧ ∀ a, c.Covers a → ¬ c'.Covers a := by simp
  obtain ⟨m, hm, hall⟩ := h [] hnil hpool
  obtain ⟨m', hm', hleaf⟩ := walk_after (r := r) h0 hcs hc hnil hpool
  obtain rfl := hm.unique hm'
  have hva : c.Covers c.virt.toNat := ⟨le_rfl, Nat.lt_add_of_pos_right hc.1.size_ne_zero⟩
  obtain ⟨leaf, hw, henf⟩ := hall _ hva
  obtain ⟨leaf', hw', hd⟩ := hleaf _ hva
  obtain rfl := Option.some.inj (hw.symm.trans hw')
  exact (enforced_iff hd).1 henf

/-- The permissions that a call asks for are enforced on every address of its region, also after
later calls for other addresses, if and only if the call asks for no flag that
`set_pte_block_desc` does not read: not for `MT_RW_AP_ELx`, and not for execute-never unless the
memory is a Device. -/
theorem permissions_enforced_iff (L : Layout) (r : SysRegs) (m₀ : Machine) (cs : List Call)
    (c : Call) (h0 : Zeroed L m₀) (hcs : ∀ c' ∈ cs, c'.Paged) (hc : c.Congruent)
    (hpool : PoolLasts L m₀ (cs ++ [c])) :
    PermissionsEnforced L r m₀ cs c ↔ PermissionsRead c.attrs := by
  constructor
  · exact fun h => h.read h0 hcs hc hpool
  · intro h cs' hcs' hpool'
    obtain ⟨m, hm, hleaf⟩ := walk_after (r := r) h0 hcs hc hcs' hpool'
    refine ⟨m, hm, fun a ha => ?_⟩
    obtain ⟨leaf, hw, hd⟩ := hleaf a ha
    exact ⟨leaf, hw, (enforced_iff hd).2 h⟩

/-- The Device page of the sample run asks for no flag that is not read. -/
theorem permissions_enforced_sample :
    PermissionsEnforced sampleLayout ⟨0, 0, 0, 0⟩ bootMachine (sampleCalls.take 1)
      ⟨0x200000, 0x200000, 0x1000, 0⟩ :=
  (permissions_enforced_iff sampleLayout ⟨0, 0, 0, 0⟩ bootMachine (sampleCalls.take 1)
    ⟨0x200000, 0x200000, 0x1000, 0⟩ (zeroed_bootMachine _)
    (fun c hc => Call.Congruent.paged ((by decide : ∀ c ∈ sampleCalls.take 1, c.Congruent) c hc))
    (by decide) (poolLasts_sampleCalls _)).2 (by decide)

/-- A writable page of Normal memory for which `MT_P_EXECUTE_NEVER` is asked is executable. -/
theorem execute_never_lost :
    Call.Congruent ⟨0, 0, 0x1000, 44⟩ ∧ PoolLasts sampleLayout bootMachine [⟨0, 0, 0x1000, 44⟩] ∧
      ¬ PermissionsEnforced sampleLayout ⟨0, 0, 0, 0⟩ bootMachine [] ⟨0, 0, 0x1000, 44⟩ := by
  have hcs : ∀ c ∈ [(⟨0, 0, 0x1000, 44⟩ : Call)], c.Dom (2 ^ 32) (2 ^ 32) := by decide
  have h0 := zeroed_bootMachine sampleLayout
  have hpool := poolLasts_of_length rfl (Wf.of_zeroed h0 anyLeaf) (fine_of_dom (by omega) hcs)
    (by simp)
  refine ⟨by decide, hpool, fun h => ?_⟩
  exact absurd (h.read h0 (by simp) (by decide) hpool) (by decide)

end Arm64Mmu
