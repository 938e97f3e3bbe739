import Arm64Mmu.Loop.Count

/-!
# The attributes of the leaves

`set_pte_block_desc` computes the attribute fields from `attrs`, and splitting a block copies
them.  So every leaf of every table has the attribute fields of some call, and what the fields
say about memory types and permissions is found by going through the values of the five bits
of `attrs` that are read.
-/

namespace Arm64Mmu

open Lib Lib.Radix Lib.Greedy

/-! ### The fields -/

/-- The field `AttrIndx`, which selects a byte of `MAIR_EL2`. -/
def attrIndx (d : U64) : ℕ := (d >>> 2 &&& 7).toNat

/-- The shareability field. -/
def sh (d : U64) : ℕ := (d >>> 8 &&& 3).toNat

/-- Execution is forbidden at the privileged (bit 53) and the unprivileged (bit 54) level. -/
def pxn (d : U64) : Bool := d.getLsbD 53
def uxn (d : U64) : Bool := d.getLsbD 54

/-- The access flag. -/
def accessFlag (d : U64) : Bool := d.getLsbD 10

/-- The attribute that `MEMORY_ATTRIBUTES` encodes at an index. -/
def mairAttr (i : ℕ) : U64 := memoryAttributes >>> (8 * i) &&& 0xff

/-- The attribute is Normal memory: the upper four bits of a Device attribute are zero. -/
def isNormal (i : ℕ) : Bool := mairAttr i >>> 4 ≠ 0

/-- The attribute is cacheable Normal memory; `0x44` is the non-cacheable one. -/
def isCacheable (i : ℕ) : Bool := isNormal i && mairAttr i ≠ 0x44

/-- A Device leaf is execute-never, has the access flag, and is outer shareable. -/
def DeviceSafe (d : U64) : Prop :=
  attrIndx d ≤ 2 → pxn d = true ∧ uxn d = true ∧ accessFlag d = true ∧ sh d = 2

/-- A leaf of Normal memory is inner shareable if it is cacheable, else outer shareable. -/
def NormalShareable (d : U64) : Prop :=
  isNormal (attrIndx d) = true → sh d = if isCacheable (attrIndx d) then 3 else 2

instance (d : U64) : Decidable (DeviceSafe d) := inferInstanceAs (Decidable (_ → _))
instance (d : U64) : Decidable (NormalShareable d) := inferInstanceAs (Decidable (_ → _))

variable {L : Layout} {c : Call} {cs : List Call} {m m' : Machine} {d e : U64} {attrs : U32}

/-! ### Fields of words with the same attribute bits -/

lemma attrIndx_congr (h : d &&& descAttrsMask = e &&& descAttrsMask) : attrIndx d = attrIndx e := by
  have key : ∀ d : U64, d >>> 2 &&& (7 : U64) = (d &&& descAttrsMask) >>> 2 &&& 7 := by
    intro d
    rw [BitVec.ushiftRight_and_distrib, BitVec.and_assoc]
    rfl
  rw [attrIndx, attrIndx, key d, key e, h]

lemma sh_congr (h : d &&& descAttrsMask = e &&& descAttrsMask) : sh d = sh e := by
  have key : ∀ d : U64, d >>> 8 &&& (3 : U64) = (d &&& descAttrsMask) >>> 8 &&& 3 := by
    intro d
    rw [BitVec.ushiftRight_and_distrib, BitVec.and_assoc]
    rfl
  rw [sh, sh, key d, key e, h]

lemma getLsbD_congr {i : ℕ} (hi : descAttrsMask.getLsbD i = true)
    (h : d &&& descAttrsMask = e &&& descAttrsMask) : d.getLsbD i = e.getLsbD i := by
  have := congrArg (fun w : U64 => w.getLsbD i) h
  simpa [hi] using this

/-- The attribute fields that go with `attrs`. -/
lemma attrWord_eq (attrs : U32) : attrWord attrs =
    flagWord (attrs.setWidth 3) (attrs.getLsbD 3) (attrs.getLsbD 4) true &&& descAttrsMask := by
  have h0 : ∀ d : U64, 0 ||| d = d := fun d => BitVec.zero_or
  rw [attrWord, blockDesc_eq_flagWord, h0]
  rfl

/-! ### The leaves of a run -/

/-- The leaf has the attribute fields that go with some `attrs` of the kind `A`. -/
def attrInv (A : U32 → Prop) : LeafInv where
  holds _ d := ∃ attrs, A attrs ∧ d &&& descAttrsMask = attrWord attrs
  split := by
    rintro ℓ i d h1 h2 hi - ⟨attrs, hA, hd⟩
    exact ⟨attrs, hA, by rw [splitPiece_attrs (by omega) (by omega) hi, hd]⟩

/-- A call writes leaves with the attribute fields of its `attrs`. -/
lemma Call.Dom.writes_attrs {A : U32 → Prop} {vmax : ℕ} (hc : c.Dom vmax (2 ^ 48))
    (hA : A c.attrs) : c.Writes (attrInv A) := by
  intro ℓ x h1 h3 hx hlow hle
  have hg := gran_pos ℓ
  have hpage : x % 4096 = 0 :=
    Nat.mod_eq_zero_of_dvd ((gran_nested.dvd h3).trans (Nat.dvd_of_mod_eq_zero hx))
  exact ⟨c.attrs, hA, hc.leafAt_attrs hpage hlow (by omega)⟩

/-- A property of the attribute fields that holds of those of the calls holds of every leaf. -/
lemma throughout_leaves {A : U32 → Prop} {P : U64 → Prop} {vmax : ℕ} (h0 : Zeroed L m)
    (hv : vmax ≤ 2 ^ 36) (hcs : ∀ c ∈ cs, c.Dom vmax (2 ^ 48) ∧ A c.attrs)
    (hpool : PoolLasts L m cs)
    (hP : ∀ attrs d, A attrs → d &&& descAttrsMask = attrWord attrs → P d) :
    Throughout L m cs fun m' => ∀ ℓ d, LeafIn L m' ℓ d → P d := by
  have hfine : Fine (attrInv A) cs := fun c hc =>
    ⟨(hcs c hc).1.paged hv, (hcs c hc).1.writes_attrs (hcs c hc).2⟩
  refine throughout_of_wf (Wf.of_zeroed h0 _) hfine hpool fun m' hwf ℓ d hd => ?_
  obtain ⟨attrs, hA, he⟩ := hwf.leafIn_holds hd
  exact hP attrs d hA he

/-! ### Device memory -/

lemma deviceSafe_congr (h : d &&& descAttrsMask = e &&& descAttrsMask) :
    DeviceSafe d ↔ DeviceSafe e := by
  simp only [DeviceSafe, attrIndx_congr h, sh_congr h, pxn, uxn, accessFlag,
    getLsbD_congr (i := 53) (by decide) h, getLsbD_congr (i := 54) (by decide) h,
    getLsbD_congr (i := 10) (by decide) h]

lemma deviceSafe_flagWord : ∀ ty rw ns, DeviceSafe (flagWord ty rw ns true) := by decide

/-- Device memory is never executable: throughout a run, every leaf in a table in use, reachable
or not, that selects a Device type is execute-never, has the access flag and is outer
shareable. -/
theorem device_never_executable (L : Layout) (m₀ : Machine) (cs : List Call) (h0 : Zeroed L m₀)
    (hcs : ∀ c ∈ cs, c.Dom (2 ^ 32) (2 ^ 48) ∧ (mtType c.attrs).toNat ≤ 5)
    (hpool : PoolLasts L m₀ cs) :
    Throughout L m₀ cs fun m => ∀ ℓ d, LeafIn L m ℓ d → DeviceSafe d := by
  refine throughout_leaves (A := fun attrs => (mtType attrs).toNat ≤ 5) h0 (by omega) hcs hpool
    fun attrs d _ hd => ?_
  rw [attrWord_eq] at hd
  exact (deviceSafe_congr hd).2 (deviceSafe_flagWord _ _ _)

/-- The sample run cuts a Device page out of Normal memory. -/
theorem device_never_executable_sample :
    Throughout sampleLayout bootMachine sampleCalls fun m =>
      ∀ ℓ d, LeafIn sampleLayout m ℓ d → DeviceSafe d :=
  device_never_executable sampleLayout bootMachine sampleCalls (zeroed_bootMachine _) (by decide)
    (poolLasts_sampleCalls _)

/-! ### Normal memory -/

lemma normalShareable_congr (h : d &&& descAttrsMask = e &&& descAttrsMask) :
    NormalShareable d ↔ NormalShareable e := by
  simp only [NormalShareable, attrIndx_congr h, sh_congr h]

lemma normalShareable_flagWord : ∀ (ty : BitVec 3) (rw ns : Bool), ty.toNat ≤ 5 →
    (NormalShareable (flagWord ty rw ns true) ↔ ty ≠ 5) := by decide

lemma setWidth_toNat (attrs : U32) : (attrs.setWidth 3).toNat = (mtType attrs).toNat := by
  rw [mtType_eq, BitVec.toNat_setWidth 32]
  have := (attrs.setWidth 3).isLt
  omega

/-- The one defined type of Normal memory that the switch of `set_pte_block_desc` forgets. -/
lemma normalShareable_iff (hty : (mtType attrs).toNat ≤ 5)
    (hd : d &&& descAttrsMask = attrWord attrs) :
    NormalShareable d ↔ mtType attrs ≠ mtNormalWt := by
  rw [attrWord_eq] at hd
  rw [normalShareable_congr hd, normalShareable_flagWord _ _ _ (by rwa [setWidth_toNat]),
    not_iff_not, ← BitVec.toNat_inj, ← BitVec.toNat_inj, setWidth_toNat]
  rfl

/-- After a call some leaf has the attribute fields of the call. -/
lemma Call.Maps.exists_leafIn {Q : LeafInv} {vmax : ℕ} (h : c.Maps L m m')
    (hc : c.Dom vmax (2 ^ 48)) (hv : vmax ≤ 2 ^ 36) (hwf : Wf L Q m') :
    ∃ ℓ d, LeafIn L m' ℓ d ∧ d &&& descAttrsMask = attrWord c.attrs := by
  have hpos := hc.size_ne_zero
  have hpage := hc.paged hv
  obtain ⟨va, hva⟩ : ∃ va : Va, (va : ℕ) = c.virt.toNat := by
    have hle := hpage.stop_le
    rw [Call.stop] at hle
    exact ⟨⟨c.virt.toNat, by omega⟩, rfl⟩
  have hcov : c.Covers va := by
    rw [hva]
    exact ⟨le_rfl, Nat.lt_add_of_pos_right hpos⟩
  obtain ⟨ℓ, h1, h3, ⟨hlow, hle⟩, -, hleaf⟩ := h.leafIn hpage hwf hcov
  have hg := gran_pos ℓ
  exact ⟨ℓ, _, hleaf, hc.leafAt_attrs (floor_mod_page h3 _) hlow (by omega)⟩

/-- A run with a write-through mapping leaves a leaf of Normal memory that is not shareable. -/
lemma not_normalShareable_of_wt {vmax : ℕ} (h0 : Zeroed L m) (hv : vmax ≤ 2 ^ 36)
    (hcs : ∀ c ∈ cs, c.Dom vmax (2 ^ 48)) (hpool : PoolLasts L m cs) (hc : c ∈ cs)
    (hwt : mtType c.attrs = mtNormalWt) :
    ¬ Throughout L m cs fun m' => ∀ ℓ d, LeafIn L m' ℓ d → NormalShareable d := by
  intro h
  obtain ⟨m₁, m₂, hwf, hmaps, hall⟩ :=
    h.after (Wf.of_zeroed h0 anyLeaf) (fine_of_dom hv hcs) hpool hc
  obtain ⟨ℓ, d, hleaf, hd⟩ := hmaps.exists_leafIn (hcs c hc) hv hwf
  have hty : (mtType c.attrs).toNat ≤ 5 := by
    rw [hwt]
    decide
  exact (normalShareable_iff hty hd).1 (hall ℓ d hleaf) hwt

/-- Normal memory is mapped shareable throughout a run if and only if no call asks for the
write-through type. -/
theorem normal_shareable_iff (L : Layout) (m₀ : Machine) (cs : List Call) (h0 : Zeroed L m₀)
    (hcs : ∀ c ∈ cs, c.Dom (2 ^ 32) (2 ^ 48) ∧ (mtType c.attrs).toNat ≤ 5)
    (hpool : PoolLasts L m₀ cs) :
    (Throughout L m₀ cs fun m => ∀ ℓ d, LeafIn L m ℓ d → NormalShareable d) ↔
      ∀ c ∈ cs, mtType c.attrs ≠ mtNormalWt := by
  constructor
  · intro h c hc hwt
    exact not_normalShareable_of_wt h0 (by omega) (fun c hc => (hcs c hc).1) hpool hc hwt h
  · intro h
    refine throughout_leaves (A := fun attrs => (mtType attrs).toNat ≤ 5 ∧
        mtType attrs ≠ mtNormalWt) h0 (by omega)
      (fun c hc => ⟨(hcs c hc).1, (hcs c hc).2, h c hc⟩) hpool fun attrs d hA hd => ?_
    exact (normalShareable_iff hA.1 hd).2 hA.2

/-- No call of the sample run asks for the write-through type. -/
theorem normal_shareable_sample :
    Throughout sampleLayout bootMachine sampleCalls fun m =>
      ∀ ℓ d, LeafIn sampleLayout m ℓ d → NormalShareable d :=
  (normal_shareable_iff sampleLayout bootMachine sampleCalls (zeroed_bootMachine _) (by decide)
    (poolLasts_sampleCalls _)).2 (by decide)

/-- A write-through page is mapped non-shareable. -/
theorem write_through_not_shareable :
    (Call.Dom (2 ^ 32) (2 ^ 48) ⟨0, 0, 0x1000, 5⟩ ∧ mtType 5 = mtNormalWt) ∧
      PoolLasts sampleLayout bootMachine [⟨0, 0, 0x1000, 5⟩] ∧
      ¬ Throughout sampleLayout bootMachine [⟨0, 0, 0x1000, 5⟩] fun m =>
        ∀ ℓ d, LeafIn sampleLayout m ℓ d → NormalShareable d := by
  have hcs : ∀ c ∈ [(⟨0, 0, 0x1000, 5⟩ : Call)], c.Dom (2 ^ 32) (2 ^ 48) := by decide
  have h0 := zeroed_bootMachine sampleLayout
  have hpool := poolLasts_of_length rfl (Wf.of_zeroed h0 anyLeaf) (fine_of_dom (by omega) hcs)
    (by simp)
  exact ⟨by decide, hpool, not_normalShareable_of_wt h0 (by omega) hcs hpool
    (List.mem_singleton_self _) rfl⟩

end Arm64Mmu
