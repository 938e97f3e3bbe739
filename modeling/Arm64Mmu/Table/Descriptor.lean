import Mathlib.Tactic.IntervalCases
import Arm64Mmu.Model.Walk

/-!
# Fields of the descriptors

What the bits of the descriptors that `mmu.c` assembles are: the type bits, the address field,
and the flags.  A block descriptor is its physical address or-ed with a word of flags that
depends on the attributes through five bits only (`blockDesc_eq_flagWord`), so that a fact about
the flags is checked by going through their values.
-/

namespace Arm64Mmu

open Lib.Bits

/-! ### The address field and the type -/

lemma addrField_or (s : ℕ) (d e : U64) :
    addrField s (d ||| e) = addrField s d ||| addrField s e := by
  rw [addrField, BitVec.toNat_or, field_or]
  rfl

lemma descTable_eq (d : U64) : descTable d = addrField 12 d := by
  rw [descTable, BitVec.toNat_and]
  exact and_mask 48 12 d.toNat

lemma and_three_toNat (d : U64) : (d &&& 3).toNat = d.toNat % 4 := by
  rw [BitVec.toNat_and]
  exact Nat.and_two_pow_sub_one_eq_mod d.toNat 2

lemma and_three_eq_zero {d : U64} (h : d.toNat % 4096 = 0) : d &&& 3 = 0 := by
  apply BitVec.eq_of_toNat_eq
  rw [and_three_toNat]
  show d.toNat % 4 = 0
  omega

/-- The word that `set_pte_table_desc` stores. -/
abbrev tableDesc (p : ℕ) : U64 := pteTableDesc ||| BitVec.ofNat 64 p

lemma toNat_ofNat_ptr {p : ℕ} (hlt : p < 2 ^ 48) : (BitVec.ofNat 64 p).toNat = p := by
  rw [BitVec.toNat_ofNat]
  omega

lemma tableDesc_type {p : ℕ} (hp : p % 4096 = 0) (hlt : p < 2 ^ 48) :
    tableDesc p &&& 3 = 3 := by
  have h : BitVec.ofNat 64 p &&& 3 = 0 :=
    and_three_eq_zero (by rwa [toNat_ofNat_ptr hlt])
  rw [tableDesc, BitVec.and_or_distrib_right, h]
  decide

lemma descTable_tableDesc {p : ℕ} (hp : p % 4096 = 0) (hlt : p < 2 ^ 48) :
    descTable (tableDesc p) = p := by
  rw [descTable_eq, tableDesc, addrField_or, addrField, addrField, toNat_ofNat_ptr hlt,
    field_eq_self hp hlt, field_eq_zero (by decide), Nat.zero_or]

/-! ### The flags of a block descriptor -/

/-- The flags that go with a memory type, the bits `MT_RW` and `MT_NS`, and a page or a
block. -/
def flagWord (ty : BitVec 3) (rw ns page : Bool) : U64 :=
  blockDesc 0 (ty.setWidth 32 ||| (if rw then mtRw else 0) ||| if ns then mtNs else 0)
    (if page then 3 else 1)

lemma and_flag_ne_zero (attrs : U32) (i : ℕ) (hi : i < 32) :
    attrs &&& (1#32 <<< i) ≠ 0 ↔ attrs.getLsbD i = true := by
  rw [← BitVec.twoPow_eq, BitVec.and_twoPow]
  by_cases h : attrs.getLsbD i = true
  · simp only [h, if_true, iff_true]
    intro h0
    have := congrArg BitVec.toNat h0
    rw [BitVec.toNat_twoPow, Nat.mod_eq_of_lt (Nat.pow_lt_pow_right (by decide) hi)] at this
    exact (Nat.two_pow_pos i).ne' this
  · simp [h]

/-- What `set_pte_block_desc` reads of the attributes. -/
lemma blockDesc_congr {addrPa : U64} {attrs attrs' level level' : U32}
    (ht : mtType attrs = mtType attrs') (hrw : attrs.getLsbD 3 = attrs'.getLsbD 3)
    (hns : attrs.getLsbD 4 = attrs'.getLsbD 4) (hl : level = 3 ↔ level' = 3) :
    blockDesc addrPa attrs level = blockDesc addrPa attrs' level' := by
  have h3 := and_flag_ne_zero attrs 3 (by omega)
  have h3' := and_flag_ne_zero attrs' 3 (by omega)
  have h4 := and_flag_ne_zero attrs 4 (by omega)
  have h4' := and_flag_ne_zero attrs' 4 (by omega)
  rw [hrw, ← h3'] at h3
  rw [hns, ← h4'] at h4
  have e1 : (if level = 3 then ptePageDesc else pteBlockDesc) =
      if level' = 3 then ptePageDesc else pteBlockDesc := if_congr hl rfl rfl
  have e2 : (if attrs &&& mtNs ≠ 0 then pteBlockDescNs else 0) =
      if attrs' &&& mtNs ≠ 0 then pteBlockDescNs else 0 := if_congr h4 rfl rfl
  have e3 : (if attrs &&& mtRw ≠ 0 then pteBlockDescApRw else pteBlockDescApRo) =
      if attrs' &&& mtRw ≠ 0 then pteBlockDescApRw else pteBlockDescApRo := if_congr h3 rfl rfl
  simp only [blockDesc, e1, e2, e3, ht]

lemma mtType_eq (attrs : U32) : mtType attrs = (attrs.setWidth 3).setWidth 32 := by
  apply BitVec.eq_of_toNat_eq
  rw [mtType, mtTypeMask, BitVec.toNat_and, BitVec.toNat_setWidth, BitVec.toNat_setWidth]
  have h : attrs.toNat &&& (7 : U32).toNat = attrs.toNat % 2 ^ 3 :=
    Nat.and_two_pow_sub_one_eq_mod attrs.toNat 3
  rw [h]
  omega

lemma blockDesc_zero_or (addrPa : U64) (attrs level : U32) :
    blockDesc addrPa attrs level = addrPa ||| blockDesc 0 attrs level := by
  have h0 : ∀ d : U64, 0 ||| d = d := fun d => BitVec.zero_or
  simp only [blockDesc]
  split_ifs <;> simp only [h0, BitVec.or_assoc]

/-- A block descriptor is its address and its flags. -/
theorem blockDesc_eq_flagWord (addrPa : U64) (attrs level : U32) :
    blockDesc addrPa attrs level =
      addrPa ||| flagWord (attrs.setWidth 3) (attrs.getLsbD 3) (attrs.getLsbD 4) (level = 3) := by
  rw [blockDesc_zero_or]
  congr 1
  have hfin : ∀ (ty : BitVec 3) (rw ns : Bool),
      let w : U32 := ty.setWidth 32 ||| (if rw then mtRw else 0) ||| if ns then mtNs else 0
      mtType w = ty.setWidth 32 ∧ w.getLsbD 3 = rw ∧ w.getLsbD 4 = ns := by decide
  obtain ⟨h1, h2, h3⟩ := hfin (attrs.setWidth 3) (attrs.getLsbD 3) (attrs.getLsbD 4)
  rw [flagWord]
  refine blockDesc_congr ?_ h2.symm h3.symm ?_
  · rw [h1, mtType_eq]
  · by_cases h : level = 3 <;> simp [h]

lemma flagWord_addrField :
    ∀ ty rw ns page, addrField 12 (flagWord ty rw ns page) = 0 := by decide

lemma flagWord_type :
    ∀ ty rw ns page, flagWord ty rw ns page &&& 3 = if page then 3 else 1 := by decide

/-- The attribute fields that `set_pte_block_desc` computes from `attrs`. -/
def attrWord (attrs : U32) : U64 := blockDesc 0 attrs 3 &&& descAttrsMask

/-- A number with bits at `[47:12]` only has no attribute bits. -/
lemma ofNat_and_attrs {n : ℕ} (h : n % 4096 = 0) (hlt : n < 2 ^ 48) :
    BitVec.ofNat 64 n &&& descAttrsMask = 0 := by
  have hmask : descAttrsMask.toNat = (2 ^ (64 - 51) - 1) * 2 ^ 51 ||| (2 ^ (12 - 2) - 1) * 2 ^ 2 :=
    by decide
  have h' : n % 2 ^ 12 = 0 := h
  apply BitVec.eq_of_toNat_eq
  rw [BitVec.toNat_and, toNat_ofNat_ptr hlt, hmask, Nat.and_or_distrib_left, and_mask, and_mask,
    field_eq_zero (by omega), Nat.zero_or, field, h']
  rfl

lemma blockDesc_attrs {addrPa : U64} (h : addrPa.toNat % 4096 = 0)
    (hlt : addrPa.toNat < 2 ^ 48) (attrs level : U32) :
    blockDesc addrPa attrs level &&& descAttrsMask = attrWord attrs := by
  have hfin : ∀ ty rw ns page page',
      flagWord ty rw ns page &&& descAttrsMask = flagWord ty rw ns page' &&& descAttrsMask := by
    decide
  have h0 : addrPa &&& descAttrsMask = 0 := by
    have := ofNat_and_attrs h hlt
    rwa [BitVec.ofNat_toNat, BitVec.setWidth_eq] at this
  rw [attrWord, blockDesc_eq_flagWord addrPa, blockDesc_eq_flagWord 0,
    BitVec.and_or_distrib_right, BitVec.and_or_distrib_right, h0, hfin]
  rfl

lemma blockDesc_type {addrPa : U64} (h : addrPa.toNat % 4096 = 0) (attrs level : U32) :
    blockDesc addrPa attrs level &&& 3 = if level = 3 then 3 else 1 := by
  rw [blockDesc_eq_flagWord, BitVec.and_or_distrib_right, and_three_eq_zero h, flagWord_type]
  by_cases hl : level = 3 <;> simp [hl]

/-- Bit 1 of the address makes a block look like a table descriptor. -/
lemma blockDesc_block_type {addrPa : U64} {level : U32} (hl : level ≠ 3) (attrs : U32) :
    blockDesc addrPa attrs level &&& 3 = if addrPa.getLsbD 1 then 3 else 1 := by
  have hbit : addrPa.getLsbD 1 = decide (addrPa.toNat / 2 % 2 = 1) :=
    Nat.testBit_eq_decide_div_mod_eq ..
  have hmod : addrPa &&& 3 = BitVec.ofNat 64 (addrPa.toNat % 4) :=
    BitVec.eq_of_toNat_eq (by rw [and_three_toNat, BitVec.toNat_ofNat]; omega)
  rw [blockDesc_eq_flagWord, BitVec.and_or_distrib_right, flagWord_type, if_neg (by simpa using hl),
    hmod, hbit]
  obtain h | h | h | h : addrPa.toNat % 4 = 0 ∨ addrPa.toNat % 4 = 1 ∨ addrPa.toNat % 4 = 2 ∨
      addrPa.toNat % 4 = 3 := by omega
  · rw [h, if_neg (by rw [decide_eq_true_iff]; omega)]
    rfl
  · rw [h, if_neg (by rw [decide_eq_true_iff]; omega)]
    rfl
  · rw [h, if_pos (by rw [decide_eq_true_iff]; omega)]
    rfl
  · rw [h, if_pos (by rw [decide_eq_true_iff]; omega)]
    rfl

/-- At level 3 the type does not depend on the address. -/
lemma blockDesc_page_type (addrPa : U64) (attrs : U32) : blockDesc addrPa attrs 3 &&& 3 = 3 := by
  rw [blockDesc_eq_flagWord, BitVec.and_or_distrib_right, flagWord_type, if_pos (by decide)]
  ext i
  simp only [BitVec.getElem_or, BitVec.getElem_and]
  cases (3 : U64)[i] <;> simp

/-- What `set_pte_block_desc` writes has the access flag, what `set_pte_table_desc` writes has
not. -/
lemma blockDesc_ne_tableDesc {p : ℕ} (hp : p % 4096 = 0) (addrPa : U64) (attrs level : U32) :
    blockDesc addrPa attrs level ≠ tableDesc p := by
  have hflag : ∀ ty rw ns page, (flagWord ty rw ns page).getLsbD 10 = true := by decide
  intro h
  have hbit := congrArg (fun d : U64 => d.getLsbD 10) h
  simp only [blockDesc_eq_flagWord, BitVec.getLsbD_or, hflag, Bool.or_true, tableDesc,
    BitVec.getLsbD_ofNat, Nat.testBit_eq_decide_div_mod_eq] at hbit
  have hp10 : p / 2 ^ 10 % 2 ≠ 1 := by omega
  exact hp10 (by simpa [pteTableDesc] using hbit)

lemma blockDesc_addrField {addrPa : U64} (h : addrPa.toNat % 4096 = 0)
    (hlt : addrPa.toNat < 2 ^ 48) (attrs level : U32) :
    addrField 12 (blockDesc addrPa attrs level) = addrPa.toNat := by
  rw [blockDesc_eq_flagWord, addrField_or, flagWord_addrField, Nat.or_zero, addrField,
    field_eq_self h hlt]

/-! ### The pieces of a block -/

/-- The size of what an entry of level `ℓ` maps: 1 GiB, 2 MiB, 4 KiB. -/
def gran (ℓ : ℕ) : ℕ := 2 ^ (39 - 9 * ℓ)

/-- The entry at index `i` when a block is split into a table of level `ℓ`. -/
def splitPiece (ℓ i : ℕ) (d : U64) : U64 :=
  d ||| BitVec.ofNat 64 (i * gran ℓ) ||| if ℓ = 3 then ptePageDesc else 0

lemma mul_gran_bounds {ℓ i : ℕ} (h2 : 2 ≤ ℓ) (h3 : ℓ ≤ 3) (hi : i < 512) :
    i * gran ℓ % 4096 = 0 ∧ i * gran ℓ < 2 ^ 30 := by
  obtain rfl | rfl : ℓ = 2 ∨ ℓ = 3 := by omega
  all_goals simp only [gran]; omega

/-- The entry that `split_pte_block_desc` computes is the piece. -/
lemma splitPiece_eq {ℓ i : ℕ} (h2 : 2 ≤ ℓ) (h3 : ℓ ≤ 3) (hi : i < 512) (d : U64) :
    splitPiece ℓ i d =
      (d ||| (BitVec.ofNat 32 i <<< levelToVaSizeShift (BitVec.ofNat 32 ℓ)).setWidth 64) |||
        if ℓ = 3 then ptePageDesc else 0 := by
  have h : (BitVec.ofNat 32 i <<< levelToVaSizeShift (BitVec.ofNat 32 ℓ)).setWidth 64 =
      BitVec.ofNat 64 (i * gran ℓ) := by
    obtain ⟨-, hlt⟩ := mul_gran_bounds h2 h3 hi
    have hs : (levelToVaSizeShift (BitVec.ofNat 32 ℓ)).toNat = 39 - 9 * ℓ := by
      obtain rfl | rfl : ℓ = 2 ∨ ℓ = 3 := by omega
      all_goals decide
    apply BitVec.eq_of_toNat_eq
    rw [BitVec.toNat_setWidth, BitVec.shiftLeft_eq', hs, BitVec.toNat_shiftLeft,
      BitVec.toNat_ofNat, BitVec.toNat_ofNat, Nat.shiftLeft_eq]
    have he : i % 2 ^ 32 * 2 ^ (39 - 9 * ℓ) = i * gran ℓ := by
      rw [Nat.mod_eq_of_lt (by omega), gran]
    rw [he]
    omega
  rw [splitPiece, h]

lemma splitPiece_type {ℓ i : ℕ} (h2 : 2 ≤ ℓ) (h3 : ℓ ≤ 3) (hi : i < 512) {d : U64}
    (hd : d &&& 3 = 1) : splitPiece ℓ i d &&& 3 = if ℓ = 3 then 3 else 1 := by
  obtain ⟨hm, hlt⟩ := mul_gran_bounds h2 h3 hi
  have h0 : BitVec.ofNat 64 (i * gran ℓ) &&& 3 = 0 :=
    and_three_eq_zero (by rwa [toNat_ofNat_ptr (by omega)])
  rw [splitPiece, BitVec.and_or_distrib_right, BitVec.and_or_distrib_right, hd, h0]
  split_ifs <;> decide

lemma splitPiece_attrs {ℓ i : ℕ} (h2 : 2 ≤ ℓ) (h3 : ℓ ≤ 3) (hi : i < 512) (d : U64) :
    splitPiece ℓ i d &&& descAttrsMask = d &&& descAttrsMask := by
  obtain ⟨hm, hlt⟩ := mul_gran_bounds h2 h3 hi
  have h1 : (if ℓ = 3 then ptePageDesc else 0) &&& descAttrsMask = 0 := by
    split_ifs <;> decide
  have h0 : ∀ e : U64, e ||| 0 = e := fun e => BitVec.or_zero
  rw [splitPiece, BitVec.and_or_distrib_right, BitVec.and_or_distrib_right,
    ofNat_and_attrs hm (by omega), h1, h0, h0]

lemma splitPiece_addrField {ℓ i : ℕ} (h2 : 2 ≤ ℓ) (h3 : ℓ ≤ 3) (hi : i < 512) (d : U64) :
    addrField 12 (splitPiece ℓ i d) = addrField 12 d ||| i * gran ℓ := by
  obtain ⟨hm, hlt⟩ := mul_gran_bounds h2 h3 hi
  have h1 : addrField 12 (if ℓ = 3 then ptePageDesc else 0) = 0 := by
    split_ifs <;> decide
  have h4 : addrField 12 (BitVec.ofNat 64 (i * gran ℓ)) = i * gran ℓ := by
    rw [addrField, toNat_ofNat_ptr (by omega), field_eq_self hm (by omega)]
  rw [splitPiece, addrField_or, addrField_or, h1, h4, Nat.or_zero]

end Arm64Mmu
