import Arm64Mmu.Table.Stores

/-!
# Splitting a block

`split_pte_block_desc` keeps every translation, whatever the attribute bits of the block are.
Nothing is asked of the tables but that the next table of the pool is inside the pool and that
no entry of the base table points to it: the tables on the way to the block are then pages apart
from the new one, and the entry of the block, which has another type than the entries on the way,
is none of them.
-/

namespace Arm64Mmu

open Lib Lib.Radix

variable {L : Layout} {m : Machine} {mem : Mem} {pte p q ℓ i j : ℕ} {va : Va}

/-! ### The words after a split -/

/-- Entries of different pages are different. -/
lemma page_off (hp : p % 4096 = 0) (hq : q % 4096 = 0) (hne : p ≠ q) (hi : i < 512)
    (hj : j < 512) : p + 8 * i ≠ q + 8 * j := by omega

lemma descTable_aligned (d : U64) : descTable d % 4096 = 0 := by
  rw [descTable_eq]
  exact Nat.mul_mod_left _ _

/-- The entry points to the new table. -/
lemma split_mem_self (h1 : 1 ≤ ℓ) (h2 : ℓ ≤ 2) :
    (splitPteBlockDesc L m pte (BitVec.ofNat 32 ℓ)).mem pte =
      tableDesc (L.xlatTable m.tableIdx) := by
  obtain ⟨m₁, -, heq⟩ := splitPteBlockDesc_spec L m pte h1 h2 rfl
  rw [heq]
  exact Function.update_self ..

/-- The new table holds the pieces of the block. -/
lemma split_mem_new (h1 : 1 ≤ ℓ) (h2 : ℓ ≤ 2) (hj : j < 512)
    (hne : L.xlatTable m.tableIdx + 8 * j ≠ pte) :
    (splitPteBlockDesc L m pte (BitVec.ofNat 32 ℓ)).mem (L.xlatTable m.tableIdx + 8 * j) =
      splitPiece (ℓ + 1) j (m.mem pte) := by
  obtain ⟨m₁, hfill, heq⟩ := splitPteBlockDesc_spec L m pte h1 h2 rfl
  rw [heq, ← hfill.mem_new j hj]
  exact Function.update_of_ne hne _ _

/-- Every other word stays. -/
lemma split_mem_other (h1 : 1 ≤ ℓ) (h2 : ℓ ≤ 2) (hne : p ≠ pte)
    (hnew : ∀ j < 512, p ≠ L.xlatTable m.tableIdx + 8 * j) :
    (splitPteBlockDesc L m pte (BitVec.ofNat 32 ℓ)).mem p = m.mem p := by
  obtain ⟨m₁, hfill, heq⟩ := splitPteBlockDesc_spec L m pte h1 h2 rfl
  rw [heq]
  refine (Function.update_of_ne hne _ _).trans ?_
  exact hfill.mem_other p hnew

/-! ### The entries after a split -/

/-- The next table of the pool is inside the pool, and no entry of the base table points to
it. -/
structure NextFree (L : Layout) (m : Machine) : Prop where
  lt : m.tableIdx < configMaxXlatTables
  base : ∀ i < numBaseLevelEntries, m.mem (Table.base.slot L i) &&& 3 = 3 →
    descTable (m.mem (Table.base.slot L i)) ≠ L.xlatTable m.tableIdx

lemma NextFree.ne_base (h : NextFree L m) : L.baseXlatTable ≠ L.xlatTable m.tableIdx := by
  intro he
  have := addr_inj (L := L) (T := .base) (U := .pool m.tableIdx) trivial h.lt he
  exact absurd this (by simp)

/-- The table that holds the entry of an address is a page apart from the next one, and is still
reached after a split of the entry. -/
lemma NextFree.path (h : NextFree L m) (h1 : 1 ≤ ℓ) (h2 : ℓ ≤ 2)
    (hv : view L m.mem (ℓ - 1) va = .table p) (htype : m.mem (p + 8 * vaIdx ℓ va) &&& 3 = 1) :
    p % 4096 = 0 ∧ p ≠ L.xlatTable m.tableIdx ∧
      view L (splitPteBlockDesc L m (p + 8 * vaIdx ℓ va) (BitVec.ofNat 32 ℓ)).mem (ℓ - 1) va =
        .table p := by
  obtain rfl | rfl : ℓ = 1 ∨ ℓ = 2 := by omega
  · obtain rfl : L.baseXlatTable = p := by simpa using hv
    exact ⟨L.base_aligned, h.ne_base, rfl⟩
  · have hv : view L m.mem 1 va = .table p := hv
    rw [view_of_table (view_zero ..)] at hv
    obtain ⟨-, h3, hp⟩ := classify_table hv
    have hlt := vaIdx_one_lt va
    -- the word on the way has another type than the block
    have hne : L.baseXlatTable + 8 * vaIdx 1 va ≠ p + 8 * vaIdx 2 va := by
      intro he
      rw [he, htype] at h3
      exact absurd h3 (by simp)
    have hsame := split_mem_other (L := L) (m := m) h1 h2 hne fun j hj =>
      page_off L.base_aligned (xlatTable_aligned L _) h.ne_base (hlt.trans (by omega)) hj
    refine ⟨hp ▸ descTable_aligned _, hp ▸ h.base _ hlt h3, ?_⟩
    show view L _ 1 va = _
    rw [view_of_table (view_zero ..), hsame]
    exact hv

/-- Below the split entry every address has the entries that it had. -/
lemma NextFree.view_split (h : NextFree L m) (h1 : 1 ≤ ℓ) (h2 : ℓ ≤ 2)
    (hv : view L m.mem (ℓ - 1) va = .table p) (htype : m.mem (p + 8 * vaIdx ℓ va) &&& 3 = 1) :
    let m' := splitPteBlockDesc L m (p + 8 * vaIdx ℓ va) (BitVec.ofNat 32 ℓ)
    let d := m.mem (p + 8 * vaIdx ℓ va)
    view L m.mem ℓ va = .leaf d ∧ view L m'.mem (ℓ - 1) va = .table p ∧
      view L m'.mem ℓ va = .table (L.xlatTable m.tableIdx) ∧
      view L m'.mem (ℓ + 1) va = .leaf (splitPiece (ℓ + 1) (vaIdx (ℓ + 1) va) d) := by
  intro m' d
  obtain ⟨hp, hne, hpath⟩ := h.path h1 h2 hv htype
  obtain ⟨k, rfl⟩ : ∃ k, ℓ = k + 1 := ⟨ℓ - 1, by omega⟩
  rw [Nat.add_sub_cancel] at hv hpath ⊢
  have hleaf : view L m.mem (k + 1) va = .leaf d := by
    rw [view_of_table hv]
    refine classify_of_isLeaf (by omega) ?_
    rw [IsLeaf, if_neg (by omega)]
    exact htype
  have htable : view L m'.mem (k + 1) va = .table (L.xlatTable m.tableIdx) := by
    rw [view_of_table hpath, split_mem_self h1 h2, classify, if_pos (xlatDesc_type h.lt),
      if_neg (by omega), descTable_xlatDesc h.lt]
  refine ⟨hleaf, hpath, htable, ?_⟩
  rw [view_of_table htable, split_mem_new h1 h2 (vaIdx_lt _ va)
    (page_off (xlatTable_aligned L _) hp hne.symm (vaIdx_lt _ va) (vaIdx_lt _ va))]
  exact classify_of_isLeaf (by omega) (splitPiece_type (by omega) (by omega) (vaIdx_lt _ va) htype)

/-- The walk stops at the first leaf below tables. -/
lemma walk_of_leaf (r : SysRegs) (hva : (va : ℕ) < 2 ^ 32) {d : U64} (h1 : 1 ≤ ℓ) (h2 : ℓ ≤ 2)
    (hup : view L mem (ℓ - 1) va = .table p) (hv : view L mem ℓ va = .table q)
    (hd : view L mem (ℓ + 1) va = .leaf d) :
    ∃ l, walk (enableMmu L r) mem va = some l ∧ l.level = ℓ + 1 ∧ l.desc = d := by
  rw [walk_eq r hva]
  obtain rfl | rfl : ℓ = 1 ∨ ℓ = 2 := by omega
  · simp only [hv, hd]
    exact ⟨_, rfl, rfl, rfl⟩
  · simp only [show view L mem 1 va = .table p from hup, hv, hd]
    exact ⟨_, rfl, rfl, rfl⟩

/-- If the first leaf on a path is aligned, so are its pieces. -/
lemma aligned_of_leaf {d : U64} (h1 : 1 ≤ ℓ) (h3 : ℓ ≤ 3) (hup : view L mem (ℓ - 1) va = .table p)
    (hd : view L mem ℓ va = .leaf d) (h : addrField 12 d % gran ℓ = 0) : Aligned L mem va := by
  intro j e hj1 hj2 he
  by_cases hj : ℓ ≤ j
  · have hview := Scheme.lookup_of_leaf hd hj
    obtain rfl : (scheme L).refine ℓ d va j = e := by
      rw [view, hview] at he
      simpa using he
    exact (refine_addrField L va h1 hj (by omega) h).2
  · obtain ⟨q, hq⟩ := Scheme.exists_table_of_le hup (show j ≤ ℓ - 1 by omega)
    rw [view, hq] at he
    simp at he

/-- A split keeps the translation of the addresses of an aligned block. -/
lemma NextFree.translate_split (h : NextFree L m) (h1 : 1 ≤ ℓ) (h2 : ℓ ≤ 2)
    (hv : view L m.mem (ℓ - 1) va = .table p) (htype : m.mem (p + 8 * vaIdx ℓ va) &&& 3 = 1)
    (haddr : addrField 12 (m.mem (p + 8 * vaIdx ℓ va)) % gran ℓ = 0) (r : SysRegs)
    (hva : (va : ℕ) < 2 ^ 32) :
    translate (enableMmu L r)
        (splitPteBlockDesc L m (p + 8 * vaIdx ℓ va) (BitVec.ofNat 32 ℓ)).mem va =
      translate (enableMmu L r) m.mem va := by
  obtain ⟨hleaf, -, htable, hpiece⟩ := h.view_split h1 h2 hv htype
  obtain ⟨-, hpieceAddr⟩ := splitPiece_aligned h1 h2 (vaIdx_lt (ℓ + 1) va) haddr
  have hal : Aligned L m.mem va := aligned_of_leaf h1 (by omega) hv hleaf haddr
  have hal' : Aligned L (splitPteBlockDesc L m (p + 8 * vaIdx ℓ va) (BitVec.ofNat 32 ℓ)).mem va :=
    aligned_of_leaf (Nat.succ_pos ℓ) (by omega) htable hpiece hpieceAddr
  have hview := Scheme.lookup_of_leaf (view_of_leaf hleaf) (show ℓ + 1 ≤ 3 by omega)
  have hview' := Scheme.lookup_of_leaf hpiece (show ℓ + 1 ≤ 3 by omega)
  rw [translate_eq r hva hal', translate_eq r hva hal]
  exact congrArg _ (hview'.trans hview.symm)

/-- After a split the walk goes on to a leaf of the next level. -/
lemma NextFree.walk_split (h : NextFree L m) (h1 : 1 ≤ ℓ) (h2 : ℓ ≤ 2)
    (hv : view L m.mem (ℓ - 1) va = .table p) (htype : m.mem (p + 8 * vaIdx ℓ va) &&& 3 = 1)
    (r : SysRegs) (hva : (va : ℕ) < 2 ^ 32) :
    ∃ l, walk (enableMmu L r)
        (splitPteBlockDesc L m (p + 8 * vaIdx ℓ va) (BitVec.ofNat 32 ℓ)).mem va = some l ∧
      l.level = ℓ + 1 ∧ IsLeaf (ℓ + 1) l.desc := by
  obtain ⟨-, hpath, htable, hpiece⟩ := h.view_split h1 h2 hv htype
  obtain ⟨l, hl, hlevel, hdesc⟩ := walk_of_leaf r hva h1 h2 hpath htable hpiece
  refine ⟨l, hl, hlevel, ?_⟩
  rw [hdesc]
  exact splitPiece_type (by omega) (by omega) (vaIdx_lt _ va) htype

/-- After `split_pte_block_desc` on an entry that holds an aligned block, every address that uses
the entry has the physical address and the attributes that it had, from a leaf of the next level,
and no word but the entry and those of the new table has changed. -/
theorem split_preserves (L : Layout) (m : Machine) (ℓ pte : ℕ) (h1 : 1 ≤ ℓ) (h2 : ℓ ≤ 2)
    (htype : m.mem pte &&& 3 = 1) (haddr : addrField 12 (m.mem pte) % gran ℓ = 0)
    (hnext : NextFree L m) :
    let m' := splitPteBlockDesc L m pte (BitVec.ofNat 32 ℓ)
    (∀ (r : SysRegs) (va : ℕ), va < 2 ^ 36 →
      calculatePteIndex L m.mem (BitVec.ofNat 64 va) (BitVec.ofNat 32 ℓ) = some pte →
      translate (enableMmu L r) m'.mem va = translate (enableMmu L r) m.mem va ∧
      (va < 2 ^ 32 → ∃ l, walk (enableMmu L r) m'.mem va = some l ∧ l.level = ℓ + 1 ∧
        IsLeaf (ℓ + 1) l.desc)) ∧
    ∀ p, p ≠ pte → (∀ j < xlatTableEntries, p ≠ (Table.pool m.tableIdx).slot L j) →
      m'.mem p = m.mem p := by
  intro m'
  refine ⟨fun r x hx hpte => ?_, fun p hp hnew => split_mem_other h1 h2 hp hnew⟩
  obtain ⟨va, rfl⟩ : ∃ va : Va, (va : ℕ) = x := ⟨⟨x, hx⟩, rfl⟩
  obtain ⟨p, hv, rfl⟩ := (calculatePteIndex_eq_some (va_toNat va) h1 (by omega)).1 hpte
  by_cases hva : (va : ℕ) < 2 ^ 32
  · exact ⟨hnext.translate_split h1 h2 hv htype haddr r hva,
      hnext.walk_split h1 h2 hv htype r⟩
  · have hle : 2 ^ 32 ≤ (va : ℕ) := Nat.le_of_not_lt hva
    exact ⟨by rw [translate, translate, walk_of_le r hle, walk_of_le r hle], fun h => absurd h hva⟩

/-- A machine with a block of 1 GiB that has all attribute bits set. -/
def blockMachine : Machine := ⟨Function.update (fun _ => 0) 0x80000 0xfff8000040000ffd, 0, []⟩

/-- Splitting it keeps the translation of an address in the block. -/
theorem split_preserves_sample :
    let m := splitPteBlockDesc sampleLayout blockMachine 0x80000 1
    translate (enableMmu sampleLayout ⟨0, 0, 0, 0⟩) m.mem 0x12345678 =
      translate (enableMmu sampleLayout ⟨0, 0, 0, 0⟩) blockMachine.mem 0x12345678 := by
  have hnext : NextFree sampleLayout blockMachine := by
    refine ⟨by decide, fun i hi h3 => ?_⟩
    have hlt : i < 64 := hi
    have h0 : blockMachine.mem (Table.base.slot sampleLayout i) &&& 3 ≠ 3 := by
      simp only [blockMachine, Table.slot, Table.addr, sampleLayout]
      by_cases h : i = 0
      · subst h
        decide
      · rw [Function.update_of_ne (by omega)]
        decide
    exact absurd h3 h0
  exact ((split_preserves sampleLayout blockMachine 1 0x80000 le_rfl (by omega) (by decide)
    (by decide) hnext).1 ⟨0, 0, 0, 0⟩ 0x12345678 (by omega) (by decide)).1

end Arm64Mmu
