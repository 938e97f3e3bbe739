import Arm64Mmu.Lib.Sweep
import Arm64Mmu.Table.Slot

/-!
# The tables as a multi-level table

The abstraction function from memory: `view L mem ℓ va` is the entry of the address `va` at
level `ℓ`, continued below blocks by the pieces into which `split_pte_block_desc` would split
them.  `calculate_pte_index` finds the slot of that entry (`calculatePteIndex_eq`), and the
hardware walk reads it: it stops at the first level whose entry is not a table (`walk_eq`), and
if the blocks are aligned it yields what the level-3 entry says (`translate_eq`).
-/

namespace Arm64Mmu

open Lib Lib.Bits Lib.Radix Lib.Sweep

/-- The addresses that the 64 entries of `base_xlat_table` translate. -/
abbrev Va := Fin (2 ^ 36)

/-- The index of an address in a table of level `ℓ`. -/
def vaIdx (ℓ : ℕ) (va : Va) : ℕ := va / gran ℓ % 512

/-- What a word means in a table of level `ℓ`. -/
def classify (ℓ : ℕ) (d : U64) : Entry ℕ U64 :=
  if d &&& 3 = 3 then (if ℓ = 3 then .leaf d else .table (descTable d))
  else if d &&& 3 = 1 ∧ ℓ < 3 then .leaf d
  else .invalid

/-- The tables as a multi-level table whose nodes are the addresses of tables. -/
def scheme (L : Layout) : Scheme Va ℕ ℕ U64 where
  root := L.baseXlatTable
  idx := vaIdx
  split := splitPiece

/-- The contents of the tables. -/
def tablesOf (mem : Mem) : Tables ℕ ℕ U64 := fun ℓ p i => classify ℓ (mem (p + 8 * i))

/-- The entry of an address at a level. -/
def view (L : Layout) (mem : Mem) : View Va ℕ U64 := (scheme L).lookup (tablesOf mem)

variable {L : Layout} {mem : Mem} {va : Va} {ℓ : ℕ}

/-! ### Spans -/

lemma gran_pos (ℓ : ℕ) : 0 < gran ℓ := Nat.two_pow_pos _

lemma gran_nested : Greedy.Nested gran where
  pos := gran_pos
  dvd := by
    intro ℓ ℓ' h
    exact Nat.pow_dvd_pow 2 (by omega)

lemma same_iff (h3 : ℓ ≤ 3) {va va' : Va} :
    (scheme L).Same ℓ va va' ↔ (va : ℕ) / gran ℓ = va' / gran ℓ := by
  have hva := va.isLt
  have hva' := va'.isLt
  constructor
  · intro h
    have h' : ∀ j, 0 < j → j ≤ ℓ → (va : ℕ) / gran j % 512 = va' / gran j % 512 := h
    have h1 := h' 1
    have h2 := h' 2
    have h3' := h' 3
    simp only [gran] at *
    interval_cases ℓ <;> simp at * <;> omega
  · intro h j h1 h2
    show (va : ℕ) / gran j % 512 = va' / gran j % 512
    rw [gran_nested.div_eq_of_le h2 h]

/-- The positions of addresses and the grids of the levels. -/
lemma graded (L : Layout) : Graded (scheme L) gran (fun va => (va : ℕ)) 3 where
  nested := gran_nested
  same_iff := fun h3 => same_iff h3

/-- An address as a machine word. -/
lemma va_toNat (va : Va) : (BitVec.ofNat 64 (va : ℕ)).toNat = va := by
  have := va.isLt
  rw [BitVec.toNat_ofNat]
  omega

lemma vaIdx_lt (ℓ : ℕ) (va : Va) : vaIdx ℓ va < 512 := Nat.mod_lt _ (by decide)

/-- The addresses use the first 64 entries of the base table only. -/
lemma vaIdx_one_lt (va : Va) : vaIdx 1 va < 64 := by
  have := va.isLt
  simp only [vaIdx, gran]
  omega

/-- An address with the same path down to level `ℓ` and a given index below. -/
lemma exists_va (va : Va) {i : ℕ} (hℓ : ℓ ≤ 2) (hi : i < if ℓ = 0 then 64 else 512) :
    ∃ va', (scheme L).Same ℓ va va' ∧ vaIdx (ℓ + 1) va' = i := by
  have hva := va.isLt
  have hlt : (va : ℕ) / gran ℓ * gran ℓ + i * gran (ℓ + 1) < 2 ^ 36 := by
    interval_cases ℓ <;> simp only [gran] <;> simp at hi <;> omega
  refine ⟨⟨(va : ℕ) / gran ℓ * gran ℓ + i * gran (ℓ + 1), hlt⟩, ?_, ?_⟩
  · rw [same_iff (by omega)]
    interval_cases ℓ <;> simp only [gran] <;> simp at hi <;> omega
  · simp only [vaIdx]
    interval_cases ℓ <;> simp only [gran] <;> simp at hi <;> omega

/-! ### Entries -/

@[simp] lemma view_zero (L : Layout) (mem : Mem) (va : Va) :
    view L mem 0 va = .table L.baseXlatTable := rfl

lemma view_succ : view L mem (ℓ + 1) va =
    (scheme L).child (tablesOf mem) (ℓ + 1) va (view L mem ℓ va) := rfl

lemma view_of_table {p : ℕ} (h : view L mem ℓ va = .table p) :
    view L mem (ℓ + 1) va = classify (ℓ + 1) (mem (p + 8 * vaIdx (ℓ + 1) va)) := by
  rw [view_succ, h]
  rfl

lemma view_of_leaf {d : U64} (h : view L mem ℓ va = .leaf d) :
    view L mem (ℓ + 1) va = .leaf (splitPiece (ℓ + 1) (vaIdx (ℓ + 1) va) d) := by
  rw [view_succ, h]
  rfl

lemma view_of_invalid (h : view L mem ℓ va = .invalid) : view L mem (ℓ + 1) va = .invalid := by
  rw [view_succ, h]
  rfl

lemma view_congr {va' : Va} (h : (scheme L).Same ℓ va va') :
    view L mem ℓ va = view L mem ℓ va' := Scheme.lookup_congr h

lemma classify_table {d : U64} {p : ℕ} (h : classify ℓ d = .table p) :
    ℓ ≠ 3 ∧ d &&& 3 = 3 ∧ descTable d = p := by
  rw [classify] at h
  split_ifs at h with h1 h2
  exact ⟨h2, h1, by simpa using h⟩

lemma classify_leaf {d e : U64} (h : classify ℓ d = .leaf e) :
    e = d ∧ ((ℓ = 3 ∧ d &&& 3 = 3) ∨ (ℓ < 3 ∧ d &&& 3 = 1)) := by
  rw [classify] at h
  split_ifs at h with h1 h2 h3
  · exact ⟨by simpa using h.symm, .inl ⟨h2, h1⟩⟩
  · exact ⟨by simpa using h.symm, .inr ⟨h3.2, h3.1⟩⟩

lemma isLeaf_of_classify {d e : U64} (h : classify ℓ d = .leaf e) : e = d ∧ IsLeaf ℓ d := by
  obtain ⟨he, ⟨hl, ht⟩ | ⟨hl, ht⟩⟩ := classify_leaf h
  · exact ⟨he, by rwa [IsLeaf, if_pos hl]⟩
  · exact ⟨he, by rwa [IsLeaf, if_neg (by omega)]⟩

lemma classify_of_isLeaf {d : U64} (h3 : ℓ ≤ 3) (hd : IsLeaf ℓ d) : classify ℓ d = .leaf d := by
  rw [IsLeaf] at hd
  rw [classify]
  by_cases hl : ℓ = 3
  · rw [if_pos hl] at hd
    rw [if_pos hd, if_pos hl]
  · rw [if_neg hl] at hd
    rw [if_neg (by rw [hd]; decide), if_pos ⟨hd, by omega⟩]

/-- Above a leaf there is one that hangs below tables. -/
lemma exists_first_leaf {j : ℕ} {d : U64} (h : view L mem j va = .leaf d) :
    ∃ ℓ < j, ∃ p e, view L mem ℓ va = .table p ∧ view L mem (ℓ + 1) va = .leaf e := by
  induction j generalizing d with
  | zero => simp at h
  | succ j ih =>
      cases hv : view L mem j va with
      | invalid => simp [view_of_invalid hv] at h
      | leaf e =>
          obtain ⟨ℓ, hℓ, hleaf⟩ := ih hv
          exact ⟨ℓ, hℓ.trans (Nat.lt_succ_self j), hleaf⟩
      | table p => exact ⟨j, Nat.lt_succ_self j, p, d, hv, h⟩

/-! ### `calculate_pte_index` -/

lemma levelToVaSizeShift_toNat (h1 : 1 ≤ ℓ) (h3 : ℓ ≤ 3) :
    (levelToVaSizeShift (BitVec.ofNat 32 ℓ)).toNat = 39 - 9 * ℓ := by
  interval_cases ℓ <;> decide

lemma xlatTableVaIdx_toNat {addr : U64} (ha : addr.toNat = va) (h1 : 1 ≤ ℓ) (h3 : ℓ ≤ 3) :
    (xlatTableVaIdx addr (BitVec.ofNat 32 ℓ)).toNat = vaIdx ℓ va := by
  rw [xlatTableVaIdx, BitVec.toNat_and, BitVec.ushiftRight_eq', BitVec.toNat_ushiftRight,
    levelToVaSizeShift_toNat h1 h3, Nat.shiftRight_eq_div_pow, ha]
  exact Nat.and_two_pow_sub_one_eq_mod _ 9

lemma calculatePteIndexLoop_eq (mem : Mem) {addr : U64} (ha : addr.toNat = va) {i : ℕ} (hi : 1 ≤ i)
    (hil : i ≤ ℓ) (h3 : ℓ ≤ 3) (n : ℕ) (p : ℕ) :
    calculatePteIndexLoop mem addr (BitVec.ofNat 32 ℓ) (n + 1) (BitVec.ofNat 32 i) p =
      if i = ℓ then some (p + 8 * vaIdx i va)
      else match classify i (mem (p + 8 * vaIdx i va)) with
        | .table q =>
            calculatePteIndexLoop mem addr (BitVec.ofNat 32 ℓ) n (BitVec.ofNat 32 (i + 1)) q
        | _ => none := by
  have hne : BitVec.ofNat 32 i = BitVec.ofNat 32 ℓ ↔ i = ℓ := by
    rw [← BitVec.toNat_inj, BitVec.toNat_ofNat, BitVec.toNat_ofNat]
    omega
  rw [calculatePteIndexLoop]
  simp only [xlatTableVaIdx_toNat ha hi (hil.trans h3), hne]
  by_cases h : i = ℓ
  · rw [if_pos h, if_pos h]
  · rw [if_neg h, if_neg h, classify, pteDescType, pteDescTypeMask, pteTableDesc]
    have hi3 : i ≠ 3 := by omega
    by_cases ht : mem (p + 8 * vaIdx i va) &&& 3 = 3
    · simp only [ht, ne_eq, not_true_eq_false, if_false, if_true, hi3]
      rw [BitVec.ofNat_add]
      rfl
    · simp only [ht, ne_eq, not_false_eq_true, if_true, if_false]
      split_ifs <;> rfl

/-- `calculate_pte_index` returns the slot of the entry, if there is one. -/
theorem calculatePteIndex_eq {addr : U64} (ha : addr.toNat = va) (h1 : 1 ≤ ℓ) (h3 : ℓ ≤ 3) :
    calculatePteIndex L mem addr (BitVec.ofNat 32 ℓ) =
      match view L mem (ℓ - 1) va with
      | .table p => some (p + 8 * vaIdx ℓ va)
      | _ => none := by
  have h := fun i (hi : 1 ≤ i) (hil : i ≤ ℓ) n p =>
    calculatePteIndexLoop_eq mem ha hi hil h3 n p
  rw [calculatePteIndex]
  show calculatePteIndexLoop mem addr (BitVec.ofNat 32 ℓ) (31 + 1) (BitVec.ofNat 32 1) _ = _
  rw [h 1 le_rfl h1]
  by_cases hl1 : 1 = ℓ
  · subst hl1
    rfl
  rw [if_neg hl1]
  have hv1 : view L mem 1 va = classify 1 (mem (L.baseXlatTable + 8 * vaIdx 1 va)) :=
    view_of_table (view_zero L mem va)
  rw [← hv1]
  -- the loop goes on exactly where the view has a table
  cases e1 : view L mem 1 va with
  | invalid =>
      obtain rfl | rfl : ℓ = 2 ∨ ℓ = 3 := by omega
      · rw [e1]
      · rw [view_of_invalid e1]
  | leaf d =>
      obtain rfl | rfl : ℓ = 2 ∨ ℓ = 3 := by omega
      · rw [e1]
      · rw [view_of_leaf e1]
  | table q =>
      simp only
      rw [h 2 (by omega) (by omega)]
      by_cases hl2 : 2 = ℓ
      · subst hl2
        simp only [if_true, e1, Nat.add_one_sub_one]
      rw [if_neg hl2]
      obtain rfl : ℓ = 3 := by omega
      rw [← view_of_table e1]
      show _ = match view L mem 2 va with
        | .table p => some (p + 8 * vaIdx 3 va)
        | _ => none
      cases e2 : view L mem 2 va with
      | invalid => rfl
      | leaf d => rfl
      | table q' =>
          simp only
          rw [h 3 (by omega) le_rfl, if_pos rfl]

/-- `calculate_pte_index` returns a slot of the table that the path of the address meets. -/
lemma calculatePteIndex_eq_some {addr : U64} {pte : ℕ} (ha : addr.toNat = va) (h1 : 1 ≤ ℓ)
    (h3 : ℓ ≤ 3) : calculatePteIndex L mem addr (BitVec.ofNat 32 ℓ) = some pte ↔
      ∃ p, view L mem (ℓ - 1) va = .table p ∧ p + 8 * vaIdx ℓ va = pte := by
  rw [calculatePteIndex_eq ha h1 h3]
  cases hv : view L mem (ℓ - 1) va with
  | invalid => simp
  | leaf d => simp
  | table p => simp

/-! ### The hardware walk -/

/-- The walk that the registers of `enable_mmu` configure: 32-bit addresses, three levels. -/
lemma fetches_enableMmu (r : SysRegs) {a : ℕ} (ha : a < 2 ^ 32) :
    fetches (enableMmu L r) mem a = fetchesFrom mem a 3 L.baseXlatTable := by
  have hbase : addrField 12 (BitVec.ofNat 64 L.baseXlatTable) = L.baseXlatTable := by
    have h1 := L.base_le
    rw [addrField, toNat_ofNat_ptr (by omega), field_eq_self L.base_aligned (by omega)]
  have htcr : getTcr 2 = 0x3520 := by decide
  simp only [fetches, enableMmu, htcr, hbase]
  rw [if_neg]
  · rfl
  · simp only [not_or, not_le]
    exact ⟨by decide, ha⟩

/-- Addresses that have more bits than `TCR_EL2` allows are not looked up. -/
lemma fetches_of_le (r : SysRegs) {a : ℕ} (ha : 2 ^ 32 ≤ a) :
    fetches (enableMmu L r) mem a = [] := by
  have hbits : 64 - ((enableMmu L r).tcrEl2 &&& 0x3f).toNat = 32 := by
    show 64 - (getTcr 2 &&& 0x3f).toNat = 32
    decide
  rw [fetches, hbits]
  exact if_pos (.inr ha)

lemma walk_of_le (r : SysRegs) {a : ℕ} (ha : 2 ^ 32 ≤ a) :
    walk (enableMmu L r) mem a = none := by
  rw [walk, walkEnd, fetches_of_le r ha]
  rfl

/-- One level of the walk reads the entry. -/
lemma fetchesFrom_eq (h1 : 1 ≤ ℓ) (h3 : ℓ ≤ 3) (p : ℕ) :
    fetchesFrom mem va (3 - ℓ + 1) p = ⟨ℓ, p + 8 * vaIdx ℓ va⟩ ::
      match classify ℓ (mem (p + 8 * vaIdx ℓ va)) with
      | .table q => fetchesFrom mem va (3 - ℓ) q
      | _ => [] := by
  have hs : 12 + 9 * (3 - ℓ) = 39 - 9 * ℓ := by omega
  have hlev : 3 - (3 - ℓ) = ℓ := by omega
  have h0 : 3 - ℓ ≠ 0 ↔ ℓ ≠ 3 := by omega
  rw [fetchesFrom]
  simp only [hs, hlev, h0]
  rw [vaIdx, gran]
  congr 1
  generalize mem (p + 8 * ((va : ℕ) / 2 ^ (39 - 9 * ℓ) % 512)) = d
  rw [classify, descTable_eq]
  by_cases ht : d &&& 3 = 3
  · by_cases hl : ℓ = 3
    · simp only [hl, ht, ne_eq, not_true_eq_false, false_and, if_false, if_true]
    · simp only [hl, ht, ne_eq, not_false_eq_true, and_self, if_false, if_true]
  · rw [if_neg (fun h => ht h.2), if_neg ht]
    split_ifs <;> rfl

/-- The walk reads the entries of the address as long as those above are tables. -/
theorem fetches_eq (r : SysRegs) (hva : (va : ℕ) < 2 ^ 32) :
    fetches (enableMmu L r) mem va = ⟨1, L.baseXlatTable + 8 * vaIdx 1 va⟩ ::
      match view L mem 1 va with
      | .table p =>
          ⟨2, p + 8 * vaIdx 2 va⟩ ::
            match view L mem 2 va with
            | .table q => [⟨3, q + 8 * vaIdx 3 va⟩]
            | _ => []
      | _ => [] := by
  rw [fetches_enableMmu r hva, show (3 : ℕ) = 3 - 1 + 1 from rfl, fetchesFrom_eq le_rfl (by omega),
    ← view_of_table (view_zero L mem va)]
  refine congrArg (List.cons _) ?_
  cases e1 : view L mem 1 va with
  | invalid => rfl
  | leaf d => rfl
  | table p =>
      simp only
      rw [show 3 - 1 = 3 - 2 + 1 from rfl, fetchesFrom_eq (by omega) (by omega), ← view_of_table e1]
      refine congrArg (List.cons _) ?_
      cases e2 : view L mem 2 va with
      | invalid => rfl
      | leaf d => rfl
      | table q =>
          simp only
          rw [show 3 - 2 = 3 - 3 + 1 from rfl, fetchesFrom_eq (by omega) le_rfl]
          refine congrArg (List.cons _) ?_
          cases classify 3 (mem (q + 8 * vaIdx 3 va)) <;> rfl

/-- An entry that the walk reads hangs below tables. -/
lemma mem_fetches (r : SysRegs) (hva : (va : ℕ) < 2 ^ 32) {e : Fetch} :
    e ∈ fetches (enableMmu L r) mem va ↔
      ∃ ℓ ≤ 2, ∃ p, view L mem ℓ va = .table p ∧ e = ⟨ℓ + 1, p + 8 * vaIdx (ℓ + 1) va⟩ := by
  rw [fetches_eq r hva]
  constructor
  · intro h
    rcases List.mem_cons.1 h with rfl | h
    · exact ⟨0, by omega, _, rfl, rfl⟩
    cases e1 : view L mem 1 va with
    | invalid => simp [e1] at h
    | leaf d => simp [e1] at h
    | table p =>
        simp only [e1] at h
        rcases List.mem_cons.1 h with rfl | h
        · exact ⟨1, by omega, p, e1, rfl⟩
        cases e2 : view L mem 2 va with
        | invalid => simp [e2] at h
        | leaf d => simp [e2] at h
        | table q =>
            simp only [e2, List.mem_singleton] at h
            exact ⟨2, le_rfl, q, e2, h⟩
  · rintro ⟨ℓ, hℓ, p, hp, rfl⟩
    obtain rfl | rfl | rfl : ℓ = 0 ∨ ℓ = 1 ∨ ℓ = 2 := by omega
    · obtain rfl : L.baseXlatTable = p := Entry.table.inj hp
      exact List.mem_cons_self
    · simp [hp]
    · obtain ⟨q, hq, -⟩ := Scheme.exists_table_of_lookup hp
      have hq : view L mem 1 va = .table q := hq
      simp [hp, hq]

/-- What the entry of an address below tables says, as an end of the walk. -/
lemma WalkEnd.ofFetch_eq (mem : Mem) (va : Va) (h1 : 1 ≤ ℓ) (h3 : ℓ ≤ 3) (p : ℕ) :
    WalkEnd.ofFetch mem va ⟨ℓ, p⟩ =
      match classify ℓ (mem p) with
      | .leaf d => .leaf ⟨ℓ, d, addrField (39 - 9 * ℓ) d + va % gran ℓ⟩
      | _ => .fault ℓ := by
  simp only [WalkEnd.ofFetch]
  generalize mem p = d
  rw [classify, gran]
  by_cases hl : ℓ = 3
  · subst hl
    by_cases ht : d &&& 3 = 3
    · rw [if_pos (.inl ⟨rfl, ht⟩), if_pos ht, if_pos rfl]
    · rw [if_neg fun h => h.elim (fun h => ht h.2) fun h => absurd h.1 (by omega), if_neg ht,
        if_neg fun h => absurd h.2 (by omega)]
  · have h12 : ℓ = 1 ∨ ℓ = 2 := by omega
    have hlt : ℓ < 3 := by omega
    by_cases ht : d &&& 3 = 3
    · have h13 : ¬ d &&& 3 = 1 := by
        rw [ht]
        decide
      rw [if_neg fun h => h.elim (fun h => hl h.1) fun h => h13 h.2, if_pos ht, if_neg hl]
    · rw [if_neg ht]
      by_cases ht' : d &&& 3 = 1
      · rw [if_pos (.inr ⟨h12, ht'⟩), if_pos ⟨ht', hlt⟩]
      · rw [if_neg fun h => h.elim (fun h => hl h.1) fun h => ht' h.2, if_neg fun h => ht' h.1]

/-- The walk ends at the first level whose entry is not a table. -/
theorem walkEnd_eq (r : SysRegs) (hva : (va : ℕ) < 2 ^ 32) :
    walkEnd (enableMmu L r) mem va =
      match view L mem 1 va with
      | .invalid => .fault 1
      | .leaf d => .leaf ⟨1, d, addrField 30 d + va % gran 1⟩
      | .table _ =>
          match view L mem 2 va with
          | .invalid => .fault 2
          | .leaf d => .leaf ⟨2, d, addrField 21 d + va % gran 2⟩
          | .table _ =>
              match view L mem 3 va with
              | .invalid => .fault 3
              | .leaf d => .leaf ⟨3, d, addrField 12 d + va % gran 3⟩
              | .table _ => .fault 3 := by
  have h1 := WalkEnd.ofFetch_eq mem va le_rfl (show 1 ≤ 3 by omega)
    (L.baseXlatTable + 8 * vaIdx 1 va)
  rw [← view_of_table (view_zero L mem va)] at h1
  rw [walkEnd, fetches_eq r hva]
  cases e1 : view L mem 1 va with
  | invalid => exact h1.trans (by rw [e1])
  | leaf d => exact h1.trans (by rw [e1])
  | table p =>
      have h2 := WalkEnd.ofFetch_eq mem va (show 1 ≤ 2 by omega)
        (show 2 ≤ 3 by omega) (p + 8 * vaIdx 2 va)
      rw [← view_of_table e1] at h2
      cases e2 : view L mem 2 va with
      | invalid => exact h2.trans (by rw [e2])
      | leaf d => exact h2.trans (by rw [e2])
      | table q =>
          have h3 := WalkEnd.ofFetch_eq mem va (show 1 ≤ 3 by omega) le_rfl
            (q + 8 * vaIdx 3 va)
          rw [← view_of_table e2] at h3
          cases e3 : view L mem 3 va with
          | invalid => exact h3.trans (by rw [e3])
          | leaf d => exact h3.trans (by rw [e3])
          | table q' => exact h3.trans (by rw [e3])

/-- The walk finds the leaf of the first level whose entry is not a table. -/
theorem walk_eq (r : SysRegs) (hva : (va : ℕ) < 2 ^ 32) :
    walk (enableMmu L r) mem va =
      match view L mem 1 va with
      | .invalid => none
      | .leaf d => some ⟨1, d, addrField 30 d + va % gran 1⟩
      | .table _ =>
          match view L mem 2 va with
          | .invalid => none
          | .leaf d => some ⟨2, d, addrField 21 d + va % gran 2⟩
          | .table _ =>
              match view L mem 3 va with
              | .invalid => none
              | .leaf d => some ⟨3, d, addrField 12 d + va % gran 3⟩
              | .table _ => none := by
  rw [walk, walkEnd_eq r hva]
  cases view L mem 1 va with
  | invalid => rfl
  | leaf d => rfl
  | table p =>
      cases view L mem 2 va with
      | invalid => rfl
      | leaf d => rfl
      | table q => cases view L mem 3 va <;> rfl

/-- The leaf that the walk finds is the entry of the address below tables. -/
lemma walk_eq_some (r : SysRegs) (hva : (va : ℕ) < 2 ^ 32) {l : Leaf}
    (h : walk (enableMmu L r) mem va = some l) :
    ∃ ℓ ≤ 2, ∃ p, view L mem ℓ va = .table p ∧ l.level = ℓ + 1 ∧
      view L mem (ℓ + 1) va = .leaf l.desc := by
  rw [walk_eq r hva] at h
  cases e1 : view L mem 1 va with
  | invalid => simp [e1] at h
  | leaf d =>
      simp only [e1, Option.some.injEq] at h
      subst h
      exact ⟨0, by omega, _, rfl, rfl, e1⟩
  | table p =>
      cases e2 : view L mem 2 va with
      | invalid => simp [e1, e2] at h
      | leaf d =>
          simp only [e1, e2, Option.some.injEq] at h
          subst h
          exact ⟨1, by omega, p, e1, rfl, e2⟩
      | table q =>
          cases e3 : view L mem 3 va with
          | invalid => simp [e1, e2, e3] at h
          | leaf d =>
              simp only [e1, e2, e3, Option.some.injEq] at h
              subst h
              exact ⟨2, le_rfl, q, e2, rfl, e3⟩
          | table q' => simp [e1, e2, e3] at h

/-- The physical address and the attributes that a level-3 entry gives an address. -/
def decode (a : ℕ) : Entry ℕ U64 → Option (ℕ × U64)
  | .leaf d => some (addrField 12 d + a % 4096, d &&& descAttrsMask)
  | _ => none

/-! ### Pieces of blocks -/

/-- Every piece of a leaf has its attributes. -/
lemma refine_attrs {d : U64} {j : ℕ} (h1 : 1 ≤ ℓ) (hj : ℓ ≤ j) (h3 : j ≤ 3) :
    (scheme L).refine ℓ d va j &&& descAttrsMask = d &&& descAttrsMask := by
  induction j, hj using Nat.le_induction with
  | base => rw [Scheme.refine_self]
  | succ j hj ih =>
      rw [Scheme.refine_succ hj, ← ih (by omega)]
      exact splitPiece_attrs (by omega) h3 (vaIdx_lt _ va) _

/-- The address of a piece of an aligned block. -/
lemma splitPiece_aligned {d : U64} {i : ℕ} (h1 : 1 ≤ ℓ) (h2 : ℓ ≤ 2) (hi : i < 512)
    (h : addrField 12 d % gran ℓ = 0) :
    addrField 12 (splitPiece (ℓ + 1) i d) = addrField 12 d + i * gran (ℓ + 1) ∧
      addrField 12 (splitPiece (ℓ + 1) i d) % gran (ℓ + 1) = 0 := by
  have hlt : i * gran (ℓ + 1) < gran ℓ := by
    obtain rfl | rfl : ℓ = 1 ∨ ℓ = 2 := by omega
    all_goals simp only [gran]; omega
  have he : addrField 12 (splitPiece (ℓ + 1) i d) = addrField 12 d + i * gran (ℓ + 1) := by
    rw [splitPiece_addrField (by omega) (by omega) hi]
    exact or_eq_add h hlt
  have hd : gran (ℓ + 1) ∣ gran ℓ := gran_nested.dvd (Nat.le_succ ℓ)
  refine ⟨he, ?_⟩
  rw [he]
  exact Nat.mod_eq_zero_of_dvd (Nat.dvd_add (hd.trans (Nat.dvd_of_mod_eq_zero h))
    (Nat.dvd_mul_left _ _))

lemma mod_gran_succ (h1 : 1 ≤ ℓ) (h2 : ℓ ≤ 2) (va : Va) :
    (va : ℕ) % gran ℓ = vaIdx (ℓ + 1) va * gran (ℓ + 1) + va % gran (ℓ + 1) := by
  obtain rfl | rfl : ℓ = 1 ∨ ℓ = 2 := by omega
  all_goals simp only [gran, vaIdx]; omega

/-- Every piece of an aligned leaf gives an address the same physical address. -/
lemma refine_addrField (L : Layout) (va : Va) {d : U64} {j : ℕ} (h1 : 1 ≤ ℓ) (hj : ℓ ≤ j)
    (h3 : j ≤ 3) (h : addrField 12 d % gran ℓ = 0) :
    addrField 12 ((scheme L).refine ℓ d va j) + va % gran j = addrField 12 d + va % gran ℓ ∧
      addrField 12 ((scheme L).refine ℓ d va j) % gran j = 0 := by
  induction j, hj using Nat.le_induction with
  | base => exact ⟨by rw [Scheme.refine_self], by rwa [Scheme.refine_self]⟩
  | succ j hj ih =>
      obtain ⟨ih1, ih2⟩ := ih (by omega)
      have hpiece := splitPiece_aligned (by omega) (by omega) (vaIdx_lt (j + 1) va) ih2
      rw [Scheme.refine_succ hj]
      refine ⟨?_, hpiece.2⟩
      show addrField 12 (splitPiece (j + 1) (vaIdx (j + 1) va) _) + _ = _
      rw [hpiece.1, Nat.add_assoc, ← mod_gran_succ (by omega) (by omega) va, ih1]

/-- What an aligned leaf says at level 3. -/
lemma decode_of_leaf {d : U64} (h1 : 1 ≤ ℓ) (h3 : ℓ ≤ 3) (hd : view L mem ℓ va = .leaf d)
    (h : addrField 12 d % gran ℓ = 0) :
    decode va (view L mem 3 va) = some (addrField 12 d + va % gran ℓ, d &&& descAttrsMask) := by
  have hview : view L mem 3 va = .leaf ((scheme L).refine ℓ d va 3) :=
    Scheme.lookup_of_leaf hd h3
  have haddr := (refine_addrField L va h1 h3 le_rfl h).1
  rw [hview, decode, refine_attrs h1 h3 le_rfl, ← haddr]
  rfl

/-! ### The walk and the entries of level 3 -/

/-- The attributes of the leaf that the walk finds are those of the level-3 entry. -/
theorem walk_attrs (L : Layout) (mem : Mem) (r : SysRegs) (hva : (va : ℕ) < 2 ^ 32) :
    (walk (enableMmu L r) mem va).map Leaf.attrs =
      (decode va (view L mem 3 va)).map Prod.snd := by
  have hleaf : ∀ {ℓ d}, 1 ≤ ℓ → ℓ ≤ 3 → view L mem ℓ va = .leaf d →
      (decode va (view L mem 3 va)).map Prod.snd = some (d &&& descAttrsMask) := by
    intro ℓ d h1 h3 hd
    have hview : view L mem 3 va = .leaf ((scheme L).refine ℓ d va 3) :=
      Scheme.lookup_of_leaf hd h3
    rw [hview, decode, Option.map_some, refine_attrs h1 h3 le_rfl]
  rw [walk_eq r hva]
  cases e1 : view L mem 1 va with
  | invalid => rw [view_of_invalid (view_of_invalid e1)]; rfl
  | leaf d => exact (hleaf le_rfl (by omega) e1).symm
  | table p =>
      cases e2 : view L mem 2 va with
      | invalid => rw [view_of_invalid e2]; rfl
      | leaf d => exact (hleaf (by omega) (by omega) e2).symm
      | table q =>
          cases e3 : view L mem 3 va with
          | invalid => rfl
          | leaf d => rfl
          | table q' => rfl

/-- Every block that an address uses, and every piece of one, has an output address that is a
multiple of its size. -/
def Aligned (L : Layout) (mem : Mem) (va : Va) : Prop :=
  ∀ {ℓ d}, 1 ≤ ℓ → ℓ ≤ 2 → view L mem ℓ va = .leaf d → addrField 12 d % gran ℓ = 0

lemma addrField_of_aligned {s : ℕ} {d : U64} (hs : 12 ≤ s) (h : addrField 12 d % 2 ^ s = 0) :
    addrField s d = addrField 12 d := by
  have hlt : addrField 12 d < 2 ^ 48 := by
    have h1 : d.toNat % 2 ^ 48 < 2 ^ 48 := Nat.mod_lt _ (by decide)
    exact (Nat.div_mul_le_self _ _).trans_lt h1
  rw [addrField, ← field_field hs]
  exact field_eq_self h hlt

/-- Where the blocks are aligned, the translation is what the level-3 entry says. -/
theorem translate_eq (r : SysRegs) (hva : (va : ℕ) < 2 ^ 32) (hal : Aligned L mem va) :
    translate (enableMmu L r) mem va = decode va (view L mem 3 va) := by
  have hleaf : ∀ {ℓ d}, 1 ≤ ℓ → ℓ ≤ 2 → view L mem ℓ va = .leaf d →
      decode va (view L mem 3 va) =
        some (addrField (39 - 9 * ℓ) d + va % gran ℓ, d &&& descAttrsMask) := by
    intro ℓ d h1 h2 hd
    have h := hal h1 h2 hd
    rw [decode_of_leaf h1 (by omega) hd h, addrField_of_aligned (by omega) h]
  rw [translate, walk_eq r hva]
  cases e1 : view L mem 1 va with
  | invalid => rw [view_of_invalid (view_of_invalid e1)]; rfl
  | leaf d => exact (hleaf le_rfl (by omega) e1).symm
  | table p =>
      cases e2 : view L mem 2 va with
      | invalid => rw [view_of_invalid e2]; rfl
      | leaf d => exact (hleaf (by omega) le_rfl e2).symm
      | table q =>
          cases e3 : view L mem 3 va with
          | invalid => rfl
          | leaf d => rfl
          | table q' => rfl

end Arm64Mmu
