import Arm64Mmu.Table.Descriptor

/-!
# The slots of the tables

The tables are the base table and the tables of the pool.  A table is used at the level that
the call of `set_pte_table_desc` which installed it says: one level below the entry that was
made to point to it.  The slots of different tables are at different addresses.
-/

namespace Arm64Mmu

/-- The base table or a table of the pool. -/
inductive Table where
  | base
  | pool (t : ℕ)
deriving DecidableEq

namespace Table

/-- The address of a table. -/
def addr (L : Layout) : Table → ℕ
  | .base => L.baseXlatTable
  | .pool t => L.xlatTable t

/-- The number of entries that the array of a table has. -/
def entries : Table → ℕ
  | .base => numBaseLevelEntries
  | .pool _ => xlatTableEntries

/-- The address of an entry. -/
def slot (L : Layout) (T : Table) (i : ℕ) : ℕ := T.addr L + 8 * i

/-- The table is the base table or one of the first `n` tables of the pool. -/
def Live (n : ℕ) : Table → Prop
  | .base => True
  | .pool t => t < n

end Table

/-- `T` is used at level `ℓ`: the base table at level 1, a table of the pool one level below
the entry in which `set_pte_table_desc` installed it. -/
def UsedAt (L : Layout) (trace : List Event) : Table → ℕ → Prop
  | .base, ℓ => ℓ = 1
  | .pool t, ℓ => ∃ pte level, .setPteTableDesc pte (L.xlatTable t) level ∈ trace ∧
      ℓ = level.toNat + 1

/-- The words of level `ℓ` that are leaves: blocks, and pages at level 3. -/
def IsLeaf (ℓ : ℕ) (d : U64) : Prop := d &&& 3 = if ℓ = 3 then 3 else 1

instance (ℓ : ℕ) (d : U64) : Decidable (IsLeaf ℓ d) :=
  inferInstanceAs (Decidable (d &&& 3 = if ℓ = 3 then 3 else 1))

/-- The leaf `d` stands in a table that is used at level `ℓ`, reachable or not. -/
def LeafIn (L : Layout) (m : Machine) (ℓ : ℕ) (d : U64) : Prop :=
  IsLeaf ℓ d ∧ ∃ (T : Table) (i : ℕ), UsedAt L m.trace T ℓ ∧ i < T.entries ∧ m.mem (T.slot L i) = d

variable {L : Layout} {T U : Table} {i i' t t' n n' ℓ : ℕ}

/-! ### Addresses -/

lemma Layout.base_le (L : Layout) : L.baseXlatTable + 512 ≤ 2 ^ 48 := L.base_lt

lemma Layout.tables_le (L : Layout) : L.xlatTables + 131072 ≤ 2 ^ 48 := L.tables_lt

lemma Layout.disjoint' (L : Layout) :
    L.baseXlatTable + 512 ≤ L.xlatTables ∨ L.xlatTables + 131072 ≤ L.baseXlatTable :=
  L.disjoint

lemma xlatTable_eq (L : Layout) (t : ℕ) : L.xlatTable t = L.xlatTables + 4096 * t := by
  rw [Layout.xlatTable, xlatTableEntries]

lemma xlatTable_inj (h : L.xlatTable t = L.xlatTable t') : t = t' := by
  rw [xlatTable_eq, xlatTable_eq] at h
  omega

lemma xlatTable_aligned (L : Layout) (t : ℕ) : L.xlatTable t % 4096 = 0 := by
  have := L.tables_aligned
  rw [xlatTable_eq]
  omega

lemma xlatTable_lt (L : Layout) (ht : t < 32) : L.xlatTable t < 2 ^ 48 := by
  have := L.tables_le
  rw [xlatTable_eq]
  omega

lemma Table.Live.mono (h : T.Live n) (hn : n ≤ n') : T.Live n' := by
  cases T with
  | base => trivial
  | pool t => exact Nat.lt_of_lt_of_le h hn

/-- Different slots are at different addresses. -/
theorem slot_inj (hT : T.Live 32) (hi : i < T.entries) (hU : U.Live 32) (hi' : i' < U.entries)
    (h : T.slot L i = U.slot L i') : T = U ∧ i = i' := by
  have hd := L.disjoint'
  cases T with
  | base =>
      have hi : i < 64 := hi
      cases U with
      | base =>
          simp only [Table.slot, Table.addr] at h
          exact ⟨rfl, by omega⟩
      | pool t' =>
          have hi' : i' < 512 := hi'
          have hU : t' < 32 := hU
          simp only [Table.slot, Table.addr, xlatTable_eq] at h
          omega
  | pool t =>
      have hi : i < 512 := hi
      have hT : t < 32 := hT
      cases U with
      | base =>
          have hi' : i' < 64 := hi'
          simp only [Table.slot, Table.addr, xlatTable_eq] at h
          omega
      | pool t' =>
          have hi' : i' < 512 := hi'
          simp only [Table.slot, Table.addr, xlatTable_eq] at h
          obtain rfl : t = t' := by omega
          exact ⟨rfl, by omega⟩

/-- No two tables are at the same address. -/
lemma addr_inj (hT : T.Live 32) (hU : U.Live 32) (h : T.addr L = U.addr L) : T = U := by
  have hpos : ∀ T : Table, 0 < T.entries := by
    intro T
    cases T <;> exact Nat.succ_pos _
  have h0 : T.slot L 0 = U.slot L 0 := h
  exact (slot_inj hT (hpos T) hU (hpos U) h0).1

/-! ### Descriptors of the tables -/

lemma xlatDesc_type (ht : t < 32) : tableDesc (L.xlatTable t) &&& 3 = 3 :=
  tableDesc_type (xlatTable_aligned L t) (xlatTable_lt L ht)

lemma descTable_xlatDesc (ht : t < 32) : descTable (tableDesc (L.xlatTable t)) = L.xlatTable t :=
  descTable_tableDesc (xlatTable_aligned L t) (xlatTable_lt L ht)

lemma xlatDesc_inj (ht : t < 32) (ht' : t' < 32)
    (h : tableDesc (L.xlatTable t) = tableDesc (L.xlatTable t')) : t = t' := by
  refine xlatTable_inj (L := L) ?_
  rw [← descTable_xlatDesc ht, h, descTable_xlatDesc ht']

lemma xlatDesc_ne_zero (ht : t < 32) : tableDesc (L.xlatTable t) ≠ 0 := by
  intro h0
  have h3 := xlatDesc_type (L := L) ht
  rw [h0] at h3
  exact absurd h3 (by decide)

lemma IsLeaf.ne_zero {d : U64} (hd : IsLeaf ℓ d) : d ≠ 0 := by
  rintro rfl
  rw [IsLeaf] at hd
  split_ifs at hd <;> exact absurd hd (by decide)

/-- In a directory a leaf is no table descriptor. -/
lemma IsLeaf.ne_xlatDesc {d : U64} (hd : IsLeaf ℓ d) (hℓ : ℓ ≤ 2) (ht : t < 32) :
    d ≠ tableDesc (L.xlatTable t) := by
  rintro rfl
  rw [IsLeaf, if_neg (by omega), xlatDesc_type ht] at hd
  exact absurd hd (by decide)

/-! ### The use of the tables -/

lemma usedAt_base (trace : List Event) : UsedAt L trace .base 1 := rfl

/-- Only `set_pte_table_desc` puts a table to use. -/
lemma usedAt_append {trace evs : List Event}
    (h : ∀ pte table level, .setPteTableDesc pte table level ∉ evs) :
    UsedAt L (trace ++ evs) T ℓ ↔ UsedAt L trace T ℓ := by
  cases T with
  | base => exact Iff.rfl
  | pool t => simp only [UsedAt, List.mem_append, h, or_false]

/-- A table that is installed in an entry of level `ℓ` is used at the next level. -/
lemma usedAt_append_table {trace evs : List Event} (pte : ℕ) {level : U32}
    (h : ∀ pte' table level', .setPteTableDesc pte' table level' ∈ evs ↔
      pte' = pte ∧ table = L.xlatTable t ∧ level' = level) :
    UsedAt L (trace ++ evs) T ℓ ↔
      UsedAt L trace T ℓ ∨ (T = .pool t ∧ ℓ = level.toNat + 1) := by
  cases T with
  | base => simp [UsedAt]
  | pool t' =>
      simp only [UsedAt, List.mem_append, h, Table.pool.injEq]
      constructor
      · rintro ⟨pte', level', h1 | ⟨-, h1, rfl⟩, h2⟩
        · exact .inl ⟨pte', level', h1, h2⟩
        · exact .inr ⟨xlatTable_inj h1, h2⟩
      · rintro (⟨pte', level', h1, h2⟩ | ⟨rfl, h2⟩)
        · exact ⟨pte', level', .inl h1, h2⟩
        · exact ⟨pte, level, .inr ⟨rfl, rfl, rfl⟩, h2⟩

end Arm64Mmu
