import Arm64Mmu.Table.Wf

/-!
# The two changes of the tables

Two changes of memory keep the tables well-formed: a leaf is stored in an entry (`Wf.leaf`),
and an entry is made to point to a fresh table (`Wf.link`).  On the view these are
`Scheme.write` and `Scheme.graft` (`Wf.view_leaf`, `Wf.view_link`).
-/

namespace Arm64Mmu

open Lib Lib.Radix

variable {L : Layout} {Q : LeafInv} {m m' : Machine} {T U : Table} {ℓ i i' t p : ℕ} {d : U64}
  {va : Va}

/-! ### Storing a leaf -/

/-- From `m` to `m'` the leaf `d` is stored in the entry `i` of `T`. -/
structure StoresLeaf (L : Layout) (m m' : Machine) (T : Table) (ℓ i : ℕ) (d : U64) : Prop where
  used : UsedAt L m.trace T ℓ
  lt : i < T.entries
  isLeaf : IsLeaf ℓ d
  mem : m'.mem = Function.update m.mem (T.slot L i) d
  tableIdx : m'.tableIdx = m.tableIdx
  usedAt : ∀ {T ℓ}, UsedAt L m'.trace T ℓ ↔ UsedAt L m.trace T ℓ
  written : ∀ {p v}, .store p v ∈ m'.trace → .store p v ∈ m.trace ∨ p = T.slot L i

namespace Wf

variable (h : Wf L Q m)
include h

/-- Off the entry nothing changes. -/
lemma leaf_mem_off (hs : StoresLeaf L m m' T ℓ i d) (hU : U.Live 32) (hi' : i' < U.entries)
    (hne : ¬ (U = T ∧ i' = i)) : m'.mem (U.slot L i') = m.mem (U.slot L i') := by
  rw [hs.mem, Function.update_of_ne]
  intro he
  exact hne (slot_inj hU hi' (h.live32 hs.used) hs.lt he)

theorem leaf (hs : StoresLeaf L m m' T ℓ i d) (hQ : Q.holds ℓ d) : Wf L Q m' := by
  have hon : m'.mem (T.slot L i) = d := by rw [hs.mem, Function.update_self]
  refine
    { idx_le := hs.tableIdx ▸ h.idx_le
      used_lt := fun hu => hs.tableIdx ▸ h.used_lt (hs.usedAt.1 hu)
      used_of_lt := ?_
      used_unique := fun hu hu' => h.used_unique (hs.usedAt.1 hu) (hs.usedAt.1 hu')
      fresh := ?_, content := ?_, unique := ?_, written := ?_ }
  · intro t ht
    obtain ⟨ℓ', hu⟩ := h.used_of_lt (hs.tableIdx ▸ ht)
    exact ⟨ℓ', hs.usedAt.2 hu⟩
  · intro t hle ht j hj
    rw [h.leaf_mem_off hs (U := .pool t) ht hj]
    · exact h.fresh (hs.tableIdx ▸ hle) ht j hj
    · rintro ⟨rfl, -⟩
      have h1 := (h.used_lt hs.used).1
      rw [hs.tableIdx] at hle
      omega
  · intro T' ℓ' j hu hj
    rw [hs.usedAt] at hu
    by_cases he : T' = T ∧ j = i
    · obtain ⟨rfl, rfl⟩ := he
      obtain rfl := h.used_unique hu hs.used
      rw [hon]
      exact .leaf hs.isLeaf hQ
    · rw [h.leaf_mem_off hs (h.live32 hu) hj he]
      exact (h.content hu hj).mono hs.usedAt.2
  · intro T₁ ℓ₁ i₁ T₂ ℓ₂ i₂ t h1 hℓ1 hi1 h2 hℓ2 hi2 ht he1 he2
    rw [hs.usedAt] at h1 h2
    rw [hs.tableIdx] at ht
    -- a table descriptor is not in the entry that now holds the leaf
    have hoff : ∀ {T' ℓ' j}, UsedAt L m.trace T' ℓ' → ℓ' ≤ 2 → j < T'.entries →
        m'.mem (T'.slot L j) = tableDesc (L.xlatTable t) →
        m.mem (T'.slot L j) = tableDesc (L.xlatTable t) := by
      intro T' ℓ' j hu hℓ' hj he
      rwa [h.leaf_mem_off hs (h.live32 hu) hj] at he
      rintro ⟨rfl, rfl⟩
      obtain rfl := h.used_unique hu hs.used
      rw [hon] at he
      exact hs.isLeaf.ne_xlatDesc hℓ' (ht.trans_le h.idx_le) he
    exact h.unique h1 hℓ1 hi1 h2 hℓ2 hi2 ht (hoff h1 hℓ1 hi1 he1) (hoff h2 hℓ2 hi2 he2)
  · intro p v hp
    rcases hs.written hp with hp | rfl
    · obtain ⟨T', ℓ', j, hu, hj, rfl⟩ := h.written hp
      exact ⟨T', ℓ', j, hs.usedAt.2 hu, hj, rfl⟩
    · exact ⟨T, ℓ, i, hs.usedAt.2 hs.used, hs.lt, rfl⟩

/-- Storing a leaf in an entry that a path reaches writes it into the view. -/
theorem view_leaf (hv : view L m.mem ℓ va = .table (T.addr L))
    (hs : StoresLeaf L m m' T (ℓ + 1) (vaIdx (ℓ + 1) va) d) :
    view L m'.mem = (scheme L).write (ℓ + 1) va d (view L m.mem) := by
  refine Scheme.lookup_write hv ?_ ?_
  · show classify (ℓ + 1) (m'.mem (T.slot L (vaIdx (ℓ + 1) va))) = _
    rw [hs.mem, Function.update_self]
    exact classify_of_isLeaf (h.level_bounds hs.used).2 hs.isLeaf
  · intro j va' q hq hne
    obtain ⟨T', hT', rfl, hi, hoff⟩ := h.path_off hv hs.used hq hne
    show classify (j + 1) (m'.mem (T'.slot L _)) = classify (j + 1) (m.mem (T'.slot L _))
    exact congrArg _ (h.leaf_mem_off hs (h.live32 hT') hi hoff)

end Wf

/-! ### Linking a fresh table -/

/-- From `m` to `m'` the entry `i` of `T` is made to point to the next table of the pool, whose
entries are `f`. -/
structure Links (L : Layout) (m m' : Machine) (T : Table) (ℓ i : ℕ) (f : ℕ → U64) : Prop where
  used : UsedAt L m.trace T ℓ
  level : ℓ ≤ 2
  lt : i < T.entries
  mem_slot : m'.mem (T.slot L i) = tableDesc (L.xlatTable m.tableIdx)
  mem_new : ∀ j < 512, m'.mem ((Table.pool m.tableIdx).slot L j) = f j
  mem_other : ∀ p, p ≠ T.slot L i → (∀ j < 512, p ≠ (Table.pool m.tableIdx).slot L j) →
    m'.mem p = m.mem p
  tableIdx : m'.tableIdx = m.tableIdx + 1
  usedAt : ∀ {T' ℓ'}, UsedAt L m'.trace T' ℓ' ↔
    UsedAt L m.trace T' ℓ' ∨ (T' = .pool m.tableIdx ∧ ℓ' = ℓ + 1)
  written : ∀ {p v}, .store p v ∈ m'.trace → .store p v ∈ m.trace ∨ p = T.slot L i ∨
    ∃ j < 512, p = (Table.pool m.tableIdx).slot L j

namespace Wf

variable {f : ℕ → U64} (h : Wf L Q m)
include h

/-- Off the entry and the fresh table nothing changes. -/
lemma link_mem_off (hl : Links L m m' T ℓ i f) (hlt : m.tableIdx < 32) (hU : U.Live 32)
    (hi' : i' < U.entries) (hne : ¬ (U = T ∧ i' = i)) (hnew : U ≠ .pool m.tableIdx) :
    m'.mem (U.slot L i') = m.mem (U.slot L i') := by
  refine hl.mem_other _ ?_ ?_
  · intro he
    exact hne (slot_inj hU hi' (h.live32 hl.used) hl.lt he)
  · intro j hj he
    exact hnew (slot_inj (U := .pool m.tableIdx) hU hi' hlt hj he).1

/-- A table in use is not the fresh one. -/
lemma used_ne (hT : UsedAt L m.trace T ℓ) : T ≠ .pool m.tableIdx := by
  rintro rfl
  exact absurd (h.used_lt hT).1 (lt_irrefl _)

/-- An entry that points to the table `t` after the change did so before it, or it is the changed
entry and `t` is the fresh table. -/
lemma link_pointer (hl : Links L m m' T ℓ i f) (hlt : m.tableIdx < 32)
    (hf : ∀ j < 512, f j = 0 ∨ IsLeaf (ℓ + 1) (f j)) {ℓ' : ℕ} (hu : UsedAt L m'.trace U ℓ')
    (hℓ' : ℓ' ≤ 2) (hi' : i' < U.entries) (ht : t < 32)
    (he : m'.mem (U.slot L i') = tableDesc (L.xlatTable t)) :
    UsedAt L m.trace U ℓ' ∧ if t = m.tableIdx then U = T ∧ i' = i else
      m.mem (U.slot L i') = tableDesc (L.xlatTable t) := by
  rcases hl.usedAt.1 hu with hu | ⟨rfl, rfl⟩
  · refine ⟨hu, ?_⟩
    by_cases hc : U = T ∧ i' = i
    · obtain ⟨rfl, rfl⟩ := hc
      rw [hl.mem_slot] at he
      obtain rfl := xlatDesc_inj hlt ht he
      rw [if_pos rfl]
      exact ⟨rfl, rfl⟩
    · rw [h.link_mem_off hl hlt (h.live32 hu) hi' hc (h.used_ne hu)] at he
      have := h.ptr_lt hu hℓ' hi' ht he
      rw [if_neg (by omega)]
      exact he
  · rw [hl.mem_new i' hi'] at he
    rcases hf i' hi' with h0 | hleaf
    · exact absurd (he.symm.trans h0) (xlatDesc_ne_zero ht)
    · exact absurd he (hleaf.ne_xlatDesc hℓ' ht)

/-- The fresh table is used below the entry, and the other tables as before. -/
lemma link_used_unique (hl : Links L m m' T ℓ i f) {ℓ₁ ℓ₂ : ℕ} (h1 : UsedAt L m'.trace U ℓ₁)
    (h2 : UsedAt L m'.trace U ℓ₂) : ℓ₁ = ℓ₂ := by
  rcases hl.usedAt.1 h1 with h1 | ⟨rfl, rfl⟩
  · rcases hl.usedAt.1 h2 with h2 | ⟨he, -⟩
    · exact h.used_unique h1 h2
    · exact absurd he (h.used_ne h1)
  · rcases hl.usedAt.1 h2 with h2 | ⟨-, rfl⟩
    · exact absurd rfl (h.used_ne h2)
    · rfl

/-- The tables that are left in the pool are zero. -/
lemma link_fresh (hl : Links L m m' T ℓ i f) (hlt : m.tableIdx < 32) {t : ℕ}
    (hle : m.tableIdx + 1 ≤ t) (ht : t < 32) {j : ℕ} (hj : j < 512) :
    m'.mem ((Table.pool t).slot L j) = 0 := by
  rw [h.link_mem_off hl hlt (U := .pool t) ht hj]
  · exact h.fresh (by omega) ht j hj
  · rintro ⟨rfl, -⟩
    have := (h.used_lt hl.used).1
    omega
  · intro he
    obtain rfl : t = m.tableIdx := by simpa using he
    omega

/-- What stands in the tables after the change. -/
lemma link_content (hl : Links L m m' T ℓ i f) (hlt : m.tableIdx < 32)
    (hf : ∀ j < 512, f j = 0 ∨ (IsLeaf (ℓ + 1) (f j) ∧ Q.holds (ℓ + 1) (f j))) {ℓ' : ℕ}
    (hu : UsedAt L m'.trace U ℓ') (hi' : i' < U.entries) :
    Content L Q m'.trace ℓ' (m'.mem (U.slot L i')) := by
  rcases hl.usedAt.1 hu with hu | ⟨rfl, rfl⟩
  · by_cases he : U = T ∧ i' = i
    · obtain ⟨rfl, rfl⟩ := he
      obtain rfl := h.used_unique hu hl.used
      exact .table _ hl.level (hl.usedAt.2 (.inr ⟨rfl, rfl⟩)) hl.mem_slot
    · rw [h.link_mem_off hl hlt (h.live32 hu) hi' he (h.used_ne hu)]
      exact (h.content hu hi').mono fun hu => hl.usedAt.2 (.inl hu)
  · rw [hl.mem_new i' hi']
    rcases hf i' hi' with h0 | ⟨hleaf, hQ⟩
    · exact .zero h0
    · exact .leaf hleaf hQ

theorem link (hl : Links L m m' T ℓ i f) (hlt : m.tableIdx < 32)
    (hf : ∀ j < 512, f j = 0 ∨ (IsLeaf (ℓ + 1) (f j) ∧ Q.holds (ℓ + 1) (f j))) : Wf L Q m' := by
  obtain ⟨hℓ1, -⟩ := h.level_bounds hl.used
  have hℓ2 := hl.level
  have hnew : UsedAt L m'.trace (.pool m.tableIdx) (ℓ + 1) := hl.usedAt.2 (.inr ⟨rfl, rfl⟩)
  have hold : ∀ {T ℓ}, UsedAt L m.trace T ℓ → UsedAt L m'.trace T ℓ := fun hu =>
    hl.usedAt.2 (.inl hu)
  refine
    { idx_le := by rw [hl.tableIdx]; exact hlt
      used_lt := ?_, used_of_lt := ?_
      used_unique := h.link_used_unique hl
      fresh := fun hle ht _ hj => h.link_fresh hl hlt (hl.tableIdx ▸ hle) ht hj
      content := h.link_content hl hlt hf
      unique := ?_, written := ?_ }
  · intro t ℓ' hu
    rw [hl.tableIdx]
    rcases hl.usedAt.1 hu with hu | ⟨he, rfl⟩
    · have := h.used_lt hu
      omega
    · obtain rfl : t = m.tableIdx := by simpa using he
      omega
  · intro t ht
    rw [hl.tableIdx] at ht
    rcases Nat.lt_succ_iff_lt_or_eq.1 ht with ht | rfl
    · obtain ⟨ℓ', hu⟩ := h.used_of_lt ht
      exact ⟨ℓ', hold hu⟩
    · exact ⟨ℓ + 1, hnew⟩
  · intro T₁ ℓ₁ i₁ T₂ ℓ₂ i₂ t h1 hℓ₁ hi1 h2 hℓ₂ hi2 ht he1 he2
    rw [hl.tableIdx] at ht
    have ht32 : t < 32 := by omega
    have hf' : ∀ j < 512, f j = 0 ∨ IsLeaf (ℓ + 1) (f j) := fun j hj => (hf j hj).imp_right And.left
    obtain ⟨hu1, hk1⟩ := h.link_pointer hl hlt hf' h1 hℓ₁ hi1 ht32 he1
    obtain ⟨hu2, hk2⟩ := h.link_pointer hl hlt hf' h2 hℓ₂ hi2 ht32 he2
    by_cases htn : t = m.tableIdx
    · rw [if_pos htn] at hk1 hk2
      exact ⟨hk1.1.trans hk2.1.symm, hk1.2.trans hk2.2.symm⟩
    · rw [if_neg htn] at hk1 hk2
      exact h.unique hu1 hℓ₁ hi1 hu2 hℓ₂ hi2 (by omega) hk1 hk2
  · intro p v hp
    rcases hl.written hp with hp | rfl | ⟨j, hj, rfl⟩
    · obtain ⟨T', ℓ', j, hu, hj, rfl⟩ := h.written hp
      exact ⟨T', ℓ', j, hold hu, hj, rfl⟩
    · exact ⟨T, ℓ, i, hold hl.used, hl.lt, rfl⟩
    · exact ⟨.pool m.tableIdx, ℓ + 1, j, hnew, hj, rfl⟩

/-- Linking a fresh table that says what the entry said grafts it into the view. -/
theorem view_link (hv : view L m.mem ℓ va = .table (T.addr L))
    (hl : Links L m m' T (ℓ + 1) (vaIdx (ℓ + 1) va) f) (hlt : m.tableIdx < 32)
    (hnot : ∀ p, view L m.mem (ℓ + 1) va ≠ .table p)
    (hkids : ∀ va', (scheme L).Same (ℓ + 1) va va' →
      classify (ℓ + 2) (f (vaIdx (ℓ + 2) va')) =
        (scheme L).child (tablesOf m.mem) (ℓ + 2) va' (view L m.mem (ℓ + 1) va')) :
    view L m'.mem = (scheme L).graft (ℓ + 1) va (L.xlatTable m.tableIdx) (view L m.mem) := by
  refine Scheme.lookup_graft hv hnot ?_ ?_ ?_
  · show classify (ℓ + 1) (m'.mem (T.slot L (vaIdx (ℓ + 1) va))) = _
    have h2 := hl.level
    rw [hl.mem_slot, classify, if_pos (xlatDesc_type hlt), if_neg (by omega),
      descTable_xlatDesc hlt]
  · intro va' hs
    show classify (ℓ + 2) (m'.mem ((Table.pool m.tableIdx).slot L (vaIdx (ℓ + 2) va'))) = _
    rw [hl.mem_new _ (vaIdx_lt _ va')]
    exact hkids va' hs
  · intro j va' q hq hne
    obtain ⟨T', hT', rfl, hi, hoff⟩ := h.path_off hv hl.used hq hne
    show classify (j + 1) (m'.mem (T'.slot L _)) = classify (j + 1) (m.mem (T'.slot L _))
    exact congrArg _ (h.link_mem_off hl hlt (h.live32 hT') hi hoff (h.used_ne hT'))

end Wf

end Arm64Mmu
