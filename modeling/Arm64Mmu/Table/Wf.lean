import Arm64Mmu.Model.Calls
import Arm64Mmu.Table.View

/-!
# Well-formed tables

`Wf L Q m` is the representation invariant of the tables: which words may stand in a table of
each level, that no two entries of directories point to one table, that the unused tables are
zero.  It carries a property `Q` of the leaves that block splitting preserves, which the
results about attributes and alignment choose.

Under the invariant the tables that the lookup meets are tables in use (`Wf.path`) and form a
tree (`Wf.tree`).
-/

namespace Arm64Mmu

open Lib Lib.Radix

/-- A property of the leaves of the levels that is inherited by the pieces of a block. -/
structure LeafInv where
  holds : ℕ → U64 → Prop
  split : ∀ {ℓ i d}, 1 ≤ ℓ → ℓ ≤ 2 → i < 512 → d &&& 3 = 1 → holds ℓ d →
    holds (ℓ + 1) (splitPiece (ℓ + 1) i d)

/-- What may stand in a table of level `ℓ`. -/
inductive Content (L : Layout) (Q : LeafInv) (trace : List Event) (ℓ : ℕ) (d : U64) : Prop
  | zero (h : d = 0)
  | leaf (hd : IsLeaf ℓ d) (hQ : Q.holds ℓ d)
  | table (t : ℕ) (hℓ : ℓ ≤ 2) (hused : UsedAt L trace (.pool t) (ℓ + 1))
      (h : d = tableDesc (L.xlatTable t))

/-- The representation invariant of the tables. -/
structure Wf (L : Layout) (Q : LeafInv) (m : Machine) : Prop where
  idx_le : m.tableIdx ≤ 32
  /-- The tables that are handed out are used, each at one level. -/
  used_lt : ∀ {t ℓ}, UsedAt L m.trace (.pool t) ℓ → t < m.tableIdx ∧ 2 ≤ ℓ ∧ ℓ ≤ 3
  used_of_lt : ∀ {t}, t < m.tableIdx → ∃ ℓ, UsedAt L m.trace (.pool t) ℓ
  used_unique : ∀ {T ℓ ℓ'}, UsedAt L m.trace T ℓ → UsedAt L m.trace T ℓ' → ℓ = ℓ'
  /-- The tables that are not handed out are zero. -/
  fresh : ∀ {t}, m.tableIdx ≤ t → t < 32 → ∀ i < 512, m.mem ((Table.pool t).slot L i) = 0
  content : ∀ {T ℓ i}, UsedAt L m.trace T ℓ → i < T.entries →
    Content L Q m.trace ℓ (m.mem (T.slot L i))
  /-- No two entries of directories point to one table. -/
  unique : ∀ {T ℓ i T' ℓ' i' t}, UsedAt L m.trace T ℓ → ℓ ≤ 2 → i < T.entries →
    UsedAt L m.trace T' ℓ' → ℓ' ≤ 2 → i' < T'.entries → t < m.tableIdx →
    m.mem (T.slot L i) = tableDesc (L.xlatTable t) →
    m.mem (T'.slot L i') = tableDesc (L.xlatTable t) → T = T' ∧ i = i'
  /-- All stores went to tables in use. -/
  written : ∀ {p v}, .store p v ∈ m.trace →
    ∃ T ℓ i, UsedAt L m.trace T ℓ ∧ i < T.entries ∧ p = T.slot L i

variable {L : Layout} {Q : LeafInv} {m m' : Machine} {T : Table} {ℓ i t p : ℕ} {d : U64}
  {va : Va}

lemma Content.mono {trace trace' : List Event} (h : Content L Q trace ℓ d)
    (hsub : ∀ {T ℓ}, UsedAt L trace T ℓ → UsedAt L trace' T ℓ) : Content L Q trace' ℓ d := by
  cases h with
  | zero h => exact .zero h
  | leaf hd hQ => exact .leaf hd hQ
  | table t hℓ hused h => exact .table t hℓ (hsub hused) h

/-- With zeroed tables no address has an entry below the base table. -/
lemma Zeroed.view_eq (h : Zeroed L m) (h1 : 1 ≤ ℓ) (va : Va) : view L m.mem ℓ va = .invalid := by
  obtain ⟨k, rfl⟩ : ∃ k, ℓ = k + 1 := ⟨ℓ - 1, by omega⟩
  induction k with
  | zero =>
      rw [view_of_table (view_zero ..), h.base _ (vaIdx_one_lt _)]
      rfl
  | succ k ih => exact view_of_invalid (ih (by omega))

/-- Zeroed tables hold no leaves. -/
lemma Zeroed.view_ne_leaf (h : Zeroed L m) (ℓ : ℕ) (va : Va) (d : U64) :
    view L m.mem ℓ va ≠ .leaf d := by
  rcases Nat.eq_zero_or_pos ℓ with rfl | h1
  · simp
  · simp [h.view_eq h1]

/-- Zeroed tables are well-formed. -/
theorem Wf.of_zeroed (h : Zeroed L m) (Q : LeafInv) : Wf L Q m := by
  have hno : ∀ {t ℓ}, ¬ UsedAt L m.trace (.pool t) ℓ := by
    rintro t ℓ ⟨pte, level, hmem, -⟩
    rw [h.trace] at hmem
    exact absurd hmem List.not_mem_nil
  have hzero : ∀ {T ℓ i}, UsedAt L m.trace T ℓ → i < T.entries → m.mem (T.slot L i) = 0 := by
    intro T ℓ i hT hi
    cases T with
    | base => exact h.base i hi
    | pool t => exact absurd hT hno
  refine
    { idx_le := by rw [h.tableIdx]; exact Nat.zero_le _
      used_lt := fun hu => absurd hu hno
      used_of_lt := ?_
      used_unique := ?_
      fresh := fun {t} _ ht i hi => h.tables t ht i hi
      content := fun hT hi => .zero (hzero hT hi)
      unique := ?_
      written := ?_ }
  · intro t ht
    rw [h.tableIdx] at ht
    exact absurd ht (Nat.not_lt_zero t)
  · intro T ℓ ℓ' hT hT'
    cases T with
    | base => exact hT.trans hT'.symm
    | pool t => exact absurd hT hno
  · intro T ℓ i T' ℓ' i' t _ _ _ _ _ _ ht
    rw [h.tableIdx] at ht
    exact absurd ht (Nat.not_lt_zero t)
  · intro p v hp
    rw [h.trace] at hp
    exact absurd hp List.not_mem_nil

namespace Wf

variable (h : Wf L Q m)
include h

/-! ### The tables that a path meets -/

lemma level_bounds (hT : UsedAt L m.trace T ℓ) : 1 ≤ ℓ ∧ ℓ ≤ 3 := by
  cases T with
  | base =>
      have hT : ℓ = 1 := hT
      omega
  | pool t =>
      have := h.used_lt hT
      omega

lemma live (hT : UsedAt L m.trace T ℓ) : T.Live m.tableIdx := by
  cases T with
  | base => trivial
  | pool t => exact (h.used_lt hT).1

lemma live32 (hT : UsedAt L m.trace T ℓ) : T.Live 32 := (h.live hT).mono h.idx_le

/-- An entry that means a table is a table descriptor. -/
lemma table_entry (hT : UsedAt L m.trace T ℓ) (hi : i < T.entries)
    (he : classify ℓ (m.mem (T.slot L i)) = .table p) :
    ℓ ≤ 2 ∧ ∃ t, UsedAt L m.trace (.pool t) (ℓ + 1) ∧ p = L.xlatTable t ∧
      m.mem (T.slot L i) = tableDesc (L.xlatTable t) := by
  obtain ⟨h3, htype, hp⟩ := classify_table he
  cases h.content hT hi with
  | zero h0 =>
      rw [h0] at htype
      exact absurd htype (by decide)
  | leaf hd =>
      rw [IsLeaf, if_neg h3, htype] at hd
      exact absurd hd (by decide)
  | table t hℓ hused hd =>
      have hlt := h.live32 hused
      refine ⟨hℓ, t, hused, ?_, hd⟩
      rw [← hp, hd, descTable_xlatDesc hlt]

/-- The word of an entry, from what it means. -/
lemma word_eq (hv : view L m.mem ℓ va = .table (T.addr L)) (hT : UsedAt L m.trace T (ℓ + 1))
    (hi : vaIdx (ℓ + 1) va < T.entries) :
    match view L m.mem (ℓ + 1) va with
    | .invalid => m.mem (T.slot L (vaIdx (ℓ + 1) va)) = 0
    | .leaf d => m.mem (T.slot L (vaIdx (ℓ + 1) va)) = d
    | .table p => ∃ t < m.tableIdx, p = L.xlatTable t ∧
        m.mem (T.slot L (vaIdx (ℓ + 1) va)) = tableDesc (L.xlatTable t) := by
  obtain ⟨-, h3⟩ := h.level_bounds hT
  have he : view L m.mem (ℓ + 1) va = classify (ℓ + 1) (m.mem (T.slot L (vaIdx (ℓ + 1) va))) :=
    view_of_table hv
  cases hview : view L m.mem (ℓ + 1) va with
  | invalid =>
      rw [hview] at he
      cases h.content hT hi with
      | zero h0 => exact h0
      | leaf hd => simp [classify_of_isLeaf h3 hd] at he
      | table t hℓ hused hd =>
          rw [hd, classify, if_pos (xlatDesc_type (h.live32 hused)), if_neg (by omega)] at he
          simp at he
  | leaf d => exact (classify_leaf (he.symm.trans hview)).1.symm
  | table p =>
      obtain ⟨-, t, ht, hp, hd⟩ := h.table_entry hT hi (he.symm.trans hview)
      exact ⟨t, (h.used_lt ht).1, hp, hd⟩

/-- The tables below the base table that a path meets. -/
lemma path_succ (hv : view L m.mem (ℓ + 1) va = .table p) :
    ∃ t, UsedAt L m.trace (.pool t) (ℓ + 2) ∧ p = L.xlatTable t := by
  induction ℓ generalizing p with
  | zero =>
      rw [view_of_table (view_zero ..)] at hv
      obtain ⟨-, t, ht, hp, -⟩ := h.table_entry (T := .base) (usedAt_base _) (vaIdx_one_lt va) hv
      exact ⟨t, ht, hp⟩
  | succ ℓ ih =>
      obtain ⟨q, hq, hqp⟩ := Scheme.exists_table_of_lookup hv
      obtain ⟨t, ht, rfl⟩ := ih hq
      obtain ⟨-, t', ht', hp, -⟩ := h.table_entry (T := .pool t) ht (vaIdx_lt _ va) hqp
      exact ⟨t', ht', hp⟩

/-- A path meets tables in use, with an entry for its address. -/
theorem path (hv : view L m.mem ℓ va = .table p) :
    ∃ T, UsedAt L m.trace T (ℓ + 1) ∧ T.addr L = p ∧ vaIdx (ℓ + 1) va < T.entries := by
  cases ℓ with
  | zero =>
      have hp : L.baseXlatTable = p := by simpa using hv
      exact ⟨.base, usedAt_base _, hp, vaIdx_one_lt va⟩
  | succ ℓ =>
      obtain ⟨t, ht, rfl⟩ := h.path_succ hv
      exact ⟨.pool t, ht, rfl, vaIdx_lt _ va⟩

/-- A memory that agrees on the words of the tables in use with one that says the same. -/
lemma view_eq_of_agree {mem mem' : Mem} (hview : view L mem = view L m.mem)
    (hmem : ∀ {T ℓ i}, UsedAt L m.trace T ℓ → i < T.entries →
      mem' (T.slot L i) = mem (T.slot L i)) : view L mem' = view L m.mem := by
  funext ℓ va
  induction ℓ with
  | zero => rfl
  | succ ℓ ih =>
      cases hv : view L m.mem ℓ va with
      | invalid => rw [view_of_invalid (ih.trans hv), view_of_invalid hv]
      | leaf d => rw [view_of_leaf (ih.trans hv), view_of_leaf hv]
      | table p =>
          obtain ⟨T, hT, rfl, hi⟩ := h.path hv
          have hmid : view L mem ℓ va = .table (T.addr L) := (congrFun₂ hview ℓ va).trans hv
          rw [view_of_table (ih.trans hv), ← hview, view_of_table hmid]
          exact congrArg _ (hmem hT hi)

/-- What is reached from the base table is a tree. -/
theorem tree : (scheme L).Tree (tablesOf m.mem) := by
  refine Scheme.tree_of_unique ?_ ?_
  · intro ℓ va hv
    obtain ⟨t, ht, hp⟩ := h.path_succ hv
    have := addr_inj (T := .base) (U := .pool t) trivial (h.live32 ht) hp
    exact absurd this (by simp)
  · intro ℓ va ℓ' va' p q q' hq hq' he he'
    obtain ⟨T, hT, rfl, hi⟩ := h.path hq
    obtain ⟨T', hT', rfl, hi'⟩ := h.path hq'
    obtain ⟨hℓ, t, ht, hp, hd⟩ := h.table_entry hT hi he
    obtain ⟨hℓ', t', -, hp', hd'⟩ := h.table_entry hT' hi' he'
    obtain rfl := xlatTable_inj (hp.symm.trans hp')
    obtain ⟨rfl, hidx⟩ := h.unique hT hℓ hi hT' hℓ' hi' (h.used_lt ht).1 hd hd'
    exact ⟨rfl, hidx⟩

/-- A leaf that an address uses stands in a table, if the entry above it is a table. -/
lemma leaf_entry (hv : view L m.mem ℓ va = .table p) (hd : view L m.mem (ℓ + 1) va = .leaf d) :
    IsLeaf (ℓ + 1) d ∧ Q.holds (ℓ + 1) d ∧ ∃ T, UsedAt L m.trace T (ℓ + 1) ∧
      vaIdx (ℓ + 1) va < T.entries ∧ m.mem (T.slot L (vaIdx (ℓ + 1) va)) = d := by
  obtain ⟨T, hT, rfl, hi⟩ := h.path hv
  rw [view_of_table hv] at hd
  obtain ⟨rfl, htype⟩ := classify_leaf hd
  obtain ⟨h1, h3⟩ := h.level_bounds hT
  cases h.content hT hi with
  | zero h0 =>
      rw [Table.slot] at h0
      rw [h0] at htype
      exact absurd htype (by simp)
  | leaf hl hQ => exact ⟨hl, hQ, T, hT, hi, rfl⟩
  | table t hℓ hused he =>
      have ht := xlatDesc_type (L := L) (h.live32 hused)
      rw [Table.slot] at he
      rw [he, ht] at htype
      rcases htype with ⟨h4, -⟩ | ⟨-, h4⟩
      · omega
      · exact absurd h4 (by decide)

/-- Every leaf of the view has the property of the leaves. -/
theorem leaf_holds (h3 : ℓ ≤ 3) (hd : view L m.mem ℓ va = .leaf d) :
    IsLeaf ℓ d ∧ Q.holds ℓ d := by
  induction ℓ generalizing d with
  | zero => exact absurd hd (by simp)
  | succ ℓ ih =>
      cases hv : view L m.mem ℓ va with
      | invalid => exact absurd hd (by rw [view_of_invalid hv]; simp)
      | leaf e =>
          obtain ⟨hl, hQ⟩ := ih (by omega) hv
          have hne : ℓ ≠ 3 := by omega
          have h1 : 1 ≤ ℓ := by
            rcases Nat.eq_zero_or_pos ℓ with rfl | h0
            · exact absurd hv (by simp)
            · exact h0
          rw [IsLeaf, if_neg hne] at hl
          rw [view_of_leaf hv] at hd
          obtain rfl : splitPiece (ℓ + 1) (vaIdx (ℓ + 1) va) e = d := by simpa using hd
          exact ⟨splitPiece_type (by omega) h3 (vaIdx_lt _ va) hl,
            Q.split h1 (by omega) (vaIdx_lt _ va) hl hQ⟩
      | table p =>
          obtain ⟨hl, hQ, -⟩ := h.leaf_entry hv hd
          exact ⟨hl, hQ⟩

/-- The leaves of well-formed tables have the property of the leaves. -/
lemma leafIn_holds (hd : LeafIn L m ℓ d) : Q.holds ℓ d := by
  obtain ⟨hleaf, T, i, hT, hi, rfl⟩ := hd
  cases h.content hT hi with
  | zero h0 => exact absurd h0 hleaf.ne_zero
  | leaf _ hQ => exact hQ
  | table t hℓ hused he => exact absurd he (hleaf.ne_xlatDesc hℓ (h.live32 hused))

/-- A table descriptor in a directory points to a table in use. -/
lemma ptr_lt (hT : UsedAt L m.trace T ℓ) (hℓ : ℓ ≤ 2) (hi : i < T.entries) (ht : t < 32)
    (he : m.mem (T.slot L i) = tableDesc (L.xlatTable t)) : t < m.tableIdx := by
  cases h.content hT hi with
  | zero h0 => exact absurd (he.symm.trans h0) (xlatDesc_ne_zero ht)
  | leaf hd => exact absurd he (hd.ne_xlatDesc hℓ ht)
  | table t' _ hused he' =>
      obtain rfl := xlatDesc_inj ht (h.live32 hused) (he.symm.trans he')
      exact (h.used_lt hused).1

/-- A path that does not go through an entry of a path meets other slots. -/
lemma path_off {va' : Va} {j q : ℕ} (hv : view L m.mem ℓ va = .table (T.addr L))
    (hT : UsedAt L m.trace T (ℓ + 1)) (hq : view L m.mem j va' = .table q)
    (hne : ¬ (j = ℓ ∧ (scheme L).Same (ℓ + 1) va va')) :
    ∃ T', UsedAt L m.trace T' (j + 1) ∧ T'.addr L = q ∧ vaIdx (j + 1) va' < T'.entries ∧
      ¬ (T' = T ∧ vaIdx (j + 1) va' = vaIdx (ℓ + 1) va) := by
  obtain ⟨T', hT', rfl, hi⟩ := h.path hq
  refine ⟨T', hT', rfl, hi, ?_⟩
  rintro ⟨rfl, hidx⟩
  exact hne (Scheme.Tree.same_of_slot h.tree hv hq hidx.symm)

end Wf

end Arm64Mmu
