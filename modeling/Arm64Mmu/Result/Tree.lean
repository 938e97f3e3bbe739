import Arm64Mmu.Loop.Count

/-!
# The tables form a tree

The representation invariant in the terms of the memory: what the entries of the tables of each
level are, that the table descriptors make a tree with the base table as its root, that unused
tables are zero, and that every pointer `add_map` works with is an entry of a table in use.
-/

namespace Arm64Mmu

open Lib

/-- The table descriptors followed from the base table along a list of indices lead to `T`. -/
inductive Path (L : Layout) (mem : Mem) : List ℕ → Table → Prop
  | base : Path L mem [] .base
  | step {p : List ℕ} {T : Table} {i t : ℕ} (h : Path L mem p T) (hlen : p.length < 2)
      (hi : i < T.entries) (htype : mem (T.slot L i) &&& 3 = 3)
      (hptr : descTable (mem (T.slot L i)) = L.xlatTable t) : Path L mem (p ++ [i]) (.pool t)

/-- The representation invariant of the tables. -/
structure TreeInv (L : Layout) (m : Machine) : Prop where
  /-- The non-zero entries of the levels 1 and 2 are blocks and table descriptors, which point
  to tables of the pool that are handed out. -/
  directory : ∀ T ℓ i, UsedAt L m.trace T ℓ → ℓ ≤ 2 → i < T.entries → m.mem (T.slot L i) ≠ 0 →
    m.mem (T.slot L i) &&& 3 = 1 ∨
      (m.mem (T.slot L i) &&& 3 = 3 ∧
        ∃ t < m.tableIdx, descTable (m.mem (T.slot L i)) = L.xlatTable t)
  page : ∀ T i, UsedAt L m.trace T 3 → i < T.entries →
    m.mem (T.slot L i) &&& 3 = 0 ∨ m.mem (T.slot L i) &&& 3 = 3
  /-- No table is pointed to by two table descriptors. -/
  unique : ∀ T ℓ i T' ℓ' i', UsedAt L m.trace T ℓ → ℓ ≤ 2 → i < T.entries →
    UsedAt L m.trace T' ℓ' → ℓ' ≤ 2 → i' < T'.entries →
    m.mem (T.slot L i) &&& 3 = 3 → m.mem (T'.slot L i') &&& 3 = 3 →
    descTable (m.mem (T.slot L i)) = descTable (m.mem (T'.slot L i')) → T = T' ∧ i = i'
  /-- Every table that is handed out is used at one level. -/
  level : ∀ t < m.tableIdx, ∃ ℓ, (ℓ = 2 ∨ ℓ = 3) ∧ ∀ ℓ', UsedAt L m.trace (.pool t) ℓ' ↔ ℓ' = ℓ
  /-- What is reached from the base table is a tree of three levels. -/
  path_level : ∀ p T, Path L m.mem p T → p.length ≤ 2 ∧ UsedAt L m.trace T (p.length + 1)
  tree : ∀ p p' T, Path L m.mem p T → Path L m.mem p' T → p = p'
  /-- The tables that are not handed out are zero. -/
  fresh : ∀ t, m.tableIdx ≤ t → t < configMaxXlatTables → ∀ i < xlatTableEntries,
    m.mem ((Table.pool t).slot L i) = 0

variable {L : Layout} {Q : LeafInv} {m : Machine} {T : Table} {ℓ i : ℕ} {p : List ℕ}

namespace Wf

variable (h : Wf L Q m)
include h

/-- The table descriptors in the entries of directories. -/
lemma directory_table (hT : UsedAt L m.trace T ℓ) (hℓ : ℓ ≤ 2) (hi : i < T.entries)
    (htype : m.mem (T.slot L i) &&& 3 = 3) :
    ∃ t, UsedAt L m.trace (.pool t) (ℓ + 1) ∧ m.mem (T.slot L i) = tableDesc (L.xlatTable t) ∧
      descTable (m.mem (T.slot L i)) = L.xlatTable t := by
  have he : classify ℓ (m.mem (T.slot L i)) = .table (descTable (m.mem (T.slot L i))) := by
    rw [classify, if_pos htype, if_neg (by omega)]
  obtain ⟨-, t, ht, hp, hd⟩ := h.table_entry hT hi he
  exact ⟨t, ht, hd, hp⟩

lemma path_level (hp : Path L m.mem p T) :
    p.length ≤ 2 ∧ UsedAt L m.trace T (p.length + 1) := by
  induction hp with
  | base => exact ⟨Nat.zero_le _, usedAt_base _⟩
  | @step p T i t _ hlen hi htype hptr ih =>
      obtain ⟨t', ht', -, hptr'⟩ := h.directory_table ih.2 (by omega) hi htype
      obtain rfl := xlatTable_inj (hptr.symm.trans hptr')
      rw [List.length_append, List.length_singleton]
      exact ⟨hlen, ht'⟩

/-- Two entries of directories that point to the same table are the same. -/
lemma pointer_unique {T' : Table} {ℓ' i' : ℕ} (hT : UsedAt L m.trace T ℓ) (hℓ : ℓ ≤ 2)
    (hi : i < T.entries) (hT' : UsedAt L m.trace T' ℓ') (hℓ' : ℓ' ≤ 2) (hi' : i' < T'.entries)
    (htype : m.mem (T.slot L i) &&& 3 = 3) (htype' : m.mem (T'.slot L i') &&& 3 = 3)
    (he : descTable (m.mem (T.slot L i)) = descTable (m.mem (T'.slot L i'))) :
    T = T' ∧ i = i' := by
  obtain ⟨t, ht, hd, hp⟩ := h.directory_table hT hℓ hi htype
  obtain ⟨t', -, hd', hp'⟩ := h.directory_table hT' hℓ' hi' htype'
  obtain rfl := xlatTable_inj (hp.symm.trans (he.trans hp'))
  exact h.unique hT hℓ hi hT' hℓ' hi' (h.used_lt ht).1 hd hd'

/-- Two paths to a table are the same. -/
lemma path_unique {p' : List ℕ} (hp : Path L m.mem p T) (hp' : Path L m.mem p' T) : p = p' := by
  induction hp generalizing p' with
  | base => cases hp' with | base => rfl
  | @step p T i t hpath hlen hi htype hptr ih =>
      generalize hT : Table.pool t = T' at hp'
      cases hp' with
      | base => simp at hT
      | @step p' T' i' t' hpath' hlen' hi' htype' hptr' =>
          obtain rfl : t = t' := by simpa using hT
          obtain ⟨h1, hu⟩ := h.path_level hpath
          obtain ⟨h1', hu'⟩ := h.path_level hpath'
          obtain ⟨rfl, rfl⟩ := h.pointer_unique hu (by omega) hi hu' (by omega) hi' htype htype'
            (hptr.trans hptr'.symm)
          rw [ih hpath']

/-- Well-formed tables satisfy the representation invariant. -/
theorem treeInv : TreeInv L m where
  directory := by
    intro T ℓ i hT hℓ hi hne
    cases h.content hT hi with
    | zero h0 => exact absurd h0 hne
    | leaf hd =>
        rw [IsLeaf, if_neg (by omega)] at hd
        exact .inl hd
    | table t _ hused he =>
        have hlt := h.live32 hused
        rw [he]
        exact .inr ⟨xlatDesc_type hlt, t, (h.used_lt hused).1, descTable_xlatDesc hlt⟩
  page := by
    intro T i hT hi
    cases h.content hT hi with
    | zero h0 =>
        rw [h0]
        exact .inl (by decide)
    | leaf hd =>
        rw [IsLeaf, if_pos rfl] at hd
        exact .inr hd
    | table t hℓ => omega
  unique := fun T ℓ i T' ℓ' i' hT hℓ hi hT' hℓ' hi' htype htype' he =>
    h.pointer_unique hT hℓ hi hT' hℓ' hi' htype htype' he
  level := by
    intro t ht
    obtain ⟨ℓ, hℓ⟩ := h.used_of_lt ht
    have h23 := (h.used_lt hℓ).2
    refine ⟨ℓ, by omega, fun ℓ' => ⟨fun hℓ' => h.used_unique hℓ' hℓ, ?_⟩⟩
    rintro rfl
    exact hℓ
  path_level := fun p T hp => h.path_level hp
  tree := fun p p' T hp hp' => h.path_unique hp hp'
  fresh := fun t hle hlt i hi => h.fresh hle hlt i hi

end Wf

/-- The representation invariant holds after a run and at every head of a loop during it, and
every call of `calculate_pte_index` in an iteration returns an entry of a table in use. -/
theorem tables_are_tree (L : Layout) (m₀ : Machine) (cs : List Call) (h0 : Zeroed L m₀)
    (hcs : ∀ c ∈ cs, c.Dom (2 ^ 36) (2 ^ 48)) (hpool : PoolLasts L m₀ cs) :
    ∃ m, AddMaps L m₀ cs m ∧ TreeInv L m ∧ ∀ s, VisitsDuring L m₀ cs s → TreeInv L s.m ∧
      (s.Goes → ∃ (T : Table) (i : ℕ), T.Live s.m.tableIdx ∧ i < T.entries ∧
        calculatePteIndex L s.m.mem s.virt s.level = some (T.slot L i)) := by
  have hfine := fine_of_dom le_rfl hcs
  have hwf₀ := Wf.of_zeroed h0 anyLeaf
  obtain ⟨m, hm, hwf⟩ := AddMaps.returns hwf₀ hfine hpool
  refine ⟨m, hm, hwf.treeInv, fun s hs => ?_⟩
  obtain ⟨c, m₁, hc, -, hsim⟩ := hs.sim hwf₀ hfine hpool
  refine ⟨hsim.wf.treeInv, fun hgo => ?_⟩
  obtain ⟨ℓ, va, T, ha⟩ := hsim.slot hc hgo
  exact ⟨T, _, hsim.wf.live ha.used, ha.lt, ha.found⟩

/-- The sample run splits a block twice, and leaves a tree. -/
theorem tables_are_tree_sample :
    ∃ m, AddMaps sampleLayout bootMachine sampleCalls m ∧ TreeInv sampleLayout m := by
  obtain ⟨m, hm, htree, -⟩ := tables_are_tree sampleLayout bootMachine sampleCalls
    (zeroed_bootMachine _) (by decide) (poolLasts_sampleCalls _)
  exact ⟨m, hm, htree⟩

end Arm64Mmu
