import Arm64Mmu.Loop.Count
import Arm64Mmu.Result.Tree

/-!
# The table pool

`new_prealloc_table` hands out the tables of the pool one after the other: it does not compare
its counter with the size of the pool, and nothing gives a table back.

* `pool_safe_iff`: a run stays inside the pool exactly if before each call the tables that it
  needs fit;
* `tables_consumed`: a call takes a table for each cut span that has none, four at most;
* `table_reachable_iff`: a table is lost exactly when a later call maps a region that contains
  the whole aligned span of the entry that points to it.
-/

namespace Arm64Mmu

open Lib Lib.Radix Lib.Greedy

/-! ### Staying inside the pool -/

/-- The tables that are handed out, the words that were written and the tables that the
descriptors point to are inside the two arrays. -/
structure PoolSafe (L : Layout) (m : Machine) : Prop where
  handedOut : m.tableIdx ≤ configMaxXlatTables
  stores : ∀ p v, .store p v ∈ m.trace → ∃ (T : Table) (i : ℕ), T.Live configMaxXlatTables ∧
    i < T.entries ∧ p = T.slot L i
  pointers : ∀ T ℓ i, UsedAt L m.trace T ℓ → ℓ ≤ 2 → i < T.entries →
    m.mem (T.slot L i) &&& 3 = 3 →
    ∃ t < configMaxXlatTables, descTable (m.mem (T.slot L i)) = L.xlatTable t

variable {L : Layout} {Q : LeafInv} {c : Call} {cs : List Call} {m₀ m m' : Machine} {s s' : Loop}
  {t ℓ j x : ℕ} {va va' : Va} {T : Table} {mem : Mem} {p : List ℕ}

lemma Wf.poolSafe (h : Wf L Q m) : PoolSafe L m where
  handedOut := h.idx_le
  stores := by
    intro p v hp
    obtain ⟨T, ℓ, i, hT, hi, he⟩ := h.written hp
    exact ⟨T, i, h.live32 hT, hi, he⟩
  pointers := by
    intro T ℓ i hT hℓ hi htype
    obtain ⟨t, ht, -, hptr⟩ := h.directory_table hT hℓ hi htype
    exact ⟨t, h.live32 ht, hptr⟩

/-- A run stays inside the pool if and only if before each of its calls the tables that are
handed out and the tables that the call needs are at most `CONFIG_MAX_XLAT_TABLES`. -/
theorem pool_safe_iff (L : Layout) (m₀ : Machine) (cs : List Call) (h0 : Zeroed L m₀)
    (hcs : ∀ c ∈ cs, c.Dom (2 ^ 32) (2 ^ 32) ∧ c.phys = c.virt) :
    Throughout L m₀ cs (PoolSafe L) ↔
      ∀ cs₁ c cs₂ m₁, cs = cs₁ ++ c :: cs₂ → AddMaps L m₀ cs₁ m₁ →
        m₁.tableIdx + tablesNeeded L m₁.mem c ≤ configMaxXlatTables := by
  have hfine : Fine anyLeaf cs := fine_of_dom (by omega) fun c hc => (hcs c hc).1
  have hwf := Wf.of_zeroed h0 anyLeaf
  rw [← poolLasts_iff hwf hfine]
  constructor
  · rintro ⟨-, -, -, h⟩ s hs
    exact (h s hs).handedOut
  · intro hpool
    exact throughout_of_wf hwf hfine hpool fun m' hwf' => hwf'.poolSafe

/-- The sample run needs fewer tables than there are. -/
theorem pool_safe_sample :
    Throughout sampleLayout bootMachine sampleCalls (PoolSafe sampleLayout) :=
  (pool_safe_iff sampleLayout bootMachine sampleCalls (zeroed_bootMachine _) (by decide)).2
    ((poolLasts_iff (Wf.of_zeroed (zeroed_bootMachine _) anyLeaf)
      (fine_of_dom (by omega) (by decide : ∀ c ∈ sampleCalls, c.Dom (2 ^ 32) (2 ^ 32)))).1
      (poolLasts_sampleCalls _))

/-! ### The tables that a call takes -/

/-- After any run a call takes one table for each 1 GiB span and each 2 MiB span that an end of
its region cuts and whose entry is not a table descriptor yet; these are at most four. -/
theorem tables_consumed (L : Layout) (m₀ : Machine) (cs : List Call) (c : Call)
    (h0 : Zeroed L m₀) (hcs : ∀ c ∈ cs, c.Paged) (hc : c.Dom (2 ^ 32) (2 ^ 48))
    (hpool : PoolLasts L m₀ (cs ++ [c])) :
    ∃ m m', AddMaps L m₀ cs m ∧ AddMap L m c m' ∧
      m'.tableIdx = m.tableIdx + (c.bareSpans L m.mem).card ∧ m'.tableIdx ≤ m.tableIdx + 4 := by
  obtain ⟨m, hm, hwf, hroom⟩ := exists_reached h0 hcs hpool
  have hp : c.Paged := hc.paged (by omega)
  obtain ⟨m', hm', -, -⟩ := Call.returns hp c.writes_any hwf hroom
  have hidx := hm'.tableIdx hp c.writes_any hwf hroom
  refine ⟨m, m', hm, hm', hidx, ?_⟩
  rw [hidx]
  exact Nat.add_le_add_left (tablesNeeded_le_four L m.mem c) _

/-- The page cuts the first 1 GiB and the second 2 MiB, and in the block of 1 GiB there are no
tables. -/
lemma bareSpans_sample (hm : AddMaps sampleLayout bootMachine [⟨0, 0, 0x40000000, 12⟩] m) :
    Call.bareSpans sampleLayout m.mem ⟨0x200000, 0x200000, 0x1000, 0⟩ = {(1, 0), (2, 1)} := by
  have h0 := zeroed_bootMachine sampleLayout
  have hc : Call.Paged ⟨0, 0, 0x40000000, 12⟩ := by decide
  obtain ⟨m₁, hm₁, hcall⟩ := Run.snoc_iff.1 (show AddMaps _ _ ([] ++ [_]) m from hm)
  obtain rfl := Run.nil_iff.1 hm₁
  obtain ⟨-, hmaps⟩ :=
    hcall.maps (.of_zeroed h0 anyLeaf) hc (Call.writes_any _) (h0.hasRoom hc)
  have hbare : ∀ {ℓ} (va : Va), 1 ≤ ℓ → ℓ ≤ 2 → Inside gran 0 0x40000000 ℓ va →
      ¬ HasTable sampleLayout m.mem ℓ va := by
    rintro ℓ va h1 h2 hin hhas
    obtain ⟨p, hp⟩ := (hasTable_iff _ _ h1 h2 va).1 hhas
    obtain ⟨_, _, _, _, _, hleaf⟩ := hmaps.inside h1 (by omega) hin
    rw [hp] at hleaf
    exact absurd hleaf (by simp)
  ext ⟨ℓ, i⟩
  rw [mem_bareSpans, Finset.mem_insert, Finset.mem_singleton, Prod.mk.injEq, Prod.mk.injEq]
  constructor
  · rintro ⟨hℓ, -, ⟨hcut, -⟩, -⟩
    have hmeets : 0x200000 < 0x201000 ∧ floor gran ℓ (i * gran ℓ) < 0x201000 ∧
      0x200000 < floor gran ℓ (i * gran ℓ) + gran ℓ := hcut
    rw [floor_eq_self (Nat.mul_mod_left _ _)] at hmeets
    rcases hℓ with rfl | rfl
    · rw [gran] at hmeets
      omega
    · rw [gran] at hmeets
      omega
  · rintro (⟨rfl, rfl⟩ | ⟨rfl, rfl⟩)
    · exact ⟨.inl rfl, by decide, by decide, hbare 0 le_rfl (by omega) (by decide)⟩
    · exact ⟨.inr rfl, by decide, by decide, hbare 0x200000 (by omega) le_rfl (by decide)⟩

/-- The page that the sample run cuts out of its block takes two tables. -/
theorem tables_consumed_sample : ∃ m m',
    AddMaps sampleLayout bootMachine [⟨0, 0, 0x40000000, 12⟩] m ∧
      AddMap sampleLayout m ⟨0x200000, 0x200000, 0x1000, 0⟩ m' ∧
      m'.tableIdx = m.tableIdx + 2 := by
  obtain ⟨m, m', hm, hm', hidx, -⟩ := tables_consumed sampleLayout bootMachine
    [⟨0, 0, 0x40000000, 12⟩] ⟨0x200000, 0x200000, 0x1000, 0⟩ (zeroed_bootMachine _)
    (by decide) (by decide) (poolLasts_sampleCalls _)
  rw [bareSpans_sample hm] at hidx
  exact ⟨m, m', hm, hm', hidx⟩

/-! ### A run that leaves the pool -/

/-- The identity mapping of the first page of the `n`-th block of 2 MiB. -/
def onePage (n : ℕ) : Call := ⟨BitVec.ofNat 64 (n * gran 2), BitVec.ofNat 64 (n * gran 2), 4096, 12⟩

lemma onePage_virt {n : ℕ} (hn : n < 512) :
    (onePage n).virt.toNat = n * gran 2 ∧ (onePage n).stop = n * gran 2 + 4096 := by
  have h : (BitVec.ofNat 64 (n * gran 2)).toNat = n * gran 2 := by
    rw [BitVec.toNat_ofNat, gran]
    omega
  exact ⟨h, congrArg (· + 4096) h⟩

lemma onePage_dom {n : ℕ} (hn : n < 512) : (onePage n).Dom (2 ^ 32) (2 ^ 32) := by
  obtain ⟨h1, h2⟩ := onePage_virt hn
  rw [Call.stop, h1] at h2
  have h3 : (onePage n).size.toNat = 4096 := rfl
  refine ⟨?_, ?_, by show 0 < (4096 : U32).toInt; decide, by rw [h3], ?_, ?_⟩
  · show (onePage n).virt.toNat % 4096 = 0
    rw [h1, gran]
    omega
  · rw [h1, gran]
    omega
  · rw [h1, h3, gran]
    omega
  · show (onePage n).virt.toNat + _ ≤ _
    rw [h1, h3, gran]
    omega

lemma spanVa_two_val {n : ℕ} (hn : n < 512) : (spanVa 2 n : ℕ) = n * gran 2 := by
  refine spanVa_val ?_
  rw [gran]
  omega

/-- The page cuts its own block of 2 MiB and meets no other one. -/
lemma onePage_cut {n : ℕ} (hn : n < 512) :
    Cut gran (onePage n).virt.toNat (onePage n).stop 2 (n * gran 2) := by
  obtain ⟨h1, h2⟩ := onePage_virt hn
  rw [h1, h2, Cut, Meets, Inside, floor_eq_self (Nat.mul_mod_left _ _), gran]
  omega

lemma onePage_not_meets {n i : ℕ} (hn : n < 512) (hi : n < i) :
    ¬ Meets gran (onePage n).virt.toNat (onePage n).stop 2 (i * gran 2) := by
  obtain ⟨h1, h2⟩ := onePage_virt hn
  rw [h1, h2, Meets, floor_eq_self (Nat.mul_mod_left _ _), gran]
  omega

/-- Every page takes a table at least, since its block of 2 MiB has none. -/
lemma onePage_tables (h0 : Zeroed L m₀) {n : ℕ} (hn : n ≤ 512)
    (hpool : PoolLasts L m₀ ((List.range n).map onePage))
    (h : AddMaps L m₀ ((List.range n).map onePage) m) :
    n ≤ m.tableIdx ∧ ∀ i, n ≤ i → i < 512 → ∀ p, view L m.mem 2 (spanVa 2 i) ≠ .table p := by
  induction n generalizing m with
  | zero =>
      obtain rfl := Run.nil_iff.1 h
      refine ⟨Nat.zero_le _, fun i _ _ p => ?_⟩
      simp [h0.view_eq (ℓ := 2) (by omega)]
  | succ n ih =>
      rw [List.range_succ, List.map_append, List.map_singleton] at hpool h
      obtain ⟨hpool, hroom⟩ := poolLasts_snoc.1 hpool
      obtain ⟨m₁, hm₁, hcall⟩ := Run.snoc_iff.1 h
      obtain ⟨hidx, hnone⟩ := ih (by omega) hpool hm₁
      have hdom : ∀ c ∈ (List.range n).map onePage, c.Dom (2 ^ 32) (2 ^ 32) := by
        intro c hc
        obtain ⟨k, hk, rfl⟩ := List.mem_map.1 hc
        rw [List.mem_range] at hk
        exact onePage_dom (by omega)
      have hpage : (onePage n).Paged := (onePage_dom (by omega)).paged (by omega)
      have hany : (onePage n).Writes anyLeaf := fun _ _ _ _ _ _ _ => trivial
      have hwf := AddMaps.wf hm₁ (Wf.of_zeroed h0 anyLeaf) (fine_of_dom (by omega) hdom) hpool
      obtain ⟨-, hmaps⟩ := hcall.maps hwf hpage hany (hroom m₁ hm₁)
      refine ⟨?_, fun i hi hlt p => ?_⟩
      · have hmem : (2, n) ∈ (onePage n).bareSpans L m₁.mem := by
          refine Finset.mem_filter.2
            ⟨Finset.mem_product.2 ⟨by simp, ?_⟩, onePage_cut (by omega), ?_⟩
          · exact Finset.mem_range.2 (by show n < 2 ^ 15; omega)
          · have hiff := hasTable_iff L m₁.mem (ℓ := 2) (by omega) le_rfl (spanVa 2 n)
            rw [spanVa_two_val (by omega)] at hiff
            rw [hiff]
            rintro ⟨p, hp⟩
            exact hnone n le_rfl (by omega) p hp
        have hpos : 0 < tablesNeeded L m₁.mem (onePage n) := Finset.card_pos.2 ⟨_, hmem⟩
        rw [hcall.tableIdx hpage hany hwf (hroom m₁ hm₁)]
        omega
      · rw [hmaps.outside (by omega) (by omega)]
        · exact hnone i (by omega) hlt p
        · rw [spanVa_two_val hlt]
          exact onePage_not_meets (by omega) hi

/-- With the identity mappings of 33 pages, one in each of 33 blocks of 2 MiB, a table behind the
end of the pool is handed out. -/
theorem pool_overrun :
    (∀ c ∈ (List.range 33).map onePage, c.Dom (2 ^ 32) (2 ^ 32) ∧ c.phys = c.virt) ∧
      ∃ s, VisitsDuring sampleLayout bootMachine ((List.range 33).map onePage) s ∧
        configMaxXlatTables < s.m.tableIdx := by
  have hdom : ∀ c ∈ (List.range 33).map onePage, c.Dom (2 ^ 32) (2 ^ 32) ∧ c.phys = c.virt := by
    intro c hc
    obtain ⟨k, hk, rfl⟩ := List.mem_map.1 hc
    rw [List.mem_range] at hk
    exact ⟨onePage_dom (by omega), rfl⟩
  have h0 := zeroed_bootMachine sampleLayout
  have hfine : Fine anyLeaf ((List.range 33).map onePage) :=
    fine_of_dom (by omega) fun c hc => (hdom c hc).1
  refine ⟨hdom, ?_⟩
  by_contra hno
  have hpool : PoolLasts sampleLayout bootMachine ((List.range 33).map onePage) := fun s hs =>
    Nat.le_of_not_lt fun hlt => hno ⟨s, hs, hlt⟩
  obtain ⟨m, hm, hwf⟩ := AddMaps.returns (Wf.of_zeroed h0 anyLeaf) hfine hpool
  have h33 := (onePage_tables h0 (by omega) hpool hm).1
  have h32 := hwf.idx_le
  omega

/-! ### Losing a table -/

/-- The table `t` of the pool is reached from the base table. -/
def Reachable (L : Layout) (mem : Mem) (t : ℕ) : Prop := ∃ p, Path L mem p (.pool t)

/-- The level-`ℓ` entry of the address `x` is a table descriptor for the table `t` of the pool. -/
def PointsTo (L : Layout) (mem : Mem) (ℓ x t : ℕ) : Prop :=
  ∃ pte ∈ calculatePteIndex L mem (BitVec.ofNat 64 x) (BitVec.ofNat 32 ℓ),
    mem pte = tableDesc (L.xlatTable t)

/-- A path leads to the table that some address uses. -/
lemma Wf.exists_view (h : Wf L Q m) (hp : Path L m.mem p T) :
    ∃ va, view L m.mem p.length va = .table (T.addr L) := by
  induction hp with
  | base => exact ⟨⟨0, by decide⟩, view_zero ..⟩
  | @step p T i t hpath hlen hi htype hptr ih =>
      obtain ⟨va, hva⟩ := ih
      have hT := (h.path_level hpath).2
      have hi' : i < if p.length = 0 then 64 else 512 := by
        cases T with
        | base =>
            have : p.length + 1 = 1 := hT
            rw [if_pos (by omega)]
            exact hi
        | pool t' =>
            have := h.used_lt hT
            rw [if_neg (by omega)]
            exact hi
      obtain ⟨va', hsame, hidx⟩ := exists_va (L := L) va (by omega) hi'
      rw [view_congr hsame] at hva
      refine ⟨va', ?_⟩
      rw [List.length_append, List.length_singleton, view_of_table hva, hidx]
      show classify (p.length + 1) (m.mem (T.slot L i)) = _
      rw [classify, if_pos htype, if_neg (by omega), hptr]
      rfl

/-- A table that an address uses is reached. -/
lemma Wf.exists_path (h : Wf L Q m) (hv : view L m.mem ℓ va = .table (T.addr L))
    (hT : UsedAt L m.trace T (ℓ + 1)) : ∃ p, p.length = ℓ ∧ Path L m.mem p T := by
  induction ℓ generalizing T with
  | zero =>
      cases T with
      | base => exact ⟨[], rfl, .base⟩
      | pool t =>
          have := h.used_lt hT
          omega
  | succ ℓ ih =>
      obtain ⟨q, hq, he⟩ := Scheme.exists_table_of_lookup hv
      obtain ⟨T₁, hT₁, rfl, hi⟩ := h.path hq
      obtain ⟨hℓ, t, ht, haddr, -⟩ := h.table_entry hT₁ hi he
      obtain rfl : T = .pool t := addr_inj (U := .pool t) (h.live32 hT) (h.live32 ht) haddr
      obtain ⟨p, hlen, hp⟩ := ih hq hT₁
      obtain ⟨-, htype, hptr⟩ := classify_table he
      exact ⟨p ++ [_], by simp [hlen], hp.step (by omega) hi htype hptr⟩

/-- A table is reached if and only if some address uses it. -/
lemma Wf.reachable_iff (h : Wf L Q m) (ht : t < m.tableIdx) :
    Reachable L m.mem t ↔ ∃ ℓ va, view L m.mem ℓ va = .table (L.xlatTable t) := by
  constructor
  · rintro ⟨p, hp⟩
    exact ⟨p.length, h.exists_view hp⟩
  · rintro ⟨ℓ, va, hv⟩
    obtain ⟨T, hT, haddr, -⟩ := h.path hv
    have hlive : (Table.pool t).Live 32 := ht.trans_le h.idx_le
    obtain rfl : T = .pool t := addr_inj (h.live32 hT) hlive haddr
    obtain ⟨p, -, hp⟩ := h.exists_path hv hT
    exact ⟨p, hp⟩

/-- An entry that points to a table, in the terms of the view. -/
lemma Wf.pointsTo (h : Wf L Q m) (h1 : 1 ≤ ℓ) (hv : view L m.mem ℓ va = .table (L.xlatTable t)) :
    PointsTo L m.mem ℓ va t := by
  obtain ⟨ℓ, rfl⟩ : ∃ k, ℓ = k + 1 := ⟨ℓ - 1, by omega⟩
  have haddr : (BitVec.ofNat 64 (va : ℕ)).toNat = va := by
    have hva := va.isLt
    rw [BitVec.toNat_ofNat]
    omega
  obtain ⟨q, hq, he⟩ := Scheme.exists_table_of_lookup hv
  have hq : view L m.mem ℓ va = .table q := hq
  obtain ⟨T, hT, rfl, hi⟩ := h.path hq
  obtain ⟨hℓ, t', -, hp, hd⟩ := h.table_entry hT hi he
  obtain rfl := xlatTable_inj hp
  refine ⟨T.slot L (vaIdx (ℓ + 1) va), ?_, hd⟩
  rw [calculatePteIndex_eq haddr h1 (by omega), Nat.add_sub_cancel, hq]
  rfl

/-- The level at which a table in use hangs. -/
lemma Wf.level_of_view (h : Wf L Q m) (ht : t < m.tableIdx)
    (hv : view L m.mem ℓ va = .table (L.xlatTable t)) : 1 ≤ ℓ ∧ ℓ ≤ 2 := by
  obtain ⟨T, hT, haddr, -⟩ := h.path hv
  have hlive : (Table.pool t).Live 32 := ht.trans_le h.idx_le
  obtain rfl : T = .pool t := addr_inj (h.live32 hT) hlive haddr
  have := h.used_lt hT
  omega

/-- A call whose region contains the whole span of an entry cuts off the table there. -/
lemma Call.Maps.table_lost (h : c.Maps L m m') (hwf : Wf L Q m) (hwf' : Wf L Q m')
    (ht : t < m.tableIdx) (hv : view L m.mem ℓ va = .table (L.xlatTable t))
    (hin : Inside gran c.virt.toNat c.stop ℓ va) (j : ℕ) (va' : Va) :
    view L m'.mem j va' ≠ .table (L.xlatTable t) := by
  intro hv'
  obtain ⟨h1, h2⟩ := hwf.level_of_view ht hv
  obtain ⟨hj1, hj2⟩ := hwf'.level_of_view (ht.trans_le h.idx_le) hv'
  have hold := h.view_of_old hj1 (by omega) ht hv'
  -- a table hangs in one place only, and there is a leaf now
  obtain ⟨rfl, hsame⟩ := hwf.tree hv hold
  obtain ⟨_, _, _, _, _, hleaf⟩ := h.inside h1 (by omega) hin
  rw [view_congr hsame, hv'] at hleaf
  exact absurd hleaf (by simp)

/-- What becomes of a table during later calls. -/
lemma AddMaps.table_iff (h : AddMaps L m cs m') (hwf : Wf L Q m) (hcs : Fine Q cs)
    (hpool : PoolLasts L m cs) (ht : t < m.tableIdx)
    (hv : view L m.mem ℓ va = .table (L.xlatTable t)) :
    t < m'.tableIdx ∧
      ((∃ j va', view L m'.mem j va' = .table (L.xlatTable t)) ↔
        ∀ c ∈ cs, ¬ Inside gran c.virt.toNat c.stop ℓ va) := by
  obtain ⟨h1, h2⟩ := hwf.level_of_view ht hv
  have key : m.tableIdx ≤ m'.tableIdx ∧
      ((∀ c ∈ cs, ¬ Inside gran c.virt.toNat c.stop ℓ va) →
        view L m'.mem ℓ va = .table (L.xlatTable t)) ∧
      (¬ (∀ c ∈ cs, ¬ Inside gran c.virt.toNat c.stop ℓ va) →
        ∀ j va', view L m'.mem j va' ≠ .table (L.xlatTable t)) := by
    refine AddMaps.induction (P := fun cs m' => m.tableIdx ≤ m'.tableIdx ∧
      ((∀ c ∈ cs, ¬ Inside gran c.virt.toNat c.stop ℓ va) →
        view L m'.mem ℓ va = .table (L.xlatTable t)) ∧
      (¬ (∀ c ∈ cs, ¬ Inside gran c.virt.toNat c.stop ℓ va) →
        ∀ j va', view L m'.mem j va' ≠ .table (L.xlatTable t))) h hwf hcs hpool
      ⟨le_rfl, fun _ => hv, fun hno => absurd (by simp) hno⟩ ?_
    rintro cs₁ c m₁ m₂ - - hwf₁ hwf₂ - hmaps ⟨hle, hkept, hlost⟩
    refine ⟨hle.trans hmaps.idx_le, fun hall => ?_, fun hno j va' hv' => ?_⟩
    · exact hmaps.table_kept h1 (by omega) (hall c (by simp))
        (hkept fun c' hc' => hall c' (by simp [hc']))
    · by_cases hall : ∀ c' ∈ cs₁, ¬ Inside gran c'.virt.toNat c'.stop ℓ va
      · -- this call is the one that cuts the table off
        have hin : Inside gran c.virt.toNat c.stop ℓ va := by
          by_contra hout
          refine hno fun c' hc' => ?_
          rcases List.mem_append.1 hc' with hc' | hc'
          · exact hall c' hc'
          · obtain rfl := List.mem_singleton.1 hc'
            exact hout
        exact hmaps.table_lost hwf₁ hwf₂ (ht.trans_le hle) (hkept hall) hin j va' hv'
      · obtain ⟨hj1, hj2⟩ := hwf₂.level_of_view (ht.trans_le (hle.trans hmaps.idx_le)) hv'
        exact hlost hall j va' (hmaps.view_of_old hj1 (by omega) (ht.trans_le hle) hv')
  refine ⟨ht.trans_le key.1, fun ⟨j, va', hv'⟩ => ?_, fun hall => ⟨ℓ, va, key.2.1 hall⟩⟩
  by_contra hno
  exact key.2.2 hno j va' hv'

/-! ### The counter -/

/-- While the pool lasts, the counter goes up only. -/
lemma AddMaps.tableIdx_le (h : AddMaps L m cs m') (hwf : Wf L Q m) (hcs : Fine Q cs)
    (hpool : PoolLasts L m cs) : m.tableIdx ≤ m'.tableIdx := by
  refine AddMaps.induction (P := fun _ m' => m.tableIdx ≤ m'.tableIdx) h hwf hcs hpool le_rfl ?_
  intro cs₁ c m₁ m₂ _ _ _ _ _ hmaps hle
  exact hle.trans hmaps.idx_le

lemma VisitsDuring.tableIdx_le (h : VisitsDuring L m cs s) (hwf : Wf L Q m) (hcs : Fine Q cs)
    (hpool : PoolLasts L m cs) : m.tableIdx ≤ s.m.tableIdx := by
  obtain ⟨cs₁, c, cs₂, m₁, rfl, hm₁, hs⟩ := h
  obtain ⟨hc, hQ⟩ := hcs c (by simp)
  have hcs₁ : Fine Q cs₁ := fun c' hc' => hcs c' (by simp [hc'])
  have hroom : c.HasRoom L m₁ := fun s' hs' => hpool s' ⟨cs₁, c, cs₂, m₁, rfl, hm₁, hs'⟩
  have hsim : Sim L Q c m₁ s :=
    .of_visits hc hQ (hm₁.wf hwf hcs₁ hpool.of_append) hroom hs
  exact (hm₁.tableIdx_le hwf hcs₁ hpool.of_append).trans hsim.swept.used_le

end Arm64Mmu
