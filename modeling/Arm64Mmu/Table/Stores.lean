import Arm64Mmu.Table.Update

/-!
# The stores of an iteration

What the functions that write tables do to a well-formed machine: `set_pte_block_desc` stores a
leaf, `new_prealloc_table` followed by `set_pte_table_desc` links a zero table, and
`split_pte_block_desc` links a table of pieces.  For the order of the stores it is shown that
only the last store of each counts: until then the tables say what they said before.
-/

namespace Arm64Mmu

open Lib Lib.Radix

/-- The stores of a trace, in program order. -/
def stores (evs : List Event) : List (ℕ × U64) :=
  evs.filterMap fun
    | .store p v => some (p, v)
    | _ => none

/-- The memory after some stores. -/
def replay (mem : Mem) (ws : List (ℕ × U64)) : Mem :=
  ws.foldl (fun mem w => Function.update mem w.1 w.2) mem

/-- From `m` to `m'` the memory changes by the stores in the trace, and until the last of them
the tables say what they said in `m`. -/
def LastStoreCounts (L : Layout) (m m' : Machine) : Prop :=
  ∃ evs, m'.trace = m.trace ++ evs ∧ m'.mem = replay m.mem (stores evs) ∧
    ∀ ws₁ w ws₂, stores evs = ws₁ ++ w :: ws₂ → view L (replay m.mem ws₁) = view L m.mem

variable {L : Layout} {Q : LeafInv} {m m' : Machine} {T : Table} {ℓ i p : ℕ} {d : U64}
  {mem : Mem} {va : Va}

lemma stores_append (evs evs' : List Event) : stores (evs ++ evs') = stores evs ++ stores evs' :=
  List.filterMap_append

lemma mem_stores {evs : List Event} {w : ℕ × U64} (h : w ∈ stores evs) : .store w.1 w.2 ∈ evs := by
  obtain ⟨e, he, hew⟩ := List.mem_filterMap.1 h
  cases e with
  | store p v =>
      obtain rfl : (p, v) = w := by simpa using hew
      exact he
  | setPteTableDesc => simp at hew
  | setPteBlockDesc => simp at hew

lemma replay_append (mem : Mem) (ws ws' : List (ℕ × U64)) :
    replay mem (ws ++ ws') = replay (replay mem ws) ws' := List.foldl_append

lemma replay_of_ne {ws : List (ℕ × U64)} (h : ∀ w ∈ ws, w.1 ≠ p) : replay mem ws p = mem p := by
  induction ws using List.reverseRecOn with
  | nil => rfl
  | append_singleton ws w ih =>
      rw [replay_append]
      show Function.update (replay mem ws) w.1 w.2 p = mem p
      rw [Function.update_of_ne (h w (by simp)).symm]
      exact ih fun w' hw' => h w' (by simp [hw'])

/-- One store that is the only one counts. -/
lemma LastStoreCounts.single {e : Event} {v : U64} (he : stores [e] = [])
    (htrace : m'.trace = m.trace ++ [e] ++ [.store p v])
    (hmem : m'.mem = Function.update m.mem p v) : LastStoreCounts L m m' := by
  have hws : stores ([e] ++ [.store p v]) = [(p, v)] := by
    rw [stores_append, he]
    rfl
  refine ⟨[e] ++ [.store p v], by rw [htrace, List.append_assoc], by rw [hws, hmem]; rfl, ?_⟩
  intro ws₁ w ws₂ h
  rw [hws] at h
  -- nothing but the empty list is a proper prefix
  cases ws₁ with
  | nil => rfl
  | cons w' ws₁ =>
      have := congrArg List.length h
      simp at this

/-! ### `set_pte_block_desc` -/

lemma setPteBlockDesc_trace (m : Machine) (pte : ℕ) (addrPa : U64) (attrs level : U32) :
    (setPteBlockDesc m pte addrPa attrs level).trace = m.trace ++
      [.setPteBlockDesc pte addrPa attrs level, .store pte (blockDesc addrPa attrs level)] :=
  List.append_assoc ..

lemma setPteBlockDesc_storesLeaf {addrPa : U64} {attrs level : U32}
    (hT : UsedAt L m.trace T ℓ) (hi : i < T.entries)
    (hd : IsLeaf ℓ (blockDesc addrPa attrs level)) :
    StoresLeaf L m (setPteBlockDesc m (T.slot L i) addrPa attrs level) T ℓ i
      (blockDesc addrPa attrs level) where
  used := hT
  lt := hi
  isLeaf := hd
  mem := rfl
  tableIdx := rfl
  usedAt := by
    intro T' ℓ'
    rw [setPteBlockDesc_trace]
    exact usedAt_append fun _ _ _ hmem => by simp at hmem
  written := by
    intro p v hp
    have hp : .store p v ∈ m.trace ∨ p = T.slot L i ∧ v = blockDesc addrPa attrs level := by
      simpa [setPteBlockDesc_trace] using hp
    exact hp.imp_right And.left

/-! ### Linking a zero table -/

lemma setPteTableDesc_trace (m : Machine) (pte table : ℕ) (level : U32) :
    (setPteTableDesc m pte table level).trace = m.trace ++
      [.setPteTableDesc pte table level, .store pte (tableDesc table)] := by
  simp [setPteTableDesc, Machine.store, Machine.emit]

/-- In the pool the counter does not wrap around. -/
lemma tableIdx_succ (h : m.tableIdx ≤ 32) : (m.tableIdx + 1) % 2 ^ 32 = m.tableIdx + 1 :=
  Nat.mod_eq_of_lt (by omega)

/-- The machine after `new_prealloc_table` and `set_pte_table_desc`. -/
abbrev newTableDesc (L : Layout) (m : Machine) (pte : ℕ) (level : U32) : Machine :=
  setPteTableDesc (newPreallocTable L m).2 pte (newPreallocTable L m).1 level

namespace Wf

variable (h : Wf L Q m)
include h

/-- The slots in use are not in the fresh table. -/
lemma slot_ne (hlt : m.tableIdx < 32) (hT : UsedAt L m.trace T ℓ) (hi : i < T.entries) {j : ℕ}
    (hj : j < 512) : L.xlatTable m.tableIdx + 8 * j ≠ T.slot L i := by
  intro he
  exact h.used_ne hT (slot_inj (U := .pool m.tableIdx) (h.live32 hT) hi hlt hj he.symm).1

lemma newTableDesc_links {level : U32} (hlt : m.tableIdx < 32) (hT : UsedAt L m.trace T ℓ)
    (hℓ : ℓ ≤ 2) (hi : i < T.entries) (hlevel : level.toNat = ℓ) :
    Links L m (newTableDesc L m (T.slot L i) level) T ℓ i fun _ => 0 where
  used := hT
  level := hℓ
  lt := hi
  mem_slot := Function.update_self ..
  mem_new := by
    intro j hj
    rw [← h.fresh le_rfl hlt j hj]
    exact Function.update_of_ne (h.slot_ne hlt hT hi hj) _ _
  mem_other := fun p hp _ => Function.update_of_ne hp _ _
  tableIdx := tableIdx_succ hlt.le
  usedAt := by
    intro T' ℓ'
    rw [setPteTableDesc_trace, ← hlevel]
    refine usedAt_append_table (T.slot L i) fun pte' table level' => ?_
    simp [newPreallocTable]
  written := by
    intro p v hp
    have hp : .store p v ∈ m.trace ∨ p = T.slot L i ∧ v = tableDesc (L.xlatTable m.tableIdx) := by
      simpa [setPteTableDesc_trace, newPreallocTable] using hp
    exact hp.imp_right fun h => .inl h.1

end Wf

/-! ### Filling a fresh table -/

/-- From `m` to `m'` the words at `p, p + 8, …` are set to `f 0, f 1, …, f (n - 1)`. -/
structure Fills (p n : ℕ) (f : ℕ → U64) (m m' : Machine) : Prop where
  mem_new : ∀ j < n, m'.mem (p + 8 * j) = f j
  mem_other : ∀ q, (∀ j < n, q ≠ p + 8 * j) → m'.mem q = m.mem q
  tableIdx : m'.tableIdx = m.tableIdx
  trace : ∃ evs, m'.trace = m.trace ++ evs ∧ m'.mem = replay m.mem (stores evs) ∧
    (∀ e ∈ evs, ∃ j < n, ∃ v, e = .store (p + 8 * j) v)

lemma foldl_splitEntry_tableIdx (d : U64) (levelshift level : U32) (p : ℕ) (is : List ℕ)
    (m : Machine) : (is.foldl (splitEntry d levelshift level p) m).tableIdx = m.tableIdx := by
  induction is generalizing m with
  | nil => rfl
  | cons i is ih =>
      rw [List.foldl_cons, ih, splitEntry]
      split_ifs <;> rfl

/-- One iteration of the loop of `split_pte_block_desc` makes one store or two to the entry, the
last one of the piece. -/
lemma splitEntry_spec {n : ℕ} (h2 : 2 ≤ ℓ + 1) (h3 : ℓ + 1 ≤ 3) (hn : n < 512) {level : U32}
    (hlevel : level + 1 = BitVec.ofNat 32 (ℓ + 1)) (d : U64) (p : ℕ) (m : Machine) :
    ∃ evs, (splitEntry d (levelToVaSizeShift (level + 1)) level p m n).trace = m.trace ++ evs ∧
      (splitEntry d (levelToVaSizeShift (level + 1)) level p m n).mem =
        replay m.mem (stores evs) ∧
      (∀ e ∈ evs, ∃ v, e = .store (p + 8 * n) v) ∧
      (splitEntry d (levelToVaSizeShift (level + 1)) level p m n).mem (p + 8 * n) =
        splitPiece (ℓ + 1) n d := by
  have hl : level + 1 = 3 ↔ ℓ + 1 = 3 := by
    rw [hlevel, ← BitVec.toNat_inj, BitVec.toNat_ofNat]
    show (ℓ + 1) % 2 ^ 32 = 3 ↔ _
    omega
  have hd := splitPiece_eq h2 h3 hn d
  rw [← hlevel] at hd
  by_cases hc : level + 1 = 3
  · rw [if_pos (hl.1 hc)] at hd
    simp only [splitEntry, if_pos hc, Machine.store, Function.update_self]
    refine ⟨[.store (p + 8 * n) _, .store (p + 8 * n) _], List.append_assoc .., rfl, ?_, hd.symm⟩
    intro e he
    simp only [List.mem_cons, List.not_mem_nil, or_false] at he
    rcases he with rfl | rfl <;> exact ⟨_, rfl⟩
  · rw [if_neg (mt hl.2 hc)] at hd
    simp only [splitEntry, if_neg hc, Machine.store, Function.update_self]
    refine ⟨[.store (p + 8 * n) _], rfl, rfl, fun e he => ⟨_, List.mem_singleton.1 he⟩, ?_⟩
    rw [hd]
    exact BitVec.or_zero.symm

/-- A filled part of the table grows by one entry in an iteration. -/
lemma splitEntry_fills {n : ℕ} (h2 : 2 ≤ ℓ + 1) (h3 : ℓ + 1 ≤ 3) (hn : n < 512) {level : U32}
    (hlevel : level + 1 = BitVec.ofNat 32 (ℓ + 1))
    (h : Fills p n (fun j => splitPiece (ℓ + 1) j d) m m') :
    Fills p (n + 1) (fun j => splitPiece (ℓ + 1) j d) m
      (splitEntry d (levelToVaSizeShift (level + 1)) level p m' n) := by
  obtain ⟨evs, hevs, hrep, hall⟩ := h.trace
  obtain ⟨ws, hws, hmem, hat, hval⟩ := splitEntry_spec h2 h3 hn hlevel d p m'
  have hidx := foldl_splitEntry_tableIdx d (levelToVaSizeShift (level + 1)) level p [n] m'
  rw [List.foldl_cons, List.foldl_nil] at hidx
  have hother : ∀ q, q ≠ p + 8 * n →
      (splitEntry d (levelToVaSizeShift (level + 1)) level p m' n).mem q = m'.mem q := by
    intro q hq
    rw [hmem]
    refine replay_of_ne fun w hw => ?_
    obtain ⟨v, he⟩ := hat _ (mem_stores hw)
    obtain ⟨h1, -⟩ := Event.store.inj he
    rw [h1]
    exact hq.symm
  refine
    { mem_new := ?_, mem_other := ?_, tableIdx := hidx.trans h.tableIdx
      trace := ⟨evs ++ ws, ?_, ?_, ?_⟩ }
  · intro j hj
    rcases Nat.lt_succ_iff_lt_or_eq.1 hj with hj | rfl
    · rw [hother _ (by omega)]
      exact h.mem_new j hj
    · exact hval
  · intro q hq
    rw [hother q (hq n (Nat.lt_succ_self n))]
    exact h.mem_other q fun j hj => hq j (hj.trans (Nat.lt_succ_self n))
  · rw [hws, hevs, List.append_assoc]
  · rw [hmem, hrep, stores_append, replay_append]
  · intro e he
    rcases List.mem_append.1 he with he | he
    · obtain ⟨j, hj, hv⟩ := hall e he
      exact ⟨j, hj.trans (Nat.lt_succ_self n), hv⟩
    · exact ⟨n, Nat.lt_succ_self n, hat e he⟩

/-- The loop of `split_pte_block_desc` fills the new table with the pieces of the block. -/
theorem split_fills {ℓ : ℕ} (h2 : 2 ≤ ℓ + 1) (h3 : ℓ + 1 ≤ 3) {level : U32}
    (hlevel : level + 1 = BitVec.ofNat 32 (ℓ + 1)) (d : U64) (p : ℕ) (m : Machine) :
    Fills p 512 (fun j => splitPiece (ℓ + 1) j d) m
      ((List.range 512).foldl (splitEntry d (levelToVaSizeShift (level + 1)) level p) m) := by
  suffices H : ∀ n ≤ 512, Fills p n (fun j => splitPiece (ℓ + 1) j d) m
      ((List.range n).foldl (splitEntry d (levelToVaSizeShift (level + 1)) level p) m) from
    H 512 le_rfl
  intro n hn
  induction n with
  | zero =>
      exact ⟨fun j hj => absurd hj (Nat.not_lt_zero j), fun _ _ => rfl, rfl,
        [], (List.append_nil _).symm, rfl, fun e he => absurd he List.not_mem_nil⟩
  | succ n ih =>
      rw [List.range_succ, List.foldl_append]
      exact splitEntry_fills h2 h3 hn hlevel (ih (Nat.le_of_succ_le hn))

/-! ### `split_pte_block_desc` -/

lemma splitPteBlockDesc_eq (L : Layout) (m : Machine) (pte : ℕ) (level : U32) :
    splitPteBlockDesc L m pte level =
      setPteTableDesc ((List.range 512).foldl
        (splitEntry (m.mem pte) (levelToVaSizeShift (level + 1)) level (L.xlatTable m.tableIdx))
        { m with tableIdx := (m.tableIdx + 1) % 2 ^ 32 }) pte (L.xlatTable m.tableIdx) level := rfl

lemma level_add_one {level : U32} (h : level = BitVec.ofNat 32 ℓ) :
    level + 1 = BitVec.ofNat 32 (ℓ + 1) := by
  rw [h, BitVec.ofNat_add]
  rfl

lemma splitPteBlockDesc_tableIdx (L : Layout) (pte : ℕ) (level : U32) (h : m.tableIdx ≤ 32) :
    (splitPteBlockDesc L m pte level).tableIdx = m.tableIdx + 1 := by
  have hfold := foldl_splitEntry_tableIdx (m.mem pte) (levelToVaSizeShift (level + 1)) level
    (L.xlatTable m.tableIdx) (List.range 512) { m with tableIdx := (m.tableIdx + 1) % 2 ^ 32 }
  rw [splitPteBlockDesc_eq]
  generalize (List.range 512).foldl _ _ = m₁ at hfold ⊢
  exact hfold.trans (tableIdx_succ h)

/-- `split_pte_block_desc` fills the next table with the pieces of the block, and then installs
it. -/
lemma splitPteBlockDesc_spec (L : Layout) (m : Machine) (pte : ℕ) {level : U32} (h1 : 1 ≤ ℓ)
    (h2 : ℓ ≤ 2) (hlevel : level = BitVec.ofNat 32 ℓ) :
    ∃ m₁, Fills (L.xlatTable m.tableIdx) 512 (fun j => splitPiece (ℓ + 1) j (m.mem pte))
        { m with tableIdx := (m.tableIdx + 1) % 2 ^ 32 } m₁ ∧
      splitPteBlockDesc L m pte level =
        setPteTableDesc m₁ pte (L.xlatTable m.tableIdx) level :=
  ⟨_, split_fills (by omega) (by omega) (level_add_one hlevel) (m.mem pte)
    (L.xlatTable m.tableIdx) { m with tableIdx := (m.tableIdx + 1) % 2 ^ 32 },
    splitPteBlockDesc_eq ..⟩

namespace Wf

variable (h : Wf L Q m)
include h

/-- A memory that agrees on the tables in use says the same. -/
lemma view_frame
    (hag : ∀ {T ℓ i}, UsedAt L m.trace T ℓ → i < T.entries →
      mem (T.slot L i) = m.mem (T.slot L i)) :
    view L mem = view L m.mem := by
  refine Scheme.lookup_frame fun {j va q} hq => ?_
  obtain ⟨T, hT, rfl, hi⟩ := h.path hq
  show classify (j + 1) (mem (T.slot L _)) = classify (j + 1) (m.mem (T.slot L _))
  exact congrArg _ (hag hT hi)

/-- Splitting a block links a table of its pieces. -/
theorem split_links {level : U32} (hlt : m.tableIdx < 32) (hT : UsedAt L m.trace T ℓ)
    (hℓ : ℓ ≤ 2) (hi : i < T.entries) (hlevel : level = BitVec.ofNat 32 ℓ) :
    Links L m (splitPteBlockDesc L m (T.slot L i) level) T ℓ i
      fun j => splitPiece (ℓ + 1) j (m.mem (T.slot L i)) := by
  obtain ⟨h1, -⟩ := h.level_bounds hT
  have hnat : level.toNat = ℓ := by rw [hlevel, BitVec.toNat_ofNat]; omega
  obtain ⟨m₁, hfill, heq⟩ := splitPteBlockDesc_spec L m (T.slot L i) h1 hℓ hlevel
  obtain ⟨evs, hevs, -, hall⟩ := hfill.trace
  rw [heq]
  refine
    { used := hT, level := hℓ, lt := hi
      mem_slot := Function.update_self ..
      mem_new := ?_, mem_other := ?_, usedAt := ?_
      tableIdx := hfill.tableIdx.trans (tableIdx_succ hlt.le)
      written := ?_ }
  · intro j hj
    rw [← hfill.mem_new j hj]
    exact Function.update_of_ne (h.slot_ne hlt hT hi hj) _ _
  · intro p hp hnew
    show Function.update m₁.mem _ _ p = _
    rw [Function.update_of_ne hp]
    exact hfill.mem_other p hnew
  · intro T' ℓ'
    rw [setPteTableDesc_trace, hevs, List.append_assoc, ← hnat]
    refine usedAt_append_table (T.slot L i) fun pte' table level' => ?_
    rw [List.mem_append]
    constructor
    · rintro (he | he)
      · obtain ⟨j, -, v, he⟩ := hall _ he
        exact absurd he (by simp)
      · simpa using he
    · rintro ⟨rfl, rfl, rfl⟩
      exact .inr (by simp)
  · intro p v hp
    rw [setPteTableDesc_trace, hevs, List.append_assoc, List.mem_append, List.mem_append] at hp
    rcases hp with hp | hp | hp
    · exact .inl hp
    · obtain ⟨j, hj, v', he⟩ := hall _ hp
      exact .inr (.inr ⟨j, hj, (Event.store.inj he).1⟩)
    · simp only [List.mem_cons, reduceCtorEq, Event.store.injEq, List.not_mem_nil, or_false,
        false_or] at hp
      exact .inr (.inl hp.1)

/-- Until the last store of a split, which switches the entry, the tables say what they said. -/
theorem split_lastStoreCounts {level : U32} (hlt : m.tableIdx < 32) (hT : UsedAt L m.trace T ℓ)
    (hℓ : ℓ ≤ 2) (hlevel : level = BitVec.ofNat 32 ℓ) (i : ℕ) :
    LastStoreCounts L m (splitPteBlockDesc L m (T.slot L i) level) := by
  obtain ⟨h1, -⟩ := h.level_bounds hT
  obtain ⟨m₁, hfill, heq⟩ := splitPteBlockDesc_spec L m (T.slot L i) h1 hℓ hlevel
  obtain ⟨evs, hevs, hrep, hall⟩ := hfill.trace
  rw [heq]
  have hws : stores (evs ++ [.setPteTableDesc (T.slot L i) (L.xlatTable m.tableIdx) level,
      .store (T.slot L i) (tableDesc (L.xlatTable m.tableIdx))]) =
      stores evs ++ [(T.slot L i, tableDesc (L.xlatTable m.tableIdx))] := stores_append ..
  refine ⟨_, by rw [setPteTableDesc_trace, hevs, List.append_assoc], ?_, ?_⟩
  · rw [hws, replay_append, ← hrep]
    rfl
  · intro ws₁ w ws₂ hsplit
    rw [hws] at hsplit
    -- the stores before the last one go to the fresh table
    have hpre : stores evs = ws₁ ++ (w :: ws₂).dropLast := by
      rw [← List.dropLast_append_of_ne_nil (by simp), ← hsplit, List.dropLast_concat]
    refine h.view_frame fun hT' hi' => replay_of_ne fun w' hw' => ?_
    have hmem : w' ∈ stores evs := by
      rw [hpre]
      exact List.mem_append_left _ hw'
    obtain ⟨j, hj, v, he⟩ := hall _ (mem_stores hmem)
    rw [(Event.store.inj he).1]
    exact h.slot_ne hlt hT' hi' hj

end Wf

end Arm64Mmu
