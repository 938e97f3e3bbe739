import Arm64Mmu.Loop.Count

/-!
# Machines that differ in their leaves

A call whose physical address is not page-aligned stores words that need not be leaves, so its
tables are not well-formed.  `Echo L P attrs m m'` relates such a machine `m` to a machine `m'` with
well-formed tables: the same tables at the same levels, and the same words but for the leaves, whose
levels and addresses in `m` satisfy `P`.
`calculate_pte_index` returns the same entries in both (`Echo.found`), and both stay related when
a leaf is stored or a table is linked in both.
-/

namespace Arm64Mmu

open Lib Lib.Radix Lib.Greedy

/-- Two words of an entry of level `ℓ` at `p`: the same word that is not a leaf, or a leaf in the
second machine where `set_pte_block_desc` has written a descriptor in the first. -/
inductive EchoWord (P : ℕ → U64 → Prop) (attrs : U32) (trace : List Event) (ℓ p : ℕ) (d d' : U64) :
    Prop
  | same (h : d = d') (hd : ¬ IsLeaf ℓ d')
  | leaf (hd : IsLeaf ℓ d') (addrPa : U64) (h : d = blockDesc addrPa attrs (BitVec.ofNat 32 ℓ))
      (hmem : .setPteBlockDesc p addrPa attrs (BitVec.ofNat 32 ℓ) ∈ trace) (hP : P ℓ addrPa)

/-- The machine `m` has the tables of `m'`, with other addresses in the leaves. -/
structure Echo (L : Layout) (P : ℕ → U64 → Prop) (attrs : U32) (m m' : Machine) : Prop where
  tableIdx : m.tableIdx = m'.tableIdx
  installs : ∀ {pte table level}, .setPteTableDesc pte table level ∈ m.trace ↔
    .setPteTableDesc pte table level ∈ m'.trace
  /-- Table descriptors were written to directories only. -/
  installed : ∀ {pte table level}, .setPteTableDesc pte table level ∈ m'.trace →
    ∃ T i, UsedAt L m'.trace T level.toNat ∧ level.toNat ≤ 2 ∧ i < T.entries ∧ pte = T.slot L i
  word : ∀ {T ℓ i}, UsedAt L m'.trace T ℓ → i < T.entries →
    EchoWord P attrs m.trace ℓ (T.slot L i) (m.mem (T.slot L i)) (m'.mem (T.slot L i))
  fresh : ∀ {t}, m'.tableIdx ≤ t → t < 32 → ∀ i < 512, m.mem ((Table.pool t).slot L i) = 0

variable {L : Layout} {P : ℕ → U64 → Prop} {Q : LeafInv} {c c' : Call} {attrs level : U32}
  {m m' m₀ : Machine} {s s' : Loop} {T : Table} {ℓ i j p e : ℕ} {va : Va}
  {addrPa addrPa' addr : U64}

lemma EchoWord.mono {trace trace' : List Event} {d d' : U64} (h : EchoWord P attrs trace ℓ p d d')
    (hsub : ∀ ev ∈ trace, ev ∈ trace') : EchoWord P attrs trace' ℓ p d d' := by
  cases h with
  | same h hd => exact .same h hd
  | leaf hd addrPa h hmem hP => exact .leaf hd addrPa h (hsub _ hmem) hP

namespace Echo

/-- Zeroed tables are their own echo. -/
lemma of_zeroed (h0 : Zeroed L m) (P : ℕ → U64 → Prop) (attrs : U32) : Echo L P attrs m m where
  tableIdx := rfl
  installs := Iff.rfl
  installed := by
    intro pte table level hmem
    rw [h0.trace] at hmem
    exact absurd hmem List.not_mem_nil
  word := by
    intro T ℓ i hT hi
    cases T with
    | base =>
        refine .same rfl fun hd => hd.ne_zero ?_
        exact h0.base i hi
    | pool t =>
        obtain ⟨pte, level, hmem, -⟩ := hT
        rw [h0.trace] at hmem
        exact absurd hmem List.not_mem_nil
  fresh := fun {t} _ ht i hi => h0.tables t ht i hi

variable (h : Echo L P attrs m m')
include h

/-- The tables are used at the same levels. -/
lemma usedAt : UsedAt L m.trace T ℓ ↔ UsedAt L m'.trace T ℓ := by
  cases T with
  | base => exact Iff.rfl
  | pool t => simp only [UsedAt, h.installs]

variable (hwf : Wf L Q m')
include hwf

/-- What is below the tables of the aligned machine is below those of its echo. -/
lemma view_table (hv : view L m'.mem j va = .table p) : view L m.mem j va = .table p := by
  induction j generalizing p with
  | zero => exact hv
  | succ j ih =>
      obtain ⟨q, hq, he⟩ := Scheme.exists_table_of_lookup hv
      obtain ⟨T, hT, rfl, hi⟩ := hwf.path hq
      obtain ⟨hj, t, ht, -, hd⟩ := hwf.table_entry hT hi he
      rw [view_of_table (ih hq)]
      have hsame : m.mem (T.slot L (vaIdx (j + 1) va)) = m'.mem (T.slot L (vaIdx (j + 1) va)) := by
        cases h.word hT hi with
        | same h _ => exact h
        | leaf hleaf => exact absurd hd (hleaf.ne_xlatDesc hj (hwf.live32 ht))
      exact (congrArg (classify (j + 1)) hsame).trans he

/-- If none of the leaves looks like a table descriptor, nothing else is below the tables of the
echo. -/
lemma view_table_iff
    (hP : ∀ {ℓ a}, ℓ ≤ 2 → P ℓ a → blockDesc a attrs (BitVec.ofNat 32 ℓ) &&& 3 = 1) (hj : j ≤ 2) :
    view L m.mem j va = .table p ↔ view L m'.mem j va = .table p := by
  refine ⟨fun hv => ?_, h.view_table hwf⟩
  induction j generalizing p with
  | zero => exact hv
  | succ j ih =>
      obtain ⟨q, hq, he⟩ := Scheme.exists_table_of_lookup hv
      have he : classify (j + 1) (m.mem (q + 8 * vaIdx (j + 1) va)) = .table p := he
      have hq := ih (by omega) hq
      obtain ⟨T, hT, rfl, hi⟩ := hwf.path hq
      rw [view_of_table hq]
      cases h.word hT hi with
      | same heq _ =>
          rw [Table.slot] at heq
          rw [← heq, he]
      | leaf _ a heq _ hPa =>
          obtain ⟨-, htype, -⟩ := classify_table he
          rw [Table.slot] at heq
          rw [heq, hP hj hPa] at htype
          exact absurd htype (by decide)

/-- `calculate_pte_index` finds the same entries. -/
lemma found (haddr : addr.toNat = va) (hℓ : ℓ ≤ 2) (hv : view L m'.mem ℓ va = .table p) :
    calculatePteIndex L m.mem addr (BitVec.ofNat 32 (ℓ + 1)) = some (p + 8 * vaIdx (ℓ + 1) va) := by
  rw [calculatePteIndex_eq_some haddr (by omega) (by omega)]
  exact ⟨p, h.view_table hwf hv, rfl⟩

/-- The words off an entry in use, after a change of the entry that keeps the trace. -/
lemma word_off {n n' : Machine} (hT : UsedAt L m'.trace T ℓ) (hi : i < T.entries) {ℓ' : ℕ}
    {U : Table} (hU : UsedAt L m'.trace U ℓ') (hj : j < U.entries) (hne : ¬ (U = T ∧ j = i))
    (hn : ∀ p, p ≠ T.slot L i → n.mem p = m.mem p) (hn' : ∀ p, p ≠ T.slot L i → n'.mem p = m'.mem p)
    (hsub : ∀ ev ∈ m.trace, ev ∈ n.trace) :
    EchoWord P attrs n.trace ℓ' (U.slot L j) (n.mem (U.slot L j)) (n'.mem (U.slot L j)) := by
  have hslot : U.slot L j ≠ T.slot L i := fun heq =>
    hne (slot_inj (hwf.live32 hU) hj (hwf.live32 hT) hi heq)
  rw [hn _ hslot, hn' _ hslot]
  exact (h.word hU hj).mono hsub

/-- The tables left in the pool, after a change of an entry in use. -/
lemma fresh_off {n : Machine} (hT : UsedAt L m'.trace T ℓ) (hi : i < T.entries)
    (hn : ∀ p, p ≠ T.slot L i → n.mem p = m.mem p) {t : ℕ} (hle : m'.tableIdx ≤ t) (ht : t < 32)
    (hj : j < 512) : n.mem ((Table.pool t).slot L j) = 0 := by
  rw [hn _ ?_]
  · exact h.fresh hle ht j hj
  · intro heq
    obtain ⟨rfl, -⟩ := slot_inj (T := .pool t) ht hj (hwf.live32 hT) hi heq
    exact absurd (hwf.used_lt hT).1 (Nat.not_lt.2 hle)

/-- Storing a leaf in an entry of both. -/
lemma storeLeaf (hT : UsedAt L m'.trace T ℓ) (hi : i < T.entries)
    (hd : IsLeaf ℓ (blockDesc addrPa' attrs (BitVec.ofNat 32 ℓ))) (hP : P ℓ addrPa) :
    Echo L P attrs (setPteBlockDesc m (T.slot L i) addrPa attrs (BitVec.ofNat 32 ℓ))
      (setPteBlockDesc m' (T.slot L i) addrPa' attrs (BitVec.ofNat 32 ℓ)) := by
  have hs := setPteBlockDesc_storesLeaf hT hi hd
  have hoff : ∀ (m : Machine) (a : U64) p, p ≠ T.slot L i →
      (setPteBlockDesc m (T.slot L i) a attrs (BitVec.ofNat 32 ℓ)).mem p = m.mem p :=
    fun _ _ _ hp => Function.update_of_ne hp _ _
  refine
    { tableIdx := h.tableIdx
      installs := ?_, installed := ?_, word := ?_
      fresh := fun hle ht _ hj => h.fresh_off hwf hT hi (hoff m addrPa) hle ht hj }
  · intro pte table level
    rw [setPteBlockDesc_trace, setPteBlockDesc_trace]
    simpa using h.installs
  · intro pte table level hmem
    rw [setPteBlockDesc_trace] at hmem
    obtain ⟨U, j, hU, hle, hj, he⟩ := h.installed (by simpa using hmem)
    exact ⟨U, j, hs.usedAt.2 hU, hle, hj, he⟩
  · intro U ℓ' j hU hj
    rw [hs.usedAt] at hU
    by_cases he : U = T ∧ j = i
    · obtain ⟨rfl, rfl⟩ := he
      obtain rfl := hwf.used_unique hU hT
      refine .leaf ?_ addrPa (Function.update_self ..) ?_ hP
      · rw [hs.mem, Function.update_self]
        exact hd
      · simp [setPteBlockDesc_trace]
    · refine h.word_off hwf hT hi hU hj he (hoff m addrPa) (hoff m' addrPa') fun ev hev => ?_
      rw [setPteBlockDesc_trace]
      exact List.mem_append_left _ hev

/-- Linking a zero table in an entry of both. -/
lemma linkTable (hlt : m'.tableIdx < 32) (hT : UsedAt L m'.trace T ℓ) (hℓ : ℓ ≤ 2)
    (hi : i < T.entries) (hlevel : level.toNat = ℓ) :
    Echo L P attrs (newTableDesc L m (T.slot L i) level)
      (newTableDesc L m' (T.slot L i) level) := by
  have hl := hwf.newTableDesc_links hlt hT hℓ hi hlevel
  have hoff : ∀ (m : Machine) p, p ≠ T.slot L i →
      (newTableDesc L m (T.slot L i) level).mem p = m.mem p := fun _ _ hp =>
    Function.update_of_ne hp _ _
  refine
    { tableIdx := congrArg (fun n => (n + 1) % 2 ^ 32) h.tableIdx
      installs := ?_, installed := ?_, word := ?_
      fresh := fun hle ht _ hj => h.fresh_off hwf hT hi (hoff m)
        (Nat.le_of_succ_le (hl.tableIdx.ge.trans hle)) ht hj }
  · intro pte table level'
    rw [setPteTableDesc_trace, setPteTableDesc_trace, List.mem_append, List.mem_append]
    simp only [newPreallocTable, h.installs, h.tableIdx]
  · intro pte table level' hmem
    have hmem : .setPteTableDesc pte table level' ∈ m'.trace ∨ pte = T.slot L i ∧
        table = L.xlatTable m'.tableIdx ∧ level' = level := by
      simpa [setPteTableDesc_trace, newPreallocTable] using hmem
    rcases hmem with hmem | ⟨rfl, -, rfl⟩
    · obtain ⟨U, j, hU, hle, hj, he⟩ := h.installed hmem
      exact ⟨U, j, hl.usedAt.2 (.inl hU), hle, hj, he⟩
    · exact ⟨T, i, hl.usedAt.2 (.inl (hlevel ▸ hT)), hlevel ▸ hℓ, hi, rfl⟩
  · intro U ℓ' j hU hj
    rw [hl.usedAt] at hU
    rcases hU with hU | ⟨rfl, rfl⟩
    · by_cases he : U = T ∧ j = i
      · obtain ⟨rfl, rfl⟩ := he
        obtain rfl := hwf.used_unique hU hT
        have hword : (newTableDesc L m (U.slot L j) level).mem (U.slot L j) =
            tableDesc (L.xlatTable m.tableIdx) := Function.update_self ..
        rw [hword, hl.mem_slot, h.tableIdx]
        exact .same rfl fun hd => hd.ne_xlatDesc hℓ hlt rfl
      · refine h.word_off hwf hT hi hU hj he (hoff m) (hoff m') fun ev hev => ?_
        rw [setPteTableDesc_trace]
        exact List.mem_append_left _ hev
    · -- the entries of the fresh table
      have hzero := h.fresh_off hwf hT hi (hoff m) le_rfl hlt hj
      rw [hl.mem_new j hj]
      exact .same hzero fun hd => hd.ne_zero rfl

end Echo

end Arm64Mmu
