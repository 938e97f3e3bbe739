import Arm64Mmu.Lib.Renaming
import Arm64Mmu.Loop.Count
import Arm64Mmu.Loop.Frame

/-!
# Mapping two disjoint regions in either order

No span inside one of two disjoint regions meets the other.  So what two calls for them do to the
view (`MapsBoth`) does not depend on their order: a span inside a region has the leaf of that
region, a span that is cut by one of the regions has a table, and the others are as before.  The
tables are the same up to the numbers of those that the two calls take, and they take one for
each span without a table that one of the regions cuts.
-/

namespace Arm64Mmu

open Lib Lib.Radix Lib.Greedy

/-- The two regions have no address in common. -/
def Call.DisjointFrom (c₁ c₂ : Call) : Prop := ∀ va, c₁.Covers va → ¬ c₂.Covers va

/-- What two calls for disjoint regions do to the tables. -/
structure MapsBoth (L : Layout) (c₁ c₂ : Call) (m m' : Machine) : Prop where
  wf : Wf L anyLeaf m
  wf' : Wf L anyLeaf m'
  inside₁ : ∀ {ℓ} {va : Va}, 1 ≤ ℓ → ℓ ≤ 3 → Inside gran c₁.virt.toNat c₁.stop ℓ va →
    Sweep.Mapped (scheme L) gran (fun va => va) c₁.virt.toNat c₁.stop c₁.leafAt
      (view L m'.mem) ℓ va
  inside₂ : ∀ {ℓ} {va : Va}, 1 ≤ ℓ → ℓ ≤ 3 → Inside gran c₂.virt.toNat c₂.stop ℓ va →
    Sweep.Mapped (scheme L) gran (fun va => va) c₂.virt.toNat c₂.stop c₂.leafAt
      (view L m'.mem) ℓ va
  outside : ∀ {ℓ} {va : Va}, 1 ≤ ℓ → ℓ ≤ 3 → ¬ Meets gran c₁.virt.toNat c₁.stop ℓ va →
    ¬ Meets gran c₂.virt.toNat c₂.stop ℓ va → view L m'.mem ℓ va = view L m.mem ℓ va
  kept : ∀ {ℓ p} {va : Va}, 1 ≤ ℓ → ℓ ≤ 3 → ¬ Inside gran c₁.virt.toNat c₁.stop ℓ va →
    ¬ Inside gran c₂.virt.toNat c₂.stop ℓ va → view L m.mem ℓ va = .table p →
    view L m'.mem ℓ va = .table p
  linked : ∀ {ℓ} {va : Va}, 1 ≤ ℓ → ℓ ≤ 3 → Cut gran c₁.virt.toNat c₁.stop ℓ va ∨
    Cut gran c₂.virt.toNat c₂.stop ℓ va → (∀ p, view L m.mem ℓ va ≠ .table p) →
    ∃ t, m.tableIdx ≤ t ∧ t < m'.tableIdx ∧ view L m'.mem ℓ va = .table (L.xlatTable t)
  grafted : ∀ t, m.tableIdx ≤ t → t < m'.tableIdx → ∃ ℓ, ∃ va : Va, 1 ≤ ℓ ∧ ℓ ≤ 3 ∧
    (Cut gran c₁.virt.toNat c₁.stop ℓ va ∨ Cut gran c₂.virt.toNat c₂.stop ℓ va) ∧
    view L m'.mem ℓ va = .table (L.xlatTable t)
  /-- A table that was handed out before hangs where it hung. -/
  old : ∀ {ℓ t} {va : Va}, 1 ≤ ℓ → ℓ ≤ 3 → t < m.tableIdx →
    view L m'.mem ℓ va = .table (L.xlatTable t) → view L m.mem ℓ va = .table (L.xlatTable t)
  frame : ∀ {T : Table} {i}, T.Live m.tableIdx → i < T.entries → ¬ c₁.Touches L m (T.slot L i) →
    ¬ c₂.Touches L m (T.slot L i) → m'.mem (T.slot L i) = m.mem (T.slot L i)

variable {L : Layout} {c c₁ c₂ : Call} {m a b m' : Machine} {ℓ t t' i p : ℕ} {va : Va}
  {T U : Table} {σ : ℕ → ℕ}

/-! ### Disjoint regions -/

namespace Call.DisjointFrom

lemma symm (h : c₁.DisjointFrom c₂) : c₂.DisjointFrom c₁ := fun va h₂ h₁ => h va h₁ h₂

/-- A span inside one region does not meet the other. -/
lemma not_meets (h : c₁.DisjointFrom c₂) (hc₂ : c₂.Paged)
    (hin : Inside gran c₁.virt.toNat c₁.stop ℓ va) :
    ¬ Meets gran c₂.virt.toNat c₂.stop ℓ va := by
  intro hm
  obtain ⟨va', hdiv, hle, hlt⟩ := Call.exists_mem_of_meets hc₂ hm
  rw [inside_congr hdiv] at hin
  exact h va' (gran_nested.mem_of_inside hin) ⟨hle, hlt⟩

end Call.DisjointFrom

/-! ### Two calls -/

/-- The entry of a table handed out that a call may change, by the address that uses it. -/
lemma Wf.exists_of_touches (hwf : Wf L anyLeaf m) (hT : T.Live m.tableIdx) (hi : i < T.entries)
    (h : c.Touches L m (T.slot L i)) : ∃ (ℓ : ℕ) (va : Va), ℓ ≤ 2 ∧
      view L m.mem ℓ va = .table (T.addr L) ∧ i = vaIdx (ℓ + 1) va ∧
      Meets gran c.virt.toNat c.stop (ℓ + 1) va ∧
      ∀ j, 1 ≤ j → j ≤ ℓ → Cut gran c.virt.toNat c.stop j va := by
  have hT32 := hT.mono hwf.idx_le
  rcases h with ⟨t, j, hle, hlt, hj, he⟩ | ⟨ℓ, q, va, hℓ, hv, he, hmeets, hcut⟩
  · obtain ⟨rfl, -⟩ := slot_inj (U := .pool t) hT32 hi hlt hj he
    exact absurd hle (Nat.not_le.2 hT)
  · obtain ⟨T', hT', rfl, hi'⟩ := hwf.path hv
    obtain ⟨rfl, hidx⟩ := slot_inj hT32 hi (hwf.live32 hT') hi' he
    exact ⟨ℓ, va, hℓ, hv, hidx, hmeets, hcut⟩

/-- What the second of two calls may change of the old tables, it may change without the first. -/
lemma Call.Maps.touches (hmaps : c₁.Maps L m a) (hwfa : Wf L anyLeaf a) (hT : T.Live m.tableIdx)
    (hi : i < T.entries) (h : c₂.Touches L a (T.slot L i)) : c₂.Touches L m (T.slot L i) := by
  obtain ⟨ℓ, va, hℓ, hv, rfl, hmeets, hcut⟩ :=
    hwfa.exists_of_touches (hT.mono hmaps.idx_le) hi h
  refine .inr ⟨ℓ, T.addr L, va, hℓ, ?_, rfl, hmeets, hcut⟩
  rcases Nat.eq_zero_or_pos ℓ with rfl | hpos
  · exact hv
  · cases T with
    | base =>
        obtain ⟨ℓ, rfl⟩ : ∃ k, ℓ = k + 1 := ⟨ℓ - 1, by omega⟩
        obtain ⟨t, ht, hp⟩ := hwfa.path_succ hv
        have := addr_inj (L := L) (T := .base) (U := .pool t) trivial (hwfa.live32 ht) hp
        exact absurd this (by simp)
    | pool t => exact hmaps.view_of_old hpos (by omega) hT hv

/-- Two calls for disjoint regions, one after the other. -/
lemma MapsBoth.of_maps (hc₁ : c₁.Paged) (hc₂ : c₂.Paged) (hdisj : c₁.DisjointFrom c₂)
    (hwf : Wf L anyLeaf m) (hwfa : Wf L anyLeaf a) (hwf' : Wf L anyLeaf m')
    (h₁ : c₁.Maps L m a) (h₂ : c₂.Maps L a m')
    (hf₁ : ∀ p, ¬ c₁.Touches L m p → a.mem p = m.mem p)
    (hf₂ : ∀ p, ¬ c₂.Touches L a p → m'.mem p = a.mem p) : MapsBoth L c₁ c₂ m m' := by
  -- a span that the first region cuts is not inside the second one, and the other way round
  have hnot₁ : ∀ {ℓ} {va : Va}, Meets gran c₁.virt.toNat c₁.stop ℓ va →
      ¬ Inside gran c₂.virt.toNat c₂.stop ℓ va := fun hm hin =>
    hdisj.symm.not_meets hc₁ hin hm
  have hnot₂ : ∀ {ℓ} {va : Va}, Meets gran c₂.virt.toNat c₂.stop ℓ va →
      ¬ Inside gran c₁.virt.toNat c₁.stop ℓ va := fun hm hin => hdisj.not_meets hc₂ hin hm
  refine
    { wf := hwf, wf' := hwf'
      inside₁ := ?_, inside₂ := h₂.inside, outside := ?_, kept := ?_, linked := ?_
      grafted := ?_, old := ?_, frame := ?_ }
  · intro ℓ va h1 h3 hin
    exact (h₁.inside h1 h3 hin).congr (h₂.outside h1 h3 (hdisj.not_meets hc₂ hin))
  · intro ℓ va h1 h3 hm₁ hm₂
    rw [h₂.outside h1 h3 hm₂, h₁.outside h1 h3 hm₁]
  · intro ℓ p va h1 h3 hin₁ hin₂ hv
    exact h₂.table_kept h1 h3 hin₂ (h₁.table_kept h1 h3 hin₁ hv)
  · intro ℓ va h1 h3 hcut hnot
    by_cases hcut₁ : Cut gran c₁.virt.toNat c₁.stop ℓ va
    · obtain ⟨t, hle, hlt, hv⟩ := h₁.linked h1 h3 hcut₁ hnot
      exact ⟨t, hle, hlt.trans_le h₂.idx_le, h₂.table_kept h1 h3 (hnot₁ hcut₁.1) hv⟩
    · have hcut₂ := hcut.resolve_left hcut₁
      have hout : ¬ Meets gran c₁.virt.toNat c₁.stop ℓ va := fun hm =>
        hcut₁ ⟨hm, hnot₂ hcut₂.1⟩
      obtain ⟨t, hle, hlt, hv⟩ := h₂.linked h1 h3 hcut₂ (by rwa [h₁.outside h1 h3 hout])
      exact ⟨t, h₁.idx_le.trans hle, hlt, hv⟩
  · intro t hle hlt
    by_cases hlt' : t < a.tableIdx
    · obtain ⟨ℓ, va, h1, h3, hcut, hv⟩ := h₁.grafted t hle hlt'
      exact ⟨ℓ, va, h1, h3, .inl hcut, h₂.table_kept h1 h3 (hnot₁ hcut.1) hv⟩
    · obtain ⟨ℓ, va, h1, h3, hcut, hv⟩ := h₂.grafted t (Nat.not_lt.1 hlt') hlt
      exact ⟨ℓ, va, h1, h3, .inr hcut, hv⟩
  · intro ℓ t va h1 h3 ht hv
    exact h₁.view_of_old h1 h3 ht (h₂.view_of_old h1 h3 (ht.trans_le h₁.idx_le) hv)
  · intro T i hT hi ht₁ ht₂
    rw [hf₂ _ fun h => ht₂ (h₁.touches hwfa hT hi h), hf₁ _ ht₁]

namespace MapsBoth

lemma symm (h : MapsBoth L c₁ c₂ m m') : MapsBoth L c₂ c₁ m m' :=
  { wf := h.wf, wf' := h.wf'
    inside₁ := h.inside₂, inside₂ := h.inside₁
    outside := fun h1 h3 hm₁ hm₂ => h.outside h1 h3 hm₂ hm₁
    kept := fun h1 h3 hin₁ hin₂ => h.kept h1 h3 hin₂ hin₁
    linked := fun h1 h3 hcut => h.linked h1 h3 hcut.symm
    grafted := fun t hle hlt => by
      obtain ⟨ℓ, va, h1, h3, hcut, hv⟩ := h.grafted t hle hlt
      exact ⟨ℓ, va, h1, h3, hcut.symm, hv⟩
    old := h.old
    frame := fun hT hi ht₁ ht₂ => h.frame hT hi ht₂ ht₁ }

/-- A table of the view is not inside one of the regions. -/
lemma not_inside (h : MapsBoth L c₁ c₂ m m') (h1 : 1 ≤ ℓ) (h3 : ℓ ≤ 3)
    (hv : view L m'.mem ℓ va = .table p) :
    ¬ Inside gran c₁.virt.toNat c₁.stop ℓ va ∧ ¬ Inside gran c₂.virt.toNat c₂.stop ℓ va := by
  constructor
  · intro hin
    obtain ⟨_, _, _, _, _, hleaf⟩ := h.inside₁ h1 h3 hin
    simp [hv] at hleaf
  · intro hin
    obtain ⟨_, _, _, _, _, hleaf⟩ := h.inside₂ h1 h3 hin
    simp [hv] at hleaf

/-- A span that one of the regions cuts has a table. -/
lemma cut (h : MapsBoth L c₁ c₂ m m') (hdisj : c₁.DisjointFrom c₂) (hc₁ : c₁.Paged)
    (hc₂ : c₂.Paged) (h1 : 1 ≤ ℓ) (h3 : ℓ ≤ 3)
    (hcut : Cut gran c₁.virt.toNat c₁.stop ℓ va ∨ Cut gran c₂.virt.toNat c₂.stop ℓ va) :
    ∃ p, view L m'.mem ℓ va = .table p := by
  by_cases htab : ∃ p, view L m.mem ℓ va = .table p
  · obtain ⟨p, hp⟩ := htab
    refine ⟨p, h.kept h1 h3 ?_ ?_ hp⟩
    · rcases hcut with hcut | hcut
      · exact hcut.2
      · exact fun hin => hdisj.not_meets hc₂ hin hcut.1
    · rcases hcut with hcut | hcut
      · exact fun hin => hdisj.symm.not_meets hc₁ hin hcut.1
      · exact hcut.2
  · obtain ⟨t, -, -, hv⟩ := h.linked h1 h3 hcut (not_exists.1 htab)
    exact ⟨_, hv⟩

end MapsBoth

/-! ### The same entries up to the numbers of the tables -/

/-- Two machines to which the two calls have led from `m`. -/
structure Reordered (L : Layout) (c₁ c₂ : Call) (m a b : Machine) : Prop where
  paged₁ : c₁.Paged
  paged₂ : c₂.Paged
  disjoint : c₁.DisjointFrom c₂
  left : MapsBoth L c₁ c₂ m a
  right : MapsBoth L c₁ c₂ m b
  tableIdx : a.tableIdx = b.tableIdx

/-- The two tables hang in the same span. -/
def Matched (L : Layout) (a b : Machine) (t t' : ℕ) : Prop :=
  ∃ (ℓ : ℕ) (va : Va), 1 ≤ ℓ ∧ ℓ ≤ 3 ∧ view L a.mem ℓ va = .table (L.xlatTable t) ∧
    view L b.mem ℓ va = .table (L.xlatTable t')

/-- The words are the same, but for the number of a table that a descriptor points to. -/
def SameWord (L : Layout) (σ : ℕ → ℕ) (d e : U64) : Prop :=
  d = e ∨ ∃ t, d = tableDesc (L.xlatTable t) ∧ e = tableDesc (L.xlatTable (σ t))

/-- The table with a new number. -/
def Table.rename (σ : ℕ → ℕ) : Table → Table
  | .base => .base
  | .pool t => .pool (σ t)

/-- The tables handed out are the same up to the numbers of those after the first `n`. -/
def SameUpToNumbers (L : Layout) (n : ℕ) (a b : Machine) : Prop :=
  ∃ σ : ℕ → ℕ, (∀ t < n, σ t = t) ∧ Set.BijOn σ (Set.Iio a.tableIdx) (Set.Iio b.tableIdx) ∧
    ∀ (T : Table) (i : ℕ), T.Live a.tableIdx → i < T.entries →
      SameWord L σ (a.mem (T.slot L i)) (b.mem ((T.rename σ).slot L i))

namespace Reordered

variable (h : Reordered L c₁ c₂ m a b)
include h

lemma symm : Reordered L c₁ c₂ m b a :=
  ⟨h.paged₁, h.paged₂, h.disjoint, h.right, h.left, h.tableIdx.symm⟩

/-- The entries are the same, or tables both. -/
theorem view_eq (h1 : 1 ≤ ℓ) (h3 : ℓ ≤ 3) (va : Va) : view L a.mem ℓ va = view L b.mem ℓ va ∨
    ∃ p q, view L a.mem ℓ va = .table p ∧ view L b.mem ℓ va = .table q := by
  by_cases hin₁ : Inside gran c₁.virt.toNat c₁.stop ℓ va
  · exact .inl ((h.left.inside₁ h1 h3 hin₁).unique (h.right.inside₁ h1 h3 hin₁))
  by_cases hin₂ : Inside gran c₂.virt.toNat c₂.stop ℓ va
  · exact .inl ((h.left.inside₂ h1 h3 hin₂).unique (h.right.inside₂ h1 h3 hin₂))
  by_cases hm : Meets gran c₁.virt.toNat c₁.stop ℓ va ∨ Meets gran c₂.virt.toNat c₂.stop ℓ va
  · have hcut : Cut gran c₁.virt.toNat c₁.stop ℓ va ∨ Cut gran c₂.virt.toNat c₂.stop ℓ va :=
      hm.imp (fun hm => ⟨hm, hin₁⟩) fun hm => ⟨hm, hin₂⟩
    obtain ⟨p, hp⟩ := h.left.cut h.disjoint h.paged₁ h.paged₂ h1 h3 hcut
    obtain ⟨q, hq⟩ := h.right.cut h.disjoint h.paged₁ h.paged₂ h1 h3 hcut
    exact .inr ⟨p, q, hp, hq⟩
  · obtain ⟨hm₁, hm₂⟩ := not_or.1 hm
    exact .inl ((h.left.outside h1 h3 hm₁ hm₂).trans (h.right.outside h1 h3 hm₁ hm₂).symm)

/-- The walks end in the same way. -/
theorem walkEnd_eq (r : SysRegs) (hva : (va : ℕ) < 2 ^ 32) :
    walkEnd (enableMmu L r) a.mem va = walkEnd (enableMmu L r) b.mem va := by
  rw [Arm64Mmu.walkEnd_eq r hva, Arm64Mmu.walkEnd_eq r hva]
  rcases h.view_eq le_rfl (by omega) va with e1 | ⟨_, _, e1, e1'⟩ <;>
    rcases h.view_eq (ℓ := 2) (by omega) (by omega) va with e2 | ⟨_, _, e2, e2'⟩ <;>
      rcases h.view_eq (ℓ := 3) (by omega) le_rfl va with e3 | ⟨_, _, e3, e3'⟩ <;>
        simp only [*]

/-- A table that was handed out before hangs in the same spans. -/
lemma old (h1 : 1 ≤ ℓ) (h3 : ℓ ≤ 3) (ht : t < m.tableIdx)
    (hv : view L a.mem ℓ va = .table (L.xlatTable t)) :
    view L b.mem ℓ va = .table (L.xlatTable t) := by
  obtain ⟨hin₁, hin₂⟩ := h.left.not_inside h1 h3 hv
  exact h.right.kept h1 h3 hin₁ hin₂ (h.left.old h1 h3 ht hv)

/-- A table matches one table at most. -/
lemma matched_unique {t₁ t₂ : ℕ} (hm₁ : Matched L a b t t₁) (hm₂ : Matched L a b t t₂) :
    t₁ = t₂ := by
  obtain ⟨ℓ, va, -, -, hv, hv₁⟩ := hm₁
  obtain ⟨ℓ', va', -, -, hv', hv₂⟩ := hm₂
  obtain ⟨rfl, hsame⟩ := h.left.wf'.tree hv hv'
  rw [view_congr hsame, hv₂] at hv₁
  exact (xlatTable_inj (Entry.table.inj hv₁)).symm

/-- A table that the calls took matches a table that they took in the other order. -/
lemma exists_matched (hle : m.tableIdx ≤ t) (hlt : t < a.tableIdx) :
    ∃ t', m.tableIdx ≤ t' ∧ t' < a.tableIdx ∧ Matched L a b t t' := by
  obtain ⟨ℓ, va, h1, h3, hcut, hv⟩ := h.left.grafted t hle hlt
  have hnot : ∀ p, view L m.mem ℓ va ≠ .table p := by
    intro p hp
    -- the span would still have its old table
    obtain ⟨hin₁, hin₂⟩ := h.left.not_inside h1 h3 hv
    obtain ⟨ℓ, rfl⟩ : ∃ k, ℓ = k + 1 := ⟨ℓ - 1, by omega⟩
    obtain ⟨t₀, ht₀, rfl⟩ := h.left.wf.path_succ hp
    have hkept := h.left.kept h1 h3 hin₁ hin₂ hp
    rw [hv] at hkept
    obtain rfl := xlatTable_inj (Entry.table.inj hkept)
    exact absurd (h.left.wf.used_lt ht₀).1 (Nat.not_lt.2 hle)
  obtain ⟨t', hle', hlt', hv'⟩ := h.right.linked h1 h3 hcut hnot
  exact ⟨t', hle', h.tableIdx ▸ hlt', ℓ, va, h1, h3, hv, hv'⟩

/-- The words of an entry that an address uses on both sides are the same. -/
lemma sameWord (hold : ∀ t < m.tableIdx, σ t = t)
    (hnew : ∀ t, m.tableIdx ≤ t → t < a.tableIdx → Matched L a b t (σ t))
    (hT : UsedAt L a.trace T (ℓ + 1)) (hv : view L a.mem ℓ va = .table (T.addr L))
    (hv' : view L b.mem ℓ va = .table (U.addr L)) (hU : UsedAt L b.trace U (ℓ + 1))
    (hi : vaIdx (ℓ + 1) va < T.entries) (hi' : vaIdx (ℓ + 1) va < U.entries) :
    SameWord L σ (a.mem (T.slot L (vaIdx (ℓ + 1) va))) (b.mem (U.slot L (vaIdx (ℓ + 1) va))) := by
  have h3 := (h.left.wf'.level_bounds hT).2
  have hword := h.left.wf'.word_eq hv hT hi
  have hword' := h.right.wf'.word_eq hv' hU hi'
  rcases h.view_eq (Nat.succ_pos ℓ) h3 va with heq | ⟨p, q, hp, hq⟩
  · rw [← heq] at hword'
    cases hview : view L a.mem (ℓ + 1) va with
    | invalid =>
        rw [hview] at hword hword'
        exact .inl (hword.trans hword'.symm)
    | leaf d =>
        rw [hview] at hword hword'
        exact .inl (hword.trans hword'.symm)
    | table p =>
        rw [hview] at hword hword'
        obtain ⟨t, -, rfl, hd⟩ := hword
        obtain ⟨t', -, hp, hd'⟩ := hword'
        obtain rfl := xlatTable_inj hp
        exact .inl (hd.trans hd'.symm)
  · rw [hp] at hword
    rw [hq] at hword'
    obtain ⟨t, hlt, rfl, hd⟩ := hword
    obtain ⟨t', -, rfl, hd'⟩ := hword'
    refine .inr ⟨t, hd, ?_⟩
    rw [hd']
    by_cases ht : t < m.tableIdx
    · have hsame := h.old (Nat.succ_pos ℓ) h3 ht hp
      rw [hq] at hsame
      rw [hold t ht, xlatTable_inj (Entry.table.inj hsame)]
    · rw [h.matched_unique ⟨ℓ + 1, va, Nat.succ_pos ℓ, h3, hp, hq⟩ (hnew t (Nat.not_lt.1 ht) hlt)]

/-- A table that is handed out on the left and hangs at level `ℓ` holds the same words as the table
that hangs there on the right. -/
lemma sameWord_table (hold : ∀ t < m.tableIdx, σ t = t)
    (hnew : ∀ t, m.tableIdx ≤ t → t < a.tableIdx → Matched L a b t (σ t)) (h1 : 1 ≤ ℓ)
    (hv : view L a.mem ℓ va = .table (L.xlatTable t))
    (hv' : view L b.mem ℓ va = .table (L.xlatTable t')) (hi : i < 512) :
    SameWord L σ (a.mem ((Table.pool t).slot L i)) (b.mem ((Table.pool t').slot L i)) := by
  obtain ⟨ℓ, rfl⟩ : ∃ k, ℓ = k + 1 := ⟨ℓ - 1, by omega⟩
  obtain ⟨t₁, ht, hp⟩ := h.left.wf'.path_succ hv
  obtain rfl := xlatTable_inj hp
  obtain ⟨t₂, ht', hp'⟩ := h.right.wf'.path_succ hv'
  obtain rfl := xlatTable_inj hp'
  have h3 := (h.left.wf'.used_lt ht).2.2
  have hi' : i < if ℓ + 1 = 0 then 64 else 512 := by rwa [if_neg (Nat.succ_ne_zero ℓ)]
  obtain ⟨va', hsame, rfl⟩ := exists_va (L := L) va (by omega) hi'
  rw [view_congr hsame] at hv hv'
  exact h.sameWord (T := .pool t) (U := .pool t') hold hnew ht hv hv' ht' (vaIdx_lt _ _)
    (vaIdx_lt _ _)

/-- The tables that were handed out before hold the same words. -/
lemma sameWord_old (hold : ∀ t < m.tableIdx, σ t = t)
    (hnew : ∀ t, m.tableIdx ≤ t → t < a.tableIdx → Matched L a b t (σ t))
    (hT : T.Live m.tableIdx) (hi : i < T.entries) :
    SameWord L σ (a.mem (T.slot L i)) (b.mem (T.slot L i)) := by
  -- an entry that one of the calls may change is still used on both sides
  have htouched : ∀ {c : Call}, c.Touches L m (T.slot L i) →
      (∀ {j} {va : Va}, Cut gran c.virt.toNat c.stop j va →
        ¬ Inside gran c₁.virt.toNat c₁.stop j va ∧ ¬ Inside gran c₂.virt.toNat c₂.stop j va) →
      SameWord L σ (a.mem (T.slot L i)) (b.mem (T.slot L i)) := by
    intro c ht hnot
    obtain ⟨ℓ, va, hℓ, hv, rfl, -, hcut⟩ := h.left.wf.exists_of_touches hT hi ht
    have hboth : view L a.mem ℓ va = .table (T.addr L) ∧ view L b.mem ℓ va = .table (T.addr L) := by
      rcases Nat.eq_zero_or_pos ℓ with rfl | hpos
      · exact ⟨hv, hv⟩
      · obtain ⟨hin₁, hin₂⟩ := hnot (hcut ℓ hpos le_rfl)
        exact ⟨h.left.kept hpos (by omega) hin₁ hin₂ hv, h.right.kept hpos (by omega) hin₁ hin₂ hv⟩
    obtain ⟨T₁, hT₁, haddr₁, hi₁⟩ := h.left.wf'.path hboth.1
    obtain ⟨T₂, hT₂, haddr₂, hi₂⟩ := h.right.wf'.path hboth.2
    have hT32 := hT.mono h.left.wf.idx_le
    obtain rfl := addr_inj (h.left.wf'.live32 hT₁) hT32 haddr₁
    obtain rfl := addr_inj (h.right.wf'.live32 hT₂) hT32 haddr₂
    exact h.sameWord hold hnew hT₁ hboth.1 hboth.2 hT₂ hi₁ hi₂
  by_cases ht₁ : c₁.Touches L m (T.slot L i)
  · exact htouched ht₁ fun hcut =>
      ⟨hcut.2, fun hin => h.disjoint.symm.not_meets h.paged₁ hin hcut.1⟩
  by_cases ht₂ : c₂.Touches L m (T.slot L i)
  · exact htouched ht₂ fun hcut =>
      ⟨fun hin => h.disjoint.not_meets h.paged₂ hin hcut.1, hcut.2⟩
  exact .inl ((h.left.frame hT hi ht₁ ht₂).trans (h.right.frame hT hi ht₁ ht₂).symm)

/-- The tables are the same up to the numbers of those that the calls took. -/
theorem sameUpToNumbers : SameUpToNumbers L m.tableIdx a b := by
  obtain ⟨σ, hold, hnew, hbij⟩ := exists_renaming (R := Matched L a b)
    (fun t hle hlt => h.exists_matched hle hlt) fun {t₁ t₂ t'} h₁ h₂ => by
      obtain ⟨ℓ, va, h1, h3, hv, hv'⟩ := h₁
      obtain ⟨ℓ', va', h1', h3', hw, hw'⟩ := h₂
      exact h.symm.matched_unique ⟨ℓ, va, h1, h3, hv', hv⟩ ⟨ℓ', va', h1', h3', hw', hw⟩
  refine ⟨σ, hold, h.tableIdx ▸ hbij, fun T i hT hi => ?_⟩
  cases T with
  | base => exact h.sameWord_old (T := .base) hold hnew trivial hi
  | pool t =>
      by_cases ht : t < m.tableIdx
      · have := h.sameWord_old (T := .pool t) hold hnew ht hi
        rwa [Table.rename, hold t ht]
      · obtain ⟨ℓ, va, h1, -, hv, hv'⟩ := hnew t (Nat.not_lt.1 ht) hT
        exact h.sameWord_table hold hnew h1 hv hv' hi

end Reordered

/-! ### Counting the tables -/

/-- After a call the bare spans of a disjoint region are those that the call did not cut. -/
lemma Call.Maps.bareSpans_disjoint (h : c₁.Maps L m a) (hc₂ : c₂.Paged)
    (hdisj : c₁.DisjointFrom c₂) :
    c₂.bareSpans L a.mem = c₂.bareSpans L m.mem \ c₁.bareSpans L m.mem := by
  ext ⟨ℓ, i⟩
  rw [Finset.mem_sdiff, mem_bareSpans, mem_bareSpans, mem_bareSpans]
  by_cases hcut : (ℓ = 1 ∨ ℓ = 2) ∧ Cut gran c₂.virt.toNat c₂.stop ℓ (i * gran ℓ)
  · obtain ⟨hℓ, hcut₂⟩ := hcut
    have hval := spanVa_val (hc₂.span_lt hcut₂.1)
    rw [hc₂.hasTable_span (by omega) (by omega) hcut₂.1,
      hc₂.hasTable_span (by omega) (by omega) hcut₂.1]
    by_cases hcut₁ : Cut gran c₁.virt.toNat c₁.stop ℓ (i * gran ℓ)
    · have hcutVa : Cut gran c₁.virt.toNat c₁.stop ℓ (spanVa ℓ i) := by rwa [hval]
      have htable := h.cut (by omega) (by omega) hcutVa
      constructor
      · rintro ⟨-, -, -, hnot⟩
        exact absurd htable hnot
      · rintro ⟨⟨h1, h2, -, hnot⟩, hno⟩
        exact absurd ⟨h1, h2, hcut₁, hnot⟩ hno
    · have hm : ¬ Meets gran c₁.virt.toNat c₁.stop ℓ (spanVa ℓ i) := by
        intro hm
        rw [hval] at hm
        refine hcut₁ ⟨hm, fun hin => ?_⟩
        rw [← hval] at hin
        exact hdisj.not_meets hc₂ hin (by rw [hval]; exact hcut₂.1)
      rw [h.outside (by omega) (by omega) hm]
      simp [hcut₁]
  · constructor
    · rintro ⟨hℓ, -, hcut₂, -⟩
      exact absurd ⟨hℓ, hcut₂⟩ hcut
    · rintro ⟨⟨hℓ, -, hcut₂, -⟩, -⟩
      exact absurd ⟨hℓ, hcut₂⟩ hcut

/-- The tables that are needed for one region and then for a disjoint one. -/
lemma Call.Maps.tablesNeeded_disjoint (h : c₁.Maps L m a) (hc₂ : c₂.Paged)
    (hdisj : c₁.DisjointFrom c₂) :
    tablesNeeded L m.mem c₁ + tablesNeeded L a.mem c₂ =
      (c₁.bareSpans L m.mem ∪ c₂.bareSpans L m.mem).card := by
  rw [tablesNeeded, tablesNeeded, h.bareSpans_disjoint hc₂ hdisj, Nat.add_comm,
    Finset.card_sdiff_add_card, Finset.union_comm]

/-! ### Both orders -/

/-- If the pool has the tables for both regions, the two calls return, and take these tables. -/
theorem MapsBoth.exists_of_room (hc₁ : c₁.Paged) (hc₂ : c₂.Paged) (hdisj : c₁.DisjointFrom c₂)
    (hwf : Wf L anyLeaf m)
    (hle : m.tableIdx + (c₁.bareSpans L m.mem ∪ c₂.bareSpans L m.mem).card ≤ configMaxXlatTables) :
    ∃ a a', AddMap L m c₁ a ∧ AddMap L a c₂ a' ∧ MapsBoth L c₁ c₂ m a' ∧
      a'.tableIdx = m.tableIdx + (c₁.bareSpans L m.mem ∪ c₂.bareSpans L m.mem).card := by
  have hsub : tablesNeeded L m.mem c₁ ≤ (c₁.bareSpans L m.mem ∪ c₂.bareSpans L m.mem).card :=
    Finset.card_le_card Finset.subset_union_left
  have hroom : c₁.HasRoom L m := (Call.hasRoom_iff hc₁ c₁.writes_any hwf).2 (by omega)
  obtain ⟨a, ha, hwfa, hmaps⟩ := Call.returns hc₁ c₁.writes_any hwf hroom
  have hidx := ha.tableIdx hc₁ c₁.writes_any hwf hroom
  have hcount := hmaps.tablesNeeded_disjoint hc₂ hdisj
  have hroom' : c₂.HasRoom L a := (Call.hasRoom_iff hc₂ c₂.writes_any hwfa).2 (by omega)
  obtain ⟨a', ha', hwfa', hmaps'⟩ := Call.returns hc₂ c₂.writes_any hwfa hroom'
  have hidx' := ha'.tableIdx hc₂ c₂.writes_any hwfa hroom'
  refine ⟨a, a', ha, ha', ?_, by omega⟩
  exact .of_maps hc₁ hc₂ hdisj hwf hwfa hwfa' hmaps hmaps'
    (fun p hp => ha.frame hc₁ c₁.writes_any hwf hroom hp)
    fun p hp => ha'.frame hc₂ c₂.writes_any hwfa hroom' hp

/-- After any run, two calls for disjoint regions take the same number of tables in either order,
and leave tables that are the same up to the numbers of those that the two calls took: the walk
of every 32-bit address ends with the same descriptor at the same level, or with a fault at the
same level. -/
theorem order_irrelevant (L : Layout) (m₀ : Machine) (cs : List Call) (c₁ c₂ : Call)
    (h0 : Zeroed L m₀) (hcs : ∀ c ∈ cs, c.Paged) (hc₁ : c₁.Paged) (hc₂ : c₂.Paged)
    (hdisj : c₁.DisjointFrom c₂) (hpool : PoolLasts L m₀ (cs ++ [c₁, c₂])) :
    ∃ m a a' b b', AddMaps L m₀ cs m ∧ AddMap L m c₁ a ∧ AddMap L a c₂ a' ∧ AddMap L m c₂ b ∧
      AddMap L b c₁ b' ∧ a'.tableIdx = b'.tableIdx ∧ SameUpToNumbers L m.tableIdx a' b' ∧
      ∀ (r : SysRegs) (va : ℕ), va < 2 ^ 32 →
        walkEnd (enableMmu L r) a'.mem va = walkEnd (enableMmu L r) b'.mem va := by
  have hpool : PoolLasts L m₀ ((cs ++ [c₁]) ++ [c₂]) := by simpa using hpool
  obtain ⟨hpool₁, hroom₂⟩ := poolLasts_snoc.1 hpool
  obtain ⟨m, hm, hwf, hroom⟩ := exists_reached h0 hcs hpool₁
  -- the pool has the tables for one order, so it has them for the other one
  have hle : m.tableIdx + (c₁.bareSpans L m.mem ∪ c₂.bareSpans L m.mem).card ≤
      configMaxXlatTables := by
    obtain ⟨a, ha, hwfa, hmaps⟩ := Call.returns hc₁ c₁.writes_any hwf hroom
    have hidx := ha.tableIdx hc₁ c₁.writes_any hwf hroom
    have hroom' := (Call.hasRoom_iff hc₂ c₂.writes_any hwfa).1 (hroom₂ a (Run.snoc hm ha))
    rwa [← hmaps.tablesNeeded_disjoint hc₂ hdisj, ← Nat.add_assoc, ← hidx]
  obtain ⟨a, a', ha, ha', hboth, hidx⟩ := MapsBoth.exists_of_room hc₁ hc₂ hdisj hwf hle
  rw [Finset.union_comm] at hle hidx
  obtain ⟨b, b', hb, hb', hboth', hidx'⟩ := MapsBoth.exists_of_room hc₂ hc₁ hdisj.symm hwf hle
  have hre : Reordered L c₁ c₂ m a' b' :=
    ⟨hc₁, hc₂, hdisj, hboth, hboth'.symm, hidx.trans hidx'.symm⟩
  refine ⟨m, a, a', b, b', hm, ha, ha', hb, hb', hre.tableIdx, hre.sameUpToNumbers, ?_⟩
  intro r x hx
  have hlt : x < 2 ^ 36 := by omega
  exact hre.walkEnd_eq r (show ((⟨x, hlt⟩ : Va) : ℕ) < 2 ^ 32 from hx)

/-- Two pages of one block: the call that comes first splits the block. -/
theorem order_irrelevant_sample : ∃ m a a' b b',
    AddMaps sampleLayout bootMachine [⟨0, 0, 0x40000000, 12⟩] m ∧
      AddMap sampleLayout m ⟨0x200000, 0x200000, 0x1000, 0⟩ a ∧
      AddMap sampleLayout a ⟨0x203000, 0x203000, 0x1000, 4⟩ a' ∧
      AddMap sampleLayout m ⟨0x203000, 0x203000, 0x1000, 4⟩ b ∧
      AddMap sampleLayout b ⟨0x200000, 0x200000, 0x1000, 0⟩ b' ∧
      a'.tableIdx = b'.tableIdx ∧ SameUpToNumbers sampleLayout m.tableIdx a' b' := by
  have hcs : ∀ c ∈ [(⟨0, 0, 0x40000000, 12⟩ : Call), ⟨0x200000, 0x200000, 0x1000, 0⟩,
      ⟨0x203000, 0x203000, 0x1000, 4⟩], c.Paged := by decide
  have hdisj : Call.DisjointFrom ⟨0x200000, 0x200000, 0x1000, 0⟩
      ⟨0x203000, 0x203000, 0x1000, 4⟩ := by
    intro va h₁ h₂
    have h1 : va < 0x201000 := h₁.2
    have h2 : 0x203000 ≤ va := h₂.1
    omega
  obtain ⟨m, a, a', b, b', hm, ha, ha', hb, hb', hidx, hsame, -⟩ := order_irrelevant sampleLayout
    bootMachine [⟨0, 0, 0x40000000, 12⟩] ⟨0x200000, 0x200000, 0x1000, 0⟩
    ⟨0x203000, 0x203000, 0x1000, 4⟩ (zeroed_bootMachine _) (by decide) (by decide) (by decide)
    hdisj (poolLasts_of_length rfl (Wf.of_zeroed (zeroed_bootMachine _) anyLeaf)
      (fun c hc => ⟨hcs c hc, c.writes_any⟩) (by simp))
  exact ⟨m, a, a', b, b', hm, ha, ha', hb, hb', hidx, hsame⟩

end Arm64Mmu
