import Mathlib.Data.Finset.Card
import Arm64Mmu.Lib.Greedy
import Arm64Mmu.Lib.Radix

/-!
# Mapping a region in a multi-level table

The keys of a multi-level table carry a position, and the spans of the levels are nested
grids.  A *sweep* maps the region `[a, b)`: it follows the greedy tiling, stores a leaf where
the tiling takes a span, and where the search goes on to a finer level it makes sure that the
entry points to a node, grafting an unused one if it does not.

`Sweep.Inv` relates a state of the sweep to the view it started from, level by level and key
by key: a span inside the region holds the piece of its leaf once it is passed and is
untouched before, a span outside is untouched, and a span cut by an end of the region is
untouched or has become a node.  `Inv.step` is its step lemma.  `Step.used_add_pending` counts
the nodes: each graft turns one cut span into a node, and nothing turns a cut span back.
-/

namespace Arm64Mmu.Lib.Sweep

open Greedy Radix

variable {κ ι ν δ : Type*}

/-- The spans of the positions are the keys that use the same entries, down to level `N`. -/
structure Graded (S : Scheme κ ι ν δ) (g : ℕ → ℕ) (pos : κ → ℕ) (N : ℕ) : Prop where
  nested : Nested g
  same_iff : ∀ {ℓ}, ℓ ≤ N → ∀ {k k'}, S.Same ℓ k k' ↔ pos k / g ℓ = pos k' / g ℓ

/-- A state of the sweep. -/
structure State (κ ν δ : Type*) where
  /-- What the tables say. -/
  view : View κ ν δ
  /-- How many nodes have been used. -/
  used : ℕ
  /-- Where the search is. -/
  cur : Cursor

variable (S : Scheme κ ι ν δ) (g : ℕ → ℕ) (pos : κ → ℕ) (a b : ℕ) (node : ℕ → ν)
  (leafAt : ℕ → ℕ → δ)

/-- One step of a sweep that ends at `b`, takes its nodes from `node` and stores the leaf
`leafAt ℓ x` in the level-`ℓ` span at `x`. -/
inductive Step : State κ ν δ → State κ ν δ → Prop
  /-- The span fits: store its leaf. -/
  | take {v : View κ ν δ} {n : ℕ} {c : Cursor} {k : κ} (hk : pos k = c.pos)
      (hlt : c.pos < b) (hf : Fits g b c) :
      Step ⟨v, n, c⟩ ⟨S.write c.level k (leafAt c.level c.pos) v, n, ⟨c.pos + g c.level, 1⟩⟩
  /-- The span does not fit and its entry is not a node: graft the next one. -/
  | graft {v : View κ ν δ} {n : ℕ} {c : Cursor} {k : κ} (hk : pos k = c.pos)
      (hlt : c.pos < b) (hf : ¬ Fits g b c) (hv : ∀ p, v c.level k ≠ .table p) :
      Step ⟨v, n, c⟩ ⟨S.graft c.level k (node n) v, n + 1, ⟨c.pos, c.level + 1⟩⟩
  /-- The span does not fit and its entry is a node: go down. -/
  | descend {v : View κ ν δ} {n : ℕ} {c : Cursor} {k : κ} {p : ν} (hk : pos k = c.pos)
      (hlt : c.pos < b) (hf : ¬ Fits g b c) (hv : v c.level k = .table p) :
      Step ⟨v, n, c⟩ ⟨v, n, ⟨c.pos, c.level + 1⟩⟩

/-- The entry of `k` at level `j` is the piece of the leaf of the coarsest span around `k`
that is inside the region. -/
def Mapped (v : View κ ν δ) (j : ℕ) (k : κ) : Prop :=
  ∃ ℓ, 1 ≤ ℓ ∧ ℓ ≤ j ∧ Inside g a b ℓ (pos k) ∧
    (∀ i, 1 ≤ i → i < ℓ → ¬ Inside g a b i (pos k)) ∧
    v j k = .leaf (S.refine ℓ (leafAt ℓ (floor g ℓ (pos k))) k j)

/-- A state of the sweep, compared with the view `v₀` and the count `n₀` it started from. -/
structure Inv (N : ℕ) (v₀ : View κ ν δ) (n₀ : ℕ) (s : State κ ν δ) : Prop where
  cur : Greedy.Inv g a b s.cur
  one_le : 1 ≤ s.cur.level
  level_le : s.cur.level ≤ N
  fine : g N ∣ s.cur.pos
  used_le : n₀ ≤ s.used
  root : ∀ k, ∃ p, s.view 0 k = .table p
  congr : ∀ {j k k'}, S.Same j k k' → s.view j k = s.view j k'
  /-- The entries above the current one are nodes. -/
  path : ∀ {k}, pos k = s.cur.pos → ∀ j < s.cur.level, ∃ p, s.view j k = .table p
  behind : ∀ {j k}, 1 ≤ j → j ≤ N → Inside g a b j (pos k) → pos k < s.cur.pos →
    Mapped S g pos a b leafAt s.view j k
  ahead : ∀ {j k}, 1 ≤ j → j ≤ N → Inside g a b j (pos k) → s.cur.pos ≤ pos k →
    s.view j k = v₀ j k
  outside : ∀ {j k}, 1 ≤ j → j ≤ N → ¬ Meets g a b j (pos k) → s.view j k = v₀ j k
  cut : ∀ {j k}, 1 ≤ j → j ≤ N → Cut g a b j (pos k) →
    s.view j k = v₀ j k ∨ ∃ n, n₀ ≤ n ∧ n < s.used ∧ s.view j k = .table (node n)
  kept : ∀ {j k p}, 1 ≤ j → j ≤ N → Cut g a b j (pos k) → v₀ j k = .table p →
    s.view j k = .table p
  /-- A cut span that the position has reached is a node. -/
  opened : ∀ {j k k'}, 1 ≤ j → j ≤ N → Cut g a b j (pos k) → S.Same j k k' → a ≤ pos k' →
    pos k' < s.cur.pos → ∃ p, s.view j k = .table p
  /-- Every node taken by this sweep hangs in a cut span. -/
  grafted : ∀ n, n₀ ≤ n → n < s.used → ∃ j k, 1 ≤ j ∧ j ≤ N ∧ Cut g a b j (pos k) ∧
    s.view j k = .table (node n)

variable {S g pos a b node leafAt} {N n₀ : ℕ} {v₀ : View κ ν δ} {s s' : State κ ν δ}

lemma Mapped.congr {v v' : View κ ν δ} {j : ℕ} {k : κ} (h : Mapped S g pos a b leafAt v j k)
    (hv : v' j k = v j k) : Mapped S g pos a b leafAt v' j k := by
  obtain ⟨ℓ, h1, h2, h3, h4, h5⟩ := h
  exact ⟨ℓ, h1, h2, h3, h4, hv.trans h5⟩

/-- What a mapped entry holds does not depend on the rest of the view. -/
lemma Mapped.unique {v v' : View κ ν δ} {j : ℕ} {k : κ} (h : Mapped S g pos a b leafAt v j k)
    (h' : Mapped S g pos a b leafAt v' j k) : v j k = v' j k := by
  obtain ⟨ℓ, h1, -, hin, hout, hv⟩ := h
  obtain ⟨ℓ', h1', -, hin', hout', hv'⟩ := h'
  obtain rfl : ℓ = ℓ' := Coarsest.unique ⟨h1, hin, hout⟩ ⟨h1', hin', hout'⟩
  rw [hv, hv']

/-- Where all levels are mapped, a key uses the leaf of the coarsest span inside the region. -/
lemma exists_leaf {v : View κ ν δ} {k : κ} (hN : 1 ≤ N) (hin : Inside g a b N (pos k))
    (h : ∀ {j}, 1 ≤ j → j ≤ N → Inside g a b j (pos k) → Mapped S g pos a b leafAt v j k) :
    ∃ ℓ, 1 ≤ ℓ ∧ ℓ ≤ N ∧ Inside g a b ℓ (pos k) ∧
      (∀ i, 1 ≤ i → i < ℓ → ¬ Inside g a b i (pos k)) ∧
      v ℓ k = .leaf (leafAt ℓ (floor g ℓ (pos k))) := by
  obtain ⟨ℓ, h1, hle, hin, hout, -⟩ := h hN le_rfl hin
  refine ⟨ℓ, h1, hle, hin, hout, ?_⟩
  obtain ⟨ℓ', h1', hle', hin', hout', hv⟩ := h h1 hle hin
  -- the coarsest level is the same for both entries
  obtain rfl : ℓ' = ℓ := by
    rcases Nat.lt_or_eq_of_le hle' with hlt | heq
    · exact absurd hin' (hout ℓ' h1' hlt)
    · exact heq
  rw [hv, Scheme.refine_self]

/-- The invariant holds at the start of a sweep. -/
lemma Inv.init (hab : a ≤ b) (hN : 1 ≤ N) (ha : g N ∣ a) (hroot : ∀ k, ∃ p, v₀ 0 k = .table p)
    (hcongr : ∀ {j k k'}, S.Same j k k' → v₀ j k = v₀ j k') :
    Inv S g pos a b node leafAt N v₀ n₀ ⟨v₀, n₀, ⟨a, 1⟩⟩ where
  cur := Greedy.Inv.init g hab
  one_le := le_rfl
  level_le := hN
  fine := ha
  used_le := le_rfl
  root := hroot
  congr := hcongr
  path := by
    intro k _ j hj
    obtain rfl : j = 0 := by simpa using hj
    exact hroot k
  behind := by
    intro j k _ _ hin hlt
    have h1 := hin.1.trans (floor_le g j (pos k))
    simp only at hlt
    omega
  ahead := fun _ _ _ _ => rfl
  outside := fun _ _ _ => rfl
  cut := fun _ _ _ => .inl rfl
  kept := fun _ _ _ h => h
  opened := by
    intro j k k' _ _ _ _ h1 h2
    simp only at h2
    omega
  grafted := by
    intro n h1 h2
    simp only at h2
    omega

/-- The search moves forward. -/
lemma Step.pos_le (h : Step S g pos b node leafAt s s') : s.cur.pos ≤ s'.cur.pos := by
  cases h with
  | take hk hlt hf => exact Nat.le_add_right _ _
  | graft hk hlt hf hv => exact le_rfl
  | descend hk hlt hf hv => exact le_rfl

/-- Nodes are not given back. -/
lemma Step.used_le (h : Step S g pos b node leafAt s s') : s.used ≤ s'.used := by
  cases h with
  | take hk hlt hf => exact le_rfl
  | graft hk hlt hf hv => exact Nat.le_succ _
  | descend hk hlt hf hv => exact le_rfl

section Step

variable (hS : Graded S g pos N) (hb : g N ∣ b)
include hS hb

omit hS in
/-- At the finest level the search always fits, so a level that fails is not the finest. -/
lemma Inv.level_lt (h : Inv S g pos a b node leafAt N v₀ n₀ s) (hlt : s.cur.pos < b)
    (hf : ¬ Fits g b s.cur) : s.cur.level < N := by
  rcases Nat.lt_or_eq_of_le h.level_le with h1 | h1
  · exact h1
  · refine absurd ⟨?_, ?_⟩ hf
    · rw [h1]
      exact Nat.mod_eq_zero_of_dvd h.fine
    · rw [h1]
      obtain ⟨x, hx⟩ := h.fine
      obtain ⟨y, hy⟩ := hb
      have hxy : x < y := by
        by_contra hle
        have := Nat.mul_le_mul_left (g N) (Nat.le_of_not_lt hle)
        omega
      calc s.cur.pos + g N = g N * (x + 1) := by rw [hx]; ring
        _ ≤ g N * y := Nat.mul_le_mul_left _ hxy
        _ = b := hy.symm

omit hb in
/-- The keys of the span that the search takes. -/
lemma Inv.same_iff_of_fits (h : Inv S g pos a b node leafAt N v₀ n₀ s) {k₀ k : κ}
    (hk : pos k₀ = s.cur.pos) (hf : Fits g b s.cur) :
    S.Same s.cur.level k₀ k ↔ s.cur.pos ≤ pos k ∧ pos k < s.cur.pos + g s.cur.level := by
  rw [hS.same_iff h.level_le, hk, eq_comm]
  exact hS.nested.div_eq_iff hf.1

omit hb in
/-- The span that the search takes is inside the region, and no coarser one around it is. -/
lemma Inv.inside_of_same (h : Inv S g pos a b node leafAt N v₀ n₀ s) {k₀ k : κ}
    (hk : pos k₀ = s.cur.pos) (hf : Fits g b s.cur) (hs : S.Same s.cur.level k₀ k) :
    Inside g a b s.cur.level (pos k) ∧
      ∀ i, 1 ≤ i → i < s.cur.level → ¬ Inside g a b i (pos k) := by
  constructor
  · have := h.cur.inside_of_fits hf
    rwa [← hk, inside_congr ((hS.same_iff h.level_le).1 hs)] at this
  · intro i h1 h2
    have := h.cur.not_inside h1 h2
    rwa [← hk, inside_congr ((hS.same_iff (h2.le.trans h.level_le)).1 (hs.mono h2.le))] at this

omit hb in
/-- The span in which the search goes down is cut. -/
lemma Inv.cut_of_same (h : Inv S g pos a b node leafAt N v₀ n₀ s) {k₀ k : κ}
    (hk : pos k₀ = s.cur.pos) (hlt : s.cur.pos < b) (hf : ¬ Fits g b s.cur)
    (hs : S.Same s.cur.level k₀ k) : Cut g a b s.cur.level (pos k) := by
  have := h.cur.cut_of_not_fits hS.nested hlt h.one_le hf
  rwa [← hk, cut_congr ((hS.same_iff h.level_le).1 hs)] at this

omit hb in
private lemma Inv.take (h : Inv S g pos a b node leafAt N v₀ n₀ s) {k₀ : κ}
    (hk : pos k₀ = s.cur.pos) (hf : Fits g b s.cur) :
    Inv S g pos a b node leafAt N v₀ n₀
      ⟨S.write s.cur.level k₀ (leafAt s.cur.level s.cur.pos) s.view, s.used,
        ⟨s.cur.pos + g s.cur.level, 1⟩⟩ := by
  have hN : 1 ≤ N := h.one_le.trans h.level_le
  have hsame : ∀ k, S.Same s.cur.level k₀ k ↔
      s.cur.pos ≤ pos k ∧ pos k < s.cur.pos + g s.cur.level := fun k =>
    h.same_iff_of_fits hS hk hf
  -- the entries of the other spans stay as they are
  have hkeep : ∀ j k, ¬ (s.cur.level ≤ j ∧ S.Same s.cur.level k₀ k) →
      S.write s.cur.level k₀ (leafAt s.cur.level s.cur.pos) s.view j k = s.view j k :=
    fun _ _ hn => Scheme.write_off hn
  have hcut : ∀ j k, Cut g a b j (pos k) → ¬ (s.cur.level ≤ j ∧ S.Same s.cur.level k₀ k) :=
    fun j k hc hn => hc.2 (hS.nested.inside_mono hn.1 (h.inside_of_same hS hk hf hn.2).1)
  refine
    { cur := h.cur.next_of_fits hS.nested hf
      one_le := le_rfl
      level_le := hN
      fine := Nat.dvd_add h.fine (hS.nested.dvd h.level_le)
      used_le := h.used_le
      root := ?_, congr := ?_, path := ?_, behind := ?_, ahead := ?_, outside := ?_
      cut := ?_, kept := ?_, opened := ?_, grafted := ?_ }
  · intro k
    have := h.one_le
    simp only [hkeep 0 k fun hn => by omega]
    exact h.root k
  · exact fun hs => Scheme.write_congr (h.congr hs) hs
  · intro k _ j hj
    obtain rfl : j = 0 := by simpa using hj
    have := h.one_le
    simp only [hkeep 0 k fun hn => by omega]
    exact h.root k
  · intro j k h1 h2 hj hlt
    by_cases hs : S.Same s.cur.level k₀ k
    · obtain ⟨hin, hout⟩ := h.inside_of_same hS hk hf hs
      have hle : s.cur.level ≤ j := by
        by_contra hlt'
        exact hout j h1 (Nat.lt_of_not_le hlt') hj
      refine ⟨s.cur.level, h.one_le, hle, hin, hout, ?_⟩
      have hfl : floor g s.cur.level (pos k) = s.cur.pos := by
        rw [← floor_congr ((hS.same_iff h.level_le).1 hs), hk, floor_eq_self hf.1]
      rw [hfl]
      exact Scheme.write_on hle hs
    · have hlt' : pos k < s.cur.pos := by
        rw [hsame k] at hs
        simp only at hlt
        omega
      exact (h.behind h1 h2 hj hlt').congr (hkeep j k fun hn => hs hn.2)
  · intro j k h1 h2 hj hle
    simp only at hle ⊢
    rw [hkeep j k fun hn => by have := (hsame k).1 hn.2; omega]
    have := hS.nested.pos s.cur.level
    exact h.ahead h1 h2 hj (by omega)
  · intro j k h1 h2 hm
    simp only
    rw [hkeep j k fun hn => ?_, h.outside h1 h2 hm]
    obtain ⟨h3, h4⟩ := hS.nested.mem_of_inside (h.inside_of_same hS hk hf hn.2).1
    exact hm (hS.nested.meets_of_mem h3 h4)
  · intro j k h1 h2 hc
    simp only [hkeep j k (hcut j k hc)]
    exact h.cut h1 h2 hc
  · intro j k p h1 h2 hc hp
    simp only [hkeep j k (hcut j k hc)]
    exact h.kept h1 h2 hc hp
  · intro j k k' h1 h2 hc hs ha hlt
    simp only [hkeep j k (hcut j k hc)]
    by_cases hlt' : pos k' < s.cur.pos
    · exact h.opened h1 h2 hc hs ha hlt'
    · have hs' : S.Same s.cur.level k₀ k' := (hsame k').2 ⟨by omega, hlt⟩
      have hj : j < s.cur.level := by
        by_contra hle
        have hle := Nat.le_of_not_lt hle
        refine hcut j k hc ⟨hle, hs'.trans (hs.symm.mono hle)⟩
      rw [h.congr (hs.trans (hs'.symm.mono hj.le))]
      exact h.path hk j hj
  · intro n h1 h2
    obtain ⟨j, k, h3, h4, hc, hn⟩ := h.grafted n h1 h2
    exact ⟨j, k, h3, h4, hc, by simp only [hkeep j k (hcut j k hc), hn]⟩

private lemma Inv.graft (h : Inv S g pos a b node leafAt N v₀ n₀ s) {k₀ : κ}
    (hk : pos k₀ = s.cur.pos) (hlt : s.cur.pos < b) (hf : ¬ Fits g b s.cur)
    (hv : ∀ p, s.view s.cur.level k₀ ≠ .table p) :
    Inv S g pos a b node leafAt N v₀ n₀
      ⟨S.graft s.cur.level k₀ (node s.used) s.view, s.used + 1,
        ⟨s.cur.pos, s.cur.level + 1⟩⟩ := by
  have hkeep : ∀ j k, ¬ (j = s.cur.level ∧ S.Same s.cur.level k₀ k) →
      S.graft s.cur.level k₀ (node s.used) s.view j k = s.view j k := fun _ _ hn =>
    Scheme.graft_off hn
  have hnew : ∀ k, S.Same s.cur.level k₀ k →
      S.graft s.cur.level k₀ (node s.used) s.view s.cur.level k = .table (node s.used) :=
    fun _ hs => Scheme.graft_on hs
  -- the grafted span is cut, so the spans inside and outside stay as they are
  have hcut : ∀ k, S.Same s.cur.level k₀ k → Cut g a b s.cur.level (pos k) := fun _ hs =>
    h.cut_of_same hS hk hlt hf hs
  refine
    { cur := h.cur.next_of_not_fits hf
      one_le := by simp
      level_le := h.level_lt hb hlt hf
      fine := h.fine
      used_le := h.used_le.trans (Nat.le_succ _)
      root := ?_, congr := ?_, path := ?_, behind := ?_, ahead := ?_, outside := ?_
      cut := ?_, kept := ?_, opened := ?_, grafted := ?_ }
  · intro k
    have := h.one_le
    simp only [hkeep 0 k fun hn => by omega]
    exact h.root k
  · exact fun hs => Scheme.graft_congr (h.congr hs) hs
  · intro k hk' j hj
    simp only at hk' hj ⊢
    rcases Nat.lt_succ_iff_lt_or_eq.1 hj with hj | rfl
    · rw [hkeep j k fun hn => by omega]
      exact h.path hk' j hj
    · refine ⟨node s.used, hnew k ((hS.same_iff h.level_le).2 ?_)⟩
      rw [hk, hk']
  · intro j k h1 h2 hj hlt'
    refine (h.behind h1 h2 hj hlt').congr (hkeep j k ?_)
    rintro ⟨rfl, hs⟩
    exact (hcut k hs).2 hj
  · intro j k h1 h2 hj hle
    simp only
    rw [hkeep j k ?_, h.ahead h1 h2 hj hle]
    rintro ⟨rfl, hs⟩
    exact (hcut k hs).2 hj
  · intro j k h1 h2 hm
    simp only
    rw [hkeep j k ?_, h.outside h1 h2 hm]
    rintro ⟨rfl, hs⟩
    exact hm (hcut k hs).1
  · intro j k h1 h2 hc
    simp only
    by_cases hn : j = s.cur.level ∧ S.Same s.cur.level k₀ k
    · obtain ⟨rfl, hs⟩ := hn
      exact .inr ⟨s.used, h.used_le, Nat.lt_succ_self _, hnew k hs⟩
    · rw [hkeep j k hn]
      rcases h.cut h1 h2 hc with h3 | ⟨n, h3, h4, h5⟩
      · exact .inl h3
      · exact .inr ⟨n, h3, h4.trans (Nat.lt_succ_self _), h5⟩
  · intro j k p h1 h2 hc hp
    simp only
    rw [hkeep j k ?_, h.kept h1 h2 hc hp]
    rintro ⟨rfl, hs⟩
    exact hv p (by rw [h.congr hs, h.kept h1 h2 hc hp])
  · intro j k k' h1 h2 hc hs ha hlt'
    simp only
    by_cases hn : j = s.cur.level ∧ S.Same s.cur.level k₀ k
    · obtain ⟨rfl, hs'⟩ := hn
      exact ⟨_, hnew k hs'⟩
    · rw [hkeep j k hn]
      exact h.opened h1 h2 hc hs ha hlt'
  · intro n h1 h2
    simp only at h2 ⊢
    rcases Nat.lt_succ_iff_lt_or_eq.1 h2 with h2 | rfl
    · obtain ⟨j, k, h3, h4, hc, hn⟩ := h.grafted n h1 h2
      refine ⟨j, k, h3, h4, hc, ?_⟩
      rw [hkeep j k ?_, hn]
      rintro ⟨rfl, hs⟩
      exact hv _ (by rw [h.congr hs, hn])
    · exact ⟨s.cur.level, k₀, h.one_le, h.level_le, hcut k₀ (Scheme.Same.refl k₀),
        hnew k₀ (Scheme.Same.refl k₀)⟩

private lemma Inv.descend (h : Inv S g pos a b node leafAt N v₀ n₀ s) {k₀ : κ} {p : ν}
    (hk : pos k₀ = s.cur.pos) (hlt : s.cur.pos < b) (hf : ¬ Fits g b s.cur)
    (hv : s.view s.cur.level k₀ = .table p) :
    Inv S g pos a b node leafAt N v₀ n₀ ⟨s.view, s.used, ⟨s.cur.pos, s.cur.level + 1⟩⟩ :=
  { h with
    cur := h.cur.next_of_not_fits hf
    one_le := by simp
    level_le := h.level_lt hb hlt hf
    path := by
      intro k hk' j hj
      simp only at hk' hj ⊢
      rcases Nat.lt_succ_iff_lt_or_eq.1 hj with hj | rfl
      · exact h.path hk' j hj
      · refine ⟨p, ?_⟩
        rw [← hv]
        exact h.congr ((hS.same_iff h.level_le).2 (by rw [hk, hk'])) }

/-- The step lemma of the sweep. -/
theorem Inv.step (h : Inv S g pos a b node leafAt N v₀ n₀ s)
    (hs : Step S g pos b node leafAt s s') : Inv S g pos a b node leafAt N v₀ n₀ s' := by
  cases hs with
  | take hk hlt hf => exact h.take hS hk hf
  | graft hk hlt hf hv => exact h.graft hS hb hk hlt hf hv
  | descend hk hlt hf hv => exact h.descend hS hb hk hlt hf hv

omit hb in
/-- A step keeps the nodes of the spans that are not inside the region. -/
lemma Inv.step_kept (h : Inv S g pos a b node leafAt N v₀ n₀ s)
    (hs : Step S g pos b node leafAt s s') {j : ℕ} {k : κ} {p : ν}
    (hout : 1 ≤ j → ¬ Inside g a b j (pos k)) (hp : s.view j k = .table p) :
    s'.view j k = .table p := by
  cases hs with
  | take hk hlt hf =>
      refine (Scheme.write_off ?_).trans hp
      rintro ⟨hle, hsame⟩
      have hin := (h.inside_of_same hS hk hf hsame).1
      exact hout (h.one_le.trans hle) (hS.nested.inside_mono hle hin)
  | graft hk hlt hf hv =>
      refine (Scheme.graft_off ?_).trans hp
      rintro ⟨rfl, hsame⟩
      exact hv p ((h.congr hsame).trans hp)
  | descend hk hlt hf hv => exact hp

end Step

/-! ### Counting nodes -/

section Count

open Classical in
/-- How many of the spans in `F` have no node yet. -/
noncomputable def pending (F : Finset (ℕ × κ)) (v : View κ ν δ) : ℕ :=
  (F.filter fun x => ∀ p, v x.1 x.2 ≠ .table p).card

/-- `F` has exactly one key of every cut span. -/
structure Cuts (S : Scheme κ ι ν δ) (g : ℕ → ℕ) (pos : κ → ℕ) (a b N : ℕ)
    (F : Finset (ℕ × κ)) : Prop where
  sound : ∀ {x}, x ∈ F → 1 ≤ x.1 ∧ x.1 ≤ N ∧ Cut g a b x.1 (pos x.2)
  complete : ∀ {j k}, 1 ≤ j → j ≤ N → Cut g a b j (pos k) → ∃ k', (j, k') ∈ F ∧ S.Same j k k'
  unique : ∀ {j k k'}, (j, k) ∈ F → (j, k') ∈ F → S.Same j k k' → k = k'

variable {F : Finset (ℕ × κ)}

/-- Where the search is about to graft, the span has a pending representative. -/
lemma Inv.exists_pending (hS : Graded S g pos N) (hF : Cuts S g pos a b N F)
    (h : Inv S g pos a b node leafAt N v₀ n₀ s) {k₀ : κ} (hk : pos k₀ = s.cur.pos)
    (hlt : s.cur.pos < b) (hf : ¬ Fits g b s.cur) (hv : ∀ p, s.view s.cur.level k₀ ≠ .table p) :
    ∃ k', S.Same s.cur.level k₀ k' ∧ (s.cur.level, k') ∈ F ∧
      ∀ p, s.view s.cur.level k' ≠ .table p := by
  have hcut := h.cut_of_same hS hk hlt hf (Scheme.Same.refl k₀)
  obtain ⟨k', hk', hsame⟩ := hF.complete h.one_le h.level_le hcut
  exact ⟨k', hsame, hk', fun p hp => hv p (by rw [h.congr hsame, hp])⟩

/-- Where the search is about to graft, the number of pending spans is not zero. -/
lemma Inv.pending_pos (hS : Graded S g pos N) (hF : Cuts S g pos a b N F)
    (h : Inv S g pos a b node leafAt N v₀ n₀ s) {k₀ : κ} (hk : pos k₀ = s.cur.pos)
    (hlt : s.cur.pos < b) (hf : ¬ Fits g b s.cur) (hv : ∀ p, s.view s.cur.level k₀ ≠ .table p) :
    0 < pending F s.view := by
  classical
  obtain ⟨k', -, hmem, hnot⟩ := h.exists_pending hS hF hk hlt hf hv
  exact Finset.card_pos.2 ⟨_, Finset.mem_filter.2 ⟨hmem, hnot⟩⟩

/-- The number of used nodes and the number of cut spans without a node make up a constant. -/
theorem Step.used_add_pending (hS : Graded S g pos N)
    (hF : Cuts S g pos a b N F) (h : Inv S g pos a b node leafAt N v₀ n₀ s)
    (hs : Step S g pos b node leafAt s s') :
    s'.used + pending F s'.view = s.used + pending F s.view := by
  classical
  cases hs with
  | @take v n c k hk hlt hf =>
      simp only [pending]
      congr 2
      refine Finset.filter_congr fun x hx => ?_
      obtain ⟨h1, h2, hc⟩ := hF.sound hx
      have hn : ¬ (c.level ≤ x.1 ∧ S.Same c.level k x.2) := by
        rintro ⟨hle, hsame⟩
        exact hc.2 (hS.nested.inside_mono hle (h.inside_of_same hS hk hf hsame).1)
      rw [Scheme.write_off hn]
  | @graft v n c k hk hlt hf hv =>
      obtain ⟨k', hsame, hk', hnot⟩ := h.exists_pending hS hF hk hlt hf hv
      simp only at hsame hk' hnot
      simp only [pending]
      -- the representative of the grafted span leaves the set of pending spans
      have hmem : (c.level, k') ∈ F.filter fun x => ∀ p, v x.1 x.2 ≠ .table p :=
        Finset.mem_filter.2 ⟨hk', hnot⟩
      have hset : (F.filter fun x => ∀ p, S.graft c.level k (node n) v x.1 x.2 ≠ .table p) =
          (F.filter fun x => ∀ p, v x.1 x.2 ≠ .table p).erase (c.level, k') := by
        ext ⟨j, i⟩
        simp only [Finset.mem_filter, Finset.mem_erase, ne_eq, Prod.mk.injEq]
        by_cases hn : j = c.level ∧ S.Same c.level k i
        · obtain ⟨rfl, hi⟩ := hn
          have hg : S.graft c.level k (node n) v c.level i = .table (node n) :=
            Scheme.graft_on hi
          constructor
          · rintro ⟨-, h1⟩
            exact absurd hg (h1 _)
          · rintro ⟨h1, h2, -⟩
            exact absurd ⟨rfl, hF.unique h2 hk' (hi.symm.trans hsame)⟩ h1
        · rw [Scheme.graft_off hn]
          constructor
          · rintro ⟨h1, h2⟩
            refine ⟨?_, h1, h2⟩
            rintro ⟨rfl, rfl⟩
            exact hn ⟨rfl, hsame⟩
          · rintro ⟨-, h1, h2⟩
            exact ⟨h1, h2⟩
      rw [hset, Finset.card_erase_of_mem hmem]
      have := Finset.card_pos.2 ⟨_, hmem⟩
      omega
  | descend hk hlt hf hv => rfl

/-- When the region is swept, every cut span has a node. -/
lemma Inv.pending_eq_zero (hF : Cuts S g pos a b N F)
    (h : Inv S g pos a b node leafAt N v₀ n₀ s) (hb : s.cur.pos = b)
    (hkey : ∀ {j k}, 1 ≤ j → j ≤ N → Cut g a b j (pos k) →
      ∃ k', S.Same j k k' ∧ a ≤ pos k' ∧ pos k' < b) : pending F s.view = 0 := by
  classical
  rw [pending, Finset.card_eq_zero, Finset.filter_eq_empty_iff]
  rintro x hx hnot
  obtain ⟨h1, h2, hc⟩ := hF.sound hx
  obtain ⟨k', hs, ha, hlt⟩ := hkey h1 h2 hc
  obtain ⟨p, hp⟩ := h.opened h1 h2 hc hs ha (hb ▸ hlt)
  exact hnot p hp

end Count

end Arm64Mmu.Lib.Sweep
