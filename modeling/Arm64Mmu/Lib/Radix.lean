import Mathlib.Data.Nat.Notation
import Mathlib.Data.Nat.Basic
import Mathlib.Order.Basic

/-!
# Multi-level tables

A key is looked up level by level.  A node of a table is an array of entries; an entry is
invalid, a leaf, or points to a node of the next level.  The level-`ℓ` index of a key says
which entry of a level-`ℓ` node the key uses.

`Scheme.lookup` reads the entry of a key at a level.  Below a leaf, where no node exists, it
goes on with the pieces into which the leaf would be split, and below an invalid entry it
stays invalid: so every key has an entry at every level, and splitting a leaf, or hanging an
empty node under an invalid entry, changes the entry at one level only.  That is the content
of `lookup_graft`; `lookup_write` is the companion for storing a leaf.
-/

namespace Arm64Mmu.Lib.Radix

variable {κ ι ν δ : Type*}

/-- The content of one slot of a node. -/
inductive Entry (ν δ : Type*) where
  | invalid
  | leaf (d : δ)
  | table (p : ν)

/-- How keys are indexed and leaves are split. -/
structure Scheme (κ ι ν δ : Type*) where
  /-- The node the lookup starts at. -/
  root : ν
  /-- The index of a key in a node of level `ℓ`. -/
  idx : ℕ → κ → ι
  /-- The piece at an index when a leaf is split into entries of level `ℓ`. -/
  split : ℕ → ι → δ → δ

/-- The contents of the nodes: the level a node is read at, the node, the index. -/
abbrev Tables (ι ν δ : Type*) := ℕ → ν → ι → Entry ν δ

/-- An entry for every level and key. -/
abbrev View (κ ν δ : Type*) := ℕ → κ → Entry ν δ

namespace Scheme

variable (S : Scheme κ ι ν δ)

/-- The entry at level `ℓ` below an entry of the level above. -/
def child (T : Tables ι ν δ) (ℓ : ℕ) (k : κ) : Entry ν δ → Entry ν δ
  | .invalid => .invalid
  | .leaf d => .leaf (S.split ℓ (S.idx ℓ k) d)
  | .table p => T ℓ p (S.idx ℓ k)

/-- The entry of a key at a level; level `0` stands for the pointer to the root. -/
def lookup (T : Tables ι ν δ) : View κ ν δ
  | 0, _ => .table S.root
  | ℓ + 1, k => S.child T (ℓ + 1) k (lookup T ℓ k)

/-- Two keys use the same entries down to level `ℓ`. -/
def Same (ℓ : ℕ) (k k' : κ) : Prop := ∀ j, 0 < j → j ≤ ℓ → S.idx j k = S.idx j k'

/-- The piece of a level-`ℓ` leaf `d` that a key uses at level `j`. -/
def refine (ℓ : ℕ) (d : δ) (k : κ) : ℕ → δ
  | 0 => d
  | j + 1 => if ℓ ≤ j then S.split (j + 1) (S.idx (j + 1) k) (refine ℓ d k j) else d

open Classical in
/-- Store the leaf `d` in the level-`ℓ` entry of `k`. -/
noncomputable def write (ℓ : ℕ) (k : κ) (d : δ) (v : View κ ν δ) : View κ ν δ :=
  fun j k' => if ℓ ≤ j ∧ S.Same ℓ k k' then .leaf (S.refine ℓ d k' j) else v j k'

open Classical in
/-- Let the level-`ℓ` entry of `k` point to the node `p`, which says the same below. -/
noncomputable def graft (ℓ : ℕ) (k : κ) (p : ν) (v : View κ ν δ) : View κ ν δ :=
  fun j k' => if j = ℓ ∧ S.Same ℓ k k' then .table p else v j k'

/-- No node is reached along two paths. -/
def Tree (T : Tables ι ν δ) : Prop :=
  ∀ {ℓ k ℓ' k' p}, S.lookup T ℓ k = .table p → S.lookup T ℓ' k' = .table p →
    ℓ = ℓ' ∧ S.Same ℓ k k'

variable {S} {T T' : Tables ι ν δ} {ℓ j : ℕ} {k k' : κ} {p q : ν} {d : δ}

/-! ### Keys with the same path -/

lemma Same.refl (k : κ) : S.Same ℓ k k := fun _ _ _ => rfl

lemma Same.symm (h : S.Same ℓ k k') : S.Same ℓ k' k := fun j h1 h2 => (h j h1 h2).symm

lemma Same.trans {k'' : κ} (h : S.Same ℓ k k') (h' : S.Same ℓ k' k'') : S.Same ℓ k k'' :=
  fun j h1 h2 => (h j h1 h2).trans (h' j h1 h2)

lemma Same.mono (h : S.Same ℓ k k') (hj : j ≤ ℓ) : S.Same j k k' :=
  fun i h1 h2 => h i h1 (h2.trans hj)

lemma Same.succ (h : S.Same ℓ k k') (hi : S.idx (ℓ + 1) k = S.idx (ℓ + 1) k') :
    S.Same (ℓ + 1) k k' := by
  intro j h1 h2
  rcases Nat.lt_or_eq_of_le h2 with h3 | rfl
  · exact h j h1 (Nat.le_of_lt_succ h3)
  · exact hi

lemma child_congr (h : S.idx ℓ k = S.idx ℓ k') (e : Entry ν δ) :
    S.child T ℓ k e = S.child T ℓ k' e := by
  cases e <;> simp [child, h]

lemma lookup_congr (h : S.Same ℓ k k') : S.lookup T ℓ k = S.lookup T ℓ k' := by
  induction ℓ with
  | zero => rfl
  | succ ℓ ih =>
      rw [lookup, lookup, ih (h.mono (Nat.le_succ ℓ))]
      exact child_congr (h _ (Nat.succ_pos ℓ) le_rfl) _

lemma refine_self (ℓ : ℕ) (d : δ) (k : κ) : S.refine ℓ d k ℓ = d := by
  cases ℓ with
  | zero => rfl
  | succ ℓ => rw [refine, if_neg (Nat.not_succ_le_self ℓ)]

lemma refine_succ (h : ℓ ≤ j) :
    S.refine ℓ d k (j + 1) = S.split (j + 1) (S.idx (j + 1) k) (S.refine ℓ d k j) := by
  rw [refine, if_pos h]

lemma refine_congr (h : S.Same j k k') : S.refine ℓ d k j = S.refine ℓ d k' j := by
  induction j with
  | zero => rfl
  | succ j ih =>
      rw [refine, refine, ih (h.mono (Nat.le_succ j)), h _ (Nat.succ_pos j) le_rfl]

/-! ### The changed views -/

lemma write_on {v : View κ ν δ} (hj : ℓ ≤ j) (hs : S.Same ℓ k k') :
    S.write ℓ k d v j k' = .leaf (S.refine ℓ d k' j) := if_pos ⟨hj, hs⟩

lemma write_off {v : View κ ν δ} (h : ¬ (ℓ ≤ j ∧ S.Same ℓ k k')) :
    S.write ℓ k d v j k' = v j k' := if_neg h

lemma write_congr {v : View κ ν δ} {k'' : κ} (hv : v j k' = v j k'') (h : S.Same j k' k'') :
    S.write ℓ k d v j k' = S.write ℓ k d v j k'' := by
  by_cases hn : ℓ ≤ j ∧ S.Same ℓ k k'
  · rw [write_on hn.1 hn.2, write_on hn.1 (hn.2.trans (h.mono hn.1)), refine_congr h]
  · rw [write_off hn, hv, write_off fun h' => hn ⟨h'.1, h'.2.trans (h.symm.mono h'.1)⟩]

lemma graft_on {v : View κ ν δ} (hs : S.Same ℓ k k') : S.graft ℓ k p v ℓ k' = .table p :=
  if_pos ⟨rfl, hs⟩

lemma graft_off {v : View κ ν δ} (h : ¬ (j = ℓ ∧ S.Same ℓ k k')) :
    S.graft ℓ k p v j k' = v j k' := if_neg h

lemma graft_congr {v : View κ ν δ} {k'' : κ} (hv : v j k' = v j k'') (h : S.Same j k' k'') :
    S.graft ℓ k p v j k' = S.graft ℓ k p v j k'' := by
  by_cases hn : j = ℓ ∧ S.Same ℓ k k'
  · obtain ⟨rfl, hn⟩ := hn
    rw [graft_on hn, graft_on (hn.trans h)]
  · rw [graft_off hn, hv, graft_off]
    rintro ⟨rfl, h'⟩
    exact hn ⟨rfl, h'.trans h.symm⟩

/-! ### Lookups -/

/-- Below a leaf the lookup goes on with its pieces. -/
lemma lookup_of_leaf (hd : S.lookup T ℓ k = .leaf d) (hj : ℓ ≤ j) :
    S.lookup T j k = .leaf (S.refine ℓ d k j) := by
  induction j, hj using Nat.le_induction with
  | base => rw [hd, refine_self]
  | succ j hj ih => rw [lookup, ih, child, refine_succ hj]

/-- A node reached at a level is reached through nodes at the levels above. -/
lemma exists_table_of_lookup (h : S.lookup T (ℓ + 1) k = .table p) :
    ∃ q, S.lookup T ℓ k = .table q ∧ T (ℓ + 1) q (S.idx (ℓ + 1) k) = .table p := by
  rw [lookup] at h
  cases he : S.lookup T ℓ k with
  | invalid => rw [he] at h; exact absurd h (by simp [child])
  | leaf d => rw [he] at h; exact absurd h (by simp [child])
  | table q => rw [he] at h; exact ⟨q, rfl, h⟩

lemma exists_table_of_le (h : S.lookup T ℓ k = .table p) (hj : j ≤ ℓ) :
    ∃ q, S.lookup T j k = .table q := by
  induction ℓ generalizing p with
  | zero => exact ⟨p, by rwa [Nat.le_zero.1 hj]⟩
  | succ ℓ ih =>
      rcases Nat.lt_or_eq_of_le hj with h1 | rfl
      · obtain ⟨q, hq, -⟩ := exists_table_of_lookup h
        exact ih hq (Nat.le_of_lt_succ h1)
      · exact ⟨p, h⟩

/-! ### Trees -/

/-- If the root is never pointed to and no two slots point to one node, there is no sharing. -/
theorem tree_of_unique (hroot : ∀ ℓ k, S.lookup T (ℓ + 1) k ≠ .table S.root)
    (huniq : ∀ {ℓ k ℓ' k' p q q'}, S.lookup T ℓ k = .table q → S.lookup T ℓ' k' = .table q' →
      T (ℓ + 1) q (S.idx (ℓ + 1) k) = .table p → T (ℓ' + 1) q' (S.idx (ℓ' + 1) k') = .table p →
      q = q' ∧ S.idx (ℓ + 1) k = S.idx (ℓ' + 1) k') : S.Tree T := by
  intro ℓ
  induction ℓ with
  | zero =>
      intro k ℓ' k' p h h'
      cases ℓ' with
      | zero => exact ⟨rfl, fun j h1 h2 => by omega⟩
      | succ ℓ' =>
          have hp : S.root = p := by simpa [lookup] using h
          exact absurd h' (hp ▸ hroot ℓ' k')
  | succ ℓ ih =>
      intro k ℓ' k' p h h'
      cases ℓ' with
      | zero =>
          have hp : S.root = p := by simpa [lookup] using h'
          exact absurd h (hp ▸ hroot ℓ k)
      | succ ℓ' =>
          obtain ⟨q, hq, hqp⟩ := exists_table_of_lookup h
          obtain ⟨q', hq', hqp'⟩ := exists_table_of_lookup h'
          obtain ⟨rfl, hidx⟩ := huniq hq hq' hqp hqp'
          obtain ⟨rfl, hsame⟩ := ih hq hq'
          exact ⟨rfl, hsame.succ hidx⟩

/-- In a tree, two paths use the same slot only if they agree down to it. -/
lemma Tree.same_of_slot (hT : S.Tree T) (h : S.lookup T ℓ k = .table p)
    (h' : S.lookup T j k' = .table p) (hi : S.idx (ℓ + 1) k = S.idx (j + 1) k') :
    j = ℓ ∧ S.Same (ℓ + 1) k k' := by
  obtain ⟨rfl, hs⟩ := hT h h'
  exact ⟨rfl, hs.succ hi⟩

/-! ### What a change of the tables does to the lookup -/

/-- Slots that no path uses do not matter. -/
theorem lookup_frame
    (hag : ∀ {j k' q}, S.lookup T j k' = .table q →
      T' (j + 1) q (S.idx (j + 1) k') = T (j + 1) q (S.idx (j + 1) k')) :
    S.lookup T' = S.lookup T := by
  funext ℓ k
  induction ℓ with
  | zero => rfl
  | succ ℓ ih =>
      rw [lookup, lookup, ih]
      cases he : S.lookup T ℓ k with
      | invalid => rfl
      | leaf d => rfl
      | table p => exact hag he

/-- A change of the level-`ℓ + 1` slot of `k` is not seen off that slot. -/
lemma lookup_off
    (hoff : ∀ {j k' q}, S.lookup T j k' = .table q → ¬ (j = ℓ ∧ S.Same (ℓ + 1) k k') →
      T' (j + 1) q (S.idx (j + 1) k') = T (j + 1) q (S.idx (j + 1) k')) :
    ∀ {j k'}, ¬ (ℓ + 1 ≤ j ∧ S.Same (ℓ + 1) k k') → S.lookup T' j k' = S.lookup T j k' := by
  intro j
  induction j with
  | zero => intro k' _; rfl
  | succ j ih =>
      intro k' hn
      rw [lookup, lookup, ih fun h => hn ⟨by omega, h.2⟩]
      cases he : S.lookup T j k' with
      | invalid => rfl
      | leaf d => rfl
      | table q => exact hoff he fun h => hn ⟨by omega, h.2⟩

/-- Storing a leaf in the slot of `k` writes it into the view. -/
theorem lookup_write (hp : S.lookup T ℓ k = .table p)
    (hon : T' (ℓ + 1) p (S.idx (ℓ + 1) k) = .leaf d)
    (hoff : ∀ {j k' q}, S.lookup T j k' = .table q → ¬ (j = ℓ ∧ S.Same (ℓ + 1) k k') →
      T' (j + 1) q (S.idx (j + 1) k') = T (j + 1) q (S.idx (j + 1) k')) :
    S.lookup T' = S.write (ℓ + 1) k d (S.lookup T) := by
  funext j k'
  by_cases h : ℓ + 1 ≤ j ∧ S.Same (ℓ + 1) k k'
  · obtain ⟨hj, hs⟩ := h
    rw [write, if_pos ⟨hj, hs⟩]
    induction j, hj using Nat.le_induction with
    | base =>
        have hpath : S.lookup T' ℓ k' = .table p := by
          rw [lookup_off hoff (fun h => by omega), ← lookup_congr (hs.mono (Nat.le_succ ℓ)), hp]
        rw [lookup, hpath, refine_self]
        simpa [child, ← hs _ (Nat.succ_pos ℓ) le_rfl] using hon
    | succ j hj ih => rw [lookup, ih, child, refine_succ hj]
  · rw [write, if_neg h]
    exact lookup_off hoff h

/-- Pointing the slot of `k` to a node that says what the lookup said before grafts it. -/
theorem lookup_graft (hp : S.lookup T ℓ k = .table p)
    (hnot : ∀ r, S.lookup T (ℓ + 1) k ≠ .table r)
    (hon : T' (ℓ + 1) p (S.idx (ℓ + 1) k) = .table q)
    (hkids : ∀ {k'}, S.Same (ℓ + 1) k k' →
      T' (ℓ + 2) q (S.idx (ℓ + 2) k') = S.child T (ℓ + 2) k' (S.lookup T (ℓ + 1) k'))
    (hoff : ∀ {j k' q}, S.lookup T j k' = .table q → ¬ (j = ℓ ∧ S.Same (ℓ + 1) k k') →
      T' (j + 1) q (S.idx (j + 1) k') = T (j + 1) q (S.idx (j + 1) k')) :
    S.lookup T' = S.graft (ℓ + 1) k q (S.lookup T) := by
  funext j k'
  by_cases h : ℓ + 1 ≤ j ∧ S.Same (ℓ + 1) k k'
  · obtain ⟨hj, hs⟩ := h
    have htop : S.lookup T' (ℓ + 1) k' = .table q := by
      have hpath : S.lookup T' ℓ k' = .table p := by
        rw [lookup_off hoff (fun h => by omega), ← lookup_congr (hs.mono (Nat.le_succ ℓ)), hp]
      rw [lookup, hpath]
      simpa [child, ← hs _ (Nat.succ_pos ℓ) le_rfl] using hon
    rcases Nat.lt_or_eq_of_le hj with hj | rfl
    · rw [graft, if_neg (fun h => by omega)]
      induction j, (show ℓ + 2 ≤ j from hj) using Nat.le_induction with
      | base => rw [lookup, htop, child, hkids hs]; rfl
      | succ j hj ih =>
          -- no node was reached below the slot, so the tables are not read there
          have hno : ∀ r, S.lookup T j k' ≠ .table r := by
            intro r hr
            obtain ⟨q', hq'⟩ := exists_table_of_le hr (show ℓ + 1 ≤ j by omega)
            exact hnot q' (by rw [lookup_congr hs, hq'])
          rw [lookup, ih (by omega) (by omega), lookup]
          cases he : S.lookup T j k' with
          | invalid => rfl
          | leaf d => rfl
          | table r => exact absurd he (hno r)
    · rw [graft, if_pos ⟨rfl, hs⟩]
      exact htop
  · have hg : ¬ (j = ℓ + 1 ∧ S.Same (ℓ + 1) k k') := fun h' => h ⟨h'.1.ge, h'.2⟩
    rw [graft, if_neg hg]
    exact lookup_off hoff h

end Scheme

end Arm64Mmu.Lib.Radix
