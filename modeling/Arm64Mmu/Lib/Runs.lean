import Mathlib.Data.List.Induction

/-!
# Runs of a labelled transition relation

`Run step s ls t` says that the steps labelled `ls`, taken in this order, lead from `s` to
`t`.  Runs grow at the end, so that the labels of a run are its history.
-/

namespace Arm64Mmu.Lib

variable {σ ℓ τ ℓ' : Type*} {step : σ → ℓ → σ → Prop} {step' : τ → ℓ' → τ → Prop}

/-- The runs of a labelled transition relation. -/
inductive Run (step : σ → ℓ → σ → Prop) : σ → List ℓ → σ → Prop
  | nil (s : σ) : Run step s [] s
  | snoc {s t u : σ} {ls : List ℓ} {l : ℓ} (h : Run step s ls t) (hs : step t l u) :
      Run step s (ls ++ [l]) u

namespace Run

variable {s t u : σ} {ls ls' : List ℓ} {l : ℓ}

lemma nil_iff : Run step s [] t ↔ s = t := by
  constructor
  · intro h
    generalize hls : ([] : List ℓ) = ls at h
    cases h with
    | nil => rfl
    | snoc h hs => simp at hls
  · rintro rfl
    exact .nil s

lemma snoc_iff : Run step s (ls ++ [l]) u ↔ ∃ t, Run step s ls t ∧ step t l u := by
  constructor
  · intro h
    generalize hls : ls ++ [l] = ls' at h
    cases h with
    | nil => simp at hls
    | snoc h hs =>
        obtain ⟨rfl, hl⟩ := List.append_inj' hls rfl
        obtain rfl : l = _ := by simpa using hl
        exact ⟨_, h, hs⟩
  · rintro ⟨t, h, hs⟩
    exact h.snoc hs

lemma append_iff : Run step s (ls ++ ls') u ↔ ∃ t, Run step s ls t ∧ Run step t ls' u := by
  induction ls' using List.reverseRecOn generalizing u with
  | nil => simp [nil_iff]
  | append_singleton ls' l ih =>
      rw [← List.append_assoc, snoc_iff]
      constructor
      · rintro ⟨v, hv, hs⟩
        obtain ⟨t, ht, htv⟩ := ih.1 hv
        exact ⟨t, ht, htv.snoc hs⟩
      · rintro ⟨t, ht, htu⟩
        obtain ⟨v, htv, hs⟩ := snoc_iff.1 htu
        exact ⟨v, ih.2 ⟨t, ht, htv⟩, hs⟩

/-- The invariant rule: what holds at the start and is kept by every step whose label is
allowed holds at the end of every run over allowed labels. -/
theorem invariant {I : σ → Prop} {A : ℓ → Prop} (h : Run step s ls t) (h0 : I s)
    (hls : ∀ l ∈ ls, A l) (hstep : ∀ a l b, A l → I a → step a l b → I b) : I t := by
  induction h with
  | nil => exact h0
  | @snoc a b ls l h hs ih =>
      have hl : A l := hls l (by simp)
      exact hstep a l b hl (ih fun l' hl' => hls l' (by simp [hl'])) hs

/-- A run of a relation is a run of every larger one. -/
lemma imp {step' : σ → ℓ → σ → Prop} (h : Run step s ls t)
    (hstep : ∀ a l b, step a l b → step' a l b) : Run step' s ls t := by
  induction h with
  | nil => exact .nil s
  | snoc h hs ih => exact ih.snoc (hstep _ _ _ hs)

/-- The simulation rule: if related states make related steps, whose labels are renamed by `f`,
then every run is matched by a run of the other relation. -/
theorem simulation {f : ℓ → ℓ'} {R : σ → τ → Prop} {a : τ} (h : Run step s ls t) (h0 : R s a)
    (hstep : ∀ s l t a, R s a → step s l t → ∃ b, step' a (f l) b ∧ R t b) :
    ∃ b, Run step' a (ls.map f) b ∧ R t b := by
  induction h with
  | nil => exact ⟨a, .nil a, h0⟩
  | @snoc s₁ s₂ ls l h hs ih =>
      obtain ⟨b₁, hb₁, hR₁⟩ := ih
      obtain ⟨b₂, hb₂, hR₂⟩ := hstep s₁ l s₂ b₁ hR₁ hs
      rw [List.map_append, List.map_singleton]
      exact ⟨b₂, hb₁.snoc hb₂, hR₂⟩

/-- The runs of a partial function are its iterations. -/
lemma of_foldlM {f : σ → ℓ → Option σ} (h : ls.foldlM f s = some t) :
    Run (fun s l t => f s l = some t) s ls t := by
  induction ls using List.reverseRecOn generalizing t with
  | nil => exact nil_iff.2 (Option.some.inj h)
  | append_singleton ls l ih =>
      rw [List.foldlM_append, Option.bind_eq_bind, Option.bind_eq_some_iff] at h
      obtain ⟨u, hu, hl⟩ := h
      refine snoc_iff.2 ⟨u, ih hu, ?_⟩
      simpa using hl

end Run

end Arm64Mmu.Lib
