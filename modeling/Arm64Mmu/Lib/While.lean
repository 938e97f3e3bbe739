import Mathlib.Logic.Basic
import Mathlib.Data.Nat.Notation

/-!
# While loops over a partial body

A loop is a condition `go` and a body that may get stuck.  `While.run n` is the state after at
most `n` iterations, `While.Visits` says that a state is met at the head of the loop, and
`While.Exits` that the loop leaves in it.  The two rules at the end are the ones used with a
loop: an invariant holds at every visited state, and a variant that decreases at every
iteration makes the loop exit.
-/

namespace Arm64Mmu.Lib.While

variable {σ : Type*} (go : σ → Prop) [DecidablePred go] (body : σ → Option σ)

/-- One turn of the loop; a state in which the condition fails stays as it is. -/
def turn (s : σ) : Option σ := if go s then body s else some s

/-- The state after at most `n` iterations, `none` if one of them gets stuck. -/
def run : ℕ → σ → Option σ
  | 0, s => some s
  | n + 1, s => (run n s).bind (turn go body)

/-- `t` is met at the head of the loop started in `s`. -/
def Visits (s t : σ) : Prop := ∃ n, run go body n s = some t

/-- The loop started in `s` leaves in `t`. -/
def Exits (s t : σ) : Prop := Visits go body s t ∧ ¬ go t

variable {go body} {s t u : σ}

lemma Visits.refl (s : σ) : Visits go body s s := ⟨0, rfl⟩

lemma Visits.tail (h : Visits go body s t) (hgo : go t) (hb : body t = some u) :
    Visits go body s u := by
  obtain ⟨n, hn⟩ := h
  exact ⟨n + 1, by simp [run, hn, turn, hgo, hb]⟩

/-- A state in which the loop has left is not left again. -/
lemma run_add_of_not_go {n : ℕ} (hn : run go body n s = some t) (ht : ¬ go t) (k : ℕ) :
    run go body (n + k) s = some t := by
  induction k with
  | zero => exact hn
  | succ k ih => simp [run, ih, turn, ht]

/-- The loop leaves in at most one state. -/
lemma Exits.unique (h : Exits go body s t) (h' : Exits go body s u) : t = u := by
  obtain ⟨⟨n, hn⟩, ht⟩ := h
  obtain ⟨⟨m, hm⟩, hu⟩ := h'
  have h1 := run_add_of_not_go hn ht m
  have h2 := run_add_of_not_go hm hu n
  rw [Nat.add_comm m n, h1] at h2
  exact Option.some.inj h2

/-- The invariant rule: what holds at the start and survives every iteration holds at every
visited state. -/
theorem Visits.invariant {P : σ → Prop} (h : Visits go body s t) (h0 : P s)
    (hstep : ∀ a b, Visits go body s a → P a → go a → body a = some b → P b) : P t := by
  obtain ⟨n, hn⟩ := h
  induction n generalizing t with
  | zero =>
      have hst : s = t := Option.some.inj hn
      exact hst ▸ h0
  | succ n ih =>
      obtain ⟨a, ha, hat⟩ := Option.bind_eq_some_iff.1 hn
      by_cases hgo : go a
      · rw [turn, if_pos hgo] at hat
        exact hstep a t ⟨n, ha⟩ (ih ha) hgo hat
      · rw [turn, if_neg hgo] at hat
        have hat' : a = t := Option.some.inj hat
        exact hat' ▸ ih ha

/-- The termination rule: if from every visited state in which the loop goes on the body
succeeds, keeps `P` and makes the variant `μ` smaller, then the loop leaves in a state with
`P`. -/
theorem exits_of_variant {P : σ → Prop} (μ : σ → ℕ) (h0 : P s)
    (hstep : ∀ a, Visits go body s a → P a → go a →
      ∃ b, body a = some b ∧ P b ∧ μ b < μ a) :
    ∃ t, Exits go body s t ∧ P t := by
  suffices H : ∀ k a, μ a ≤ k → Visits go body s a → P a → ∃ t, Exits go body s t ∧ P t from
    H (μ s) s (Nat.le_refl _) (Visits.refl s) h0
  intro k
  induction k with
  | zero =>
      intro a hk hv hP
      by_cases hgo : go a
      · obtain ⟨b, -, -, hlt⟩ := hstep a hv hP hgo
        omega
      · exact ⟨a, ⟨hv, hgo⟩, hP⟩
  | succ k ih =>
      intro a hk hv hP
      by_cases hgo : go a
      · obtain ⟨b, hb, hPb, hlt⟩ := hstep a hv hP hgo
        exact ih b (by omega) (hv.tail hgo hb) hPb
      · exact ⟨a, ⟨hv, hgo⟩, hP⟩

end Arm64Mmu.Lib.While
