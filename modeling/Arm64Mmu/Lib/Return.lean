import Mathlib.Data.Nat.Notation
import Mathlib.Logic.Function.Iterate

/-!
# Loops that return

The body of a loop with `return` or `goto` either goes round with a new state or returns a
value.  `Return.loop n` is the value returned within `n` turns, and `Returns` says that the loop
returns a value at all.  A loop is followed turn by turn with `returns_inl` and `returns_inr`; for a
loop that only scans for the first state of a kind there is `returns_scan`.
-/

namespace Arm64Mmu.Lib.Return

variable {σ ρ : Type*} (body : σ → σ ⊕ ρ)

/-- The value that the loop started in `s` returns within `n` turns, if it does. -/
def loop : ℕ → σ → Option ρ
  | 0, _ => none
  | n + 1, s =>
      match body s with
      | .inl s' => loop n s'
      | .inr r => some r

/-- The loop started in `s` returns `r`. -/
def Returns (s : σ) (r : ρ) : Prop := ∃ n, loop body n s = some r

variable {body} {s s' : σ} {r r' : ρ}

lemma Returns.of_inr (h : body s = .inr r) : Returns body s r := ⟨1, by simp [loop, h]⟩

lemma Returns.head (h : body s = .inl s') (h' : Returns body s' r) : Returns body s r := by
  obtain ⟨n, hn⟩ := h'
  exact ⟨n + 1, by simpa [loop, h] using hn⟩

lemma returns_inr (h : body s = .inr r') : Returns body s r ↔ r' = r := by
  constructor
  · rintro ⟨n, hn⟩
    cases n with
    | zero => simp [loop] at hn
    | succ n => simpa [loop, h] using hn
  · rintro rfl
    exact .of_inr h

lemma returns_inl (h : body s = .inl s') : Returns body s r ↔ Returns body s' r := by
  constructor
  · rintro ⟨n, hn⟩
    cases n with
    | zero => simp [loop] at hn
    | succ n => exact ⟨n, by simpa [loop, h] using hn⟩
  · exact .head h

/-- A loop returns one value at most. -/
lemma Returns.unique (h : Returns body s r) (h' : Returns body s r') : r = r' := by
  obtain ⟨n, hn⟩ := h
  induction n generalizing s with
  | zero => simp [loop] at hn
  | succ n ih =>
      cases hb : body s with
      | inl s' =>
          rw [loop, hb] at hn
          exact ih ((returns_inl hb).1 h') hn
      | inr r'' =>
          rw [loop, hb] at hn
          exact (Option.some.inj hn).symm.trans ((returns_inr hb).1 h')

/-! ### Scanning -/

/-- The loop that goes on with `next` up to the first state with `stop`, and returns what `f`
makes of it. -/
def scan (stop : σ → Prop) [DecidablePred stop] (next : σ → σ) (f : σ → ρ) (s : σ) : σ ⊕ ρ :=
  if stop s then .inr (f s) else .inl (next s)

variable {stop : σ → Prop} [DecidablePred stop] {next : σ → σ} {f : σ → ρ}

/-- A scan returns exactly if it meets a state with `stop`. -/
theorem returns_scan : Returns (scan stop next f) s r ↔
    ∃ i, stop (next^[i] s) ∧ (∀ j < i, ¬ stop (next^[j] s)) ∧ f (next^[i] s) = r := by
  constructor
  · rintro ⟨n, hn⟩
    induction n generalizing s with
    | zero => simp [loop] at hn
    | succ n ih =>
        by_cases h : stop s
        · rw [loop, scan, if_pos h] at hn
          exact ⟨0, h, fun j hj => absurd hj (Nat.not_lt_zero j), Option.some.inj hn⟩
        · rw [loop, scan, if_neg h] at hn
          obtain ⟨i, hi, hlt, hr⟩ := ih hn
          refine ⟨i + 1, hi, fun j hj => ?_, hr⟩
          cases j with
          | zero => exact h
          | succ j => exact hlt j (Nat.lt_of_succ_lt_succ hj)
  · rintro ⟨i, hi, hlt, rfl⟩
    induction i generalizing s with
    | zero => exact .of_inr (if_pos hi)
    | succ i ih =>
        have h0 : ¬ stop s := hlt 0 (Nat.succ_pos i)
        refine Returns.head (if_neg h0) (ih hi fun j hj => ?_)
        exact hlt (j + 1) (Nat.succ_lt_succ hj)

end Arm64Mmu.Lib.Return
