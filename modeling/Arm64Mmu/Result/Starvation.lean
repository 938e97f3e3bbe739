import Mathlib.Data.List.GetD
import Mathlib.Tactic.FinCases
import Arm64Mmu.Result.Spinlock

/-!
# The spinlock is not fair

`spin_lock` lets some core in, but not every core.  A core may read the lock word again and again
at the moments at which another core has the lock, and then it does not even come to its `STXR`
(`spin_lock_starves`).
-/

namespace Arm64Mmu.Spinlock

open Lib

variable {κ κ' : Type*} [DecidableEq κ] [DecidableEq κ'] {e : κ' → κ} {t t' : State κ'}
  {s : State κ} {i : κ'} {l : κ' × Act}

/-! ### Some cores among others -/

/-- The cores of `t` are the cores `e i` of `s`, and the lock words are the same. -/
structure Embeds (e : κ' → κ) (t : State κ') (s : State κ) : Prop where
  word : s.word = t.word
  core : ∀ i, s.core (e i) = t.core i

lemma Embeds.update (h : Embeds e t s) (he : Function.Injective e) (i : κ') (c : Core)
    (v : Option U32) : Embeds e (t.update i c v) (s.update (e i) c v) := by
  have hcore : ∀ j, Function.update s.core (e i) c (e j) = Function.update t.core i c j := by
    intro j
    by_cases hj : j = i
    · rw [hj, Function.update_self, Function.update_self]
    · rw [Function.update_of_ne hj, Function.update_of_ne fun h => hj (he h), h.core]
  cases v with
  | none => exact ⟨h.word, hcore⟩
  | some v =>
      refine ⟨rfl, fun j => ?_⟩
      simp only [State.update, hcore]

/-- What some of the cores do is a step of the system, in which the others do nothing. -/
lemma Embeds.step (h : Embeds e t s) (he : Function.Injective e)
    (hs : Spinlock.step t l = some t') :
    ∃ s', Spinlock.step s (e l.1, l.2) = some s' ∧ Embeds e t' s' := by
  obtain ⟨i, a⟩ := l
  cases a with
  | call w1 w2 =>
      rw [Spinlock.step, Option.map_eq_some_iff] at hs
      obtain ⟨c, hc, rfl⟩ := hs
      refine ⟨_, ?_, h.update he i c none⟩
      rw [Spinlock.step, h.core, hc, Option.map_some]
  | exec ins ok =>
      rw [Spinlock.step] at hs
      split_ifs at hs with hf
      obtain ⟨⟨c, v⟩, hc, rfl⟩ := Option.map_eq_some_iff.1 hs
      refine ⟨_, ?_, h.update he i c v⟩
      rw [Spinlock.step, h.core, h.word, if_pos hf, hc, Option.map_some]

/-! ### Two cores -/

/-- The core `false` calls `spin_lock`. -/
def entering : List (Bool × Act) :=
  [ (false, .call 0 0), (false, .exec (.mov .w2 1) false), (false, .exec .sevl false) ]

/-- The core `true` locks and unlocks, and in between the core `false` reads the lock word. -/
def bypass : List (Bool × Act) :=
  [ (true, .call 0 0), (true, .exec (.mov .w2 1) false), (true, .exec .sevl false),
    (true, .exec .wfe false), (true, .exec (.ldaxr .w1) false),
    (true, .exec (.cbnz .w1 l1) false), (true, .exec (.stxr .w1 .w2) true),
    (true, .exec (.cbnz .w1 l2) false), (true, .exec .ret false),
    -- the event of `SEVL`, and from then on of the `STLR` of the last round, ends the `WFE`
    (false, .exec .wfe false), (false, .exec (.ldaxr .w1) false),
    (false, .exec (.cbnz .w1 l1) false),
    (true, .call 0 0), (true, .exec (.stlr .wzr) false), (true, .exec .ret false) ]

/-- The lock is free, the core `true` is outside and the core `false` about to wait. -/
structure Waiting (t : State Bool) : Prop where
  word : t.word = 0
  outside : (t.core true).loc = .idle
  inside : (t.core false).loc = .spinLock 2

/-- The two cores one by one, with the locations apart from the registers. -/
lemma eq_cores (t : State Bool) : t = ⟨t.word, fun b =>
    bif b then ⟨(t.core true).loc, (t.core true).w1, (t.core true).w2, (t.core true).reserved⟩
    else ⟨(t.core false).loc, (t.core false).w1, (t.core false).w2, (t.core false).reserved⟩⟩ := by
  obtain ⟨word, core⟩ := t
  rw [State.mk.injEq]
  refine ⟨rfl, funext fun b => ?_⟩
  cases b <;> rfl

lemma Initial.entering {t : State Bool} (h : Initial t) : ∃ u, Runs t entering u ∧ Waiting u := by
  rw [eq_cores t, h.word, h.loc true, h.loc false]
  exact ⟨_, Run.of_foldlM rfl, rfl, rfl, rfl⟩

lemma Waiting.bypass {t : State Bool} (h : Waiting t) : ∃ u, Runs t bypass u ∧ Waiting u := by
  rw [eq_cores t, h.word, h.outside, h.inside]
  exact ⟨_, Run.of_foldlM rfl, rfl, rfl, rfl⟩

/-! ### The schedule -/

/-- The steps `entering`, and `bypass` again and again. -/
def schedule (n : ℕ) : Bool × Act :=
  if n < 3 then entering.getD n (false, .call 0 0)
  else bypass.getD ((n - 3) % 15) (false, .call 0 0)

lemma schedule_add (k : ℕ) {i : ℕ} (hi : i < 15) :
    schedule (3 + 15 * k + i) = bypass.getD i (false, .call 0 0) := by
  have hn : ¬ 3 + 15 * k + i < 3 := by omega
  have hmod : (3 + 15 * k + i - 3) % 15 = i := by omega
  rw [schedule, if_neg hn, hmod]

lemma map_schedule (k : ℕ) :
    (List.range 15).map (fun i => schedule (3 + 15 * k + i)) = Spinlock.bypass := by
  have h : (List.range 15).map (fun i => schedule (3 + 15 * k + i)) =
      (List.range 15).map fun i => bypass.getD i (false, .call 0 0) :=
    List.map_congr_left fun i hi => schedule_add k (List.mem_range.1 hi)
  rw [h]
  rfl

/-- The core `false` does not come to the `STXR`. -/
lemma schedule_stxr (n : ℕ) (h : (schedule n).1 = false) (rs rt : Reg) (ok : Bool) :
    (schedule n).2 ≠ .exec (.stxr rs rt) ok := by
  have hmem : schedule n ∈ entering ++ bypass := by
    rw [schedule, List.mem_append]
    split_ifs with hn
    · rw [List.getD_eq_getElem _ _ (show n < entering.length from hn)]
      exact .inl (List.getElem_mem _)
    · have hlt : (n - 3) % 15 < bypass.length := Nat.mod_lt _ (by decide)
      rw [List.getD_eq_getElem _ _ hlt]
      exact .inr (List.getElem_mem _)
  generalize schedule n = l at h hmem
  fin_cases hmem <;> simp at h ⊢

/-- The first steps of the schedule are a run, up to every return of the core `true`. -/
lemma Initial.rounds {t : State Bool} (h : Initial t) (k : ℕ) :
    ∃ u, Runs t ((List.range (3 + 15 * k)).map schedule) u ∧ Waiting u := by
  induction k with
  | zero => exact h.entering
  | succ k ih =>
      obtain ⟨u, hu, hw⟩ := ih
      obtain ⟨v, hv, hw'⟩ := hw.bypass
      refine ⟨v, ?_, hw'⟩
      rw [Nat.mul_succ, ← Nat.add_assoc, List.range_add, List.map_append, List.map_map]
      exact Run.append_iff.2 ⟨u, hu, (map_schedule k).symm ▸ hv⟩

/-- So they are up to every step. -/
lemma Initial.schedule {t : State Bool} (h : Initial t) (n : ℕ) :
    ∃ u, Runs t ((List.range n).map schedule) u := by
  obtain ⟨u, hu, -⟩ := h.rounds n
  obtain ⟨k, hk⟩ : ∃ k, 3 + 15 * n = n + k := ⟨3 + 14 * n, by omega⟩
  rw [hk, List.range_add, List.map_append] at hu
  obtain ⟨v, hv, -⟩ := Run.append_iff.1 hu
  exact ⟨v, hv⟩

/-- For every two cores there is a run without an end in which the one acquires the lock again
and again, while the other goes on in `spin_lock` and never comes to its `STXR`. -/
theorem spin_lock_starves (s₀ : State κ) (i j : κ) (h0 : Initial s₀) (hij : i ≠ j) :
    ∃ ls : ℕ → κ × Act, (∀ n, ∃ s, Runs s₀ ((List.range n).map ls) s) ∧
      (∀ n, ∃ k ≥ n, (ls k).1 = i ∧ (ls k).2.event = .acquire) ∧
      (∀ n, ∃ k ≥ n, (ls k).1 = j ∧ ∃ t, (ls k).2 = .exec (.ldaxr t) false) ∧
      ∀ n rs rt ok, (ls n).1 = j → (ls n).2 ≠ .exec (.stxr rs rt) ok := by
  let e : Bool → κ := fun b => bif b then i else j
  have he : Function.Injective e := by
    intro b b' h
    cases b <;> cases b' <;> first | rfl | exact absurd h hij | exact absurd h.symm hij
  let t₀ : State Bool := ⟨0, fun b => s₀.core (e b)⟩
  have hembeds : Embeds e t₀ s₀ := ⟨h0.word, fun _ => rfl⟩
  have hinit : Initial t₀ := ⟨rfl, fun _ => h0.loc _⟩
  refine ⟨fun n => (e (schedule n).1, (schedule n).2), fun n => ?_, fun n => ?_, fun n => ?_,
    fun n rs rt ok h => ?_⟩
  · obtain ⟨u, hu⟩ := hinit.schedule n
    obtain ⟨s, hs, -⟩ :
        ∃ s, Runs s₀ (((List.range n).map schedule).map fun l => (e l.1, l.2)) s ∧ Embeds e u s :=
      hu.simulation hembeds fun t l u s h hl => h.step he hl
    rw [List.map_map] at hs
    exact ⟨s, hs⟩
  · refine ⟨3 + 15 * n + 6, by omega, ?_⟩
    simp only [schedule_add n (show 6 < 15 by omega)]
    exact ⟨rfl, rfl⟩
  · refine ⟨3 + 15 * n + 10, by omega, ?_⟩
    simp only [schedule_add n (show 10 < 15 by omega)]
    exact ⟨rfl, .w1, rfl⟩
  · exact schedule_stxr n (he h) rs rt ok

/-- Two cores are enough. -/
theorem spin_lock_starves_sample : ∃ ls : ℕ → Bool × Act,
    (∀ n, ∃ s, Runs sampleState ((List.range n).map ls) s) ∧
      (∀ n, ∃ k ≥ n, (ls k).1 = true ∧ (ls k).2.event = .acquire) ∧
      (∀ n, ∃ k ≥ n, (ls k).1 = false ∧ ∃ t, (ls k).2 = .exec (.ldaxr t) false) ∧
      ∀ n rs rt ok, (ls n).1 = false → (ls n).2 ≠ .exec (.stxr rs rt) ok :=
  spin_lock_starves sampleState true false ⟨rfl, fun _ => rfl⟩ (by decide)

end Arm64Mmu.Spinlock
