import Arm64Mmu.Lib.Runs

/-!
# Locks

A lock has an owner or none.  A process acquires it when it has none, and only the owner
releases it.  `Inside i es` says of a history that the process `i` has acquired the lock and has
not released it since; in a run of the lock that is so of the owner and of nobody else.
-/

namespace Arm64Mmu.Lib.Lock

variable {κ : Type*}

/-- What a step of a process is to the lock. -/
inductive Event where
  | acquire
  | release
  | other
deriving DecidableEq

/-- The steps of the lock, with its owner as the state. -/
inductive Step : Option κ → κ × Event → Option κ → Prop
  | acquire (i : κ) : Step none (i, .acquire) (some i)
  | release (i : κ) : Step (some i) (i, .release) none
  | other (o : Option κ) (i : κ) : Step o (i, .other) o

/-- In the history `es` the process `i` has acquired the lock and not released it since. -/
def Inside (i : κ) (es : List (κ × Event)) : Prop :=
  ∃ es₁ es₂, es = es₁ ++ (i, .acquire) :: es₂ ∧ (i, .release) ∉ es₂

variable {i j : κ} {e : Event} {es : List (κ × Event)} {o : Option κ}

lemma inside_nil : ¬ Inside i [] := by
  rintro ⟨es₁, es₂, he, -⟩
  simp at he

lemma inside_snoc : Inside i (es ++ [(j, e)]) ↔
    (j, e) = (i, .acquire) ∨ (Inside i es ∧ (j, e) ≠ (i, .release)) := by
  constructor
  · rintro ⟨es₁, es₂, he, hnot⟩
    rcases List.eq_nil_or_concat es₂ with rfl | ⟨es₂, x, rfl⟩
    · obtain ⟨-, hx⟩ := List.append_inj' he rfl
      exact .inl (List.singleton_inj.1 hx)
    · rw [List.concat_eq_append] at he hnot
      rw [← List.cons_append, ← List.append_assoc] at he
      obtain ⟨rfl, hx⟩ := List.append_inj' he rfl
      obtain rfl := List.singleton_inj.1 hx
      refine .inr ⟨⟨es₁, es₂, rfl, fun h => hnot (List.mem_append_left _ h)⟩, ?_⟩
      rintro hr
      exact hnot (by simp [hr])
  · rintro (he | ⟨⟨es₁, es₂, rfl, hnot⟩, hne⟩)
    · exact ⟨es, [], by rw [he], List.not_mem_nil⟩
    · refine ⟨es₁, es₂ ++ [(j, e)], by simp, fun h => ?_⟩
      rcases List.mem_append.1 h with h | h
      · exact hnot h
      · exact hne (List.mem_singleton.1 h).symm

/-- In a run of a lock the owner is inside, and nobody else. -/
theorem inside_iff (h : Run Step none es o) : Inside i es ↔ o = some i := by
  induction es using List.reverseRecOn generalizing o with
  | nil =>
      obtain rfl := Run.nil_iff.1 h
      simp [inside_nil]
  | append_singleton es x ih =>
      obtain ⟨o₁, h₁, hstep⟩ := Run.snoc_iff.1 h
      have ih := ih h₁
      cases hstep with
      | acquire j =>
          rw [inside_snoc, ih]
          simp
      | release j =>
          rw [inside_snoc, ih]
          simp
      | other o j =>
          rw [inside_snoc, ih]
          simp

/-- At most one process is inside. -/
theorem inside_unique (h : Run Step none es o) (hi : Inside i es) (hj : Inside j es) : i = j :=
  Option.some.inj (((inside_iff h).1 hi).symm.trans ((inside_iff h).1 hj))

end Arm64Mmu.Lib.Lock
