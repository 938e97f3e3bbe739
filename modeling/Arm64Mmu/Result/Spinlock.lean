import Mathlib.Tactic.IntervalCases
import Arm64Mmu.Model.Spinlock

/-!
# The spinlock is a lock

The program points of the routines carry assertions about the registers and the reservation of
the core (`Core.Ok`); the central one is that the lock word still is what `LDAXR` read, as long
as the reservation stands.  With them every step of the system is a step of the lock of
`Lib.Lock` (`Refines.step`), and mutual exclusion follows.
-/

namespace Arm64Mmu.Spinlock

open Lib

namespace Core

/-! ### Assertions -/

/-- The core is behind its successful `STXR` and before its `STLR`. -/
def Holds (c : Core) : Prop :=
  match c.loc with
  | .spinLock 6 => c.w1 = 0
  | .spinLock 7 => True
  | .held => True
  | .spinUnlock 0 => True
  | _ => False

/-- The assertions at the program points. -/
def Ok (word : U32) (c : Core) : Prop :=
  match c.loc with
  | .spinLock 1 => c.w2 = 1
  | .spinLock 2 => c.w2 = 1
  | .spinLock 3 => c.w2 = 1
  -- the word is what `LDAXR` read while the reservation stands
  | .spinLock 4 => c.w2 = 1 ∧ (c.reserved = true → c.w1 = word)
  | .spinLock 5 => c.w2 = 1 ∧ (c.reserved = true → word = 0)
  | .spinLock 6 => c.w2 = 1
  | _ => True

/-- What a step of one core does: it stores nothing, and the core holds the lock as before; or
it is a successful `STXR`; or it is an `STLR`. -/
inductive Effect (word : U32) (c c' : Core) : Lock.Event → Option U32 → Prop
  | quiet (ok : c'.Ok word) (holds : c'.Holds ↔ c.Holds) : Effect word c c' .other none
  | acquire (free : word = 0) (holds : c'.Holds) (ok : c'.Ok 1) :
      Effect word c c' .acquire (some 1)
  | release (holds : c.Holds) (not : ¬ c'.Holds) (ok : c'.Ok 0) :
      Effect word c c' .release (some 0)

variable {c c' : Core} {word word' : U32} {v : Option U32} {ok r : Bool} {ins : Instr}
  {w1 w2 : U32} {pc : ℕ}

/-- `CBNZ` in the two retry loops. -/
lemma exec_cbnz (label : ℕ) : exec word ⟨.spinLock pc, w1, w2, r⟩ ok (.cbnz .w1 label) =
    some (⟨if w1 = 0 then .spinLock (pc + 1) else .spinLock label, w1, w2, r⟩, none) := by
  show some (Core.mk (if w1 ≠ 0 then .spinLock label else .spinLock (pc + 1)) w1 w2 r, none) = _
  rw [ite_not]

/-- The program points of `spin_lock`. -/
lemma exec_spinLock (h : Ok word ⟨.spinLock pc, w1, w2, r⟩)
    (hf : (Loc.spinLock pc).fetch = some ins)
    (he : exec word ⟨.spinLock pc, w1, w2, r⟩ ok ins = some (c', v)) :
    Effect word ⟨.spinLock pc, w1, w2, r⟩ c' (Act.exec ins ok).event v := by
  obtain ⟨hlt, rfl⟩ := List.getElem?_eq_some_iff.1 hf
  have hlt : pc < 8 := hlt
  interval_cases pc
  · obtain ⟨rfl, rfl⟩ := Prod.mk.inj (Option.some.inj he)
    exact .quiet rfl Iff.rfl
  · obtain ⟨rfl, rfl⟩ := Prod.mk.inj (Option.some.inj he)
    exact .quiet h Iff.rfl
  · obtain ⟨rfl, rfl⟩ := Prod.mk.inj (Option.some.inj he)
    exact .quiet h Iff.rfl
  · obtain ⟨rfl, rfl⟩ := Prod.mk.inj (Option.some.inj he)
    exact .quiet ⟨h, fun _ => rfl⟩ Iff.rfl
  · obtain ⟨rfl, rfl⟩ := Prod.mk.inj (Option.some.inj ((exec_cbnz l1).symm.trans he))
    obtain ⟨hw2, hread⟩ := h
    by_cases h0 : w1 = 0
    · rw [if_pos h0]
      exact .quiet ⟨hw2, fun hr => (hread hr).symm.trans h0⟩ Iff.rfl
    · rw [if_neg h0]
      exact .quiet hw2 Iff.rfl
  · obtain ⟨hw2, hfree⟩ := h
    cases ok with
    | false =>
        obtain ⟨rfl, rfl⟩ := Prod.mk.inj (Option.some.inj he)
        exact .quiet hw2 (iff_of_false (by decide : (1 : U32) ≠ 0) id)
    | true =>
        cases r with
        | false => exact absurd he (by simp [exec, spinLock])
        | true =>
            obtain ⟨rfl, rfl⟩ := Prod.mk.inj (Option.some.inj he)
            obtain rfl : w2 = 1 := hw2
            exact .acquire (hfree rfl) rfl rfl
  · obtain ⟨rfl, rfl⟩ := Prod.mk.inj (Option.some.inj ((exec_cbnz l2).symm.trans he))
    by_cases h0 : w1 = 0
    · rw [if_pos h0]
      exact .quiet trivial (iff_of_true trivial h0)
    · rw [if_neg h0]
      exact .quiet h (iff_of_false id h0)
  · obtain ⟨rfl, rfl⟩ := Prod.mk.inj (Option.some.inj he)
    exact .quiet trivial Iff.rfl

/-- The program points of `spin_unlock`. -/
lemma exec_spinUnlock (hf : (Loc.spinUnlock pc).fetch = some ins)
    (he : exec word ⟨.spinUnlock pc, w1, w2, r⟩ ok ins = some (c', v)) :
    Effect word ⟨.spinUnlock pc, w1, w2, r⟩ c' (Act.exec ins ok).event v := by
  obtain ⟨hlt, rfl⟩ := List.getElem?_eq_some_iff.1 hf
  have hlt : pc < 2 := hlt
  interval_cases pc
  · obtain ⟨rfl, rfl⟩ := Prod.mk.inj (Option.some.inj he)
    exact .release trivial id trivial
  · obtain ⟨rfl, rfl⟩ := Prod.mk.inj (Option.some.inj he)
    exact .quiet trivial Iff.rfl

/-- An instruction keeps the assertions of the core that executes it. -/
theorem exec_effect (h : c.Ok word) (hf : c.loc.fetch = some ins)
    (he : c.exec word ok ins = some (c', v)) : Effect word c c' (Act.exec ins ok).event v := by
  obtain ⟨loc, w1, w2, r⟩ := c
  cases loc with
  | idle => exact absurd hf (by simp [Loc.fetch])
  | held => exact absurd hf (by simp [Loc.fetch])
  | spinLock pc => exact exec_spinLock h hf he
  | spinUnlock pc => exact exec_spinUnlock hf he

/-- So does a call. -/
theorem call_effect (he : c.call w1 w2 = some c') :
    Effect word c c' (Act.call w1 w2).event none := by
  obtain ⟨loc, w1', w2', r⟩ := c
  cases loc with
  | idle =>
      obtain rfl := Option.some.inj he
      exact .quiet trivial Iff.rfl
  | held =>
      obtain rfl := Option.some.inj he
      exact .quiet trivial Iff.rfl
  | spinLock pc => exact absurd he (by simp [call])
  | spinUnlock pc => exact absurd he (by simp [call])

/-- A store of another core clears the reservation, so that it does no harm. -/
lemma Ok.clear (h : c.Ok word) : Ok word' { c with reserved := false } := by
  obtain ⟨loc, w1, w2, r⟩ := c
  unfold Ok at h ⊢
  split at h <;> simp_all

end Core

/-! ### The refinement -/

variable {κ : Type*} [DecidableEq κ] {s t : State κ} {o : Option κ} {i j : κ} {l : κ × Act}
  {ls : List (κ × Act)}

/-- The system in the state `s` stands for the lock with the owner `o`. -/
structure Refines (s : State κ) (o : Option κ) : Prop where
  word : s.word = if o.isSome then 1 else 0
  holds : ∀ i, (s.core i).Holds ↔ o = some i
  ok : ∀ i, (s.core i).Ok s.word

omit [DecidableEq κ] in
lemma Initial.refines (h : Initial s) : Refines s none where
  word := h.word
  holds i := by simp [Core.Holds, h.loc i]
  ok i := by simp [Core.Ok, h.loc i]

/-- A step of the system is a step of one core. -/
lemma step_cases (hok : ∀ i, (s.core i).Ok s.word) (h : step s l = some t) :
    ∃ c v, t = s.update l.1 c v ∧ (s.core l.1).Effect s.word c l.2.event v := by
  obtain ⟨i, a⟩ := l
  cases a with
  | call w1 w2 =>
      obtain ⟨c, hc, rfl⟩ := Option.map_eq_some_iff.1 h
      exact ⟨c, none, rfl, Core.call_effect hc⟩
  | exec ins ok =>
      by_cases hf : (s.core i).loc.fetch = some ins
      · rw [step, if_pos hf] at h
        obtain ⟨⟨c, v⟩, hc, rfl⟩ := Option.map_eq_some_iff.1 h
        exact ⟨c, v, rfl, Core.exec_effect (hok i) hf hc⟩
      · rw [step, if_neg hf] at h
        exact absurd h (by simp)

/-- Every step of the system is a step of the lock. -/
theorem Refines.step (h : Refines s o) (hs : Spinlock.step s l = some t) :
    ∃ o', Lock.Step o (l.1, l.2.event) o' ∧ Refines t o' := by
  obtain ⟨c, v, rfl, heff⟩ := step_cases h.ok hs
  obtain ⟨i, a⟩ := l
  simp only at heff ⊢
  generalize a.event = e at heff ⊢
  have hi := h.holds i
  cases heff with
  | quiet ok holds =>
      refine ⟨o, .other o i, h.word, ?_, ?_⟩
      · exact (Function.forall_update_iff s.core fun j c => c.Holds ↔ o = some j).2
          ⟨holds.trans hi, fun j _ => h.holds j⟩
      · exact (Function.forall_update_iff s.core fun _ c => c.Ok s.word).2
          ⟨ok, fun j _ => h.ok j⟩
  | acquire free holds ok =>
      -- the word is 0, so that nobody has the lock
      obtain rfl : o = none := by
        cases o with
        | none => rfl
        | some k => exact absurd (h.word.symm.trans free) (by simp)
      refine ⟨some i, .acquire i, rfl, ?_, ?_⟩
      · refine (Function.forall_update_iff s.core fun j c =>
          Core.Holds { c with reserved := false } ↔ some i = some j).2
            ⟨iff_of_true holds rfl, fun j hj => ?_⟩
        exact iff_of_false (fun hold => by simpa using (h.holds j).1 hold)
          fun he => hj (Option.some.inj he).symm
      · exact (Function.forall_update_iff s.core fun _ c =>
          Core.Ok 1 { c with reserved := false }).2 ⟨ok.clear, fun j _ => (h.ok j).clear⟩
  | release holds not ok =>
      obtain rfl := hi.1 holds
      refine ⟨none, .release i, rfl, ?_, ?_⟩
      · refine (Function.forall_update_iff s.core fun j c =>
          Core.Holds { c with reserved := false } ↔ none = some j).2
            ⟨iff_of_false not (by simp), fun j hj => ?_⟩
        exact iff_of_false (fun hold => hj (Option.some.inj ((h.holds j).1 hold)).symm) (by simp)
      · exact (Function.forall_update_iff s.core fun _ c =>
          Core.Ok 0 { c with reserved := false }).2 ⟨ok.clear, fun j _ => (h.ok j).clear⟩

/-- Every run of the system is a run of the lock. -/
theorem Initial.simulates (h0 : Initial s) (h : Runs s ls t) :
    ∃ o, Run Lock.Step none (ls.map fun l => (l.1, l.2.event)) o ∧ Refines t o :=
  Run.simulation h h0.refines fun _ _ _ _ hR hs => hR.step hs

/-- Mutual exclusion: in every run, at most one core is between its successful `STXR` and its
`STLR`, and the lock word is 1 exactly if some core is. -/
theorem spin_lock_mutual_exclusion (s₀ s : State κ) (ls : List (κ × Act)) (h0 : Initial s₀)
    (h : Runs s₀ ls s) :
    (∀ i j, Owns i ls → Owns j ls → i = j) ∧ (s.word = 1 ↔ ∃ i, Owns i ls) := by
  obtain ⟨o, hrun, hR⟩ := h0.simulates h
  refine ⟨fun i j hi hj => Lock.inside_unique hrun hi hj, ?_⟩
  have hiff : (∃ i, Owns i ls) ↔ o.isSome = true := by
    rw [Option.isSome_iff_exists]
    exact exists_congr fun i => Lock.inside_iff hrun
  rw [hiff, hR.word]
  cases o with
  | none => simp
  | some k => simp

/-! ### A run -/

/-- Two cores that read the word while it is 0; only one of them gets the lock. -/
def sampleRun : List (Bool × Act) :=
  [ (false, .call 0 0), (true, .call 7 7),
    (false, .exec (.mov .w2 1) false), (true, .exec (.mov .w2 1) false),
    (false, .exec .sevl false), (true, .exec .sevl false),
    (false, .exec .wfe false), (true, .exec .wfe false),
    (false, .exec (.ldaxr .w1) false), (true, .exec (.ldaxr .w1) false),
    (false, .exec (.cbnz .w1 l1) false), (true, .exec (.cbnz .w1 l1) false),
    (true, .exec (.stxr .w1 .w2) true), (false, .exec (.stxr .w1 .w2) false) ]

/-- The state before the sample run. -/
def sampleState : State Bool := ⟨0, fun _ => ⟨.idle, 0, 0, false⟩⟩

/-- After the sample run some core has the lock. -/
theorem spin_lock_mutual_exclusion_sample :
    ∃ s, Runs sampleState sampleRun s ∧ s.word = 1 ∧ ∃ i, Owns i sampleRun := by
  have hword : (sampleRun.foldlM step sampleState).map State.word = some 1 := by decide
  obtain ⟨s, hs, hone⟩ := Option.map_eq_some_iff.1 hword
  have hrun := Run.of_foldlM hs
  refine ⟨s, hrun, hone, ?_⟩
  exact (spin_lock_mutual_exclusion sampleState s sampleRun ⟨rfl, fun _ => rfl⟩ hrun).2.1 hone

end Arm64Mmu.Spinlock
