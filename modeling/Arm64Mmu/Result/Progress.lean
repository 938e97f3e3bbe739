import Arm64Mmu.Result.Spinlock

/-!
# The spinlock makes progress

A failed attempt of one core is the success of another one: while the lock is free, six steps of a
core in `spin_lock` are enough for some core to acquire it, unless an `STXR` fails for no reason
(`spin_lock_progress`).  And there is no deadlock: whatever happened, every core can still get the
lock (`spin_lock_reachable`).
-/

namespace Arm64Mmu.Spinlock

open Lib

namespace Core

/-! ### Steps to the lock -/

/-- The number of instructions that the core executes until its `STXR` succeeds, if the word is 0
and stays so. -/
def need (c : Core) : ℕ :=
  match c.loc with
  | .spinLock 0 => 6
  | .spinLock 1 => 5
  | .spinLock 2 => 4
  | .spinLock 3 => 3
  | .spinLock 4 => if c.w1 = 0 then if c.reserved then 2 else 6 else 5
  | .spinLock 5 => if c.reserved then 1 else 5
  | .spinLock 6 => 4
  | _ => 1

variable {c c' : Core} {word : U32} {v : Option U32} {ok r : Bool} {ins : Instr} {w1 w2 : U32}
  {pc : ℕ}

lemma need_pos (c : Core) : 1 ≤ c.need := by
  rw [need]
  split <;> (try split_ifs) <;> omega

lemma need_le_six (c : Core) : c.need ≤ 6 := by
  rw [need]
  split <;> (try split_ifs) <;> omega

/-- An instruction brings a core nearer to the lock if the word is 0, except for an `STXR` that
succeeds, or fails with the reservation standing. -/
lemma exec_need (hnot : ¬ Holds ⟨.spinLock pc, w1, w2, r⟩)
    (hf : (Loc.spinLock pc).fetch = some ins)
    (he : exec 0 ⟨.spinLock pc, w1, w2, r⟩ ok ins = some (c', v))
    (hok : (∃ s t, ins = .stxr s t) → ok = false ∧ r = false) :
    v = none ∧ ∃ pc', c'.loc = .spinLock pc' ∧ c'.need < need ⟨.spinLock pc, w1, w2, r⟩ := by
  obtain ⟨hlt, rfl⟩ := List.getElem?_eq_some_iff.1 hf
  have hlt : pc < 8 := hlt
  interval_cases pc
  · obtain ⟨rfl, rfl⟩ := Prod.mk.inj (Option.some.inj he)
    exact ⟨rfl, 1, rfl, by show 5 < 6; omega⟩
  · obtain ⟨rfl, rfl⟩ := Prod.mk.inj (Option.some.inj he)
    exact ⟨rfl, 2, rfl, by show 4 < 5; omega⟩
  · obtain ⟨rfl, rfl⟩ := Prod.mk.inj (Option.some.inj he)
    exact ⟨rfl, 3, rfl, by show 3 < 4; omega⟩
  · obtain ⟨rfl, rfl⟩ := Prod.mk.inj (Option.some.inj he)
    exact ⟨rfl, 4, rfl, by show 2 < 3; omega⟩
  · obtain ⟨rfl, rfl⟩ := Prod.mk.inj (Option.some.inj ((exec_cbnz l1).symm.trans he))
    by_cases h0 : w1 = 0
    · rw [if_pos h0]
      refine ⟨rfl, 5, rfl, ?_⟩
      simp only [need, h0, if_true]
      split_ifs <;> omega
    · rw [if_neg h0]
      refine ⟨rfl, 2, rfl, ?_⟩
      simp only [need, h0, if_false, l1]
      omega
  · obtain ⟨rfl, rfl⟩ := hok ⟨_, _, rfl⟩
    obtain ⟨rfl, rfl⟩ := Prod.mk.inj (Option.some.inj he)
    exact ⟨rfl, 6, rfl, by show 4 < 5; omega⟩
  · obtain ⟨rfl, rfl⟩ := Prod.mk.inj (Option.some.inj ((exec_cbnz l2).symm.trans he))
    have h0 : w1 ≠ 0 := hnot
    rw [if_neg h0]
    exact ⟨rfl, 3, rfl, by show 3 < 4; omega⟩
  · exact absurd trivial hnot

end Core

/-! ### The lock is free -/

variable {κ : Type*} [DecidableEq κ] {s t : State κ} {o : Option κ} {i : κ} {a : Act} {l : κ × Act}
  {ls : List (κ × Act)} {pc : ℕ}

/-- The step is an `STXR` that fails although the reservation of its core stands. -/
def Spurious (s : State κ) (l : κ × Act) : Prop :=
  (∃ rs rt, l.2 = .exec (.stxr rs rt) false) ∧ (s.core l.1).reserved = true

omit [DecidableEq κ] in
lemma Refines.eq_none (h : Refines s o) (h0 : s.word = 0) : o = none := by
  cases o with
  | none => rfl
  | some k => exact absurd (h.word.symm.trans h0) (by simp)

/-- While the lock is free, a step that does not acquire it changes only its own core. -/
lemma Refines.free_step (h : Refines s none) (hs : Spinlock.step s l = some t)
    (hev : l.2.event ≠ .acquire) :
    Refines t none ∧ ∀ j ≠ l.1, t.core j = s.core j := by
  obtain ⟨o', hstep, hR⟩ := h.step hs
  obtain ⟨c, v, rfl, heff⟩ := step_cases h.ok hs
  obtain ⟨i, a⟩ := l
  simp only at heff hev hstep ⊢
  generalize a.event = e at heff hev hstep
  cases heff with
  | quiet _ _ =>
      cases hstep with
      | other _ _ => exact ⟨hR, fun j hj => Function.update_of_ne hj _ _⟩
  | acquire _ _ _ => exact absurd rfl hev
  | release holds _ _ => exact absurd ((h.holds i).1 holds) (by simp)

/-- A core in `spin_lock` comes nearer to the lock with each of its steps. -/
lemma Refines.step_need (h : Refines s none) (hloc : (s.core i).loc = .spinLock pc)
    (hs : Spinlock.step s (i, a) = some t) (hev : a.event ≠ .acquire) (hsp : ¬ Spurious s (i, a)) :
    ∃ pc', (t.core i).loc = .spinLock pc' ∧ (t.core i).need < (s.core i).need := by
  have hword : s.word = 0 := h.word
  have hnot : ¬ (s.core i).Holds := fun hold => by simpa using (h.holds i).1 hold
  cases a with
  | call w1 w2 =>
      obtain ⟨c, hc, -⟩ := Option.map_eq_some_iff.1 hs
      simp [Core.call, hloc] at hc
  | exec ins ok =>
      have hf : (s.core i).loc.fetch = some ins := by
        by_contra hf
        simp [Spinlock.step, hf] at hs
      simp only [Spinlock.step, hf, if_true] at hs
      obtain ⟨⟨c, v⟩, hc, rfl⟩ := Option.map_eq_some_iff.1 hs
      have hok : (∃ rs rt, ins = .stxr rs rt) → ok = false ∧ (s.core i).reserved = false := by
        rintro ⟨rs, rt, rfl⟩
        cases ok with
        | true => exact absurd rfl hev
        | false => exact ⟨rfl, Bool.eq_false_iff.2 fun hr => hsp ⟨⟨rs, rt, rfl⟩, hr⟩⟩
      rw [hword] at hc
      generalize hcore : s.core i = d at hloc hnot hf hc hok ⊢
      obtain ⟨loc, w1, w2, r⟩ := d
      obtain rfl : loc = .spinLock pc := hloc
      obtain ⟨rfl, pc', hpc', hlt⟩ := Core.exec_need hnot hf hc hok
      have hself : (s.update i c none).core i = c := Function.update_self ..
      exact ⟨pc', by rwa [hself], by rwa [hself]⟩

/-- The number of steps of a core. -/
def steps (i : κ) (ls : List (κ × Act)) : ℕ := ls.countP fun l => l.1 = i

/-- While the lock stays free, the steps of a core in `spin_lock` bring it nearer to the lock. -/
lemma Refines.run_need (h : Refines s none) (hloc : (s.core i).loc = .spinLock pc)
    (hrun : Runs s ls t) (hev : ∀ l ∈ ls, l.2.event ≠ .acquire)
    (hsp : ∀ ls₁ l ls₂ u, ls = ls₁ ++ l :: ls₂ → Runs s ls₁ u → l.1 = i → ¬ Spurious u l) :
    Refines t none ∧ (∃ pc', (t.core i).loc = .spinLock pc') ∧
      (t.core i).need + steps i ls ≤ (s.core i).need := by
  induction ls using List.reverseRecOn generalizing t with
  | nil =>
      obtain rfl := Run.nil_iff.1 hrun
      exact ⟨h, ⟨pc, hloc⟩, le_rfl⟩
  | append_singleton ls l ih =>
      obtain ⟨u, hu, hl⟩ := Run.snoc_iff.1 hrun
      obtain ⟨hR, ⟨pc', hpc'⟩, hneed⟩ := ih hu (fun l' hl' => hev l' (List.mem_append_left _ hl'))
        fun ls₁ l' ls₂ w he => hsp ls₁ l' (ls₂ ++ [l]) w (by simp [he])
      have hev' : l.2.event ≠ .acquire := hev l (by simp)
      obtain ⟨hR', hother⟩ := hR.free_step hl hev'
      refine ⟨hR', ?_⟩
      rw [steps, List.countP_append, ← steps]
      by_cases hi : l.1 = i
      · obtain ⟨j, a⟩ := l
        obtain rfl : j = i := hi
        obtain ⟨pc'', hpc'', hlt⟩ := hR.step_need hpc' hl hev' (hsp ls _ [] u rfl hu rfl)
        refine ⟨⟨pc'', hpc''⟩, ?_⟩
        have hone : List.countP (fun l : κ × Act => decide (l.1 = j)) [(j, a)] = 1 := by simp
        omega
      · have hzero : List.countP (fun l : κ × Act => decide (l.1 = i)) [l] = 0 := by simp [hi]
        rw [hother i (Ne.symm hi)]
        exact ⟨⟨pc', hpc'⟩, by omega⟩

/-- After any run that leaves the lock free, six steps of a core in `spin_lock`, none of them an
`STXR` that fails although its reservation stands, are enough for some core to acquire the lock. -/
theorem spin_lock_progress (s₀ s t : State κ) (ls₀ ls : List (κ × Act)) (i : κ) (pc : ℕ)
    (h0 : Initial s₀) (hs : Runs s₀ ls₀ s) (hfree : s.word = 0)
    (hloc : (s.core i).loc = .spinLock pc) (ht : Runs s ls t) (hsteps : 6 ≤ steps i ls)
    (hsp : ∀ ls₁ l ls₂ u, ls = ls₁ ++ l :: ls₂ → Runs s ls₁ u → l.1 = i → ¬ Spurious u l) :
    ∃ l ∈ ls, l.2.event = .acquire := by
  obtain ⟨o, -, hR⟩ := h0.simulates hs
  obtain rfl := hR.eq_none hfree
  by_contra hno
  push Not at hno
  obtain ⟨-, -, hneed⟩ := hR.run_need hloc ht hno hsp
  have h1 := (t.core i).need_pos
  have h6 := (s.core i).need_le_six
  omega

/-- The steps of a core that gets the lock at once. -/
def soloRun : List (Bool × Act) :=
  [ (false, .exec (.mov .w2 1) false), (false, .exec .sevl false), (false, .exec .wfe false),
    (false, .exec (.ldaxr .w1) false), (false, .exec (.cbnz .w1 l1) false),
    (false, .exec (.stxr .w1 .w2) true) ]

theorem spin_lock_progress_sample : ∃ s t, Runs sampleState [(false, .call 0 0)] s ∧
    Runs s soloRun t ∧ ∃ l ∈ soloRun, l.2.event = .acquire := by
  have hs : Runs sampleState [(false, .call 0 0)]
      (sampleState.update false ⟨.spinLock 0, 0, 0, false⟩ none) := Run.of_foldlM rfl
  obtain ⟨t, ht⟩ : ∃ t, soloRun.foldlM Spinlock.step
      (sampleState.update false ⟨.spinLock 0, 0, 0, false⟩ none) = some t :=
    Option.isSome_iff_exists.1 (by decide)
  have hrun := Run.of_foldlM ht
  refine ⟨_, t, hs, hrun, ?_⟩
  refine spin_lock_progress sampleState _ t [(false, .call 0 0)] soloRun false 0
    ⟨rfl, fun _ => rfl⟩ hs rfl rfl hrun (by decide) ?_
  rintro ls₁ l ls₂ u he - - ⟨⟨rs, rt, hl⟩, -⟩
  have hmem : l ∈ soloRun := he ▸ List.mem_append_right _ List.mem_cons_self
  obtain ⟨i, a⟩ := l
  obtain rfl : a = _ := hl
  simp [soloRun] at hmem

/-! ### No deadlock -/

/-- The location is inside the code of its routine. -/
def Loc.Valid : Loc → Prop
  | .spinLock pc => pc < 8
  | .spinUnlock pc => pc < 2
  | _ => True

namespace Core

variable {c c' : Core} {word : U32} {v : Option U32} {ok : Bool} {ins : Instr} {w1 w2 : U32}

/-- Where an instruction leads. -/
lemma exec_loc (he : c.exec word ok ins = some (c', v)) :
    ins ≠ .ret ∧ c'.loc = c.loc.next ∨
      (∃ t label, ins = .cbnz t label ∧ c'.loc = c.loc.goto label) ∨
      ins = .ret ∧ c'.loc = c.loc.ret := by
  have hset : ∀ (c : Core) d x, (c.set d x).loc = c.loc := by
    intro c d x
    cases d <;> rfl
  cases ins with
  | cbnz t label =>
      simp only [exec, Option.some.injEq, Prod.mk.injEq] at he
      obtain ⟨rfl, -⟩ := he
      by_cases h0 : c.get t ≠ 0
      · exact .inr (.inl ⟨t, label, rfl, if_pos h0⟩)
      · exact .inl ⟨by simp, if_neg h0⟩
  | ret =>
      simp only [exec, Option.some.injEq, Prod.mk.injEq] at he
      obtain ⟨rfl, -⟩ := he
      exact .inr (.inr ⟨rfl, rfl⟩)
  | stxr s t =>
      simp only [exec] at he
      split_ifs at he
      all_goals
        simp only [Option.some.injEq, Prod.mk.injEq] at he
        obtain ⟨rfl, -⟩ := he
        exact .inl ⟨by simp, rfl⟩
  | _ =>
      simp only [exec, Option.some.injEq, Prod.mk.injEq] at he
      obtain ⟨rfl, -⟩ := he
      exact .inl ⟨by simp, rfl⟩

/-- No instruction leads out of the code. -/
lemma exec_valid (hf : c.loc.fetch = some ins) (he : c.exec word ok ins = some (c', v)) :
    c'.loc.Valid := by
  have hloc := exec_loc he
  cases h : c.loc with
  | idle => exact absurd hf (by simp [h, Loc.fetch])
  | held => exact absurd hf (by simp [h, Loc.fetch])
  | spinLock pc =>
      rw [h] at hf hloc
      obtain ⟨hlt, rfl⟩ := List.getElem?_eq_some_iff.1 hf
      have hlt : pc < 8 := hlt
      rcases hloc with ⟨hret, hloc⟩ | ⟨t, label, hins, hloc⟩ | ⟨-, hloc⟩
      · have h7 : pc ≠ 7 := by
          rintro rfl
          exact hret rfl
        rw [hloc]
        show pc + 1 < 8
        omega
      · rw [hloc]
        show label < 8
        interval_cases pc <;> simp [spinLock] at hins <;> rw [← hins.2] <;> decide
      · rw [hloc]
        trivial
  | spinUnlock pc =>
      rw [h] at hf hloc
      obtain ⟨hlt, rfl⟩ := List.getElem?_eq_some_iff.1 hf
      have hlt : pc < 2 := hlt
      rcases hloc with ⟨hret, hloc⟩ | ⟨t, label, hins, hloc⟩ | ⟨-, hloc⟩
      · have h1 : pc ≠ 1 := by
          rintro rfl
          exact hret rfl
        rw [hloc]
        show pc + 1 < 2
        omega
      · interval_cases pc <;> simp [spinUnlock] at hins
      · rw [hloc]
        trivial

end Core

/-- In every run the cores are inside the code. -/
lemma Initial.valid {s₀ : State κ} (h0 : Initial s₀) (h : Runs s₀ ls s) (i : κ) :
    (s.core i).loc.Valid := by
  refine Run.invariant (I := fun s => ∀ i, (s.core i).loc.Valid) (A := fun _ => True) h
    (fun i => by rw [h0.loc]; trivial) (fun _ _ => trivial) ?_ i
  rintro s ⟨i, a⟩ t - hs hstep j
  -- the core that makes the step is inside the code after it
  obtain ⟨c, v, rfl, hc⟩ : ∃ c v, t = s.update i c v ∧ c.loc.Valid := by
    cases a with
    | call w1 w2 =>
        obtain ⟨c, hc, rfl⟩ := Option.map_eq_some_iff.1 hstep
        refine ⟨c, none, rfl, ?_⟩
        rw [Core.call] at hc
        split at hc
        · obtain rfl := Option.some.inj hc
          show 0 < 8
          omega
        · obtain rfl := Option.some.inj hc
          show 0 < 2
          omega
        · exact absurd hc (by simp)
    | exec ins ok =>
        by_cases hf : (s.core i).loc.fetch = some ins
        · simp only [Spinlock.step, hf, if_true] at hstep
          obtain ⟨⟨c, v⟩, hc, rfl⟩ := Option.map_eq_some_iff.1 hstep
          exact ⟨c, v, rfl, Core.exec_valid hf hc⟩
        · exact absurd hstep (by simp [Spinlock.step, hf])
  have hupdate : ((s.update i c v).core j).loc = (Function.update s.core i c j).loc := by
    cases v <;> rfl
  rw [hupdate]
  by_cases hj : j = i
  · rw [hj, Function.update_self]
    exact hc
  · rw [Function.update_of_ne hj]
    exact hs j

/-- A step that comes before a run. -/
lemma Runs.head {u : State κ} (hs : Spinlock.step s l = some u) (h : Runs u ls t) :
    Runs s (l :: ls) t :=
  Run.append_iff.2 ⟨u, (Run.nil s).snoc hs, h⟩

/-- A step that is nothing to the lock. -/
lemma Refines.quiet_step (h : Refines s o) (hs : Spinlock.step s l = some t)
    (hev : l.2.event = .other) : Refines t o := by
  obtain ⟨o', hstep, hR⟩ := h.step hs
  rw [hev] at hstep
  cases hstep
  exact hR

/-- A core that executes its next instruction. -/
lemma step_exec (ins : Instr) (ok : Bool) {c : Core} {v : Option U32}
    (hf : (s.core i).loc.fetch = some ins) (he : (s.core i).exec s.word ok ins = some (c, v)) :
    Spinlock.step s (i, .exec ins ok) = some (s.update i c v) := by
  rw [Spinlock.step, if_pos hf, he]
  rfl

@[simp] lemma update_core_self (s : State κ) (i : κ) (c : Core) :
    (s.update i c none).core i = c := Function.update_self ..

lemma update_loc_self (s : State κ) (i : κ) (c : Core) (v : Option U32) :
    ((s.update i c v).core i).loc = c.loc := by
  cases v <;> simp [State.update]

/-- The owner can release the lock. -/
lemma Refines.release (h : Refines s (some i)) : ∃ ls t, Runs s ls t ∧ Refines t none := by
  -- from the `STLR` back to the successful `STXR`
  have hunlock : ∀ s : State κ, Refines s (some i) → (s.core i).loc = .spinUnlock 0 →
      ∃ ls t, Runs s ls t ∧ Refines t none := by
    intro s h hloc
    have hs := step_exec (.stlr .wzr) false (by rw [hloc]; rfl) rfl
    obtain ⟨o', hstep, hR⟩ := h.step hs
    cases hstep
    exact ⟨_, _, Runs.head hs (.nil _), hR⟩
  have hheld : ∀ s : State κ, Refines s (some i) → (s.core i).loc = .held →
      ∃ ls t, Runs s ls t ∧ Refines t none := by
    intro s h hloc
    have hs : Spinlock.step s (i, .call 0 0) =
        some (s.update i { s.core i with loc := .spinUnlock 0, w1 := 0, w2 := 0 } none) := by
      simp [Spinlock.step, Core.call, hloc]
    obtain ⟨ls, t, hrun, hR⟩ := hunlock _ (h.quiet_step hs rfl) (by rw [update_core_self])
    exact ⟨_, t, Runs.head hs hrun, hR⟩
  have hret : ∀ s : State κ, Refines s (some i) → (s.core i).loc = .spinLock 7 →
      ∃ ls t, Runs s ls t ∧ Refines t none := by
    intro s h hloc
    have hs := step_exec .ret false (by rw [hloc]; rfl) rfl
    obtain ⟨ls, t, hrun, hR⟩ := hheld _ (h.quiet_step hs rfl) (by simp [hloc, Loc.ret])
    exact ⟨_, t, Runs.head hs hrun, hR⟩
  have hold := (h.holds i).2 rfl
  cases hloc : (s.core i).loc with
  | idle => simp [Core.Holds, hloc] at hold
  | held => exact hheld s h hloc
  | spinUnlock pc =>
      obtain rfl : pc = 0 := by
        by_contra h0
        simp [Core.Holds, hloc, h0] at hold
      exact hunlock s h hloc
  | spinLock pc =>
      by_cases h7 : pc = 7
      · subst h7
        exact hret s h hloc
      · have h6 : pc = 6 ∧ (s.core i).w1 = 0 := by
          rw [Core.Holds, hloc] at hold
          split at hold <;> simp_all
        obtain ⟨rfl, h0⟩ := h6
        have hs := step_exec (.cbnz .w1 l2) false (by rw [hloc]; rfl) rfl
        obtain ⟨ls, t, hrun, hR⟩ := hret _ (h.quiet_step hs rfl)
          (by simp [hloc, h0, Core.get, Loc.next])
        exact ⟨_, t, Runs.head hs hrun, hR⟩

/-- A core that goes through `spin_lock` alone gets the free lock. -/
lemma Refines.acquire (h : Refines s none) (hpc : pc < 8) (hloc : (s.core i).loc = .spinLock pc) :
    ∃ ls t, Runs s ls t ∧ Refines t (some i) := by
  induction hn : (s.core i).need using Nat.strong_induction_on generalizing s pc with
  | _ n ih =>
  subst hn
  have hf : (s.core i).loc.fetch = some (spinLock.get ⟨pc, hpc⟩) := by
    rw [hloc]
    exact List.getElem?_eq_getElem hpc
  -- an `STXR` succeeds if it may
  obtain ⟨⟨c, v⟩, he⟩ : ∃ x, (s.core i).exec s.word (s.core i).reserved (spinLock.get ⟨pc, hpc⟩) =
      some x := by
    generalize spinLock.get ⟨pc, hpc⟩ = ins
    cases ins with
    | stxr rs rt => by_cases hr : (s.core i).reserved = true <;> simp [Core.exec, hr]
    | _ => exact ⟨_, rfl⟩
  have hs := step_exec _ _ hf he
  by_cases hev : (Act.exec (spinLock.get ⟨pc, hpc⟩) (s.core i).reserved).event = .acquire
  · obtain ⟨o', hstep, hR⟩ := h.step hs
    simp only [hev] at hstep
    cases hstep
    exact ⟨_, _, Runs.head hs (.nil _), hR⟩
  · obtain ⟨hR, -⟩ := h.free_step hs hev
    obtain ⟨pc', hpc', hlt⟩ := h.step_need hloc hs hev fun hsp => by
      obtain ⟨⟨rs, rt, he⟩, hr⟩ := hsp
      exact absurd (hr.symm.trans (Act.exec.inj he).2) (by decide)
    have hvalid : Loc.Valid (.spinLock pc') := by
      rw [← hpc', update_loc_self]
      exact Core.exec_valid hf he
    obtain ⟨ls, t, hrun, hR'⟩ := ih _ hlt hR hvalid hpc' rfl
    exact ⟨_, t, Runs.head hs hrun, hR'⟩

/-- So does a core that calls `spin_lock`. -/
lemma Refines.acquire_idle (h : Refines s none) (hloc : (s.core i).loc = .idle) :
    ∃ ls t, Runs s ls t ∧ Refines t (some i) := by
  have hs : Spinlock.step s (i, .call 0 0) =
      some (s.update i { s.core i with loc := .spinLock 0, w1 := 0, w2 := 0 } none) := by
    simp [Spinlock.step, Core.call, hloc]
  obtain ⟨ls, t, hrun, hR⟩ :=
    (h.quiet_step hs rfl).acquire (i := i) (show 0 < 8 by omega) (by rw [update_core_self])
  exact ⟨_, t, Runs.head hs hrun, hR⟩

/-- If the lock is free, every core can get it. -/
lemma Refines.acquire_valid (h : Refines s none) (hvalid : (s.core i).loc.Valid) :
    ∃ ls t, Runs s ls t ∧ Refines t (some i) := by
  have hnot : ¬ (s.core i).Holds := fun hold => by simpa using (h.holds i).1 hold
  cases hloc : (s.core i).loc with
  | idle => exact h.acquire_idle hloc
  | held => exact absurd (by simp [Core.Holds, hloc]) hnot
  | spinLock pc => exact h.acquire (by rwa [hloc] at hvalid) hloc
  | spinUnlock pc =>
      have hlt : pc < 2 := by rwa [hloc] at hvalid
      have h0 : pc ≠ 0 := by
        rintro rfl
        exact hnot (by simp [Core.Holds, hloc])
      obtain rfl : pc = 1 := by omega
      have hs := step_exec .ret false (by rw [hloc]; rfl) rfl
      obtain ⟨ls, t, hrun, hR⟩ :=
        (h.quiet_step hs rfl).acquire_idle (i := i) (by simp [hloc, Loc.ret])
      exact ⟨_, t, Runs.head hs hrun, hR⟩

/-- There is no deadlock: every run can be continued so that any given core gets the lock. -/
theorem spin_lock_reachable (s₀ s : State κ) (ls₀ : List (κ × Act)) (i : κ) (h0 : Initial s₀)
    (hs : Runs s₀ ls₀ s) : ∃ ls t, Runs s ls t ∧ Owns i (ls₀ ++ ls) := by
  suffices H : ∃ ls t, Runs s ls t ∧ Refines t (some i) by
    obtain ⟨ls, t, hrun, hR⟩ := H
    refine ⟨ls, t, hrun, ?_⟩
    obtain ⟨o, hlock, hR'⟩ := h0.simulates (Run.append_iff.2 ⟨s, hs, hrun⟩)
    rw [Owns, Lock.inside_iff hlock, ← hR'.holds, hR.holds]
  -- first the owner releases the lock
  obtain ⟨ls, u, hrun, hu⟩ : ∃ ls u, Runs s ls u ∧ Refines u none := by
    obtain ⟨o, -, hR⟩ := h0.simulates hs
    cases o with
    | none => exact ⟨[], s, .nil s, hR⟩
    | some k => exact hR.release
  obtain ⟨ls', t, hrun', ht⟩ :=
    hu.acquire_valid (i := i) (h0.valid (Run.append_iff.2 ⟨s, hs, hrun⟩) i)
  exact ⟨ls ++ ls', t, Run.append_iff.2 ⟨u, hrun, hrun'⟩, ht⟩

/-- After the sample run the core that did not get the lock can still get it. -/
theorem spin_lock_reachable_sample : ∃ s ls t, Runs sampleState sampleRun s ∧ Runs s ls t ∧
    Owns false (sampleRun ++ ls) := by
  obtain ⟨s, hs⟩ : ∃ s, sampleRun.foldlM Spinlock.step sampleState = some s :=
    Option.isSome_iff_exists.1 (by decide)
  have hrun := Run.of_foldlM hs
  obtain ⟨ls, t, ht, howns⟩ :=
    spin_lock_reachable sampleState s sampleRun false ⟨rfl, fun _ => rfl⟩ hrun
  exact ⟨s, ls, t, hrun, ht, howns⟩

end Arm64Mmu.Spinlock
