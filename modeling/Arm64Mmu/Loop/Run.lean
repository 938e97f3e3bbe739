import Arm64Mmu.Loop.Call

/-!
# Runs of calls

While the pool lasts, the calls of a run return one after the other with well-formed tables
(`AddMaps.returns`).  `AddMaps.induction` is the rule by which a property of a run is proved:
it has to survive a call that maps its region.
-/

namespace Arm64Mmu

open Lib Lib.Radix Lib.Greedy

variable {L : Layout} {Q : LeafInv} {c : Call} {cs : List Call} {m m' : Machine} {s : Loop}
  {ℓ : ℕ} {va : Va}

/-- The calls of a run are page-aligned and write leaves with the property `Q`. -/
def Fine (Q : LeafInv) (cs : List Call) : Prop := ∀ c ∈ cs, c.Paged ∧ c.Writes Q

lemma fine_snoc : Fine Q (cs ++ [c]) ↔ Fine Q cs ∧ c.Paged ∧ c.Writes Q := by
  constructor
  · intro h
    exact ⟨fun c' hc' => h c' (by simp [hc']), h c (by simp)⟩
  · rintro ⟨h, hc⟩ c' hc'
    rcases List.mem_append.1 hc' with hc' | hc'
    · exact h c' hc'
    · obtain rfl := List.mem_singleton.1 hc'
      exact hc

/-- While the pool lasts, the calls of a run return, with well-formed tables. -/
theorem AddMaps.returns (hwf : Wf L Q m) (hcs : Fine Q cs) (hpool : PoolLasts L m cs) :
    ∃ m', AddMaps L m cs m' ∧ Wf L Q m' := by
  induction cs using List.reverseRecOn with
  | nil => exact ⟨m, .nil m, hwf⟩
  | append_singleton cs c ih =>
      obtain ⟨hcs, hc, hQ⟩ := fine_snoc.1 hcs
      obtain ⟨hpool, hroom⟩ := poolLasts_snoc.1 hpool
      obtain ⟨m₁, hm₁, hwf₁⟩ := ih hcs hpool
      obtain ⟨m₂, hm₂, hwf₂, -⟩ := Call.returns hc hQ hwf₁ (hroom m₁ hm₁)
      exact ⟨m₂, hm₁.snoc hm₂, hwf₂⟩

/-- A run keeps the tables well-formed. -/
lemma AddMaps.wf (h : AddMaps L m cs m') (hwf : Wf L Q m) (hcs : Fine Q cs)
    (hpool : PoolLasts L m cs) : Wf L Q m' := by
  obtain ⟨m'', h'', hwf''⟩ := AddMaps.returns hwf hcs hpool
  rwa [h.unique h'']

/-- A call of a run maps its region. -/
lemma AddMap.maps (h : AddMap L m c m') (hwf : Wf L Q m) (hc : c.Paged) (hQ : c.Writes Q)
    (hroom : c.HasRoom L m) : Wf L Q m' ∧ c.Maps L m m' := by
  obtain ⟨m'', h'', hwf'', hmaps⟩ := Call.returns hc hQ hwf hroom
  obtain rfl := h.unique h''
  exact ⟨hwf'', hmaps⟩

/-- The rule for runs: a property of the calls made and the machine reached that survives a
call that maps its region. -/
theorem AddMaps.induction {P : List Call → Machine → Prop} (h : AddMaps L m cs m')
    (hwf : Wf L Q m) (hcs : Fine Q cs) (hpool : PoolLasts L m cs) (h0 : P [] m)
    (hstep : ∀ cs₁ c m₁ m₂, cs₁ ++ [c] <+: cs → AddMaps L m cs₁ m₁ → Wf L Q m₁ → Wf L Q m₂ →
      c.Paged → c.Maps L m₁ m₂ → P cs₁ m₁ → P (cs₁ ++ [c]) m₂) : P cs m' := by
  induction cs using List.reverseRecOn generalizing m' with
  | nil => exact Run.nil_iff.1 h ▸ h0
  | append_singleton cs c ih =>
      obtain ⟨hcs, hc, hQ⟩ := fine_snoc.1 hcs
      obtain ⟨hpool, hroom⟩ := poolLasts_snoc.1 hpool
      obtain ⟨m₁, h1, h2⟩ := Run.snoc_iff.1 h
      have hwf₁ := AddMaps.wf h1 hwf hcs hpool
      obtain ⟨hwf₂, hmaps⟩ := h2.maps hwf₁ hc hQ (hroom m₁ h1)
      refine hstep cs c m₁ m' (List.prefix_refl _) h1 hwf₁ hwf₂ hc hmaps
        (ih h1 hcs hpool fun cs₁ c' m₂ m₃ hpre => ?_)
      exact hstep cs₁ c' m₂ m₃ (hpre.trans (List.prefix_append cs [c]))

/-- A run, taken apart at one of its calls. -/
theorem AddMaps.returns_around {cs₁ cs₂ : List Call} (hwf : Wf L Q m)
    (hcs : Fine Q (cs₁ ++ c :: cs₂)) (hpool : PoolLasts L m (cs₁ ++ c :: cs₂)) :
    ∃ m₁ m₂ m₃, AddMaps L m cs₁ m₁ ∧ AddMap L m₁ c m₂ ∧ AddMaps L m₂ cs₂ m₃ ∧
      Wf L Q m₁ ∧ Wf L Q m₂ ∧ Wf L Q m₃ ∧ c.Maps L m₁ m₂ ∧ PoolLasts L m₂ cs₂ := by
  obtain ⟨hc, hQ⟩ := hcs c (by simp)
  obtain ⟨m₁, hm₁, hwf₁⟩ :=
    AddMaps.returns hwf (fun c' hc' => hcs c' (by simp [hc'])) hpool.of_append
  have hpool₁ : PoolLasts L m₁ ([c] ++ cs₂) := hpool.rest hm₁
  have hroom : c.HasRoom L m₁ := fun s hs => hpool₁ s ⟨[], c, cs₂, m₁, rfl, .nil _, hs⟩
  obtain ⟨m₂, hm₂, hwf₂, hmaps⟩ := Call.returns hc hQ hwf₁ hroom
  have hpool₂ : PoolLasts L m₂ cs₂ := hpool₁.rest ((Run.nil m₁).snoc hm₂)
  obtain ⟨m₃, hm₃, hwf₃⟩ := AddMaps.returns hwf₂ (fun c' hc' => hcs c' (by simp [hc'])) hpool₂
  exact ⟨m₁, m₂, m₃, hm₁, hm₂, hm₃, hwf₁, hwf₂, hwf₃, hmaps, hpool₂⟩

/-- The states at the head of the loop of a call in a run. -/
lemma VisitsDuring.sim (h : VisitsDuring L m cs s) (hwf : Wf L Q m) (hcs : Fine Q cs)
    (hpool : PoolLasts L m cs) : ∃ c m₁, c.Paged ∧ c.Writes Q ∧ Sim L Q c m₁ s := by
  obtain ⟨cs₁, c, cs₂, m₁, rfl, hm₁, hs⟩ := h
  obtain ⟨hc, hQ⟩ := hcs c (by simp)
  have hwf₁ := hm₁.wf hwf (fun c' hc' => hcs c' (by simp [hc'])) hpool.of_append
  have hroom : c.HasRoom L m₁ := fun s' hs' => hpool s' ⟨cs₁, c, cs₂, m₁, rfl, hm₁, hs'⟩
  exact ⟨c, m₁, hc, hQ, .of_visits hc hQ hwf₁ hroom hs⟩

/-- What holds of well-formed tables holds throughout a run. -/
theorem throughout_of_wf {P : Machine → Prop} (hwf : Wf L Q m) (hcs : Fine Q cs)
    (hpool : PoolLasts L m cs) (hP : ∀ m', Wf L Q m' → P m') : Throughout L m cs P := by
  obtain ⟨m', hm', hwf'⟩ := AddMaps.returns hwf hcs hpool
  refine ⟨m', hm', hP m' hwf', fun s hs => ?_⟩
  obtain ⟨c, m₁, -, -, hsim⟩ := hs.sim hwf hcs hpool
  exact hP _ hsim.wf

/-- What holds throughout a run holds after each of its calls. -/
lemma Throughout.after {P : Machine → Prop} (h : Throughout L m cs P) (hwf : Wf L Q m)
    (hcs : Fine Q cs) (hpool : PoolLasts L m cs) (hc : c ∈ cs) :
    ∃ m₁ m₂, Wf L Q m₂ ∧ c.Maps L m₁ m₂ ∧ P m₂ := by
  obtain ⟨cs₁, cs₂, rfl⟩ := List.append_of_mem hc
  obtain ⟨m₁, m₂, -, hm₁, ⟨s, ⟨hs, -⟩, rfl⟩, -, -, hwf₂, -, hmaps, -⟩ :=
    AddMaps.returns_around hwf hcs hpool
  obtain ⟨-, -, -, hP⟩ := h
  exact ⟨m₁, s.m, hwf₂, hmaps, hP s ⟨cs₁, c, cs₂, m₁, rfl, hm₁, hs⟩⟩

end Arm64Mmu
