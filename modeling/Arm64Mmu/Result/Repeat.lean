import Arm64Mmu.Loop.Count

/-!
# Mapping a region twice

After a call every entry that the loop of a second identical call comes to is in its final
state: a span that the call cut has a table, and the coarsest span inside the region holds its
leaf.  So the second call goes down where the first one made tables, and stores each leaf where
it stands already.
-/

namespace Arm64Mmu

open Lib Lib.Radix Lib.Greedy

variable {L : Layout} {Q : LeafInv} {c : Call} {m m' : Machine} {s s' : Loop}

/-- After a call no span of its region is bare. -/
lemma Call.Maps.bareSpans_eq_empty (h : c.Maps L m m') (hc : c.Paged) :
    c.bareSpans L m'.mem = ∅ := by
  refine Finset.eq_empty_iff_forall_notMem.2 ?_
  rintro ⟨ℓ, i⟩ hx
  obtain ⟨hℓ, -, hcut, hnot⟩ := mem_bareSpans.1 hx
  refine hnot ((hc.hasTable_span (by omega) (by omega) hcut.1).2 (h.cut (by omega) (by omega) ?_))
  rwa [spanVa_val (hc.span_lt hcut.1)]

/-- After a call there is room for the same call. -/
lemma Call.Maps.hasRoom (h : c.Maps L m m') (hc : c.Paged) (hQ : c.Writes Q) (hwf : Wf L Q m') :
    c.HasRoom L m' := by
  rw [Call.hasRoom_iff hc hQ hwf, tablesNeeded, h.bareSpans_eq_empty hc]
  exact hwf.idx_le

/-- The words of the tables and the counter are as in `m'`. -/
structure Unchanged (m' : Machine) (s : Loop) : Prop where
  mem : s.m.mem = m'.mem
  tableIdx : s.m.tableIdx = m'.tableIdx

/-- An iteration of the second call changes nothing. -/
lemma Unchanged.step (hu : Unchanged m' s) (h : c.Maps L m m') (hc : c.Paged)
    (hs : Sim L Q c m' s) (hgo : s.Goes) (hb : addMapBody L c.attrs s = some s') :
    Unchanged m' s' := by
  obtain ⟨ℓ, va, T, ha, hiter⟩ := hs.iter_of_body hc hgo hb
  have hℓ := ha.le
  -- a span that does not fit is cut, so the first call left a table in its entry
  have htable : ¬ Fits gran c.stop ⟨s.virt.toNat, ℓ + 1⟩ →
      ∃ p, view L s.m.mem (ℓ + 1) va = .table p := by
    intro hf
    rw [hu.mem]
    exact h.cut (by omega) (by omega) (hs.cut hgo ha hf)
  cases hiter with
  | fits hf =>
      have hco := hs.coarsest ha hf
      rw [← ha.pos] at hco
      have hleaf := h.of_coarsest (by omega) hco
      have hmod : (va : ℕ) % gran (ℓ + 1) = 0 := by
        rw [ha.pos]
        exact hf.1
      rw [floor_eq_self hmod, ← hu.mem, view_of_table ha.path] at hleaf
      obtain ⟨hword, -⟩ := classify_leaf hleaf
      refine ⟨?_, hu.tableIdx⟩
      show Function.update s.m.mem _ _ = _
      rw [hs.desc_eq ha, ← ha.pos, hword, ← hu.mem]
      exact Function.update_eq_self _ _
  | invalid hf _ hv =>
      obtain ⟨p, hp⟩ := htable hf
      simp [hv] at hp
  | block hf _ hv =>
      obtain ⟨p, hp⟩ := htable hf
      simp [hv] at hp
  | table => exact ⟨hu.mem, hu.tableIdx⟩

/-- Making the same call again, after any run, changes neither a word of the tables nor the
number of tables handed out. -/
theorem map_twice (L : Layout) (m₀ : Machine) (cs : List Call) (c : Call) (h0 : Zeroed L m₀)
    (hcs : ∀ c ∈ cs, c.Paged) (hc : c.Dom (2 ^ 32) (2 ^ 48)) (hpool : PoolLasts L m₀ (cs ++ [c])) :
    ∃ m m' m'', AddMaps L m₀ cs m ∧ AddMap L m c m' ∧ AddMap L m' c m'' ∧
      m''.mem = m'.mem ∧ m''.tableIdx = m'.tableIdx := by
  obtain ⟨m, hm, hwf, hroom⟩ := exists_reached h0 hcs hpool
  have hp : c.Paged := hc.paged (by omega)
  obtain ⟨m', hm', hwf', hmaps⟩ := Call.returns hp c.writes_any hwf hroom
  have hroom' := hmaps.hasRoom hp c.writes_any hwf'
  obtain ⟨m'', hm'', -, -⟩ := Call.returns hp c.writes_any hwf' hroom'
  obtain ⟨t, ⟨ht, -⟩, rfl⟩ := id hm''
  have hu : Unchanged m' t := ht.invariant ⟨rfl, rfl⟩ fun a b hv ha hgo hb =>
    ha.step hmaps hp (.of_visits hp c.writes_any hwf' hroom' hv) hgo hb
  exact ⟨m, m', t.m, hm, hm', hm'', hu.mem, hu.tableIdx⟩

/-- The page that the sample run cuts out of its block, mapped twice. -/
theorem map_twice_sample : ∃ m m' m'',
    AddMaps sampleLayout bootMachine [⟨0, 0, 0x40000000, 12⟩] m ∧
      AddMap sampleLayout m ⟨0x200000, 0x200000, 0x1000, 0⟩ m' ∧
      AddMap sampleLayout m' ⟨0x200000, 0x200000, 0x1000, 0⟩ m'' ∧
      m''.mem = m'.mem ∧ m''.tableIdx = m'.tableIdx :=
  map_twice sampleLayout bootMachine [⟨0, 0, 0x40000000, 12⟩] ⟨0x200000, 0x200000, 0x1000, 0⟩
    (zeroed_bootMachine _) (by decide) (by decide) (poolLasts_sampleCalls _)

end Arm64Mmu
