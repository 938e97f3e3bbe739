import Arm64Mmu.Result.Translation

/-!
# The states between two stores

A walker may read the tables at any moment during a call.  `Front` says what it sees: the new
map on the part of the region before an address `x`, the old one everywhere else.  Every store
of a call keeps this, for an `x` that never decreases (`SafeStore`, `Call.Visits.stores`): of
the stores of an iteration only the last one changes what the tables say.
-/

namespace Arm64Mmu

open Lib Lib.Radix Lib.Greedy

/-- In `mem` the part of the region before `x` is translated as the call says, and every other
address as in `m`. -/
def Front (L : Layout) (r : SysRegs) (c : Call) (m : Machine) (x : ℕ) (mem : Mem) : Prop :=
  ∀ a < 2 ^ 32, translate (enableMmu L r) mem a =
    if c.virt.toNat ≤ a ∧ a < x then some (c.target a) else translate (enableMmu L r) m.mem a

/-- A store that moves the front on or leaves it where it is. -/
def SafeStore (L : Layout) (r : SysRegs) (c : Call) (m : Machine) (p : Mem × ℕ) (w : ℕ × U64)
    (q : Mem × ℕ) : Prop :=
  q.1 = Function.update p.1 w.1 w.2 ∧ p.2 ≤ q.2 ∧ Front L r c m q.2 q.1

variable {L : Layout} {r : SysRegs} {c : Call} {m m₁ m₂ : Machine} {s : Loop} {mem mem' : Mem}
  {ws : List (ℕ × U64)} {x y : ℕ}

/-- What a run of safe stores does. -/
lemma SafeStore.run (h : Run (SafeStore L r c m) (mem, x) ws (mem', y))
    (hx : Front L r c m x mem) : mem' = replay mem ws ∧ x ≤ y ∧ Front L r c m y mem' := by
  induction ws using List.reverseRecOn generalizing mem' y with
  | nil =>
      obtain ⟨rfl, rfl⟩ := Prod.mk.inj (Run.nil_iff.1 h)
      exact ⟨rfl, le_rfl, hx⟩
  | append_singleton ws w ih =>
      obtain ⟨⟨mem₁, z⟩, h1, hmem, hle, hfront⟩ := Run.snoc_iff.1 h
      obtain ⟨rfl, hxz, -⟩ := ih h1
      exact ⟨by rw [replay_append]; exact hmem, hxz.trans hle, hfront⟩

/-- The front at the head of the loop is the position of the sweep. -/
lemma Sim.front (h : Sim L alignInv c m s) (hwf : Wf L alignInv m) (hc : c.Congruent) :
    Front L r c m s.virt.toNat s.m.mem := by
  intro a ha
  obtain ⟨va, rfl⟩ : ∃ va : Va, (va : ℕ) = a := ⟨⟨a, by omega⟩, rfl⟩
  rw [h.wf.translate_eq va ha, hwf.translate_eq va ha]
  have hhigh : s.virt.toNat ≤ c.stop := h.swept.cur.high
  by_cases hva : c.Covers va
  · have hin := hc.paged.inside_three hva
    by_cases hlt : (va : ℕ) < s.virt.toNat
    · obtain ⟨ℓ, h1, h3, hin, -, hv⟩ := Sweep.exists_leaf (by omega) hin fun h1 h3 hin =>
        h.swept.behind h1 h3 hin hlt
      rw [if_pos ⟨hva.1, hlt⟩, hc.decode_leaf h1 h3 hin hv]
    · rw [if_neg fun h => hlt h.2]
      exact congrArg _ (h.swept.ahead (by omega) le_rfl hin (Nat.le_of_not_lt hlt))
  · rw [if_neg fun h => hva ⟨h.1, h.2.trans_le hhigh⟩]
    exact congrArg _ (h.swept.outside (by omega) le_rfl (hc.paged.not_meets_three hva))

/-- A memory that says the same as well-formed tables has the same front. -/
lemma Front.of_view (h : Front L r c m x m₁.mem) (hwf : Wf L alignInv m₁)
    (hview : view L mem = view L m₁.mem) : Front L r c m x mem := by
  intro a ha
  obtain ⟨va, rfl⟩ : ∃ va : Va, (va : ℕ) = a := ⟨⟨a, by omega⟩, rfl⟩
  have hal : Aligned L mem va := by
    intro ℓ d h1 h2 hd
    rw [hview] at hd
    exact (hwf.leaf_holds (by omega) hd).2
  rw [translate_eq r ha hal, hview, ← hwf.translate_eq va ha]
  exact h _ ha

/-- If only the last store counts, all of the stores are safe. -/
lemma LastStoreCounts.safe (h : LastStoreCounts L m₁ m₂) (hwf : Wf L alignInv m₁)
    (hx : Front L r c m x m₁.mem) (hy : Front L r c m y m₂.mem) (hxy : x ≤ y) :
    ∃ evs z, m₂.trace = m₁.trace ++ evs ∧ z ≤ y ∧
      Run (SafeStore L r c m) (m₁.mem, x) (stores evs) (m₂.mem, z) := by
  obtain ⟨evs, htrace, hmem, hview⟩ := h
  -- until the last store the front stays where it was
  have hpre : ∀ ws₁ w ws₂, stores evs = ws₁ ++ w :: ws₂ →
      Run (SafeStore L r c m) (m₁.mem, x) ws₁ (replay m₁.mem ws₁, x) := by
    intro ws₁
    induction ws₁ using List.reverseRecOn with
    | nil => exact fun _ _ _ => .nil _
    | append_singleton ws₁ w' ih =>
        intro w ws₂ he
        refine (ih w' (w :: ws₂) (by simp [he])).snoc ⟨by rw [replay_append]; rfl, le_rfl, ?_⟩
        exact hx.of_view hwf (hview _ _ _ he)
  rcases List.eq_nil_or_concat (stores evs) with hnil | ⟨ws, w, hws⟩
  · rw [hnil] at hmem
    refine ⟨evs, x, htrace, hxy, ?_⟩
    rw [hnil, hmem]
    exact .nil _
  · rw [List.concat_eq_append] at hws
    refine ⟨evs, y, htrace, le_rfl, ?_⟩
    rw [hws]
    refine (hpre ws w [] (by rw [hws])).snoc ⟨?_, hxy, hy⟩
    rw [hmem, hws, replay_append]
    rfl

/-- The stores that lead to a state of the loop are safe. -/
theorem Call.Visits.stores (hs : c.Visits L m s) (hwf : Wf L alignInv m) (hc : c.Congruent)
    (hroom : c.HasRoom L m) :
    ∃ evs z, s.m.trace = m.trace ++ evs ∧ z ≤ s.virt.toNat ∧
      Run (SafeStore L r c m) (m.mem, c.virt.toNat) (stores evs) (s.m.mem, z) := by
  have hstart : Front L r c m c.virt.toNat m.mem :=
    (c.sim_start hc.paged hwf).front hwf hc
  have key : Sim L alignInv c m s ∧ ∃ evs z, s.m.trace = m.trace ++ evs ∧ z ≤ s.virt.toNat ∧
      Run (SafeStore L r c m) (m.mem, c.virt.toNat) (Arm64Mmu.stores evs) (s.m.mem, z) := by
    refine hs.invariant (P := fun s => Sim L alignInv c m s ∧ ∃ evs z,
      s.m.trace = m.trace ++ evs ∧ z ≤ s.virt.toNat ∧
        Run (SafeStore L r c m) (m.mem, c.virt.toNat) (Arm64Mmu.stores evs) (s.m.mem, z))
      ⟨c.sim_start hc.paged hwf, [], _, (List.append_nil _).symm, le_rfl, .nil _⟩ ?_
    rintro a b hv ⟨ha, evs, z, htrace, hz, hrun⟩ hgo hb
    have hturn := ha.turn_of_body hc.paged hc.writes hgo hb (hroom _ (hv.tail hgo hb))
    obtain ⟨-, -, hfront⟩ := SafeStore.run hrun hstart
    have hmono : a.virt.toNat ≤ b.virt.toNat := hturn.step.pos_le
    obtain ⟨evs', z', htrace', hz', hrun'⟩ :=
      hturn.stores.safe ha.wf hfront (hturn.sim.front hwf hc) (hz.trans hmono)
    refine ⟨hturn.sim, evs ++ evs', z', ?_, hz', ?_⟩
    · rw [htrace', htrace, List.append_assoc]
    · rw [stores_append]
      exact Run.append_iff.2 ⟨_, hrun, hrun'⟩
  exact key.2

/-- From `m` to `s` the memory changes by the stores in the trace, and at any moment the tables say
what they said at a head of the loop. -/
def Call.Moments (L : Layout) (m : Machine) (c : Call) (s : Loop) : Prop :=
  ∃ evs, s.m.trace = m.trace ++ evs ∧ s.m.mem = replay m.mem (Arm64Mmu.stores evs) ∧
    ∀ ws₁ ws₂, Arm64Mmu.stores evs = ws₁ ++ ws₂ → ∃ s₁, c.Visits L m s₁ ∧
      s₁.m.tableIdx ≤ s.m.tableIdx ∧ view L (replay m.mem ws₁) = view L s₁.m.mem

/-- Only the last store of an iteration counts. -/
lemma Call.Visits.moments {Q : LeafInv} (hs : c.Visits L m s) (hwf : Wf L Q m) (hc : c.Paged)
    (hQ : c.Writes Q) (hroom : c.HasRoom L m) : c.Moments L m s := by
  have key : Sim L Q c m s ∧ c.Moments L m s := by
    refine hs.invariant (P := fun s => Sim L Q c m s ∧ c.Moments L m s)
      ⟨c.sim_start hc hwf, [], (List.append_nil _).symm, rfl, ?_⟩ ?_
    · intro ws₁ ws₂ hws
      obtain ⟨rfl, -⟩ := List.append_eq_nil_iff.1 hws.symm
      exact ⟨_, While.Visits.refl _, le_rfl, rfl⟩
    · rintro a b hv ⟨ha, evs, htrace, hmem, hmom⟩ hgo hb
      have hturn := ha.turn_of_body hc hQ hgo hb (hroom _ (hv.tail hgo hb))
      have hidx : a.m.tableIdx ≤ b.m.tableIdx := hturn.step.used_le
      obtain ⟨evs', htrace', hmem', hlast⟩ := hturn.stores
      refine ⟨hturn.sim, evs ++ evs', ?_, ?_, fun ws₁ ws₂ hws => ?_⟩
      · rw [htrace', htrace, List.append_assoc]
      · rw [hmem', hmem, ← replay_append, stores_append]
      · rw [stores_append] at hws
        rcases List.append_eq_append_iff.1 hws with ⟨ws, rfl, hws'⟩ | ⟨ws, hws', -⟩
        · -- some stores of this iteration are made, or all of them
          rw [replay_append, ← hmem]
          cases ws₂ with
          | nil =>
              rw [List.append_nil] at hws'
              exact ⟨b, hv.tail hgo hb, le_rfl, by rw [← hws', ← hmem']⟩
          | cons w ws₂ => exact ⟨a, hv, hidx, hlast ws w ws₂ hws'⟩
        · obtain ⟨s₁, hs₁, hle, hview⟩ := hmom ws₁ ws hws'
          exact ⟨s₁, hs₁, hle.trans hidx, hview⟩
  exact key.2

/-- What a walker sees at an address: the new translation, or the old one. -/
lemma Front.cases (h : Front L r c m x mem) (hx : x ≤ c.stop) {a : ℕ} (ha : a < 2 ^ 32) :
    (c.Covers a ∧ a < x ∧ translate (enableMmu L r) mem a = some (c.target a)) ∨
      ((c.Covers a → x ≤ a) ∧
        translate (enableMmu L r) mem a = translate (enableMmu L r) m.mem a) := by
  have hv := h a ha
  by_cases hlt : c.virt.toNat ≤ a ∧ a < x
  · rw [if_pos hlt] at hv
    exact .inl ⟨⟨hlt.1, hlt.2.trans_le hx⟩, hlt.2, hv⟩
  · rw [if_neg hlt] at hv
    exact .inr ⟨fun hc => Nat.le_of_not_lt fun h => hlt ⟨hc.1, h⟩, hv⟩

/-- The stores of a call that returns are safe. -/
lemma AddMap.stores {m' : Machine} (h : AddMap L m c m') (hwf : Wf L alignInv m)
    (hc : c.Congruent) (hroom : c.HasRoom L m) :
    Front L r c m c.virt.toNat m.mem ∧ Front L r c m c.stop m'.mem ∧
      ∃ evs z, m'.trace = m.trace ++ evs ∧ z ≤ c.stop ∧
        Run (SafeStore L r c m) (m.mem, c.virt.toNat) (Arm64Mmu.stores evs) (m'.mem, z) := by
  obtain ⟨s, ⟨hs, hgo⟩, rfl⟩ := h
  have hsim := Sim.of_visits hc.paged hc.writes hwf hroom hs
  have hpos := hsim.pos_eq hgo
  have hfront := hsim.front (r := r) hwf hc
  have hstores := Call.Visits.stores (r := r) hs hwf hc hroom
  rw [hpos] at hfront hstores
  exact ⟨(c.sim_start hc.paged hwf).front hwf hc, hfront, hstores⟩

/-- Every intermediate state is safe for a walker: after each store of a call, an address outside
the region is translated as before the call, an address of the region as before it or as after
it, and once it is translated as after the call it stays so. -/
theorem stores_safe (L : Layout) (r : SysRegs) (m₀ : Machine) (cs : List Call) (c : Call)
    (h0 : Zeroed L m₀) (hcs : ∀ c' ∈ cs ++ [c], c'.Congruent) (hpool : PoolLasts L m₀ (cs ++ [c])) :
    ∃ m m' evs, AddMaps L m₀ cs m ∧ AddMap L m c m' ∧ m'.trace = m.trace ++ evs ∧
      m'.mem = replay m.mem (stores evs) ∧
      ∀ ws₁ ws₂, stores evs = ws₁ ++ ws₂ → ∀ a < 2 ^ 32,
        let now := fun ws => translate (enableMmu L r) (replay m.mem ws) a
        let before := translate (enableMmu L r) m.mem a
        let after := translate (enableMmu L r) m'.mem a
        (¬ c.Covers a → now ws₁ = before) ∧
        (c.Covers a → now ws₁ = before ∨ now ws₁ = after) ∧
        (c.Covers a → now ws₁ = after →
          ∀ ws₃ ws₄, ws₂ = ws₃ ++ ws₄ → now (ws₁ ++ ws₃) = after) := by
  have hc : c.Congruent := hcs c (by simp)
  have hfine := fine_of_congruent fun c' hc' => hcs c' (List.mem_append_left _ hc')
  obtain ⟨hpool, hroom⟩ := poolLasts_snoc.1 hpool
  obtain ⟨m, hm, hwf⟩ := AddMaps.returns (Wf.of_zeroed h0 alignInv) hfine hpool
  obtain ⟨m', hm', -, -⟩ := Call.returns hc.paged hc.writes hwf (hroom m hm)
  obtain ⟨hstart, hend, evs, z, htrace, hz, hrun⟩ := hm'.stores (r := r) hwf hc (hroom m hm)
  obtain ⟨hreplay, -, -⟩ := SafeStore.run hrun hstart
  refine ⟨m, m', evs, hm, hm', htrace, hreplay, fun ws₁ ws₂ hws a ha => ?_⟩
  rw [hws] at hrun
  obtain ⟨⟨mem₁, x⟩, hrun₁, hrun₂⟩ := Run.append_iff.1 hrun
  obtain ⟨rfl, -, hfront⟩ := SafeStore.run hrun₁ hstart
  obtain ⟨-, hxz, -⟩ := SafeStore.run hrun₂ hfront
  have hafter : c.Covers a → translate (enableMmu L r) m'.mem a = some (c.target a) := by
    intro hca
    rw [hend a ha]
    exact if_pos hca
  have hnow := hfront.cases (hxz.trans hz) ha
  refine ⟨fun hout => ?_, fun hin => ?_, fun hin heq ws₃ ws₄ hws₂ => ?_⟩
  · rcases hnow with ⟨hca, -⟩ | ⟨-, hold⟩
    · exact absurd hca hout
    · exact hold
  · rcases hnow with ⟨-, -, hnew⟩ | ⟨-, hold⟩
    · exact .inr (hnew.trans (hafter hin).symm)
    · exact .inl hold
  · rw [hws₂] at hrun₂
    obtain ⟨⟨mem₂, y⟩, hrun₃, hrun₄⟩ := Run.append_iff.1 hrun₂
    obtain ⟨hmem₂, hxy, hfront₂⟩ := SafeStore.run hrun₃ hfront
    obtain ⟨-, hyz, -⟩ := SafeStore.run hrun₄ hfront₂
    rw [← replay_append] at hmem₂
    subst hmem₂
    rcases hfront₂.cases (hyz.trans hz) ha with ⟨-, -, hnew⟩ | ⟨hle, hold⟩
    · exact hnew.trans (hafter hin).symm
    · -- the front has not reached the address, so the two translations agree
      rcases hnow with ⟨-, hlt, -⟩ | ⟨-, hold₁⟩
      · have := hle hin
        omega
      · exact hold.trans (hold₁.symm.trans heq)

/-- While the page is cut out of the block in the sample run, the rest of the block stays as it
is after every store. -/
theorem stores_safe_sample :
    ∃ m m' evs, AddMaps sampleLayout bootMachine (sampleCalls.take 1) m ∧
      AddMap sampleLayout m ⟨0x200000, 0x200000, 0x1000, 0⟩ m' ∧ m'.trace = m.trace ++ evs ∧
      m'.mem = replay m.mem (stores evs) ∧ ∀ ws₁ ws₂, stores evs = ws₁ ++ ws₂ →
        translate (enableMmu sampleLayout ⟨0, 0, 0, 0⟩) (replay m.mem ws₁) 0x201010 =
          translate (enableMmu sampleLayout ⟨0, 0, 0, 0⟩) m.mem 0x201010 := by
  obtain ⟨m, m', evs, hm, hm', htrace, hmem, h⟩ :=
    stores_safe sampleLayout ⟨0, 0, 0, 0⟩ bootMachine (sampleCalls.take 1)
      ⟨0x200000, 0x200000, 0x1000, 0⟩ (zeroed_bootMachine _) (by decide) (poolLasts_sampleCalls _)
  refine ⟨m, m', evs, hm, hm', htrace, hmem, fun ws₁ ws₂ hws => ?_⟩
  exact (h ws₁ ws₂ hws 0x201010 (by decide)).1 (by decide)

end Arm64Mmu
