import Mathlib.Data.Finset.Prod
import Arm64Mmu.Loop.Leaves

/-!
# How many tables a call takes

A call takes one table for each 1 GiB and each 2 MiB span that an end of its region cuts and
whose entry is not a table descriptor yet (`tablesNeeded`).  The sum of this number and of the
tables handed out is the same at all states of the loop, so a call has room for its tables if
and only if the number fits before it starts (`Call.hasRoom_iff`).
-/

namespace Arm64Mmu

open Lib Lib.Radix Lib.Greedy

/-- The level-`ℓ` entry of the address `x` exists and is a table descriptor. -/
def HasTable (L : Layout) (mem : Mem) (ℓ x : ℕ) : Prop :=
  ∃ pte ∈ calculatePteIndex L mem (BitVec.ofNat 64 x) (BitVec.ofNat 32 ℓ),
    pteDescType mem pte = pteTableDesc

instance (L : Layout) (mem : Mem) (ℓ x : ℕ) : Decidable (HasTable L mem ℓ x) :=
  inferInstanceAs (Decidable (∃ pte ∈ _, _))

/-- The spans, as pairs of a level and a number, that meet the region of the call without lying
inside it and whose entry is not a table descriptor. -/
def Call.bareSpans (L : Layout) (mem : Mem) (c : Call) : Finset (ℕ × ℕ) :=
  ({1, 2} ×ˢ Finset.range (2 ^ 15)).filter fun x =>
    Cut gran c.virt.toNat c.stop x.1 (x.2 * gran x.1) ∧ ¬ HasTable L mem x.1 (x.2 * gran x.1)

/-- The number of tables that the call takes. -/
def tablesNeeded (L : Layout) (mem : Mem) (c : Call) : ℕ := (c.bareSpans L mem).card

variable {L : Layout} {Q : LeafInv} {c : Call} {cs : List Call} {m m' : Machine} {mem : Mem}
  {s : Loop} {ℓ i : ℕ} {va : Va}

/-- The view says whether an address has a table. -/
lemma hasTable_iff (L : Layout) (mem : Mem) (h1 : 1 ≤ ℓ) (h2 : ℓ ≤ 2) (va : Va) :
    HasTable L mem ℓ va ↔ ∃ p, view L mem ℓ va = .table p := by
  obtain ⟨ℓ, rfl⟩ : ∃ k, ℓ = k + 1 := ⟨ℓ - 1, by omega⟩
  rw [HasTable, calculatePteIndex_eq (va_toNat va) h1 (by omega), Nat.add_sub_cancel]
  cases hv : view L mem ℓ va with
  | invalid => simp [view_of_invalid hv]
  | leaf d => simp [view_of_leaf hv]
  | table p =>
      rw [view_of_table hv]
      have h3 : ℓ + 1 ≠ 3 := by omega
      simp only [Option.mem_def, Option.some.injEq, exists_eq_left', pteDescType, pteDescTypeMask,
        pteTableDesc]
      constructor
      · intro ht
        exact ⟨_, by rw [classify, if_pos ht, if_neg h3]⟩
      · rintro ⟨q, hq⟩
        exact (classify_table hq).2.1

/-- A span is bare if the region cuts it and the view has no table for it. -/
lemma mem_bareSpans : (ℓ, i) ∈ c.bareSpans L mem ↔ (ℓ = 1 ∨ ℓ = 2) ∧ i < 2 ^ 15 ∧
    Cut gran c.virt.toNat c.stop ℓ (i * gran ℓ) ∧ ¬ HasTable L mem ℓ (i * gran ℓ) := by
  rw [Call.bareSpans, Finset.mem_filter, Finset.mem_product, Finset.mem_range,
    Finset.mem_insert, Finset.mem_singleton, and_assoc]

/-! ### The spans that a region cuts -/

/-- The first address of the span `i`. -/
def spanVa (ℓ i : ℕ) : Va := Fin.ofNat (2 ^ 36) (i * gran ℓ)

lemma spanVa_val (h : i * gran ℓ < 2 ^ 36) : (spanVa ℓ i : ℕ) = i * gran ℓ := Nat.mod_eq_of_lt h

/-- One key for each 1 GiB span and each 2 MiB span that the region of the call cuts. -/
def Call.cuts (c : Call) : Finset (ℕ × Va) :=
  (({1, 2} ×ˢ Finset.range (2 ^ 15)).filter fun x =>
    Cut gran c.virt.toNat c.stop x.1 (x.2 * gran x.1)).image fun x => (x.1, spanVa x.1 x.2)

/-- A span that meets the region starts in the addresses of the base table. -/
lemma Call.Paged.span_lt (hc : c.Paged) (h : Meets gran c.virt.toNat c.stop ℓ (i * gran ℓ)) :
    i * gran ℓ < 2 ^ 36 := by
  have h1 := h.2.1
  rw [floor_eq_self (Nat.mul_mod_left _ _)] at h1
  exact h1.trans_le hc.stop_le

/-- Whether a span that the region meets has a table is said by the view at its start. -/
lemma Call.Paged.hasTable_span (hc : c.Paged) (h1 : 1 ≤ ℓ) (h2 : ℓ ≤ 2)
    (h : Meets gran c.virt.toNat c.stop ℓ (i * gran ℓ)) :
    HasTable L mem ℓ (i * gran ℓ) ↔ ∃ p, view L mem ℓ (spanVa ℓ i) = .table p := by
  rw [← hasTable_iff L mem h1 h2, spanVa_val (hc.span_lt h)]

lemma Call.Paged.cut_ne_three (hc : c.Paged) (h : Cut gran c.virt.toNat c.stop 3 va) : False := by
  obtain ⟨va', hdiv, h1, h2⟩ := Call.exists_mem_of_meets hc h.1
  have hin : Inside gran c.virt.toNat c.stop 3 va' := by
    have h3 := hc.virt
    have h4 := hc.size
    simp only [Inside, floor, gran, Call.stop] at *
    omega
  exact h.2 ((inside_congr hdiv).2 hin)

lemma Call.Paged.sweep_cuts (hc : c.Paged) :
    Sweep.Cuts (scheme L) gran (fun va : Va => va) c.virt.toNat c.stop 3 c.cuts where
  sound := by
    rintro ⟨ℓ, va⟩ hx
    obtain ⟨⟨ℓ', i⟩, hmem, he⟩ := Finset.mem_image.1 hx
    obtain ⟨hprod, hcut⟩ := Finset.mem_filter.1 hmem
    obtain ⟨rfl, rfl⟩ : ℓ' = ℓ ∧ spanVa ℓ' i = va := by simpa using he
    simp only [Finset.mem_product, Finset.mem_insert, Finset.mem_singleton] at hprod
    refine ⟨by omega, by omega, ?_⟩
    simp only at hcut ⊢
    rwa [spanVa_val (hc.span_lt hcut.1)]
  complete := by
    intro ℓ va h1 h3 hcut
    have h2 : ℓ ≤ 2 := by
      rcases Nat.lt_or_eq_of_le h3 with h2 | rfl
      · omega
      · exact absurd hcut fun h => hc.cut_ne_three h
    have hdiv : (va : ℕ) / gran ℓ * gran ℓ / gran ℓ = va / gran ℓ :=
      Nat.mul_div_cancel _ (gran_pos ℓ)
    have hlt : (va : ℕ) / gran ℓ * gran ℓ < 2 ^ 36 := (Nat.div_mul_le_self _ _).trans_lt va.isLt
    have hcut' : Cut gran c.virt.toNat c.stop ℓ ((va : ℕ) / gran ℓ * gran ℓ) :=
      (cut_congr hdiv).2 hcut
    refine ⟨spanVa ℓ (va / gran ℓ), Finset.mem_image.2 ⟨(ℓ, va / gran ℓ), ?_, rfl⟩, ?_⟩
    · have hi : (va : ℕ) / gran ℓ < 2 ^ 15 := by
        have hva := va.isLt
        clear hlt hdiv hcut hcut'
        obtain rfl | rfl : ℓ = 1 ∨ ℓ = 2 := by omega
        all_goals simp only [gran]; omega
      refine Finset.mem_filter.2 ⟨Finset.mem_product.2 ⟨?_, Finset.mem_range.2 hi⟩, hcut'⟩
      simp only [Finset.mem_insert, Finset.mem_singleton]
      omega
    · rw [same_iff h3, spanVa_val hlt, hdiv]
  unique := by
    intro ℓ va va' hva hva' hsame
    obtain ⟨⟨j, i⟩, hmem, he⟩ := Finset.mem_image.1 hva
    obtain ⟨⟨j', i'⟩, hmem', he'⟩ := Finset.mem_image.1 hva'
    obtain ⟨hprod, hcut⟩ := Finset.mem_filter.1 hmem
    obtain ⟨-, hcut'⟩ := Finset.mem_filter.1 hmem'
    obtain ⟨rfl, rfl⟩ : j = ℓ ∧ spanVa j i = va := by simpa using he
    obtain ⟨rfl, rfl⟩ : j' = j ∧ spanVa j' i' = va' := by simpa using he'
    simp only [Finset.mem_product, Finset.mem_insert, Finset.mem_singleton] at hprod
    rw [same_iff (by omega), spanVa_val (hc.span_lt hcut.1), spanVa_val (hc.span_lt hcut'.1),
      Nat.mul_div_cancel _ (gran_pos _), Nat.mul_div_cancel _ (gran_pos _)] at hsame
    obtain rfl : i = i' := hsame
    rfl

/-- The cut spans without a table are the pending ones of the sweep. -/
lemma Call.Paged.pending_eq (hc : c.Paged) :
    Sweep.pending c.cuts (view L mem) = tablesNeeded L mem c := by
  classical
  rw [Sweep.pending, Call.cuts, Finset.filter_image, Finset.filter_filter, tablesNeeded,
    Call.bareSpans, Finset.card_image_of_injOn]
  · refine congrArg Finset.card (Finset.filter_congr fun x hx => and_congr_right fun hcut => ?_)
    simp only [Finset.mem_product, Finset.mem_insert, Finset.mem_singleton] at hx
    have := hasTable_iff L mem (ℓ := x.1) (by omega) (by omega) (spanVa x.1 x.2)
    rw [spanVa_val (hc.span_lt hcut.1)] at this
    rw [this, not_exists]
  · rintro ⟨ℓ, i⟩ hx ⟨ℓ', i'⟩ hx' he
    obtain ⟨hcut, -⟩ := (Finset.mem_filter.1 hx).2
    obtain ⟨hcut', -⟩ := (Finset.mem_filter.1 hx').2
    obtain ⟨rfl, hva⟩ : ℓ = ℓ' ∧ spanVa ℓ i = spanVa ℓ' i' := by simpa using he
    have hval := congrArg (fun va : Va => (va : ℕ)) hva
    simp only [spanVa_val (hc.span_lt hcut.1), spanVa_val (hc.span_lt hcut'.1)] at hval
    rw [Nat.eq_of_mul_eq_mul_right (gran_pos ℓ) hval]

/-! ### The count during a call -/

namespace Sim

/-- An iteration that needs a table finds a pending span. -/
lemma pending_pos (hc : c.Paged) (h : Sim L Q c m s) (hgo : s.Goes) (hn : s.NeedsTable L c) :
    0 < Sweep.pending c.cuts (view L s.m.mem) := by
  obtain ⟨hf, va, hva, hnot⟩ := hn
  have hpos := Sweep.Inv.pending_pos (graded L) hc.sweep_cuts h.swept hva (h.pos_lt hgo) hf hnot
  exact hpos

/-- At the end of the region no span is pending. -/
lemma pending_eq_zero (hc : c.Paged) (h : Sim L Q c m s) (hgo : ¬ s.Goes) :
    Sweep.pending c.cuts (view L s.m.mem) = 0 := by
  have hpos : (s.abs L).cur.pos = c.stop := h.pos_eq hgo
  have hzero := Sweep.Inv.pending_eq_zero hc.sweep_cuts h.swept hpos fun {ℓ va} h1 h3 hcut => by
    obtain ⟨va', hdiv, hle, hlt⟩ := Call.exists_mem_of_meets hc hcut.1
    exact ⟨va', (same_iff h3).2 hdiv, hle, hlt⟩
  exact hzero

end Sim

/-- A state of the loop of `c`, at which the tables taken and the tables still needed make up the
tables that the call needs. -/
structure Counted (L : Layout) (Q : LeafInv) (c : Call) (m : Machine) (s : Loop) : Prop where
  sim : Sim L Q c m s
  count : s.m.tableIdx + Sweep.pending c.cuts (view L s.m.mem) =
    m.tableIdx + tablesNeeded L m.mem c

namespace Counted

lemma start (hc : c.Paged) (hwf : Wf L Q m) : Counted L Q c m (c.start m) where
  sim := c.sim_start hc hwf
  count := congrArg _ hc.pending_eq

variable {s' : Loop} (h : Counted L Q c m s)
include h

/-- An iteration keeps the count. -/
lemma step (hc : c.Paged) (hQ : c.Writes Q) (hgo : s.Goes)
    (hs' : addMapBody L c.attrs s = some s') (hle : s'.m.tableIdx ≤ 32) :
    Counted L Q c m s' := by
  have hturn := h.sim.turn_of_body hc hQ hgo hs' hle
  have hstep := Sweep.Step.used_add_pending (graded L) hc.sweep_cuts h.sim.swept hturn.step
  exact ⟨hturn.sim, hstep.trans h.count⟩

/-- If the tables that the call needs fit, so does the one that an iteration takes. -/
lemma idx_le (hc : c.Paged) (hQ : c.Writes Q) (hgo : s.Goes)
    (hs' : addMapBody L c.attrs s = some s') (hle : m.tableIdx + tablesNeeded L m.mem c ≤ 32) :
    s'.m.tableIdx ≤ 32 := by
  obtain ⟨b, hb, -, htake, -⟩ := h.sim.turn hc hQ hgo
  obtain rfl : b = s' := Option.some.inj (hb.symm.trans hs')
  have hcount := h.count
  rcases htake with heq | ⟨heq, hneeds⟩
  · have := h.sim.wf.idx_le
    omega
  · have := h.sim.pending_pos hc hgo hneeds
    omega

end Counted

/-- A call that returns has taken the tables that it needs. -/
theorem AddMap.tableIdx (h : AddMap L m c m') (hc : c.Paged) (hQ : c.Writes Q) (hwf : Wf L Q m)
    (hroom : c.HasRoom L m) : m'.tableIdx = m.tableIdx + tablesNeeded L m.mem c := by
  obtain ⟨t, ⟨ht, hgo⟩, rfl⟩ := h
  have hcounted : Counted L Q c m t :=
    ht.invariant (.start hc hwf) fun a b hv ha hgo hb =>
      ha.step hc hQ hgo hb (hroom _ (hv.tail hgo hb))
  have hcount := hcounted.count
  rwa [hcounted.sim.pending_eq_zero hc hgo] at hcount

/-- A call has room for its tables if and only if their number fits before it starts. -/
theorem Call.hasRoom_iff (hc : c.Paged) (hQ : c.Writes Q) (hwf : Wf L Q m) :
    c.HasRoom L m ↔ m.tableIdx + tablesNeeded L m.mem c ≤ configMaxXlatTables := by
  constructor
  · intro hroom
    obtain ⟨m', hm', -, -⟩ := Call.returns hc hQ hwf hroom
    rw [← hm'.tableIdx hc hQ hwf hroom]
    obtain ⟨t, ⟨ht, -⟩, rfl⟩ := hm'
    exact hroom t ht
  · intro hle s hs
    have hcounted : Counted L Q c m s :=
      hs.invariant (.start hc hwf) fun a b _ ha hgo hb =>
        ha.step hc hQ hgo hb (ha.idx_le hc hQ hgo hb hle)
    exact hcounted.sim.wf.idx_le

/-- The pool lasts during a run if and only if the tables that each call needs fit before it. -/
theorem poolLasts_iff (hwf : Wf L Q m) (hcs : Fine Q cs) :
    PoolLasts L m cs ↔ ∀ cs₁ c cs₂ m₁, cs = cs₁ ++ c :: cs₂ → AddMaps L m cs₁ m₁ →
      m₁.tableIdx + tablesNeeded L m₁.mem c ≤ configMaxXlatTables := by
  constructor
  · rintro hpool cs₁ c cs₂ m₁ rfl hm₁
    obtain ⟨hc, hQ⟩ := hcs c (by simp)
    have hwf₁ := hm₁.wf hwf (fun c' hc' => hcs c' (by simp [hc'])) hpool.of_append
    exact (Call.hasRoom_iff hc hQ hwf₁).1 fun s hs => hpool s ⟨cs₁, c, cs₂, m₁, rfl, hm₁, hs⟩
  · intro h
    induction cs using List.reverseRecOn with
    | nil =>
        rintro s ⟨cs₁, c, cs₂, m₁, he, -⟩
        simp at he
    | append_singleton cs c ih =>
        obtain ⟨hcs, hc, hQ⟩ := fine_snoc.1 hcs
        have hpool := ih hcs fun cs₁ c' cs₂ m₁ he hm₁ =>
          h cs₁ c' (cs₂ ++ [c]) m₁ (by simp [he]) hm₁
        refine poolLasts_snoc.2 ⟨hpool, fun m₁ hm₁ => ?_⟩
        exact (Call.hasRoom_iff hc hQ (hm₁.wf hwf hcs hpool)).2 (h cs c [] m₁ rfl hm₁)

/-! ### At most four tables -/

/-- A span that a region cuts contains one of its ends. -/
lemma cut_ends {a b x : ℕ} (h : Cut gran a b ℓ x) :
    x / gran ℓ = a / gran ℓ ∨ x / gran ℓ = b / gran ℓ := by
  obtain ⟨⟨hab, hlt, hlt'⟩, hnot⟩ := h
  have hmod : floor gran ℓ x % gran ℓ = 0 := Nat.mul_mod_left _ _
  have hx : floor gran ℓ x / gran ℓ = x / gran ℓ := gran_nested.floor_div le_rfl
  by_cases hlow : a ≤ floor gran ℓ x
  · right
    have hhigh : b < floor gran ℓ x + gran ℓ := by
      by_contra hle
      exact hnot ⟨hlow, by omega⟩
    rw [← hx, eq_comm, gran_nested.div_eq_iff hmod]
    omega
  · left
    rw [← hx, eq_comm, gran_nested.div_eq_iff hmod]
    omega

/-- No call takes more than four tables. -/
theorem tablesNeeded_le_four (L : Layout) (mem : Mem) (c : Call) : tablesNeeded L mem c ≤ 4 := by
  have hsub : c.bareSpans L mem ⊆ {(1, c.virt.toNat / gran 1), (1, c.stop / gran 1),
      (2, c.virt.toNat / gran 2), (2, c.stop / gran 2)} := by
    rintro ⟨ℓ, i⟩ hx
    obtain ⟨hprod, hcut, -⟩ := Finset.mem_filter.1 hx
    have hends := cut_ends hcut
    simp only [Nat.mul_div_cancel _ (gran_pos _)] at hends
    simp only [Finset.mem_product, Finset.mem_insert, Finset.mem_singleton] at hprod
    simp only [Finset.mem_insert, Finset.mem_singleton, Prod.mk.injEq]
    rcases hprod.1 with rfl | rfl <;> rcases hends with h | h
    · exact .inl ⟨rfl, h⟩
    · exact .inr (.inl ⟨rfl, h⟩)
    · exact .inr (.inr (.inl ⟨rfl, h⟩))
    · exact .inr (.inr (.inr ⟨rfl, h⟩))
  exact (Finset.card_le_card hsub).trans Finset.card_le_four

/-- Zeroed tables have room for every call. -/
lemma Zeroed.hasRoom (h0 : Zeroed L m) (hc : c.Paged) : c.HasRoom L m := by
  have hle := tablesNeeded_le_four L m.mem c
  rw [Call.hasRoom_iff hc c.writes_any (.of_zeroed h0 anyLeaf), h0.tableIdx, configMaxXlatTables]
  omega

/-- From zeroed tables the states that the loop visits are states of the sweep. -/
lemma Zeroed.sim (h0 : Zeroed L m) (hc : c.Paged) (hs : c.Visits L m s) : Sim L anyLeaf c m s :=
  .of_visits hc c.writes_any (.of_zeroed h0 anyLeaf) (h0.hasRoom hc) hs

/-- A short run takes at most four tables for each call. -/
lemma tableIdx_le_of_length (h0 : m.tableIdx = 0) (hwf : Wf L Q m) (hcs : Fine Q cs)
    (hlen : cs.length ≤ 8) :
    PoolLasts L m cs ∧ ∀ m', AddMaps L m cs m' → m'.tableIdx ≤ 4 * cs.length := by
  induction cs using List.reverseRecOn with
  | nil =>
      refine ⟨?_, fun m' hm' => ?_⟩
      · rintro s ⟨cs₁, c, cs₂, m₁, he, -⟩
        simp at he
      · obtain rfl := Run.nil_iff.1 hm'
        simp [h0]
  | append_singleton cs c ih =>
      rw [List.length_append, List.length_singleton] at hlen
      obtain ⟨hcs, hc, hQ⟩ := fine_snoc.1 hcs
      obtain ⟨hpool, hidx⟩ := ih hcs (by omega)
      have hroom : ∀ m₁, AddMaps L m cs m₁ → c.HasRoom L m₁ := fun m₁ hm₁ => by
        have h1 := hidx m₁ hm₁
        have h2 := tablesNeeded_le_four L m₁.mem c
        refine (Call.hasRoom_iff hc hQ (hm₁.wf hwf hcs hpool)).2 ?_
        show _ ≤ 32
        omega
      refine ⟨poolLasts_snoc.2 ⟨hpool, hroom⟩, fun m' hm' => ?_⟩
      obtain ⟨m₁, hm₁, hcall⟩ := Run.snoc_iff.1 hm'
      have h1 := hidx m₁ hm₁
      have h2 := tablesNeeded_le_four L m₁.mem c
      rw [hcall.tableIdx hc hQ (AddMaps.wf hm₁ hwf hcs hpool) (hroom m₁ hm₁),
        List.length_append, List.length_singleton]
      omega

/-- The pool lasts during a short run. -/
theorem poolLasts_of_length (h0 : m.tableIdx = 0) (hwf : Wf L Q m) (hcs : Fine Q cs)
    (hlen : cs.length ≤ 8) : PoolLasts L m cs :=
  (tableIdx_le_of_length h0 hwf hcs hlen).1

/-- The pool lasts during the sample run. -/
lemma poolLasts_sampleCalls (L : Layout) : PoolLasts L bootMachine sampleCalls :=
  poolLasts_of_length rfl (Wf.of_zeroed (zeroed_bootMachine L) anyLeaf)
    (fine_of_dom (by omega) (by decide : ∀ c ∈ sampleCalls, c.Dom (2 ^ 32) (2 ^ 32))) (by decide)

end Arm64Mmu
