import Arm64Mmu.Loop.Shadow

/-!
# How deep a call goes

Nothing in `add_map` checks that its arguments are multiples of the page size.  If the virtual
address and the size are, the loop stays at the levels 1 to 3, whatever the physical address is.
If not, a page at an end of the region never fits: the loop installs a table in its level-3 entry
and goes on to level 4.  The MMU goes where the loop goes, unless bit 1 of the physical address is
set and the region has a block: the block descriptor is then a table descriptor for the MMU.
-/

namespace Arm64Mmu

open Lib Lib.Radix Lib.Greedy

/-- The size is a positive `int`, and the virtual and physical ranges end at 4 GiB at the latest.
Nothing is aligned. -/
structure Call.InRange (c : Call) : Prop where
  size_pos : 0 < c.size.toInt
  virt_le : c.virt.toNat + c.size.toNat ≤ 2 ^ 32
  phys_le : c.phys.toNat + c.size.toNat ≤ 2 ^ 32

instance : DecidablePred Call.InRange := fun c =>
  decidable_of_iff (0 < c.size.toInt ∧ c.virt.toNat + c.size.toNat ≤ 2 ^ 32 ∧
      c.phys.toNat + c.size.toNat ≤ 2 ^ 32)
    ⟨fun ⟨h1, h2, h3⟩ => ⟨h1, h2, h3⟩, fun ⟨h1, h2, h3⟩ => ⟨h1, h2, h3⟩⟩

/-- The word `d` in a level-3 entry at `p` is a page descriptor that `set_pte_block_desc` wrote
there. -/
def PageWritten (trace : List Event) (p : ℕ) (d : U64) : Prop :=
  d &&& 3 = ptePageDesc ∧
    ∃ addrPa attrs, .setPteBlockDesc p addrPa attrs 3 ∈ trace ∧ d = blockDesc addrPa attrs 3

/-- The MMU takes the words of `m` for what they were written as, so that it does not read a page
table as a mapped page, nor mapped memory as a page table. -/
structure MmuAgrees (L : Layout) (attrs : U32) (m : Machine) : Prop where
  /-- The table descriptors that a walk follows link tables that are used at the next level. -/
  table : ∀ r va e, e ∈ fetches (enableMmu L r) m.mem va → e.level ≤ 2 → m.mem e.pte &&& 3 = 3 →
    ∃ t, UsedAt L m.trace (.pool t) (e.level + 1) ∧ m.mem e.pte = tableDesc (L.xlatTable t)
  /-- The page or the block that a walk finds was written by `set_pte_block_desc`, for the level at
  which the walk finds it. -/
  leaf : ∀ r va l, walk (enableMmu L r) m.mem va = some l → ∃ pte addrPa,
    ⟨l.level, pte⟩ ∈ fetches (enableMmu L r) m.mem va ∧ m.mem pte = l.desc ∧
      .setPteBlockDesc pte addrPa attrs (BitVec.ofNat 32 l.level) ∈ m.trace ∧
      l.desc = blockDesc addrPa attrs (BitVec.ofNat 32 l.level)

/-- The call `c` on `m` does not go below level 3. -/
structure NoDescent (L : Layout) (m : Machine) (c : Call) : Prop where
  /-- `calculate_pte_index` is not called with a level above 3. -/
  level : ∀ s, c.Visits L m s → s.Goes → s.level.toNat ≤ 3
  /-- `set_pte_table_desc` is not called on an entry of a level-3 table. -/
  install : ∀ s T i pte table level, c.Visits L m s →
    .setPteTableDesc pte table level ∈ s.m.trace → UsedAt L s.m.trace T 3 → i < T.entries →
    pte ≠ T.slot L i
  /-- What stands in a level-3 entry is a page; from zeroed tables no block is split. -/
  page : ∀ s T i, c.Visits L m s → UsedAt L s.m.trace T 3 → i < T.entries →
    s.m.mem (T.slot L i) ≠ 0 → PageWritten s.m.trace (T.slot L i) (s.m.mem (T.slot L i))
  /-- No level-3 entry points to a table. -/
  pointer : ∀ s T i t, c.Visits L m s → UsedAt L s.m.trace T 3 → i < T.entries →
    t < configMaxXlatTables → s.m.mem (T.slot L i) ≠ tableDesc (L.xlatTable t)
  mmu : ∀ s, c.Visits L m s → MmuAgrees L c.attrs s.m

variable {L : Layout} {P : ℕ → U64 → Prop} {c c' : Call} {attrs : U32} {m m' m₀ : Machine}
  {s s' : Loop} {T : Table} {ℓ i e : ℕ} {va : Va} {addrPa : U64}

/-! ### What the MMU reads -/

/-- If none of the leaves looks like a table descriptor, the MMU agrees. -/
lemma Echo.mmuAgrees {Q : LeafInv} (h : Echo L P attrs m m') (hwf : Wf L Q m')
    (hP : ∀ {ℓ a}, ℓ ≤ 2 → P ℓ a → blockDesc a attrs (BitVec.ofNat 32 ℓ) &&& 3 = 1) :
    MmuAgrees L attrs m where
  table := by
    intro r a e he hle htype
    have ha : a < 2 ^ 32 := by
      by_contra hlt
      rw [fetches_of_le r (Nat.le_of_not_lt hlt)] at he
      exact absurd he List.not_mem_nil
    obtain ⟨va, rfl⟩ : ∃ va : Va, (va : ℕ) = a := ⟨⟨a, by omega⟩, rfl⟩
    obtain ⟨ℓ, hℓ, p, hv, rfl⟩ := (mem_fetches r ha).1 he
    obtain ⟨T, hT, rfl, hi⟩ := hwf.path ((h.view_table_iff hwf hP hℓ).1 hv)
    have htype : m.mem (T.slot L (vaIdx (ℓ + 1) va)) &&& 3 = 3 := htype
    cases h.word hT hi with
    | same heq _ =>
        have hℓ3 : ℓ + 1 ≠ 3 := Nat.ne_of_lt (Nat.lt_succ_of_le hle)
        have hc : classify (ℓ + 1) (m'.mem (T.slot L (vaIdx (ℓ + 1) va))) =
            .table (descTable (m'.mem (T.slot L (vaIdx (ℓ + 1) va)))) := by
          rw [← heq, classify, if_pos htype, if_neg hℓ3]
        obtain ⟨-, t, ht, -, hd⟩ := hwf.table_entry hT hi hc
        exact ⟨t, h.usedAt.2 ht, heq.trans hd⟩
    | leaf _ b heq _ hPb =>
        rw [heq, hP hle hPb] at htype
        exact absurd htype (by decide)
  leaf := by
    intro r a l hl
    have ha : a < 2 ^ 32 := by
      by_contra hlt
      rw [walk_of_le r (Nat.le_of_not_lt hlt)] at hl
      exact absurd hl (by simp)
    obtain ⟨va, rfl⟩ : ∃ va : Va, (va : ℕ) = a := ⟨⟨a, by omega⟩, rfl⟩
    obtain ⟨ℓ, hℓ, p, hv, hlevel, hd⟩ := walk_eq_some r ha hl
    rw [view_of_table hv] at hd
    obtain ⟨hdesc, hleaf⟩ := isLeaf_of_classify hd
    obtain ⟨T, hT, rfl, hi⟩ := hwf.path ((h.view_table_iff hwf hP hℓ).1 hv)
    rw [hlevel]
    cases h.word hT hi with
    | same heq hnot => exact absurd (heq ▸ hleaf) hnot
    | leaf _ b heq hmem _ =>
        exact ⟨_, b, (mem_fetches r ha).2 ⟨ℓ, hℓ, _, hv, rfl⟩, hdesc.symm, hmem, hdesc.trans heq⟩

/-- A block descriptor whose type is that of a table descriptor is followed. -/
lemma Echo.not_mmuAgrees {Q : LeafInv} (h : Echo L P attrs m m') (hwf : Wf L Q m')
    (hP : ∀ {ℓ a}, ℓ ≤ 2 → P ℓ a → blockDesc a attrs (BitVec.ofNat 32 ℓ) &&& 3 = 3)
    (hva : (va : ℕ) < 2 ^ 32) {d : U64} (hd : view L m'.mem 2 va = .leaf d) :
    ¬ MmuAgrees L attrs m := by
  intro hmmu
  obtain ⟨ℓ, hℓ, p, e, hp, he⟩ := exists_first_leaf hd
  obtain ⟨T, hT, rfl, hi⟩ := hwf.path hp
  rw [view_of_table hp] at he
  obtain ⟨-, hleaf⟩ := isLeaf_of_classify he
  cases h.word hT hi with
  | same _ hnot => exact hnot hleaf
  | leaf _ a heq _ hPa =>
      obtain ⟨t, -, ht⟩ := hmmu.table ⟨0, 0, 0, 0⟩ va _
        ((mem_fetches _ hva).2 ⟨ℓ, by omega, _, h.view_table hwf hp, rfl⟩) hℓ
        ((congrArg (· &&& 3) heq).trans (hP hℓ hPa))
      exact blockDesc_ne_tableDesc (xlatTable_aligned L t) _ _ _ (heq.symm.trans ht)

/-- Bit 1 of the leaves is that of the physical address. -/
lemma Call.LeafAt.block_type (h : c'.LeafAt (c.phys.toNat % 4096) ℓ addrPa) (h1 : ℓ ≤ 2)
    (attrs : U32) : blockDesc addrPa attrs (BitVec.ofNat 32 ℓ) &&& 3 =
      if c.phys.getLsbD 1 then 3 else 1 := by
  have hlevel : BitVec.ofNat 32 ℓ ≠ 3 := by
    intro he
    have h3 : ℓ % 2 ^ 32 = 3 := (BitVec.toNat_ofNat ..).symm.trans (congrArg BitVec.toNat he)
    omega
  have hbit : ∀ a : U64, a.getLsbD 1 = decide (a.toNat % 4096 / 2 % 2 = 1) := by
    intro a
    have ha : a.getLsbD 1 = decide (a.toNat / 2 % 2 = 1) := Nat.testBit_eq_decide_div_mod_eq ..
    rw [ha, decide_eq_decide]
    omega
  rw [blockDesc_block_type hlevel, hbit addrPa, hbit c.phys, h.1]

/-! ### Aligned regions -/

/-- A word of a level-3 table is zero, or `set_pte_block_desc` wrote it. -/
lemma Echo.page_word {Q : LeafInv} (h : Echo L P attrs m m') (hwf : Wf L Q m')
    (hT : UsedAt L m.trace T 3) (hi : i < T.entries) :
    m.mem (T.slot L i) = 0 ∨ ∃ addrPa, .setPteBlockDesc (T.slot L i) addrPa attrs 3 ∈ m.trace ∧
      m.mem (T.slot L i) = blockDesc addrPa attrs 3 := by
  have hT' := h.usedAt.1 hT
  cases h.word hT' hi with
  | same heq hnot =>
      rw [heq]
      cases hwf.content hT' hi with
      | zero h0 => exact .inl h0
      | leaf hd => exact absurd hd hnot
      | table t hℓ => omega
  | leaf _ addrPa heq hmem => exact .inr ⟨addrPa, hmem, heq⟩

/-- A call whose region is page-aligned stays above level 4. -/
lemma Call.InRange.noDescent (h0 : Zeroed L m₀) (hc : c.InRange) (hvirt : c.virt.toNat % 4096 = 0)
    (hsize : c.size.toNat % 4096 = 0)
    (hphys : c.phys.getLsbD 1 = true → ∀ x, ¬ Inside gran c.virt.toNat c.stop 2 x) :
    NoDescent L m₀ c := by
  -- the call with the physical address 0 does the same
  have hc' : (c.trim 0).Paged :=
    c.trim_paged hvirt (Nat.zero_le _) hsize (hc.virt_le.trans (by omega))
  have hfollows : c.Follows 0 (c.trim 0) :=
    c.trim_follows (Nat.zero_le _) fun _ _ _ _ => by rw [← c.trim_stop (Nat.zero_le _)]; rfl
  have hshadow : ∀ s, c.Visits L m₀ s → ∃ s', Sim L anyLeaf (c.trim 0) m₀ s' ∧
      Shadow L (c.trim 0) (c.phys.toNat % 4096) 0 s s' := fun s hs => by
    obtain ⟨s', hs', hsh⟩ := hfollows.backward h0 hc' hs
    exact ⟨s', h0.sim hc' hs', hsh⟩
  refine ⟨fun s hs _ => ?_, fun s T i pte table level hs hmem hT hi heq => ?_,
    fun s T i hs hT hi hne => ?_, fun s T i t hs hT hi ht => ?_, fun s hs => ?_⟩
  · obtain ⟨s', hsim, hsh⟩ := hshadow s hs
    rw [hsh.level]
    exact hsim.level_bounds.2
  · obtain ⟨s', hsim, hsh⟩ := hshadow s hs
    obtain ⟨U, j, hU, hle, hj, rfl⟩ := hsh.echo.installed (hsh.echo.installs.1 hmem)
    have hT := hsh.echo.usedAt.1 hT
    obtain ⟨rfl, -⟩ := slot_inj (hsim.wf.live32 hU) hj (hsim.wf.live32 hT) hi heq
    have := hsim.wf.used_unique hU hT
    omega
  · obtain ⟨s', hsim, hsh⟩ := hshadow s hs
    obtain ⟨addrPa, hmem, heq⟩ := (hsh.echo.page_word hsim.wf hT hi).resolve_left hne
    rw [heq]
    exact ⟨blockDesc_page_type _ _, addrPa, c.attrs, hmem, rfl⟩
  · obtain ⟨s', hsim, hsh⟩ := hshadow s hs
    rcases hsh.echo.page_word hsim.wf hT hi with heq | ⟨addrPa, -, heq⟩
    · rw [heq]
      exact (xlatDesc_ne_zero ht).symm
    · rw [heq]
      exact blockDesc_ne_tableDesc (xlatTable_aligned L t) _ _ _
  · obtain ⟨s', hsim, hsh⟩ := hshadow s hs
    refine hsh.echo.mmuAgrees hsim.wf fun {ℓ a} hℓ ha => ?_
    rw [ha.block_type hℓ, if_neg]
    -- with bit 1 set there is no block
    intro hbit
    obtain ⟨x, hx⟩ := ha.2
    have hx : Inside gran c.virt.toNat c.stop ℓ x := (c.trim_stop (Nat.zero_le _)) ▸ hx
    exact hphys hbit x (gran_nested.inside_mono hℓ hx)

/-- If bit 1 of the physical address is set and the region contains a span of 2 MiB, the MMU takes
a block descriptor for a table descriptor. -/
lemma Call.InRange.not_mmuAgrees (h0 : Zeroed L m₀) (hc : c.InRange)
    (hvirt : c.virt.toNat % 4096 = 0) (hsize : c.size.toNat % 4096 = 0)
    (hbit : c.phys.getLsbD 1 = true) {x : ℕ} (hx : Inside gran c.virt.toNat c.stop 2 x) :
    ∃ s, c.Visits L m₀ s ∧ ¬ MmuAgrees L c.attrs s.m := by
  have hstop := c.trim_stop (Nat.zero_le _)
  have hc' : (c.trim 0).Paged :=
    c.trim_paged hvirt (Nat.zero_le _) hsize (hc.virt_le.trans (by omega))
  have hfollows : c.Follows 0 (c.trim 0) :=
    c.trim_follows (Nat.zero_le _) fun _ _ _ _ => by rw [← hstop]; rfl
  obtain ⟨s, m', hs, hm', hecho, -⟩ := hfollows.reaches_stop h0 hc'
  obtain ⟨hwf', hmaps⟩ :=
    hm'.maps (.of_zeroed h0 anyLeaf) hc' (Call.writes_any _) (h0.hasRoom hc')
  have hlt : x < 2 ^ 32 := by
    have h1 := hc.virt_le
    have h2 : x < floor gran 2 x + gran 2 := gran_nested.lt_floor_add 2 x
    have h3 : floor gran 2 x + gran 2 ≤ c.virt.toNat + c.size.toNat := hx.2
    omega
  obtain ⟨va, rfl⟩ : ∃ va : Va, (va : ℕ) = x := ⟨⟨x, by omega⟩, rfl⟩
  obtain ⟨_, _, _, _, _, hleaf⟩ :=
    hmaps.inside (show 1 ≤ 2 by omega) (by omega) (hstop.symm ▸ hx)
  refine ⟨s, hs, hecho.not_mmuAgrees hwf' (fun {ℓ a} hℓ ha => ?_) hlt hleaf⟩
  rw [ha.block_type hℓ, if_pos hbit]

/-! ### Misaligned ends -/

/-- A state at level `ℓ + 1` in which no span at the address fits, on a machine without leaves and
with the tables of `m'`. -/
structure Stuck (L : Layout) (P : ℕ → U64 → Prop) (attrs : U32) (ℓ : ℕ) (va : Va) (m' : Machine)
    (s : Loop) : Prop where
  echo : Echo L P attrs s.m m'
  wf : Wf L anyLeaf m'
  /-- The pool has a table for each directory below. -/
  room : m'.tableIdx + 2 ≤ 32 + ℓ
  level : s.level = BitVec.ofNat 32 (ℓ + 1)
  pos : s.virt.toNat = va
  path : ∃ p, view L m'.mem ℓ va = .table p
  bare : ∀ j ≤ 3, ∀ d, view L m'.mem j va ≠ .leaf d
  poor : ∀ j, 1 ≤ j → j ≤ 3 → ¬ Fits gran (s.virt.toNat + s.size.toNat) ⟨s.virt.toNat, j⟩

namespace Stuck

lemma level_toNat (h : Stuck L P attrs ℓ va m' s) (hℓ : ℓ ≤ 2) : s.level.toNat = ℓ + 1 := by
  rw [h.level, BitVec.toNat_ofNat]
  omega

/-- The entry is invalid: a table is linked in both machines. -/
lemma link (h : Stuck L P attrs ℓ va m' s) (hℓ : ℓ ≤ 1)
    (hp : view L m'.mem ℓ va = .table (T.addr L)) (hT : UsedAt L m'.trace T (ℓ + 1))
    (hi : vaIdx (ℓ + 1) va < T.entries)
    (hv : view L m'.mem (ℓ + 1) va = .invalid) :
    Stuck L P attrs (ℓ + 1) va (newTableDesc L m' (T.slot L (vaIdx (ℓ + 1) va)) s.level)
      (s.deeper (newTableDesc L s.m (T.slot L (vaIdx (ℓ + 1) va)) s.level)) := by
  have hlevel := h.level_toNat (by omega)
  have hroom := h.room
  have hlt : m'.tableIdx < 32 := by omega
  have hl := h.wf.newTableDesc_links hlt hT (by omega) hi hlevel
  have hview := h.wf.view_link hp hl hlt (by simp [hv]) fun va' hs => by
    rw [← view_congr hs, hv]
    rfl
  refine
    { echo := h.echo.linkTable h.wf hlt hT (by omega) hi hlevel
      wf := h.wf.link hl hlt fun _ _ => .inl rfl
      room := ?_
      level := level_add_one h.level
      pos := h.pos
      path := ⟨L.xlatTable m'.tableIdx, ?_⟩
      bare := fun j hj3 d => ?_
      poor := h.poor }
  · rw [hl.tableIdx]
    omega
  · rw [hview]
    exact Scheme.graft_on fun _ _ _ => rfl
  · rw [hview]
    by_cases hj : j = ℓ + 1
    · subst hj
      rw [Scheme.graft_on fun _ _ _ => rfl]
      simp
    · rw [Scheme.graft_off fun h' => hj h'.1]
      exact h.bare j hj3 d

/-- Nothing fits, so the next level is tried. -/
lemma step (h : Stuck L P attrs ℓ va m' s) (hℓ : ℓ ≤ 2) :
    ∃ m, addMapBody L attrs s = some (s.deeper m) ∧
      (ℓ ≤ 1 → ∃ m'', Stuck L P attrs (ℓ + 1) va m'' (s.deeper m)) := by
  obtain ⟨p, hp⟩ := h.path
  obtain ⟨T, hT, rfl, hi⟩ := h.wf.path hp
  have hfound : calculatePteIndex L s.m.mem s.virt s.level =
      some (T.slot L (vaIdx (ℓ + 1) va)) := by
    rw [h.level]
    exact h.echo.found h.wf h.pos hℓ hp
  have hword : s.m.mem (T.slot L (vaIdx (ℓ + 1) va)) = m'.mem (T.slot L (vaIdx (ℓ + 1) va)) :=
    h.echo.word_eq h.wf hp (h.bare _ (by omega))
  have hclass := h.wf.word_eq hp hT hi
  rw [← hword] at hclass
  have hpoor := h.poor (ℓ + 1) (by omega) (by omega)
  cases hv : view L m'.mem (ℓ + 1) va with
  | leaf d => exact absurd hv (h.bare _ (by omega) d)
  | invalid =>
      rw [hv] at hclass
      have hty : pteDescType s.m.mem (T.slot L (vaIdx (ℓ + 1) va)) = pteInvalidDesc := by
        rw [pteDescType, hclass]
        rfl
      exact ⟨_, addMapBody_of_invalid hℓ h.level rfl hfound hpoor hty,
        fun hℓ1 => ⟨_, h.link hℓ1 hp hT hi hv⟩⟩
  | table q =>
      rw [hv] at hclass
      obtain ⟨t, ht, rfl, hclass⟩ := hclass
      have hty : pteDescType s.m.mem (T.slot L (vaIdx (ℓ + 1) va)) = pteTableDesc := by
        rw [pteDescType, hclass]
        exact xlatDesc_type (ht.trans_le h.wf.idx_le)
      have hroom := h.room
      refine ⟨_, addMapBody_of_table hℓ h.level rfl hfound hpoor hty, fun _ => ⟨m', ?_⟩⟩
      exact { h with room := by omega, level := level_add_one h.level, path := ⟨_, hv⟩ }

/-- The loop goes down to level 4. -/
theorem exists_deep (h : Stuck L P c.attrs 0 va m' s) (hs : c.Visits L m₀ s) (hgo : s.Goes) :
    ∃ t, c.Visits L m₀ t ∧ t.Goes ∧ t.level.toNat = 4 := by
  obtain ⟨m₁, hb₁, hs₁⟩ := h.step (by omega)
  obtain ⟨m'₁, h₁⟩ := hs₁ (by omega)
  obtain ⟨m₂, hb₂, hs₂⟩ := h₁.step (by omega)
  obtain ⟨m'₂, h₂⟩ := hs₂ (by omega)
  obtain ⟨m₃, hb₃, -⟩ := h₂.step (by omega)
  refine ⟨_, ((hs.tail hgo hb₁).tail hgo hb₂).tail hgo hb₃, hgo, ?_⟩
  simp [Loop.deeper, h.level]

end Stuck

/-- A call whose start is no multiple of the page size goes down to level 4. -/
lemma Call.InRange.deep_of_virt (h0 : Zeroed L m₀) (hc : c.InRange)
    (hvirt : c.virt.toNat % 4096 ≠ 0) :
    ∃ t, c.Visits L m₀ t ∧ t.Goes ∧ t.level.toNat = 4 := by
  have hlt : c.virt.toNat < 2 ^ 36 := by
    have := hc.virt_le
    omega
  have hstuck : Stuck L (c.LeafAt 0) c.attrs 0 ⟨c.virt.toNat, hlt⟩ m₀ (c.start m₀) := by
    refine ⟨.of_zeroed h0 _ _, .of_zeroed h0 _, ?_, rfl, rfl, ⟨_, view_zero ..⟩,
      fun j _ d => h0.view_ne_leaf j _ d, fun j _ hj hf => hvirt ?_⟩
    · rw [h0.tableIdx]
      omega
    · have hdvd : gran 3 ∣ c.virt.toNat :=
        (gran_nested.dvd hj).trans (Nat.dvd_of_mod_eq_zero hf.1)
      exact Nat.mod_eq_zero_of_dvd hdvd
  refine hstuck.exists_deep (.refl _) fun hz => ?_
  have hpos := hc.size_pos
  rw [show c.size = 0 from hz] at hpos
  exact absurd hpos (by decide)

/-- After the pages of a region, the tables hold no leaf for the address behind them. -/
lemma Call.Maps.bare_stop (h : c.Maps L m₀ m) (h0 : Zeroed L m₀) (hva : (va : ℕ) = c.stop)
    {j : ℕ} (h3 : j ≤ 3) (d : U64) : view L m.mem j va ≠ .leaf d := by
  rcases Nat.eq_zero_or_pos j with rfl | h1
  · simp
  by_cases hmeets : Meets gran c.virt.toNat c.stop j va
  · have hout : ¬ Inside gran c.virt.toNat c.stop j va := fun hin => by
      have := (gran_nested.mem_of_inside hin).2
      omega
    obtain ⟨p, hp⟩ := h.cut h1 h3 ⟨hmeets, hout⟩
    simp [hp]
  · rw [h.outside h1 h3 hmeets]
    exact h0.view_ne_leaf j va d

/-- A call whose size is no multiple of the page size goes down to level 4 at the end of its
pages. -/
lemma Call.InRange.deep_of_size (h0 : Zeroed L m₀) (hc : c.InRange)
    (hvirt : c.virt.toNat % 4096 = 0) (hsize : c.size.toNat % 4096 ≠ 0) :
    ∃ t, c.Visits L m₀ t ∧ t.Goes ∧ t.level.toNat = 4 := by
  obtain ⟨e, he⟩ : ∃ e, e = c.size.toNat % 4096 := ⟨_, rfl⟩
  have hle : e ≤ c.size.toNat := he ▸ Nat.mod_le _ _
  have hc' : (c.trim e).Paged :=
    c.trim_paged hvirt hle (by omega) (hc.virt_le.trans (by omega))
  have hstop := c.trim_stop hle
  have hend : c.stop = c.virt.toNat + c.size.toNat := rfl
  have hpage : (c.trim e).stop % 4096 = 0 := by omega
  -- the last bytes do not make room for another span
  have hfollows : c.Follows e (c.trim e) := c.trim_follows hle fun {ℓ x} h1 h3 hx _ => by
    have hg : gran ℓ % 4096 = 0 := Nat.mod_eq_zero_of_dvd (gran_nested.dvd h3)
    refine and_congr_right fun _ => ?_
    show x + gran ℓ ≤ c.stop ↔ x + gran ℓ ≤ (c.trim e).stop
    omega
  obtain ⟨s, m', hs, hm', hecho, hpos, hleft, hlevel⟩ := hfollows.reaches_stop h0 hc'
  have hroom := h0.hasRoom hc'
  have hwf := Wf.of_zeroed h0 anyLeaf
  obtain ⟨hwf', hmaps⟩ := hm'.maps hwf hc' (Call.writes_any _) hroom
  have hidx := hm'.tableIdx hc' (Call.writes_any _) hwf hroom
  have hlt : (c.trim e).stop < 2 ^ 36 := by
    have := hc.virt_le
    omega
  have hstuck : Stuck L ((c.trim e).LeafAt (c.phys.toNat % 4096)) c.attrs 0
      ⟨(c.trim e).stop, hlt⟩ m' s := by
    refine ⟨hecho, hwf', ?_, hlevel, hpos, ⟨_, view_zero ..⟩, fun j hj => hmaps.bare_stop h0 rfl hj,
      fun j h1 h3 hf => ?_⟩
    · have := tablesNeeded_le_four L m₀.mem (c.trim e)
      rw [hidx, h0.tableIdx]
      omega
    · have hg := gran_le h1 h3
      have hle : s.virt.toNat + gran j ≤ s.virt.toNat + s.size.toNat := hf.2
      omega
  exact hstuck.exists_deep hs (Loop.goes_iff.2 (by omega))

/-- A call does not go below level 3, nor does the MMU, if and only if its region is page-aligned
and bit 1 of the physical address is clear or the region contains no whole span of 2 MiB. -/
theorem no_descent_iff (L : Layout) (m₀ : Machine) (c : Call) (h0 : Zeroed L m₀) (hc : c.InRange) :
    NoDescent L m₀ c ↔ c.virt.toNat % 4096 = 0 ∧ c.size.toNat % 4096 = 0 ∧
      (c.phys.getLsbD 1 = true → ∀ x, ¬ Inside gran c.virt.toNat c.stop 2 x) := by
  constructor
  · intro h
    have hdeep : ¬ ∃ t, c.Visits L m₀ t ∧ t.Goes ∧ t.level.toNat = 4 := by
      rintro ⟨t, ht, hgo, hlevel⟩
      have := h.level t ht hgo
      omega
    have hvirt : c.virt.toNat % 4096 = 0 := by
      by_contra hvirt
      exact hdeep (hc.deep_of_virt h0 hvirt)
    have hsize : c.size.toNat % 4096 = 0 := by
      by_contra hsize
      exact hdeep (hc.deep_of_size h0 hvirt hsize)
    refine ⟨hvirt, hsize, fun hbit x hx => ?_⟩
    obtain ⟨s, hs, hnot⟩ := hc.not_mmuAgrees h0 hvirt hsize hbit hx
    exact hnot (h.mmu s hs)
  · rintro ⟨hvirt, hsize, hphys⟩
    exact hc.noDescent h0 hvirt hsize hphys

/-- Three pages that are mapped to a physical address that is no multiple of the page size. -/
theorem no_descent_sample : NoDescent sampleLayout bootMachine ⟨0x802, 0x1000, 0x3000, 12⟩ := by
  refine (no_descent_iff sampleLayout bootMachine _ (zeroed_bootMachine _) (by decide)).2
    ⟨by decide, by decide, fun _ x hx => ?_⟩
  have h1 : 0x1000 ≤ floor gran 2 x := hx.1
  have h2 : floor gran 2 x + 0x200000 ≤ 0x4000 := hx.2
  omega

/-- A page that starts in the middle of a page takes the loop to level 4. -/
theorem misaligned_descends :
    Zeroed sampleLayout bootMachine ∧ Call.InRange ⟨0x800, 0x800, 0x1000, 12⟩ ∧
      ¬ NoDescent sampleLayout bootMachine ⟨0x800, 0x800, 0x1000, 12⟩ := by
  refine ⟨zeroed_bootMachine _, by decide, fun h => ?_⟩
  have hrun : (addMapLoop sampleLayout 12 3
      (Call.start ⟨0x800, 0x800, 0x1000, 12⟩ bootMachine)).map (fun s => (s.size, s.level)) =
        some (0x1000, 4) := by decide
  obtain ⟨s, hs, he⟩ := Option.map_eq_some_iff.1 hrun
  obtain ⟨hsize, hlevel⟩ := Prod.mk.inj he
  have hle := h.level s ⟨3, hs⟩ (by rw [Loop.Goes, hsize]; decide)
  rw [hlevel] at hle
  exact absurd hle (by decide)

end Arm64Mmu
