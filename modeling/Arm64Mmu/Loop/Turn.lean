import Arm64Mmu.Loop.Arith

/-!
# One iteration of the loop of `add_map`

`Sim L Q c m₀ s` relates a state `s` at the head of the loop of the call `c`, started on the
machine `m₀`, to a sweep over the region of the call: the tables are well-formed, the local
variables say where the sweep is, and the view is what the sweep has made of the view of `m₀`.

`Sim.turn` is the step lemma: an iteration is defined, makes the variant smaller, takes a
table only where a cut span has none, and, as long as the pool lasts, is a step of the sweep.
-/

namespace Arm64Mmu

open Lib Lib.Radix

namespace Call

/-- The leaf that the call stores in the level-`ℓ` span at `x`. -/
def leafAt (c : Call) (ℓ x : ℕ) : U64 :=
  blockDesc (c.phys + BitVec.ofNat 64 (x - c.virt.toNat)) c.attrs (BitVec.ofNat 32 ℓ)

/-- The leaves of the spans inside the region have the property `Q`. -/
def Writes (c : Call) (Q : LeafInv) : Prop :=
  ∀ ℓ x, 1 ≤ ℓ → ℓ ≤ 3 → x % gran ℓ = 0 → c.virt.toNat ≤ x → x + gran ℓ ≤ c.stop →
    Q.holds ℓ (c.leafAt ℓ x)

/-- The steps of the sweep over the region of the call. -/
abbrev Step (L : Layout) (c : Call) : Sweep.State Va ℕ U64 → Sweep.State Va ℕ U64 → Prop :=
  Sweep.Step (scheme L) gran (fun va => va) c.stop L.xlatTable c.leafAt

/-- The states of a sweep over the region that starts with the tables of `m₀`. -/
abbrev Swept (L : Layout) (c : Call) (m₀ : Machine) : Sweep.State Va ℕ U64 → Prop :=
  Sweep.Inv (scheme L) gran (fun va => va) c.virt.toNat c.stop L.xlatTable c.leafAt 3
    (view L m₀.mem) m₀.tableIdx

end Call

namespace Loop

/-- What the sweep sees of a state. -/
def abs (L : Layout) (s : Loop) : Sweep.State Va ℕ U64 :=
  ⟨view L s.m.mem, s.m.tableIdx, s.virt.toNat, s.level.toNat⟩

/-- The variant of the loop. -/
def rest (s : Loop) : ℕ := 4 * s.size.toNat + (3 - s.level.toNat)

/-- The state after the span of the current level is mapped, with the machine `m'`. -/
def taken (s : Loop) (m' : Machine) : Loop where
  m := m'
  virt := s.virt + levelSize s.level
  phys := s.phys + levelSize s.level
  size := (s.size.signExtend 64 - levelSize s.level).setWidth 32
  level := xlatTableBaseLevel

/-- The state in which the next level is tried, with the machine `m'`. -/
def deeper (s : Loop) (m' : Machine) : Loop := { s with m := m', level := s.level + 1 }

/-- The span of the current level does not fit and its entry is not a table. -/
def NeedsTable (L : Layout) (c : Call) (s : Loop) : Prop :=
  ¬ Greedy.Fits gran c.stop (s.abs L).cur ∧
    ∃ va : Va, (va : ℕ) = s.virt.toNat ∧ ∀ p, view L s.m.mem s.level.toNat va ≠ .table p

end Loop

/-- A state of the loop of the call `c`, which was started on `m₀`. -/
structure Sim (L : Layout) (Q : LeafInv) (c : Call) (m₀ : Machine) (s : Loop) : Prop where
  wf : Wf L Q s.m
  stop : s.virt.toNat + s.size.toNat = c.stop
  phys : s.phys = c.phys + BitVec.ofNat 64 (s.virt.toNat - c.virt.toNat)
  swept : c.Swept L m₀ (s.abs L)

/-- What an iteration does while the pool lasts. -/
structure Turn (L : Layout) (Q : LeafInv) (c : Call) (m₀ : Machine) (s s' : Loop) : Prop where
  sim : Sim L Q c m₀ s'
  step : c.Step L (s.abs L) (s'.abs L)
  stores : LastStoreCounts L s.m s'.m

/-- The call of `calculate_pte_index` at the head of the loop returns the entry of the address
`va` in the table `T`, which is used at level `ℓ + 1`. -/
structure AtSlot (L : Layout) (s : Loop) (ℓ : ℕ) (va : Va) (T : Table) : Prop where
  le : ℓ ≤ 2
  level : s.level = BitVec.ofNat 32 (ℓ + 1)
  level_toNat : s.level.toNat = ℓ + 1
  pos : (va : ℕ) = s.virt.toNat
  path : view L s.m.mem ℓ va = .table (T.addr L)
  used : UsedAt L s.m.trace T (ℓ + 1)
  lt : vaIdx (ℓ + 1) va < T.entries
  found : calculatePteIndex L s.m.mem s.virt s.level = some (T.slot L (vaIdx (ℓ + 1) va))

/-- The branches of an iteration at an entry: the span fits, or its entry is invalid, a block, or
a table. -/
inductive Iter (L : Layout) (c : Call) (s : Loop) (ℓ : ℕ) (va : Va) (T : Table) : Loop → Prop
  | fits (hf : Greedy.Fits gran c.stop ⟨s.virt.toNat, ℓ + 1⟩) :
      Iter L c s ℓ va T
        (s.taken (setPteBlockDesc s.m (T.slot L (vaIdx (ℓ + 1) va)) s.phys c.attrs s.level))
  | invalid (hf : ¬ Greedy.Fits gran c.stop ⟨s.virt.toNat, ℓ + 1⟩) (hℓ : ℓ + 1 ≤ 2)
      (hv : view L s.m.mem (ℓ + 1) va = .invalid) :
      Iter L c s ℓ va T (s.deeper (newTableDesc L s.m (T.slot L (vaIdx (ℓ + 1) va)) s.level))
  | block {d : U64} (hf : ¬ Greedy.Fits gran c.stop ⟨s.virt.toNat, ℓ + 1⟩) (hℓ : ℓ + 1 ≤ 2)
      (hv : view L s.m.mem (ℓ + 1) va = .leaf d)
      (hd : s.m.mem (T.slot L (vaIdx (ℓ + 1) va)) = d) :
      Iter L c s ℓ va T (s.deeper (splitPteBlockDesc L s.m (T.slot L (vaIdx (ℓ + 1) va)) s.level))
  | table {p : ℕ} (hf : ¬ Greedy.Fits gran c.stop ⟨s.virt.toNat, ℓ + 1⟩) (hℓ : ℓ + 1 ≤ 2)
      (hv : view L s.m.mem (ℓ + 1) va = .table p) : Iter L c s ℓ va T (s.deeper s.m)

variable {L : Layout} {Q : LeafInv} {c : Call} {m₀ : Machine} {s s' : Loop} {ℓ x : ℕ} {va : Va}
  {T : Table}

namespace Call

lemma leafAt_isLeaf (hc : c.Paged) (h3 : ℓ ≤ 3) (hx : x % 4096 = 0) : IsLeaf ℓ (c.leafAt ℓ x) := by
  have hp := hc.phys
  have hv := hc.virt
  have haddr : (c.phys + BitVec.ofNat 64 (x - c.virt.toNat)).toNat % 4096 = 0 := by
    rw [BitVec.toNat_add, BitVec.toNat_ofNat]
    omega
  have hl : BitVec.ofNat 32 ℓ = 3 ↔ ℓ = 3 := by
    rw [← BitVec.toNat_inj, BitVec.toNat_ofNat]
    show ℓ % 2 ^ 32 = 3 ↔ _
    omega
  rw [IsLeaf, leafAt, blockDesc_type haddr]
  exact if_congr hl rfl rfl

/-- The start of the loop is a state of the sweep. -/
lemma sim_start (hc : c.Paged) (hwf : Wf L Q m₀) : Sim L Q c m₀ (c.start m₀) where
  wf := hwf
  stop := rfl
  phys := by simp [start]
  swept := by
    refine Sweep.Inv.init (Nat.le_add_right _ _) (by decide) ?_ (fun va => ⟨_, view_zero ..⟩)
      fun hs => view_congr hs
    exact Nat.dvd_of_mod_eq_zero hc.virt

end Call

/-- The loop goes on while there are bytes to map. -/
lemma Loop.goes_iff : s.Goes ↔ s.size.toNat ≠ 0 := by
  rw [Loop.Goes, Ne, ← BitVec.toNat_inj]
  rfl

section

-- `calculate_pte_index` returns the entry `pte`, and the region ends at `b`
variable {pte b : ℕ} {attrs : U32} (hℓ : ℓ ≤ 2) (hlevel : s.level = BitVec.ofNat 32 (ℓ + 1))
  (hb : s.virt.toNat + s.size.toNat = b)
  (hfound : calculatePteIndex L s.m.mem s.virt s.level = some pte)
include hℓ hlevel hb hfound

/-- What an iteration computes at a level of the tables. -/
lemma addMapBody_eq : addMapBody L attrs s =
    if Greedy.Fits gran b ⟨s.virt.toNat, ℓ + 1⟩ then
      some (s.taken (setPteBlockDesc s.m pte s.phys attrs s.level))
    else if pteDescType s.m.mem pte = pteInvalidDesc then
      some (s.deeper (newTableDesc L s.m pte s.level))
    else if pteDescType s.m.mem pte = pteBlockDesc then
      some (s.deeper (splitPteBlockDesc L s.m pte s.level))
    else if pteDescType s.m.mem pte = pteTableDesc then some (s.deeper s.m)
    else some s := by
  have hguard : ¬ 64 ≤ (levelToVaSizeShift s.level).toNat := by
    rw [hlevel, levelToVaSizeShift_toNat (by omega) (by omega)]
    omega
  have hfits := fits_iff (by omega : 1 ≤ ℓ + 1) (by omega) hb
  rw [← hlevel] at hfits
  rw [addMapBody, if_neg hguard]
  simp only [hfound]
  exact if_congr hfits rfl rfl

lemma addMapBody_of_fits (hf : Greedy.Fits gran b ⟨s.virt.toNat, ℓ + 1⟩) :
    addMapBody L attrs s = some (s.taken (setPteBlockDesc s.m pte s.phys attrs s.level)) := by
  rw [addMapBody_eq hℓ hlevel hb hfound, if_pos hf]

variable (hf : ¬ Greedy.Fits gran b ⟨s.virt.toNat, ℓ + 1⟩)
include hf

lemma addMapBody_of_invalid (ht : pteDescType s.m.mem pte = pteInvalidDesc) :
    addMapBody L attrs s = some (s.deeper (newTableDesc L s.m pte s.level)) := by
  rw [addMapBody_eq hℓ hlevel hb hfound, if_neg hf, if_pos ht]

lemma addMapBody_of_block (ht : pteDescType s.m.mem pte = pteBlockDesc) :
    addMapBody L attrs s = some (s.deeper (splitPteBlockDesc L s.m pte s.level)) := by
  rw [addMapBody_eq hℓ hlevel hb hfound, if_neg hf, if_neg (by rw [ht]; decide), if_pos ht]

lemma addMapBody_of_table (ht : pteDescType s.m.mem pte = pteTableDesc) :
    addMapBody L attrs s = some (s.deeper s.m) := by
  rw [addMapBody_eq hℓ hlevel hb hfound, if_neg hf, if_neg (by rw [ht]; decide),
    if_neg (by rw [ht]; decide), if_pos ht]

end

namespace Sim

variable (h : Sim L Q c m₀ s)
include h

lemma level_bounds : 1 ≤ s.level.toNat ∧ s.level.toNat ≤ 3 :=
  ⟨h.swept.one_le, h.swept.level_le⟩

lemma pos_lt (hgo : s.Goes) : s.virt.toNat < c.stop := by
  have hne := Loop.goes_iff.1 hgo
  have := h.stop
  omega

/-- When the loop leaves, the whole region is mapped. -/
lemma pos_eq (hgo : ¬ s.Goes) : s.virt.toNat = c.stop := by
  have h0 : s.size.toNat = 0 := by simpa [Loop.goes_iff] using hgo
  have hstop := h.stop
  omega

/-- The call of `calculate_pte_index` in an iteration returns an entry of a table in use. -/
theorem slot (hc : c.Paged) (hgo : s.Goes) : ∃ ℓ va T, AtSlot L s ℓ va T := by
  obtain ⟨h1, h3⟩ := h.level_bounds
  have hlt := (h.pos_lt hgo).trans_le hc.stop_le
  obtain ⟨ℓ, hℓ⟩ : ∃ ℓ, s.level.toNat = ℓ + 1 := ⟨s.level.toNat - 1, by omega⟩
  have hlevel : s.level = BitVec.ofNat 32 (ℓ + 1) := by
    rw [← hℓ, ← level_eq]
  obtain ⟨va, hva⟩ : ∃ va : Va, (va : ℕ) = s.virt.toNat := ⟨⟨_, hlt⟩, rfl⟩
  obtain ⟨p, hp⟩ : ∃ p, view L s.m.mem ℓ va = .table p :=
    h.swept.path hva ℓ (by show ℓ < s.level.toNat; omega)
  obtain ⟨T, hT, rfl, hi⟩ := h.wf.path hp
  refine ⟨ℓ, va, T, by omega, hlevel, hℓ, hva, hp, hT, hi, ?_⟩
  rw [hlevel, calculatePteIndex_eq_some hva.symm (by omega) (by omega)]
  exact ⟨_, hp, rfl⟩

/-- A step of the sweep leads to a state of the sweep. -/
lemma of_step (hc : c.Paged) (hwf : Wf L Q s'.m) (hstop : s'.virt.toNat + s'.size.toNat = c.stop)
    (hphys : s'.phys = c.phys + BitVec.ofNat 64 (s'.virt.toNat - c.virt.toNat))
    (hstep : c.Step L (s.abs L) (s'.abs L)) : Sim L Q c m₀ s' where
  wf := hwf
  stop := hstop
  phys := hphys
  swept := by
    refine h.swept.step (graded L) (Nat.dvd_of_mod_eq_zero ?_) hstep
    have h1 := hc.virt
    have h2 := hc.size
    show (c.virt.toNat + c.size.toNat) % 4096 = 0
    omega

omit h in
lemma abs_eq (ha : AtSlot L s ℓ va T) :
    s.abs L = ⟨view L s.m.mem, s.m.tableIdx, s.virt.toNat, ℓ + 1⟩ := by
  rw [Loop.abs, ha.level_toNat]

/-- The word that is stored where the span fits is the leaf of the call. -/
lemma desc_eq (ha : AtSlot L s ℓ va T) :
    blockDesc s.phys c.attrs s.level = c.leafAt (ℓ + 1) s.virt.toNat := by
  rw [Call.leafAt, ← h.phys, ← ha.level]

/-- The span that fits is the coarsest one inside the region. -/
lemma coarsest (ha : AtSlot L s ℓ va T)
    (hf : Greedy.Fits gran c.stop ⟨s.virt.toNat, ℓ + 1⟩) :
    Greedy.Coarsest gran c.virt.toNat c.stop (ℓ + 1) s.virt.toNat := by
  have hcur := h.swept.cur
  rw [abs_eq ha] at hcur
  exact hcur.coarsest_of_fits (Nat.succ_pos ℓ) hf

/-- The span that does not fit is cut. -/
lemma cut (hgo : s.Goes) (ha : AtSlot L s ℓ va T)
    (hf : ¬ Greedy.Fits gran c.stop ⟨s.virt.toNat, ℓ + 1⟩) :
    Greedy.Cut gran c.virt.toNat c.stop (ℓ + 1) va := by
  have hcur := h.swept.cur
  rw [abs_eq ha] at hcur
  rw [ha.pos]
  exact hcur.cut_of_not_fits gran_nested (h.pos_lt hgo) (Nat.succ_pos ℓ) hf

omit h in
/-- The address after the span is mapped. -/
lemma taken_virt (hc : c.Paged) (ha : AtSlot L s ℓ va T)
    (hf : Greedy.Fits gran c.stop ⟨s.virt.toNat, ℓ + 1⟩) (m' : Machine) :
    (s.taken m').virt.toNat = s.virt.toNat + gran (ℓ + 1) := by
  have hℓ := ha.le
  have hle : s.virt.toNat + gran (ℓ + 1) ≤ c.stop := hf.2
  have hmax := hc.stop_le
  rw [Loop.taken, ha.level]
  exact virt_add (by omega) (by omega) (by omega)

/-- The span fits: its leaf is stored. -/
theorem take (hc : c.Paged) (hQ : c.Writes Q) (hgo : s.Goes) (ha : AtSlot L s ℓ va T)
    (hf : Greedy.Fits gran c.stop ⟨s.virt.toNat, ℓ + 1⟩) :
    Turn L Q c m₀ s (s.taken
      (setPteBlockDesc s.m (T.slot L (vaIdx (ℓ + 1) va)) s.phys c.attrs s.level)) := by
  obtain ⟨hmod, hle⟩ := id hf
  simp only at hmod hle
  have hℓ := ha.le
  have hg := gran_le (ℓ := ℓ + 1) (by omega) (by omega)
  have hstop := h.stop
  have hlow : c.virt.toNat ≤ s.virt.toNat := h.swept.cur.low
  have hfine : s.virt.toNat % 4096 = 0 := Nat.mod_eq_zero_of_dvd h.swept.fine
  have hdesc := h.desc_eq ha
  have hleaf := setPteBlockDesc_storesLeaf ha.used ha.lt
    (hdesc ▸ Call.leafAt_isLeaf hc (by omega) hfine)
  have hwf := h.wf.leaf hleaf (hdesc ▸ hQ _ _ (by omega) (by omega) hmod hlow hle)
  have hview := h.wf.view_leaf ha.path hleaf
  have hvirt : (s.virt + levelSize s.level).toNat = s.virt.toNat + gran (ℓ + 1) :=
    taken_virt hc ha hf s.m
  have hsize : ((s.size.signExtend 64 - levelSize s.level).setWidth 32).toNat =
      s.size.toNat - gran (ℓ + 1) := by
    rw [ha.level]
    exact size_sub (by omega) (by omega) (by omega)
  have hstep : c.Step L (s.abs L) (Loop.abs L (s.taken
      (setPteBlockDesc s.m (T.slot L (vaIdx (ℓ + 1) va)) s.phys c.attrs s.level))) := by
    rw [abs_eq ha]
    simp only [Loop.abs, Loop.taken, hview, hvirt, hdesc]
    exact .take ha.pos (h.pos_lt hgo) hf
  refine ⟨h.of_step hc hwf ?_ ?_ hstep, hstep, .single rfl rfl rfl⟩
  · simp only [Loop.taken, hvirt, hsize]
    omega
  · simp only [Loop.taken, hvirt]
    rw [h.phys, ha.level, levelSize_eq (by omega) (by omega), BitVec.add_assoc, ← BitVec.ofNat_add]
    congr 2
    omega

/-- The level that is tried next. -/
lemma level_succ (ha : AtSlot L s ℓ va T) (hgo : s.Goes) (hc : c.Paged)
    (hf : ¬ Greedy.Fits gran c.stop ⟨s.virt.toNat, ℓ + 1⟩) :
    ℓ + 1 ≤ 2 ∧ (s.level + 1).toNat = ℓ + 2 := by
  have hlt : ℓ + 1 < 3 := by
    have h1 := hc.virt
    have h2 := hc.size
    have hb : gran 3 ∣ c.stop :=
      Nat.dvd_of_mod_eq_zero (by show (c.virt.toNat + c.size.toNat) % 4096 = 0; omega)
    have := h.swept.level_lt hb (h.pos_lt hgo) (by rwa [abs_eq ha])
    rwa [abs_eq ha] at this
  refine ⟨by omega, ?_⟩
  rw [BitVec.toNat_add, ha.level_toNat]
  show (ℓ + 1 + 1) % 2 ^ 32 = ℓ + 2
  omega

/-- The span does not fit and its entry is not a table: one is linked. -/
theorem graft {m' : Machine} {f : ℕ → U64} (hc : c.Paged) (hgo : s.Goes)
    (ha : AtSlot L s ℓ va T) (hf : ¬ Greedy.Fits gran c.stop ⟨s.virt.toNat, ℓ + 1⟩)
    (hlt : s.m.tableIdx < 32) (hnot : ∀ p, view L s.m.mem (ℓ + 1) va ≠ .table p)
    (hl : Links L s.m m' T (ℓ + 1) (vaIdx (ℓ + 1) va) f) (hcount : LastStoreCounts L s.m m')
    (hleaf : ∀ j < 512, f j = 0 ∨ (IsLeaf (ℓ + 2) (f j) ∧ Q.holds (ℓ + 2) (f j)))
    (hkids : ∀ va', (scheme L).Same (ℓ + 1) va va' →
      classify (ℓ + 2) (f (vaIdx (ℓ + 2) va')) =
        (scheme L).child (tablesOf s.m.mem) (ℓ + 2) va' (view L s.m.mem (ℓ + 1) va')) :
    Turn L Q c m₀ s (s.deeper m') := by
  have hwf := h.wf.link hl hlt hleaf
  have hview := h.wf.view_link ha.path hl hlt hnot hkids
  obtain ⟨-, hlevel⟩ := h.level_succ ha hgo hc hf
  have hstep : c.Step L (s.abs L) (Loop.abs L (s.deeper m')) := by
    rw [abs_eq ha]
    simp only [Loop.abs, Loop.deeper, hview, hlevel, hl.tableIdx]
    exact .graft ha.pos (h.pos_lt hgo) hf hnot
  exact ⟨h.of_step hc hwf h.stop h.phys hstep, hstep, hcount⟩

/-- The span does not fit and its entry is a table. -/
theorem descend {p : ℕ} (hc : c.Paged) (hgo : s.Goes) (ha : AtSlot L s ℓ va T)
    (hf : ¬ Greedy.Fits gran c.stop ⟨s.virt.toNat, ℓ + 1⟩)
    (hv : view L s.m.mem (ℓ + 1) va = .table p) : Turn L Q c m₀ s (s.deeper s.m) := by
  obtain ⟨-, hlevel⟩ := h.level_succ ha hgo hc hf
  have hstep : c.Step L (s.abs L) (Loop.abs L (s.deeper s.m)) := by
    rw [abs_eq ha]
    simp only [Loop.abs, Loop.deeper, hlevel]
    exact .descend ha.pos (h.pos_lt hgo) hf hv
  refine ⟨h.of_step hc h.wf h.stop h.phys hstep, hstep, [], (List.append_nil _).symm, rfl, ?_⟩
  intro ws₁ w ws₂ hws
  exact absurd hws (by simp [stores])

/-- The types of the words in a directory. -/
lemma type_of_view (ha : AtSlot L s ℓ va T) (hℓ : ℓ + 1 ≤ 2) :
    match view L s.m.mem (ℓ + 1) va with
    | .invalid => pteDescType s.m.mem (T.slot L (vaIdx (ℓ + 1) va)) = pteInvalidDesc
    | .leaf d => pteDescType s.m.mem (T.slot L (vaIdx (ℓ + 1) va)) = pteBlockDesc ∧
        s.m.mem (T.slot L (vaIdx (ℓ + 1) va)) = d
    | .table _ => pteDescType s.m.mem (T.slot L (vaIdx (ℓ + 1) va)) = pteTableDesc := by
  have hword := h.wf.word_eq ha.path ha.used ha.lt
  simp only [pteDescType, pteDescTypeMask, pteInvalidDesc, pteBlockDesc, pteTableDesc]
  cases hv : view L s.m.mem (ℓ + 1) va with
  | invalid =>
      rw [hv] at hword
      rw [hword]
      decide
  | leaf d =>
      rw [hv] at hword
      obtain ⟨hleaf, -⟩ := h.wf.leaf_entry ha.path hv
      rw [IsLeaf, if_neg (by omega)] at hleaf
      rw [hword]
      exact ⟨hleaf, rfl⟩
  | table p =>
      rw [hv] at hword
      obtain ⟨t, ht, -, hd⟩ := hword
      rw [hd]
      exact xlatDesc_type (ht.trans_le h.wf.idx_le)

/-- The variant gets smaller when the next level is tried. -/
lemma rest_deeper (ha : AtSlot L s ℓ va T) (hgo : s.Goes) (hc : c.Paged)
    (hf : ¬ Greedy.Fits gran c.stop ⟨s.virt.toNat, ℓ + 1⟩) (m' : Machine) :
    (s.deeper m').rest < s.rest := by
  obtain ⟨h2, hlevel⟩ := h.level_succ ha hgo hc hf
  simp only [Loop.rest, Loop.deeper, hlevel, ha.level_toNat]
  omega

lemma rest_taken (ha : AtSlot L s ℓ va T)
    (hf : Greedy.Fits gran c.stop ⟨s.virt.toNat, ℓ + 1⟩) (m' : Machine) :
    (s.taken m').rest < s.rest := by
  have hℓ := ha.le
  have hg := gran_le (ℓ := ℓ + 1) (by omega) (by omega)
  have hle : s.virt.toNat + gran (ℓ + 1) ≤ c.stop := hf.2
  have hstop := h.stop
  have hsize : ((s.size.signExtend 64 - levelSize s.level).setWidth 32).toNat =
      s.size.toNat - gran (ℓ + 1) := by
    rw [ha.level]
    exact size_sub (by omega) (by omega) (by omega)
  simp only [Loop.rest, Loop.taken, hsize]
  omega

/-- An iteration is defined, and takes one of the branches. -/
theorem iter (hc : c.Paged) (hgo : s.Goes) (ha : AtSlot L s ℓ va T) :
    ∃ s', addMapBody L c.attrs s = some s' ∧ Iter L c s ℓ va T s' := by
  by_cases hf : Greedy.Fits gran c.stop ⟨s.virt.toNat, ℓ + 1⟩
  · exact ⟨_, addMapBody_of_fits ha.le ha.level h.stop ha.found hf, .fits hf⟩
  obtain ⟨hℓ, -⟩ := h.level_succ ha hgo hc hf
  have htype := h.type_of_view ha hℓ
  cases hv : view L s.m.mem (ℓ + 1) va with
  | invalid =>
      rw [hv] at htype
      exact ⟨_, addMapBody_of_invalid ha.le ha.level h.stop ha.found hf htype, .invalid hf hℓ hv⟩
  | leaf d =>
      rw [hv] at htype
      obtain ⟨htype, hd⟩ := htype
      exact ⟨_, addMapBody_of_block ha.le ha.level h.stop ha.found hf htype, .block hf hℓ hv hd⟩
  | table p =>
      rw [hv] at htype
      exact ⟨_, addMapBody_of_table ha.le ha.level h.stop ha.found hf htype, .table hf hℓ hv⟩

/-- The step lemma of the loop. -/
theorem turn (hc : c.Paged) (hQ : c.Writes Q) (hgo : s.Goes) :
    ∃ s', addMapBody L c.attrs s = some s' ∧ s'.rest < s.rest ∧
      (s'.m.tableIdx = s.m.tableIdx ∨
        (s'.m.tableIdx = s.m.tableIdx + 1 ∧ s.NeedsTable L c)) ∧
      (s'.m.tableIdx ≤ 32 → Turn L Q c m₀ s s') := by
  obtain ⟨ℓ, va, T, ha⟩ := h.slot hc hgo
  have hneeds : ¬ Greedy.Fits gran c.stop ⟨s.virt.toNat, ℓ + 1⟩ →
      (∀ p, view L s.m.mem (ℓ + 1) va ≠ .table p) → s.NeedsTable L c := fun hf hv =>
    ⟨by rwa [abs_eq ha], va, ha.pos, by rwa [ha.level_toNat]⟩
  obtain ⟨s', hs', hiter⟩ := h.iter hc hgo ha
  refine ⟨s', hs', ?_⟩
  cases hiter with
  | fits hf => exact ⟨h.rest_taken ha hf _, .inl rfl, fun _ => h.take hc hQ hgo ha hf⟩
  | invalid hf hℓ hv =>
      have hnot : ∀ p, view L s.m.mem (ℓ + 1) va ≠ .table p := by simp [hv]
      have hidx := tableIdx_succ h.wf.idx_le
      refine ⟨h.rest_deeper ha hgo hc hf _, .inr ⟨hidx, hneeds hf hnot⟩, fun hle => ?_⟩
      have hlt : s.m.tableIdx < 32 := hidx.ge.trans hle
      refine h.graft hc hgo ha hf hlt hnot
        (h.wf.newTableDesc_links hlt ha.used hℓ ha.lt ha.level_toNat) (.single rfl rfl rfl)
        (fun _ _ => .inl rfl) fun va' hs => ?_
      rw [← view_congr hs, hv]
      rfl
  | @block d hf hℓ hv hd =>
      have hnot : ∀ p, view L s.m.mem (ℓ + 1) va ≠ .table p := by simp [hv]
      have hidx : (splitPteBlockDesc L s.m (T.slot L (vaIdx (ℓ + 1) va)) s.level).tableIdx =
          s.m.tableIdx + 1 := splitPteBlockDesc_tableIdx _ _ _ h.wf.idx_le
      obtain ⟨hleaf, hQd, -⟩ := h.wf.leaf_entry ha.path hv
      rw [IsLeaf, if_neg (by omega)] at hleaf
      refine ⟨h.rest_deeper ha hgo hc hf _, .inr ⟨hidx, hneeds hf hnot⟩, fun hle => ?_⟩
      have hlt : s.m.tableIdx < 32 := hidx.ge.trans hle
      have hl := h.wf.split_links hlt ha.used hℓ ha.lt ha.level
      have hcount := h.wf.split_lastStoreCounts hlt ha.used hℓ ha.level (vaIdx (ℓ + 1) va)
      rw [hd] at hl
      have hpiece : ∀ j < 512, IsLeaf (ℓ + 2) (splitPiece (ℓ + 2) j d) := fun j hj =>
        splitPiece_type (by omega) (by omega) hj hleaf
      refine h.graft hc hgo ha hf hlt hnot hl hcount
        (fun j hj => .inr ⟨hpiece j hj, Q.split (by omega) hℓ hj hleaf hQd⟩) fun va' hs => ?_
      rw [← view_congr hs, hv]
      exact classify_of_isLeaf (by omega) (hpiece _ (vaIdx_lt _ va'))
  | table hf hℓ hv =>
      exact ⟨h.rest_deeper ha hgo hc hf _, .inl rfl, fun _ => h.descend hc hgo ha hf hv⟩

/-- The branch that an iteration has taken. -/
lemma iter_of_body (hc : c.Paged) (hgo : s.Goes) (hs' : addMapBody L c.attrs s = some s') :
    ∃ ℓ va T, AtSlot L s ℓ va T ∧ Iter L c s ℓ va T s' := by
  obtain ⟨ℓ, va, T, ha⟩ := h.slot hc hgo
  obtain ⟨b, hb, hiter⟩ := h.iter hc hgo ha
  obtain rfl : b = s' := Option.some.inj (hb.symm.trans hs')
  exact ⟨ℓ, va, T, ha, hiter⟩

/-- The step lemma for an iteration that the pool has lasted. -/
lemma turn_of_body (hc : c.Paged) (hQ : c.Writes Q) (hgo : s.Goes)
    (hs' : addMapBody L c.attrs s = some s') (hle : s'.m.tableIdx ≤ 32) : Turn L Q c m₀ s s' := by
  obtain ⟨b, hb, -, -, hturn⟩ := h.turn hc hQ hgo
  obtain rfl : b = s' := Option.some.inj (hb.symm.trans hs')
  exact hturn hle

end Sim

end Arm64Mmu
