import Arm64Mmu.Loop.Echo

/-!
# Following a page-aligned call

The loop of `add_map` never looks at a physical address, and on zeroed tables it never comes back
to a leaf.  So a call with any physical address does on zeroed tables what a page-aligned call
does, but for the words of the leaves.  A call whose region is longer does the same as long as its
spans fit where those of the page-aligned call fit (`Shadow.step`).
-/

namespace Arm64Mmu

open Lib Lib.Radix Lib.Greedy

/-- The leaves of a call with the region of `c` and physical addresses that are `o` modulo the page
size: at each level there is one only if the region contains a span of the level. -/
def Call.LeafAt (c : Call) (o ℓ : ℕ) (addrPa : U64) : Prop :=
  addrPa.toNat % 4096 = o ∧ ∃ x, Inside gran c.virt.toNat c.stop ℓ x

/-- The loop variables of `s` are those of `s'`, with `e` more bytes to map and physical addresses
that are `o` modulo the page size.  The region of `s'` is that of `c'`. -/
structure Shadow (L : Layout) (c' : Call) (o e : ℕ) (s s' : Loop) : Prop where
  echo : Echo L (c'.LeafAt o) c'.attrs s.m s'.m
  phys : s.phys.toNat % 4096 = o
  virt : s.virt = s'.virt
  level : s.level = s'.level
  size : s.size.toNat = s'.size.toNat + e

/-- The call `c` maps `e` bytes more than `c'`, and a span fits in the one region if and only if it
fits in the other, as long as it starts in the smaller one. -/
structure Call.Follows (e : ℕ) (c c' : Call) : Prop where
  virt : c.virt = c'.virt
  attrs : c.attrs = c'.attrs
  size : c.size.toNat = c'.size.toNat + e
  fits : ∀ {ℓ x}, 1 ≤ ℓ → ℓ ≤ 3 → x % 4096 = 0 → x < c'.stop →
    (Fits gran (c'.stop + e) ⟨x, ℓ⟩ ↔ Fits gran c'.stop ⟨x, ℓ⟩)

variable {L : Layout} {Q : LeafInv} {c c' : Call} {attrs : U32} {m m' m₀ : Machine} {s s' t' : Loop}
  {P : ℕ → U64 → Prop} {T : Table} {ℓ e o p : ℕ} {va : Va}

/-! ### Lock step -/

namespace Sim

/-- On tables without leaves the loop does not come to a leaf that is in its way. -/
lemma not_leaf (h : Sim L Q c m₀ s) (hgo : s.Goes) (ha : AtSlot L s ℓ va T)
    (hv0 : ∀ j (va : Va) d, view L m₀.mem j va ≠ .leaf d)
    (hf : ¬ Fits gran c.stop ⟨s.virt.toNat, ℓ + 1⟩) (d : U64) :
    view L s.m.mem (ℓ + 1) va ≠ .leaf d := by
  have hℓ := ha.le
  rcases h.swept.cut (Nat.succ_pos ℓ) (by omega) (h.cut hgo ha hf) with hv | ⟨n, -, -, hv⟩
  · have hv : view L s.m.mem (ℓ + 1) va = view L m₀.mem (ℓ + 1) va := hv
    rw [hv]
    exact hv0 _ _ d
  · have hv : view L s.m.mem (ℓ + 1) va = .table (L.xlatTable n) := hv
    simp [hv]

end Sim

/-- The words of an entry that is no leaf, in both machines. -/
lemma Echo.word_eq (h : Echo L P attrs m m') (hwf : Wf L Q m') (hv : view L m'.mem ℓ va = .table p)
    (hnot : ∀ d, view L m'.mem (ℓ + 1) va ≠ .leaf d) :
    m.mem (p + 8 * vaIdx (ℓ + 1) va) = m'.mem (p + 8 * vaIdx (ℓ + 1) va) := by
  obtain ⟨T, hT, rfl, hi⟩ := hwf.path hv
  cases h.word hT hi with
  | same h _ => exact h
  | leaf hd =>
      rw [view_of_table hv] at hnot
      exact absurd (classify_of_isLeaf (hwf.level_bounds hT).2 hd) (hnot _)

namespace Shadow

/-- The spans that fit. -/
lemma fits_iff (h : Shadow L c' o e s s') (hf : c.Follows e c') (hsim : Sim L Q c' m₀ s')
    (hgo : s'.Goes) (ha : AtSlot L s' ℓ va T) :
    s.virt.toNat + s.size.toNat = c'.stop + e ∧
      (Fits gran (c'.stop + e) ⟨s.virt.toNat, ℓ + 1⟩ ↔
        Fits gran c'.stop ⟨s'.virt.toNat, ℓ + 1⟩) := by
  have hℓ := ha.le
  have hstop := hsim.stop
  rw [h.virt, h.size]
  refine ⟨by omega, hf.fits (by omega) (by omega) ?_ (hsim.pos_lt hgo)⟩
  exact Nat.mod_eq_zero_of_dvd hsim.swept.fine

/-- The span fits in both. -/
lemma taken (h : Shadow L c' o e s s') (hc : c'.Paged) (hsim : Sim L Q c' m₀ s')
    (ha : AtSlot L s' ℓ va T) (hf : Fits gran c'.stop ⟨s'.virt.toNat, ℓ + 1⟩) :
    Shadow L c' o e
      (s.taken (setPteBlockDesc s.m (T.slot L (vaIdx (ℓ + 1) va)) s.phys c'.attrs s.level))
      (s'.taken
        (setPteBlockDesc s'.m (T.slot L (vaIdx (ℓ + 1) va)) s'.phys c'.attrs s'.level)) := by
  have hℓ := ha.le
  have hlevel := h.level.trans ha.level
  have hsize := h.size
  have hstop := hsim.stop
  have hle : s'.virt.toNat + gran (ℓ + 1) ≤ c'.stop := hf.2
  have hd : IsLeaf (ℓ + 1) (blockDesc s'.phys c'.attrs (BitVec.ofNat 32 (ℓ + 1))) := by
    rw [← ha.level, hsim.desc_eq ha]
    exact Call.leafAt_isLeaf hc (by omega) (Nat.mod_eq_zero_of_dvd hsim.swept.fine)
  have hleft : ∀ {size : U32}, gran (ℓ + 1) ≤ size.toNat →
      ((size.signExtend 64 - levelSize (BitVec.ofNat 32 (ℓ + 1))).setWidth 32).toNat =
        size.toNat - gran (ℓ + 1) := size_sub (by omega) (by omega)
  have hin : Inside gran c'.virt.toNat c'.stop (ℓ + 1) s'.virt.toNat := by
    rw [Inside, floor_eq_self hf.1]
    exact ⟨hsim.swept.cur.low, hle⟩
  have hpage : gran (ℓ + 1) % 4096 = 0 :=
    Nat.mod_eq_zero_of_dvd (gran_nested.dvd (show ℓ + 1 ≤ 3 by omega))
  have hphys := h.phys
  simp only [Loop.taken, hlevel, ha.level]
  refine ⟨h.echo.storeLeaf hsim.wf ha.used ha.lt hd ⟨hphys, _, hin⟩, ?_, by rw [h.virt], rfl, ?_⟩
  · show (s.phys + levelSize (BitVec.ofNat 32 (ℓ + 1))).toNat % 4096 = o
    rw [BitVec.toNat_add, levelSize_toNat (by omega) (by omega)]
    omega
  · show BitVec.toNat _ = BitVec.toNat _ + e
    rw [hleft (by omega), hleft (by omega)]
    omega

/-- One iteration, in lock step. -/
theorem step (h : Shadow L c' o e s s') (hf : c.Follows e c') (hc : c'.Paged)
    (hsim : Sim L Q c' m₀ s') (hgo : s'.Goes) (hv0 : ∀ j (va : Va) d, view L m₀.mem j va ≠ .leaf d)
    (ht' : addMapBody L c'.attrs s' = some t') (hle : t'.m.tableIdx ≤ 32) :
    ∃ t, addMapBody L c'.attrs s = some t ∧ Shadow L c' o e t t' := by
  obtain ⟨ℓ, va, T, ha, hiter⟩ := hsim.iter_of_body hc hgo ht'
  have hlevel := h.level.trans ha.level
  obtain ⟨hstop, hfits⟩ := h.fits_iff hf hsim hgo ha
  have hfound : calculatePteIndex L s.m.mem s.virt s.level =
      some (T.slot L (vaIdx (ℓ + 1) va)) := by
    rw [hlevel]
    exact h.echo.found hsim.wf (by rw [h.virt, ha.pos]) ha.le ha.path
  -- the types of the entries in both machines
  have htype : (∀ d, view L s'.m.mem (ℓ + 1) va ≠ .leaf d) →
      pteDescType s.m.mem (T.slot L (vaIdx (ℓ + 1) va)) =
        pteDescType s'.m.mem (T.slot L (vaIdx (ℓ + 1) va)) := fun hnot =>
    congrArg (· &&& pteDescTypeMask) (h.echo.word_eq hsim.wf ha.path hnot)
  cases hiter with
  | fits hfit =>
      exact ⟨_, addMapBody_of_fits ha.le hlevel hstop hfound (hfits.2 hfit),
        h.taken hc hsim ha hfit⟩
  | invalid hfit hℓ hv =>
      have hty := hsim.type_of_view ha hℓ
      rw [hv] at hty
      refine ⟨_, addMapBody_of_invalid ha.le hlevel hstop hfound (mt hfits.1 hfit)
        ((htype (by simp [hv])).trans hty), ?_, h.phys, h.virt,
        by simp only [Loop.deeper, h.level], h.size⟩
      simp only [Loop.deeper, h.level]
      have hlt : s'.m.tableIdx < 32 := (tableIdx_succ hsim.wf.idx_le).ge.trans hle
      exact h.echo.linkTable hsim.wf hlt ha.used hℓ ha.lt ha.level_toNat
  | block hfit hℓ hv => exact absurd hv (hsim.not_leaf hgo ha hv0 hfit _)
  | table hfit hℓ hv =>
      have hty := hsim.type_of_view ha hℓ
      rw [hv] at hty
      exact ⟨_, addMapBody_of_table ha.le hlevel hstop hfound (mt hfits.1 hfit)
        ((htype (by simp [hv])).trans hty), h.echo, h.phys, h.virt,
        by simp only [Loop.deeper, h.level], h.size⟩

end Shadow

/-! ### Whole runs -/

/-- An iteration maps a span and starts again at the base level, or does not change the size. -/
lemma addMapBody_level (h : addMapBody L attrs s = some s') :
    s'.level = xlatTableBaseLevel ∨ s'.size = s.size := by
  rw [addMapBody] at h
  split at h
  · simp at h
  · split at h
    · simp at h
    · dsimp only at h
      split_ifs at h
      · exact .inl (by rw [← Option.some.inj h])
      all_goals exact .inr (by rw [← Option.some.inj h])

/-- When the loop leaves, it is at the base level. -/
lemma Call.level_of_exits (h : c.Visits L m s) (hgo : ¬ s.Goes) :
    s.level = xlatTableBaseLevel := by
  suffices hor : s.Goes ∨ s.level = xlatTableBaseLevel from hor.resolve_left hgo
  refine h.invariant (P := fun s => s.Goes ∨ s.level = xlatTableBaseLevel) (.inr rfl) ?_
  intro a b _ _ hgo hb
  refine (addMapBody_level hb).symm.imp_left fun hsize => ?_
  rwa [Loop.Goes, hsize]

namespace Call

/-- The call with the physical address 0 that leaves out the last `e` bytes. -/
def trim (c : Call) (e : ℕ) : Call := ⟨0, c.virt, BitVec.ofNat 32 (c.size.toNat - e), c.attrs⟩

lemma trim_size (c : Call) (e : ℕ) : (c.trim e).size.toNat = c.size.toNat - e := by
  have := c.size.isLt
  rw [trim, BitVec.toNat_ofNat]
  omega

lemma trim_stop (c : Call) (he : e ≤ c.size.toNat) : (c.trim e).stop + e = c.stop := by
  rw [stop, trim_size, stop]
  show c.virt.toNat + _ + e = _
  omega

lemma trim_paged (hvirt : c.virt.toNat % 4096 = 0) (he : e ≤ c.size.toNat)
    (hsize : (c.size.toNat - e) % 4096 = 0) (hle : c.stop ≤ 2 ^ 36 + e) : (c.trim e).Paged := by
  refine ⟨rfl, hvirt, by rwa [trim_size], ?_⟩
  have := c.trim_stop he
  omega

lemma trim_follows (he : e ≤ c.size.toNat)
    (hfits : ∀ {ℓ x}, 1 ≤ ℓ → ℓ ≤ 3 → x % 4096 = 0 → x < (c.trim e).stop →
      (Fits gran c.stop ⟨x, ℓ⟩ ↔ Fits gran (c.trim e).stop ⟨x, ℓ⟩)) : c.Follows e (c.trim e) where
  virt := rfl
  attrs := rfl
  size := by
    rw [trim_size]
    omega
  fits := by
    rw [c.trim_stop he]
    exact hfits

end Call

namespace Call.Follows

variable (hf : c.Follows e c') (h0 : Zeroed L m₀)
include hf h0

lemma start : Shadow L c' (c.phys.toNat % 4096) e (c.start m₀) (c'.start m₀) where
  echo := .of_zeroed h0 _ _
  phys := rfl
  virt := hf.virt
  level := rfl
  size := hf.size

variable (hc : c'.Paged)
include hc

/-- What `c'` does, `c` does too. -/
theorem forward (hs' : c'.Visits L m₀ s') :
    ∃ s, c.Visits L m₀ s ∧ Shadow L c' (c.phys.toNat % 4096) e s s' := by
  have hroom := h0.hasRoom hc
  refine hs'.invariant
    (P := fun s' => ∃ s, c.Visits L m₀ s ∧ Shadow L c' (c.phys.toNat % 4096) e s s')
    ⟨_, .refl _, hf.start h0⟩ ?_
  rintro a' b' hv' ⟨a, hv, hshadow⟩ hgo hb'
  have hsim := h0.sim hc hv'
  obtain ⟨b, hb, hshadow'⟩ := hshadow.step hf hc hsim hgo h0.view_ne_leaf hb'
    (hroom _ (hv'.tail hgo hb'))
  have hgo' : a.Goes := by
    rw [Loop.goes_iff] at hgo ⊢
    have := hshadow.size
    omega
  exact ⟨b, hv.tail hgo' (hf.attrs ▸ hb), hshadow'⟩

/-- `c` comes to the end of the region of `c'`, with `e` bytes left. -/
theorem reaches_stop : ∃ s m', c.Visits L m₀ s ∧ AddMap L m₀ c' m' ∧
    Echo L (c'.LeafAt (c.phys.toNat % 4096)) c'.attrs s.m m' ∧ s.virt.toNat = c'.stop ∧
    s.size.toNat = e ∧ s.level = xlatTableBaseLevel := by
  have hroom := h0.hasRoom hc
  have hwf := Wf.of_zeroed h0 anyLeaf
  obtain ⟨m', hm', -, -⟩ := Call.returns hc c'.writes_any hwf hroom
  obtain ⟨s', ⟨hs', hgo⟩, rfl⟩ := id hm'
  obtain ⟨s, hs, hshadow⟩ := hf.forward h0 hc hs'
  have hsim := h0.sim hc hs'
  have hzero : s'.size.toNat = 0 := by simpa [Loop.goes_iff] using hgo
  refine ⟨s, s'.m, hs, hm', hshadow.echo, ?_, ?_, ?_⟩
  · rw [hshadow.virt]
    exact hsim.pos_eq hgo
  · rw [hshadow.size, hzero]
    exact Nat.zero_add e
  · rw [hshadow.level]
    exact Call.level_of_exits hs' hgo

end Call.Follows

/-- What a call does whose region is the same, the other one does too. -/
theorem Call.Follows.backward (hf : c.Follows 0 c') (h0 : Zeroed L m₀) (hc : c'.Paged)
    (hs : c.Visits L m₀ s) :
    ∃ s', c'.Visits L m₀ s' ∧ Shadow L c' (c.phys.toNat % 4096) 0 s s' := by
  have hroom := h0.hasRoom hc
  refine hs.invariant
    (P := fun s => ∃ s', c'.Visits L m₀ s' ∧ Shadow L c' (c.phys.toNat % 4096) 0 s s')
    ⟨_, .refl _, hf.start h0⟩ ?_
  rintro a b hv ⟨a', hv', hshadow⟩ hgo hb
  have hgo' : a'.Goes := by
    rw [Loop.goes_iff] at hgo ⊢
    have := hshadow.size
    omega
  have hsim := h0.sim hc hv'
  obtain ⟨b', hb', -⟩ := hsim.turn hc c'.writes_any hgo'
  have hv'' := hv'.tail hgo' hb'
  obtain ⟨t, ht, hshadow'⟩ := hshadow.step hf hc hsim hgo' h0.view_ne_leaf hb' (hroom _ hv'')
  obtain rfl : t = b := Option.some.inj (ht.symm.trans (hf.attrs ▸ hb))
  exact ⟨b', hv'', hshadow'⟩

end Arm64Mmu
