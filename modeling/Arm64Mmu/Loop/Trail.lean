import Arm64Mmu.Lib.Tiling
import Arm64Mmu.Loop.Leaves

/-!
# The leaves that a call writes, in their order

The calls of `set_pte_block_desc` that a call of `add_map` makes are read off the trace.  In the
loop they are a run of pieces from the start of the region to the current address: each piece
starts where the one before it ends, and is the span of the entry that was written.
-/

namespace Arm64Mmu

open Lib Lib.Radix Lib.Greedy

/-- The arguments of a call of `set_pte_block_desc`. -/
structure LeafWrite where
  pte : ℕ
  addrPa : U64
  attrs : U32
  level : U32

/-- The call of `set_pte_block_desc` that an event records. -/
def Event.leafWrite : Event → Option LeafWrite
  | .setPteBlockDesc pte addrPa attrs level => some ⟨pte, addrPa, attrs, level⟩
  | _ => none

/-- The calls of `set_pte_block_desc` in a trace. -/
def leafWrites (trace : List Event) : List LeafWrite := trace.filterMap Event.leafWrite

/-- The leaf that `w` writes for the call `c` is the one of the addresses from `x` to `y`: a span
of its level that is mapped at its offset in the region, and whose entry in the tables is the one
that is written. -/
structure Piece (L : Layout) (mem : Mem) (c : Call) (x : ℕ) (w : LeafWrite) (y : ℕ) : Prop where
  level : 1 ≤ w.level.toNat ∧ w.level.toNat ≤ 3
  aligned : x % gran w.level.toNat = 0
  stop : y = x + gran w.level.toNat
  addrPa : w.addrPa.toNat = c.phys.toNat + (x - c.virt.toNat)
  attrs : w.attrs = c.attrs
  entry : ∀ va, x ≤ va → va < y →
    calculatePteIndex L mem (BitVec.ofNat 64 va) w.level = some w.pte

/-- The leaves that a call has written when its loop is in the state `s`. -/
structure Trail (L : Layout) (c : Call) (m : Machine) (s : Loop) (ws : List LeafWrite) :
    Prop where
  trace : leafWrites s.m.trace = leafWrites m.trace ++ ws
  run : Run (fun x w y => Piece L s.m.mem c x w y ∧
    Coarsest gran c.virt.toNat c.stop w.level.toNat x) c.virt.toNat ws s.virt.toNat

variable {L : Layout} {Q : LeafInv} {c : Call} {m m' m₀ : Machine} {s s' : Loop}
  {w : LeafWrite} {ws : List LeafWrite} {ℓ x y pte : ℕ} {va : Va} {T : Table}

/-! ### The trace -/

lemma leafWrites_append (evs evs' : List Event) :
    leafWrites (evs ++ evs') = leafWrites evs ++ leafWrites evs' := List.filterMap_append

lemma leafWrites_newTableDesc (L : Layout) (m : Machine) (pte : ℕ) (level : U32) :
    leafWrites (newTableDesc L m pte level).trace = leafWrites m.trace := by
  rw [newTableDesc, setPteTableDesc_trace, leafWrites_append]
  exact List.append_nil _

lemma leafWrites_split {level : U32} (h1 : 1 ≤ ℓ) (h2 : ℓ ≤ 2)
    (hlevel : level = BitVec.ofNat 32 ℓ) :
    leafWrites (splitPteBlockDesc L m pte level).trace = leafWrites m.trace := by
  obtain ⟨m₁, hfill, heq⟩ := splitPteBlockDesc_spec L m pte h1 h2 hlevel
  obtain ⟨evs, hevs, -, hall⟩ := hfill.trace
  have hnil : leafWrites evs = [] := by
    refine List.filterMap_eq_nil_iff.2 fun e he => ?_
    obtain ⟨j, -, v, rfl⟩ := hall e he
    rfl
  rw [heq, setPteTableDesc_trace, leafWrites_append, hevs, leafWrites_append, hnil,
    List.append_nil]
  exact List.append_nil _

/-! ### One iteration -/

/-- While the pool lasts, an iteration keeps the tables on the way to an address of a span that
is not inside the region. -/
lemma Sim.path_kept (h : Sim L Q c m s) (hturn : Turn L Q c m s s') {j p : ℕ}
    (hout : 1 ≤ j → ¬ Inside gran c.virt.toNat c.stop j va)
    (hp : view L s.m.mem j va = .table p) : view L s'.m.mem j va = .table p :=
  h.swept.step_kept (graded L) hturn.step hout hp

/-- A piece of a coarsest span stays one in an iteration. -/
lemma Piece.step (hp : Piece L s.m.mem c x w y)
    (hco : Coarsest gran c.virt.toNat c.stop w.level.toNat x) (hc : c.Paged)
    (h : Sim L Q c m s) (hturn : Turn L Q c m s s') : Piece L s'.m.mem c x w y := by
  refine { hp with entry := fun a hx hy => ?_ }
  obtain ⟨h1, h3⟩ := hp.level
  have hmod := hp.aligned
  have hlt : y ≤ c.stop := by
    have hin := hco.2.1.2
    rw [floor_eq_self hmod] at hin
    rw [hp.stop]
    exact hin
  obtain ⟨va, rfl⟩ : ∃ va : Va, (va : ℕ) = a := ⟨⟨a, (hy.trans_le hlt).trans_le hc.stop_le⟩, rfl⟩
  have hentry := hp.entry va hx hy
  rw [level_eq w.level, calculatePteIndex_eq_some (va_toNat va) h1 h3] at hentry ⊢
  -- the spans above the piece are not inside the region
  have hout : 1 ≤ w.level.toNat - 1 →
      ¬ Inside gran c.virt.toNat c.stop (w.level.toNat - 1) va := by
    intro hj
    have hdiv : (va : ℕ) / gran w.level.toNat = x / gran w.level.toNat :=
      (gran_nested.div_eq_iff hmod).2 ⟨hx, hp.stop ▸ hy⟩
    rw [inside_congr (gran_nested.div_eq_of_le (by omega) hdiv)]
    exact hco.2.2 _ hj (by omega)
  obtain ⟨p, hv, hpte⟩ := hentry
  exact ⟨p, h.path_kept hturn hout hv, hpte⟩

/-- An iteration in which the span fits writes one piece. -/
lemma Sim.piece (h : Sim L Q c m s) (hc : c.Paged)
    (hphys : c.phys.toNat + c.size.toNat ≤ 2 ^ 48) (ha : AtSlot L s ℓ va T)
    (hf : Fits gran c.stop ⟨s.virt.toNat, ℓ + 1⟩) :
    Piece L s.m.mem c s.virt.toNat
      ⟨T.slot L (vaIdx (ℓ + 1) va), s.phys, c.attrs, s.level⟩ (s.virt.toNat + gran (ℓ + 1)) where
  level := by
    have := ha.le
    rw [ha.level_toNat]
    omega
  aligned := by
    rw [ha.level_toNat]
    exact hf.1
  stop := by rw [ha.level_toNat]
  addrPa := by
    have hle : s.virt.toNat + gran (ℓ + 1) ≤ c.stop := hf.2
    have hlow : c.virt.toNat ≤ s.virt.toNat := h.swept.cur.low
    rw [Call.stop] at hle
    rw [h.phys, BitVec.toNat_add, BitVec.toNat_ofNat]
    omega
  attrs := rfl
  entry := by
    intro a hx hy
    have hle : s.virt.toNat + gran (ℓ + 1) ≤ c.stop := hf.2
    have hℓ := ha.le
    obtain ⟨va', rfl⟩ : ∃ va' : Va, (va' : ℕ) = a :=
      ⟨⟨a, (hy.trans_le hle).trans_le hc.stop_le⟩, rfl⟩
    have hsame : (scheme L).Same (ℓ + 1) va va' := by
      rw [same_iff (by omega), ha.pos, eq_comm]
      exact (gran_nested.div_eq_iff hf.1).2 ⟨hx, hy⟩
    have hidx : vaIdx (ℓ + 1) va = vaIdx (ℓ + 1) va' := hsame _ (Nat.succ_pos ℓ) le_rfl
    have hpath := ha.path
    rw [view_congr (hsame.mono (Nat.le_succ ℓ))] at hpath
    rw [ha.level, calculatePteIndex_eq_some (va_toNat va') (by omega) (by omega), hidx]
    exact ⟨_, hpath, rfl⟩

/-- The step lemma of the trail. -/
lemma Trail.step (ht : Trail L c m s ws) (h : Sim L Q c m s) (hc : c.Paged) (hQ : c.Writes Q)
    (hphys : c.phys.toNat + c.size.toNat ≤ 2 ^ 48) (hgo : s.Goes)
    (hs' : addMapBody L c.attrs s = some s') (hle : s'.m.tableIdx ≤ 32) :
    ∃ ws', Trail L c m s' ws' := by
  obtain ⟨ℓ, va, T, ha, hiter⟩ := h.iter_of_body hc hgo hs'
  have hturn := h.turn_of_body hc hQ hgo hs' hle
  -- the pieces that are written stay pieces
  have hrun := ht.run.imp fun x w y hp => And.intro (hp.1.step hp.2 hc h hturn) hp.2
  cases hiter with
  | fits hf =>
      refine ⟨ws ++ [⟨T.slot L (vaIdx (ℓ + 1) va), s.phys, c.attrs, s.level⟩], ?_, ?_⟩
      · rw [← List.append_assoc, ← ht.trace]
        show leafWrites ((s.m.trace ++ [_]) ++ [_]) = _
        rw [List.append_assoc, leafWrites_append]
        rfl
      · rw [Sim.taken_virt hc ha hf]
        refine hrun.snoc ⟨(h.piece hc hphys ha hf).step ?_ hc h hturn, ?_⟩
        all_goals
          rw [ha.level_toNat]
          exact h.coarsest ha hf
  | invalid hf hℓ hv => exact ⟨ws, (leafWrites_newTableDesc ..).trans ht.trace, hrun⟩
  | block hf hℓ hv hd =>
      exact ⟨ws, (leafWrites_split (Nat.succ_pos ℓ) hℓ ha.level).trans ht.trace, hrun⟩
  | table hf hℓ hv => exact ⟨ws, ht.trace, hrun⟩

/-! ### A whole call -/

/-- The leaves that a call writes are a run of pieces over its region, by coarsest spans. -/
theorem Call.trail (hc : c.Paged) (hQ : c.Writes Q) (hwf : Wf L Q m) (hroom : c.HasRoom L m)
    (hphys : c.phys.toNat + c.size.toNat ≤ 2 ^ 48) (h : AddMap L m c m') :
    ∃ ws, leafWrites m'.trace = leafWrites m.trace ++ ws ∧
      Run (fun x w y => Piece L m'.mem c x w y ∧
        Coarsest gran c.virt.toNat c.stop w.level.toNat x) c.virt.toNat ws c.stop := by
  obtain ⟨t, ⟨ht, hgo⟩, rfl⟩ := h
  obtain ⟨ws, hws⟩ : ∃ ws, Trail L c m t ws := by
    refine ht.invariant (P := fun s => ∃ ws, Trail L c m s ws)
      ⟨[], (List.append_nil _).symm, .nil _⟩ fun a b hv ha hga hb => ?_
    obtain ⟨ws, ha⟩ := ha
    exact ha.step (.of_visits hc hQ hwf hroom hv) hc hQ hphys hga hb (hroom _ (hv.tail hga hb))
  have hsim : Sim L Q c m t := .of_visits hc hQ hwf hroom ht
  have hrun := hws.run
  rw [hsim.pos_eq hgo] at hrun
  exact ⟨ws, hws.trace, hrun⟩

end Arm64Mmu
