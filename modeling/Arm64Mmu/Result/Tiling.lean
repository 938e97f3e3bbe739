import Mathlib.Order.Bounds.Defs
import Arm64Mmu.Loop.Count
import Arm64Mmu.Loop.Trail

/-!
# The tiling of a region

* `call_tiles`: for every page-aligned size, read as 32 bits, the loop of `add_map` terminates and
  the leaves that it writes tile the region in ascending order;
* `leaves_minimal`: no partition of the region into aligned pages and blocks has fewer pieces.
-/

namespace Arm64Mmu

open Lib Lib.Radix Lib.Greedy

variable {L : Layout} {Q : LeafInv} {c : Call} {m m' : Machine} {mem : Mem} {s : Loop}
  {ws : List LeafWrite} {a b y : ℕ}

/-! ### Termination and exact tiling -/

/-- A level size that passes the comparison of `add_map` is not larger than what remains. -/
lemma Sim.levelSize_le (h : Sim L Q c m s) (hle : levelSize s.level ≤ s.size.signExtend 64) :
    s.virt.toNat + (levelSize s.level).toNat ≤ c.stop := by
  obtain ⟨h1, h3⟩ := h.level_bounds
  have hstop := h.stop
  rw [level_eq s.level, levelSize_le_iff h1 h3] at hle
  rw [level_eq s.level, levelSize_toNat h1 h3]
  omega

/-- For page-aligned arguments, with the 32 bits of the size read as a number, the loop of
`add_map` terminates after any run.  The leaves that it writes are consecutive spans from the
start of the region to its end, each mapped at its offset, and the comparison of the loop admits
no span that is longer than what remains. -/
theorem call_tiles (L : Layout) (m₀ : Machine) (cs : List Call) (c : Call) (h0 : Zeroed L m₀)
    (hcs : ∀ c ∈ cs, c.Paged) (hc : c.Paged) (hphys : c.phys.toNat + c.size.toNat ≤ 2 ^ 48)
    (hpool : PoolLasts L m₀ (cs ++ [c])) :
    ∃ m m' ws, AddMaps L m₀ cs m ∧ AddMap L m c m' ∧
      leafWrites m'.trace = leafWrites m.trace ++ ws ∧
      Run (Piece L m'.mem c) c.virt.toNat ws (c.virt.toNat + c.size.toNat) ∧
      ∀ s, c.Visits L m s → s.Goes → levelSize s.level ≤ s.size.signExtend 64 →
        s.virt.toNat + (levelSize s.level).toNat ≤ c.virt.toNat + c.size.toNat := by
  obtain ⟨m, hm, hwf, hroom⟩ := exists_reached h0 hcs hpool
  obtain ⟨m', hm', -, -⟩ := Call.returns hc c.writes_any hwf hroom
  obtain ⟨ws, htrace, hrun⟩ := Call.trail hc c.writes_any hwf hroom hphys hm'
  refine ⟨m, m', ws, hm, hm', htrace, hrun.imp fun x w y hp => hp.1, fun s hs _ hle => ?_⟩
  exact (Sim.of_visits hc c.writes_any hwf hroom hs).levelSize_le hle

/-- A region of 2 GiB, whose size is negative as an `int`. -/
theorem call_tiles_sample : ∃ m m' ws, AddMaps sampleLayout bootMachine [] m ∧
    AddMap sampleLayout m ⟨0x1000, 0x1000, 0x80000000, 12⟩ m' ∧
    leafWrites m'.trace = leafWrites m.trace ++ ws ∧
    Run (Piece sampleLayout m'.mem ⟨0x1000, 0x1000, 0x80000000, 12⟩) 0x1000 ws 0x80001000 := by
  have hfine : Fine anyLeaf ([] ++ [⟨0x1000, 0x1000, 0x80000000, 12⟩]) := by
    intro c hc
    obtain rfl := List.mem_singleton.1 hc
    exact ⟨by decide, Call.writes_any _⟩
  obtain ⟨m, m', ws, hm, hm', htrace, hrun, -⟩ := call_tiles sampleLayout bootMachine []
    ⟨0x1000, 0x1000, 0x80000000, 12⟩ (zeroed_bootMachine _) (by simp) (by decide) (by decide)
    (poolLasts_of_length rfl (Wf.of_zeroed (zeroed_bootMachine _) anyLeaf) hfine (by simp))
  exact ⟨m, m', ws, hm, hm', htrace, hrun⟩

/-! ### The fewest leaves -/

/-- A run of pieces by coarsest spans is a tiling by coarsest spans with as many pieces. -/
lemma exists_tiling (h : Run (fun x w y => Piece L mem c x w y ∧
      Coarsest gran a b w.level.toNat x) a ws y) :
    a ≤ y ∧ ∃ P, Tiling gran 3 a y P ∧ P.card = ws.length ∧
      ∀ p ∈ P, Coarsest gran a b p.1 p.2 := by
  induction h with
  | nil => exact ⟨le_rfl, ∅, Tiling.empty _ _ _, rfl, by simp⟩
  | @snoc x y ws w _ hp ih =>
      obtain ⟨hpiece, hco⟩ := hp
      obtain ⟨hle, P, hP, hcard, hall⟩ := ih
      obtain ⟨h1, h3⟩ := hpiece.level
      obtain ⟨hnew, hP'⟩ := hP.insert gran_nested hle h1 h3 hpiece.aligned
      rw [← hpiece.stop] at hP'
      refine ⟨hle.trans (hpiece.stop ▸ Nat.le_add_right _ _), _, hP', ?_, ?_⟩
      · rw [Finset.card_insert_of_notMem hnew, hcard, List.length_append, List.length_singleton]
      · intro p hp
        rcases Finset.mem_insert.1 hp with rfl | hp
        · exact hco
        · exact hall p hp

/-- The number of leaves that a call writes after any run is the smallest number of pieces of a
partition of its region into aligned pages, blocks of 2 MiB and blocks of 1 GiB. -/
theorem leaves_minimal (L : Layout) (m₀ : Machine) (cs : List Call) (c : Call)
    (h0 : Zeroed L m₀) (hcs : ∀ c ∈ cs, c.Paged) (hc : c.Dom (2 ^ 32) (2 ^ 48))
    (hpool : PoolLasts L m₀ (cs ++ [c])) :
    ∃ m m' ws, AddMaps L m₀ cs m ∧ AddMap L m c m' ∧
      leafWrites m'.trace = leafWrites m.trace ++ ws ∧
      IsLeast {n | ∃ P, Tiling gran 3 c.virt.toNat (c.virt.toNat + c.size.toNat) P ∧ P.card = n}
        ws.length := by
  obtain ⟨m, hm, hwf, hroom⟩ := exists_reached h0 hcs hpool
  have hp : c.Paged := hc.paged (by omega)
  obtain ⟨m', hm', -, -⟩ := Call.returns hp c.writes_any hwf hroom
  obtain ⟨ws, htrace, hrun⟩ := Call.trail hp c.writes_any hwf hroom hc.phys_le hm'
  obtain ⟨-, P, hP, hcard, hco⟩ := exists_tiling hrun
  refine ⟨m, m', ws, hm, hm', htrace, ⟨P, hP, hcard⟩, ?_⟩
  rintro n ⟨P', hP', rfl⟩
  rw [← hcard]
  exact hP.card_le gran_nested hco hP'

/-- A page that is cut out of a block is written as one leaf. -/
theorem leaves_minimal_sample : ∃ m m' ws,
    AddMaps sampleLayout bootMachine [⟨0, 0, 0x40000000, 12⟩] m ∧
      AddMap sampleLayout m ⟨0x200000, 0x200000, 0x1000, 0⟩ m' ∧
      leafWrites m'.trace = leafWrites m.trace ++ ws ∧
      IsLeast {n | ∃ P, Tiling gran 3 0x200000 0x201000 P ∧ P.card = n} ws.length :=
  leaves_minimal sampleLayout bootMachine [⟨0, 0, 0x40000000, 12⟩]
    ⟨0x200000, 0x200000, 0x1000, 0⟩ (zeroed_bootMachine _) (by decide) (by decide)
    (poolLasts_sampleCalls _)

end Arm64Mmu
