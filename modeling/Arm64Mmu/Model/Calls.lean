import Arm64Mmu.Lib.Runs
import Arm64Mmu.Model.AddMap

/-!
# Runs of calls

The program calls `add_map` one time after the other, starting with zeroed tables.  A result
about runs says from which calls it starts: `Call.Paged` is what the tables need to stay
well-formed, `Call.Dom` is the common domain of the results, with bounds on the two ranges.
-/

namespace Arm64Mmu

open Lib

/-- The call `c` of `add_map` on the machine `m` returns with the machine `m'`. -/
def AddMap (L : Layout) (m : Machine) (c : Call) (m' : Machine) : Prop :=
  ∃ s, While.Exits Loop.Goes (addMapBody L c.attrs) (c.start m) s ∧ s.m = m'

/-- The calls `cs`, made one after the other, lead from `m` to `m'`. -/
abbrev AddMaps (L : Layout) (m : Machine) (cs : List Call) (m' : Machine) : Prop :=
  Run (AddMap L) m cs m'

/-- The end of the region of a call. -/
def Call.stop (c : Call) : ℕ := c.virt.toNat + c.size.toNat

/-- The address is in the region of the call. -/
def Call.Covers (c : Call) (va : ℕ) : Prop := c.virt.toNat ≤ va ∧ va < c.stop

instance (c : Call) (va : ℕ) : Decidable (c.Covers va) := inferInstanceAs (Decidable (_ ∧ _))

/-- The arguments are page-aligned and the region lies in the addresses of the base table.
The size counts with its 32 bits as a number, so a negative one is allowed. -/
structure Call.Paged (c : Call) : Prop where
  phys : c.phys.toNat % 4096 = 0
  virt : c.virt.toNat % 4096 = 0
  size : c.size.toNat % 4096 = 0
  stop_le : c.stop ≤ 2 ^ 36

instance : DecidablePred Call.Paged := fun c =>
  decidable_of_iff (c.phys.toNat % 4096 = 0 ∧ c.virt.toNat % 4096 = 0 ∧ c.size.toNat % 4096 = 0 ∧
      c.stop ≤ 2 ^ 36)
    ⟨fun ⟨h1, h2, h3, h4⟩ => ⟨h1, h2, h3, h4⟩, fun ⟨h1, h2, h3, h4⟩ => ⟨h1, h2, h3, h4⟩⟩

/-- The arguments are page-aligned, the size is a positive `int`, and the virtual and physical
ranges end at `vmax` and `pmax` at the latest. -/
structure Call.Dom (vmax pmax : ℕ) (c : Call) : Prop where
  phys : c.phys.toNat % 4096 = 0
  virt : c.virt.toNat % 4096 = 0
  size_pos : 0 < c.size.toInt
  size : c.size.toNat % 4096 = 0
  virt_le : c.virt.toNat + c.size.toNat ≤ vmax
  phys_le : c.phys.toNat + c.size.toNat ≤ pmax

instance (vmax pmax : ℕ) : DecidablePred (Call.Dom vmax pmax) := fun c =>
  decidable_of_iff (c.phys.toNat % 4096 = 0 ∧ c.virt.toNat % 4096 = 0 ∧ 0 < c.size.toInt ∧
      c.size.toNat % 4096 = 0 ∧ c.virt.toNat + c.size.toNat ≤ vmax ∧
      c.phys.toNat + c.size.toNat ≤ pmax)
    ⟨fun ⟨h1, h2, h3, h4, h5, h6⟩ => ⟨h1, h2, h3, h4, h5, h6⟩,
      fun ⟨h1, h2, h3, h4, h5, h6⟩ => ⟨h1, h2, h3, h4, h5, h6⟩⟩

/-- The call is in the domain for 32-bit addresses and maps to addresses that are congruent to
the virtual ones modulo the size of the largest block. -/
def Call.Congruent (c : Call) : Prop :=
  c.Dom (2 ^ 32) (2 ^ 32) ∧ c.phys.toNat % 2 ^ 30 = c.virt.toNat % 2 ^ 30

instance : DecidablePred Call.Congruent := fun _ => inferInstanceAs (Decidable (_ ∧ _))

/-- `s` is met at the head of the loop of one of the calls `cs`. -/
def VisitsDuring (L : Layout) (m : Machine) (cs : List Call) (s : Loop) : Prop :=
  ∃ cs₁ c cs₂ m₁, cs = cs₁ ++ c :: cs₂ ∧ AddMaps L m cs₁ m₁ ∧ c.Visits L m₁ s

/-- The pool lasts during the call `c` on `m`. -/
def Call.HasRoom (L : Layout) (m : Machine) (c : Call) : Prop :=
  ∀ s, c.Visits L m s → s.m.tableIdx ≤ configMaxXlatTables

/-- The pool lasts during the calls `cs`: at most `CONFIG_MAX_XLAT_TABLES` are handed out. -/
def PoolLasts (L : Layout) (m : Machine) (cs : List Call) : Prop :=
  ∀ s, VisitsDuring L m cs s → s.m.tableIdx ≤ configMaxXlatTables

/-- The calls `cs` return, and `P` holds of the machine after them and at every head of a loop
during them. -/
def Throughout (L : Layout) (m : Machine) (cs : List Call) (P : Machine → Prop) : Prop :=
  ∃ m', AddMaps L m cs m' ∧ P m' ∧ ∀ s, VisitsDuring L m cs s → P s.m

/-- The state before the first call: both arrays are zero and no table is handed out. -/
structure Zeroed (L : Layout) (m : Machine) : Prop where
  base : ∀ i < numBaseLevelEntries, m.mem (L.baseXlatTable + 8 * i) = 0
  tables : ∀ t < configMaxXlatTables, ∀ i < xlatTableEntries, m.mem (L.xlatTable t + 8 * i) = 0
  tableIdx : m.tableIdx = 0
  trace : m.trace = []

/-- The machine before the first call, with all of its memory zero. -/
def bootMachine : Machine := ⟨fun _ => 0, 0, []⟩

lemma zeroed_bootMachine (L : Layout) : Zeroed L bootMachine :=
  ⟨fun _ _ => rfl, fun _ _ _ _ => rfl, rfl, rfl⟩

/-- A block of 1 GiB of Normal memory, and a page of Device memory that is cut out of it. -/
def sampleCalls : List Call := [⟨0, 0, 0x40000000, 12⟩, ⟨0x200000, 0x200000, 0x1000, 0⟩]

example : ∀ c ∈ sampleCalls, c.Congruent := by decide

variable {L : Layout} {m m₁ m₂ : Machine} {c : Call} {cs : List Call} {vmax pmax va : ℕ}

namespace Call.Dom

variable (h : c.Dom vmax pmax)
include h

lemma size_ne_zero : 0 < c.size.toNat := by
  rcases Nat.eq_zero_or_pos c.size.toNat with h0 | h0
  · have h1 := h.size_pos
    rw [BitVec.toInt_eq_toNat_cond, h0] at h1
    exact absurd h1 (by decide)
  · exact h0

lemma paged (hv : vmax ≤ 2 ^ 36) : c.Paged :=
  ⟨h.phys, h.virt, h.size, Nat.le_trans h.virt_le hv⟩

end Call.Dom

/-! ### Calls are deterministic -/

lemma AddMap.unique (h1 : AddMap L m c m₁) (h2 : AddMap L m c m₂) : m₁ = m₂ := by
  obtain ⟨s₁, hs₁, rfl⟩ := h1
  obtain ⟨s₂, hs₂, rfl⟩ := h2
  rw [hs₁.unique hs₂]

lemma AddMaps.unique (h1 : AddMaps L m cs m₁) (h2 : AddMaps L m cs m₂) : m₁ = m₂ := by
  induction cs using List.reverseRecOn generalizing m₁ m₂ with
  | nil => exact (Run.nil_iff.1 h1).symm.trans (Run.nil_iff.1 h2)
  | append_singleton cs c ih =>
      obtain ⟨m₃, h3, h1⟩ := Run.snoc_iff.1 h1
      obtain ⟨m₄, h4, h2⟩ := Run.snoc_iff.1 h2
      obtain rfl := ih h3 h4
      exact h1.unique h2

/-! ### The pool during a run -/

/-- The pool lasts during one more call if it has room for it. -/
lemma poolLasts_snoc : PoolLasts L m (cs ++ [c]) ↔
    PoolLasts L m cs ∧ ∀ m₁, AddMaps L m cs m₁ → c.HasRoom L m₁ := by
  constructor
  · intro h
    refine ⟨?_, fun m₁ hm₁ s hs => h s ⟨cs, c, [], m₁, rfl, hm₁, hs⟩⟩
    rintro s ⟨cs₁, c', cs₂, m₁, rfl, hm₁, hs⟩
    exact h s ⟨cs₁, c', cs₂ ++ [c], m₁, by simp, hm₁, hs⟩
  · rintro ⟨h, hc⟩ s ⟨cs₁, c', cs₂, m₁, he, hm₁, hs⟩
    rcases List.eq_nil_or_concat cs₂ with rfl | ⟨cs₂, c'', rfl⟩
    · obtain ⟨rfl, hcc⟩ := List.append_inj' he rfl
      obtain rfl : c = c' := by simpa using hcc
      exact hc m₁ hm₁ s hs
    · rw [List.concat_eq_append, ← List.cons_append, ← List.append_assoc] at he
      obtain ⟨rfl, -⟩ := List.append_inj' he rfl
      exact h s ⟨cs₁, c', cs₂, m₁, rfl, hm₁, hs⟩

/-- The pool lasts during the rest of a run. -/
lemma PoolLasts.rest {cs' : List Call} (h : PoolLasts L m (cs ++ cs')) (h₁ : AddMaps L m cs m₁) :
    PoolLasts L m₁ cs' := by
  rintro s ⟨cs₁, c, cs₂, m₂, rfl, hm₂, hs⟩
  exact h s ⟨cs ++ cs₁, c, cs₂, m₂, by simp, Run.append_iff.2 ⟨m₁, h₁, hm₂⟩, hs⟩

/-- The pool lasts during the first part of a run. -/
lemma PoolLasts.of_append {cs' : List Call} (h : PoolLasts L m (cs ++ cs')) : PoolLasts L m cs := by
  rintro s ⟨cs₁, c, cs₂, m₁, rfl, hm₁, hs⟩
  exact h s ⟨cs₁, c, cs₂ ++ cs', m₁, by simp, hm₁, hs⟩

end Arm64Mmu
