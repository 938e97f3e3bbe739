import Arm64Mmu.Lib.Bytes
import Arm64Mmu.Model.Boot
import Arm64Mmu.Result.Attributes
import Arm64Mmu.Result.Order
import Arm64Mmu.Result.Pool
import Arm64Mmu.Result.Stores

/-!
# The program after `early_init`

`zero_bss` clears the section between its two symbols, and nothing else, if both are multiples of
16; otherwise it never ends (`zero16_returns_iff`).  So whatever the memory holds at `entry`, the
tables are zeroed when `main` is called, and `early_init` returns with the MMU on and with the image
and the UART mapped to themselves, and nothing else mapped (`boots`).  As long as later regions are
disjoint from the image and the C frames off the tables, `add_map` goes on to run on the mapping
that it edits (`image_stays_mapped`).
-/

namespace Arm64Mmu

open Lib Lib.Radix Lib.Greedy Lib.Return Lib.Bytes

variable {I : Image} {mem mem' : Mem} {m m' : Machine} {r r' : SysRegs} {c : Call}
  {cs : List Call} {x0 x1 : U64} {n : ℕ}

/-! ### `zero_bss` -/

/-- The memory with the words of the `n` bytes from `x0` on cleared. -/
def cleared (mem : Mem) (x0 : U64) (n : ℕ) : Mem := fun a =>
  if a < 2 ^ 64 ∧ a % 8 = 0 ∧ (BitVec.ofNat 64 a - x0).toNat < n then 0 else mem a

/-- The two stores of a turn. -/
lemma cleared_add (mem : Mem) (hx : x0.toNat % 16 = 0) (hn : 16 * n < 2 ^ 64) :
    Function.update (Function.update (cleared mem x0 (16 * n)) (off x0 (16 * n)).toNat 0)
      (off x0 (16 * n) + 8).toNat 0 = cleared mem x0 (16 * (n + 1)) := by
  have hlt := x0.isLt
  have h0 : (off x0 (16 * n)).toNat = (x0.toNat + 16 * n) % 2 ^ 64 := by
    rw [off, BitVec.toNat_add, BitVec.toNat_ofNat, Nat.add_mod_mod]
  have h8 : (off x0 (16 * n) + 8).toNat = (x0.toNat + 16 * n) % 2 ^ 64 + 8 := by
    rw [BitVec.toNat_add, h0, show (8 : U64).toNat = 8 from rfl]
    omega
  funext a
  have hdist : a < 2 ^ 64 → (BitVec.ofNat 64 a - x0).toNat = (2 ^ 64 - x0.toNat + a) % 2 ^ 64 := by
    intro ha
    rw [BitVec.toNat_sub, BitVec.toNat_ofNat, Nat.mod_eq_of_lt ha]
  by_cases ha8 : a = (off x0 (16 * n) + 8).toNat
  · have ha : a < 2 ^ 64 := ha8 ▸ BitVec.isLt _
    rw [h8] at ha8
    rw [h8, ← ha8, Function.update_self, cleared, if_pos]
    exact ⟨ha, by omega, by rw [hdist ha]; omega⟩
  rw [Function.update_of_ne ha8]
  by_cases ha0 : a = (off x0 (16 * n)).toNat
  · have ha : a < 2 ^ 64 := ha0 ▸ BitVec.isLt _
    rw [h0] at ha0
    rw [h0, ← ha0, Function.update_self, cleared, if_pos]
    exact ⟨ha, by omega, by rw [hdist ha]; omega⟩
  rw [Function.update_of_ne ha0, cleared, cleared]
  refine if_congr (and_congr_right fun ha => and_congr_right fun h => ?_) rfl rfl
  rw [hdist ha]
  rw [h8] at ha8
  rw [h0] at ha0
  omega

/-- What a turn makes of the memory and `x0`. -/
def zero16Next (s : Mem × U64) : Mem × U64 :=
  (Function.update (Function.update s.1 s.2.toNat 0) (s.2 + 8).toNat 0, s.2 + 16)

lemma zero16_iterate (mem : Mem) (hx : x0.toNat % 16 = 0) (hn : 16 * n ≤ 2 ^ 64) :
    zero16Next^[n] (mem, x0) = (cleared mem x0 (16 * n), off x0 (16 * n)) := by
  induction n with
  | zero =>
      refine Prod.ext (funext fun a => ?_) (off_zero x0).symm
      exact (if_neg fun h => Nat.not_lt_zero _ h.2.2).symm
  | succ n ih =>
      rw [Function.iterate_succ_apply', ih (by omega), zero16Next, cleared_add mem hx (by omega),
        Nat.mul_succ, ← off_off]
      rfl

lemma zero16_iterate_snd (s : Mem × U64) (n : ℕ) : (zero16Next^[n] s).2 = off s.2 (16 * n) := by
  induction n with
  | zero => exact (off_zero s.2).symm
  | succ n ih =>
      rw [Function.iterate_succ_apply', zero16Next, ih, Nat.mul_succ, ← off_off]
      rfl

/-- The loop of `zero_bss` ends if and only if the end of the section is a multiple of 16, as the
start is, and then it has cleared the section and nothing else. -/
theorem zero16_returns_iff (x0 x1 : U64) (mem mem' : Mem) (hx : x0.toNat % 16 = 0) :
    Returns (zero16 x1) (mem, x0) mem' ↔
      x1.toNat % 16 = 0 ∧ mem' = cleared mem x0 (x1 - x0).toNat := by
  have hbody : zero16 x1 = scan (fun s => s.2 = x1) zero16Next Prod.fst := rfl
  have hx0 := x0.isLt
  have hx1 := x1.isLt
  -- `x0` runs through all multiples of 16 before it comes round again
  have hoff : ∀ n, 16 * n < 2 ^ 64 → (off x0 (16 * n) = x1 ↔ 16 * n = (x1 - x0).toNat) := by
    intro n hn
    rw [← off_inj x0 hn (x1 - x0).isLt, off_toNat]
  have hdist : (x1 - x0).toNat = (2 ^ 64 - x0.toNat + x1.toNat) % 2 ^ 64 := BitVec.toNat_sub ..
  rw [hbody, returns_scan]
  constructor
  · rintro ⟨i, hi, hlt, rfl⟩
    have hi64 : 16 * i < 2 ^ 64 := by
      by_contra hle
      refine hlt (i - 2 ^ 60) (by omega) ?_
      rw [zero16_iterate_snd] at hi ⊢
      rw [← hi, ← off_add_two_pow x0 (16 * (i - 2 ^ 60))]
      exact congrArg (off x0) (by omega)
    rw [zero16_iterate mem hx hi64.le] at hi ⊢
    have he := (hoff i hi64).1 hi
    exact ⟨by omega, by rw [he]⟩
  · rintro ⟨h1, rfl⟩
    have he : 16 * ((x1 - x0).toNat / 16) = (x1 - x0).toNat := by omega
    have hlt := (x1 - x0).isLt
    refine ⟨(x1 - x0).toNat / 16, ?_, fun j hj => ?_, ?_⟩
    · rw [zero16_iterate mem hx (by omega)]
      exact (hoff _ (by omega)).2 he
    · rw [zero16_iterate mem hx (by omega)]
      exact fun h => absurd ((hoff j (by omega)).1 h) (by omega)
    · rw [zero16_iterate mem hx (by omega), he]

/-! ### The image -/

namespace Image

lemma imageEnd_le (I : Image) : I.imageEnd ≤ 0xc0001000 := by
  have h := I.imageEnd_lt
  rw [imageStart] at h
  omega

/-- `zero_bss` returns, with the section cleared. -/
lemma zeroBss_iff (I : Image) : ZeroBss I mem mem' ↔ mem' = fun a =>
    if I.bssStart ≤ a ∧ a < I.bssEnd ∧ a % 8 = 0 then 0 else mem a := by
  have hend := I.imageEnd_le
  have hle := I.bssEnd_le
  have hbss : I.bssStart ≤ I.bssEnd := I.base_le.trans (by have := I.le_base; omega)
  have h0 : (BitVec.ofNat 64 I.bssStart).toNat = I.bssStart := by
    rw [BitVec.toNat_ofNat]
    omega
  have h1 : (BitVec.ofNat 64 I.bssEnd).toNat = I.bssEnd := by
    rw [BitVec.toNat_ofNat]
    omega
  have hsub : (BitVec.ofNat 64 I.bssEnd - BitVec.ofNat 64 I.bssStart).toNat =
      I.bssEnd - I.bssStart := by
    rw [BitVec.toNat_sub, h0, h1]
    omega
  have hclear : cleared mem (BitVec.ofNat 64 I.bssStart) (I.bssEnd - I.bssStart) = fun a =>
      if I.bssStart ≤ a ∧ a < I.bssEnd ∧ a % 8 = 0 then 0 else mem a := by
    funext a
    refine if_congr ?_ rfl rfl
    by_cases ha : a < 2 ^ 64
    · rw [BitVec.toNat_sub, h0, BitVec.toNat_ofNat, Nat.mod_eq_of_lt ha]
      omega
    · omega
  rw [ZeroBss, zero16_returns_iff _ _ _ _ (by rw [h0]; exact I.bssStart_aligned), h1, hsub, hclear]
  exact and_iff_right I.bssEnd_aligned

/-- The tables and their counter are in the section. -/
lemma zeroed_machine (h : ZeroBss I mem mem') : Zeroed I.toLayout (I.machine mem') := by
  rw [I.zeroBss_iff] at h
  subst h
  have hzero : ∀ a, I.bssStart ≤ a → a < I.bssEnd → a % 8 = 0 →
      (if I.bssStart ≤ a ∧ a < I.bssEnd ∧ a % 8 = 0 then 0 else mem a) = 0 :=
    fun a h1 h2 h3 => if_pos ⟨h1, h2, h3⟩
  have hbase := I.base_aligned
  have htables := I.tables_aligned
  have hstart := I.bssStart_aligned
  refine ⟨fun i hi => ?_, fun t ht i hi => ?_, ?_, rfl⟩
  · have h1 := I.base_le
    have h2 := I.le_base
    exact hzero _ (by omega) (by omega) (by omega)
  · have h1 := I.tables_le
    have h2 := I.le_tables
    rw [xlatTableEntries] at hi
    rw [configMaxXlatTables] at ht h2
    rw [Layout.xlatTable, xlatTableEntries]
    exact hzero _ (by omega) (by omega) (by omega)
  · have h1 := I.tableIdx_le
    have h2 := I.le_tableIdx
    have hw := hzero (I.tableIdx / 8 * 8) (by omega) (by omega) (by omega)
    simp only [machine, word32]
    rw [hw]
    simp

end Image

/-! ### The calls of `early_init` -/

/-- A region that is mapped to itself. -/
lemma Call.congruent_of_identity (h : c.phys = c.virt) (hvirt : c.virt.toNat % 4096 = 0)
    (hsize : c.size.toNat % 4096 = 0) (hpos : 0 < c.size.toNat) (hlt : c.size.toNat < 2 ^ 31)
    (hstop : c.stop ≤ 2 ^ 32) : c.Congruent := by
  refine ⟨⟨by rwa [h], hvirt, ?_, hsize, hstop, by rwa [h]⟩, by rw [h]⟩
  rw [BitVec.toInt_eq_toNat_cond, if_pos (by omega)]
  omega

namespace Image

lemma all_virt (I : Image) : I.all.virt.toNat = imageStart ∧ I.all.stop = I.imageEnd := by
  have h1 := I.imageEnd_lt
  have h2 := I.start_le
  have h3 := I.bssEnd_le
  have h4 := I.base_le
  have h5 := I.le_base
  have hsize : (BitVec.ofNat 32 (I.imageEnd - imageStart)).toNat = I.imageEnd - imageStart := by
    rw [BitVec.toNat_ofNat]
    omega
  refine ⟨rfl, ?_⟩
  show imageStart + (BitVec.ofNat 32 (I.imageEnd - imageStart)).toNat = I.imageEnd
  rw [hsize]
  omega

lemma covers_all (I : Image) {a : ℕ} : I.all.Covers a ↔ imageStart ≤ a ∧ a < I.imageEnd := by
  obtain ⟨h1, h2⟩ := I.all_virt
  rw [Call.Covers, h1, h2]

lemma all_congruent (I : Image) : I.all.Congruent := by
  obtain ⟨hvirt, hstop⟩ := I.all_virt
  have h1 := I.imageEnd_lt
  have h2 := I.imageEnd_aligned
  have h3 := I.imageEnd_le
  have h4 := I.start_le.trans I.base_le
  have h5 := I.le_base.trans I.bssEnd_le
  have hsize := hstop
  rw [Call.stop, hvirt] at hsize
  rw [imageStart] at hsize h1 h4
  rw [numBaseLevelEntries] at h5
  refine Call.congruent_of_identity rfl ?_ (by omega) (by omega) (by omega) (by omega)
  rw [hvirt]
  rfl

end Image

lemma covers_uart {a : ℕ} : uart.Covers a ↔ 0x09000000 ≤ a ∧ a < 0x09002000 := Iff.rfl

lemma uart_congruent : uart.Congruent := by decide

/-! ### The MMU is switched on -/

/-- The bits that are set in `SCTLR_EL2` when `early_init` returns. -/
def sctlrOn : U64 := sctlrM ||| sctlrC ||| sctlrI ||| sctlrA ||| sctlrSA

lemma sctlr_enableMmu (L : Layout) (r : SysRegs) :
    (enableMmu L (realEntry r)).sctlrEl2 &&& (sctlrOn ||| sctlrEE) = sctlrOn := by
  have habsorb : ∀ x k : U64, x &&& k ||| k = k := by
    intro x k
    ext i hi
    simp
  have hor : sctlrI ||| sctlrA ||| sctlrSA ||| (sctlrM ||| sctlrC) = sctlrOn := by decide
  have hon : sctlrOn &&& (sctlrOn ||| sctlrEE) = sctlrOn := by decide
  have hee : ~~~ sctlrEE &&& (sctlrOn ||| sctlrEE) = sctlrOn := by decide
  show (r.sctlrEl2 &&& ~~~ sctlrEE ||| (sctlrI ||| sctlrA ||| sctlrSA) ||| (sctlrM ||| sctlrC)) &&&
    (sctlrOn ||| sctlrEE) = sctlrOn
  rw [BitVec.or_assoc, hor, BitVec.and_or_distrib_right, hon, BitVec.and_assoc, hee, habsorb]

/-- A leaf of memory that can be read, written and executed, and is cached write-back. -/
structure Ordinary (d : U64) : Prop where
  writable : d.getLsbD 7 = false
  pxn : pxn d = false
  uxn : uxn d = false
  accessFlag : accessFlag d = true
  cacheable : mairAttr (attrIndx d) = 0xff
  shareable : sh d = 3

/-- The attributes of the two calls of `early_init`. -/
lemma ordinary_of_attrs {d : U64} (h : d &&& descAttrsMask = attrWord uart.attrs) :
    Ordinary d := by
  have he : d &&& descAttrsMask = blockDesc 0 uart.attrs 3 &&& descAttrsMask := h
  refine ⟨?_, ?_, ?_, ?_, ?_, ?_⟩
  · rw [getLsbD_congr (by decide) he]
    decide
  · rw [pxn, getLsbD_congr (by decide) he]
    decide
  · rw [uxn, getLsbD_congr (by decide) he]
    decide
  · rw [accessFlag, getLsbD_congr (by decide) he]
    decide
  · rw [attrIndx_congr he]
    decide
  · rw [sh_congr he]
    decide

/-- The image and the UART are mapped to themselves. -/
def SelfMapped (I : Image) (r : SysRegs) (mem : Mem) : Prop :=
  ∀ a, I.all.Covers a ∨ uart.Covers a → translate r mem a = some (a, attrWord uart.attrs)

namespace Image

lemma fine_calls (I : Image) : ∀ c ∈ [I.all, uart], c.Congruent := by
  intro c hc
  rcases List.mem_cons.1 hc with rfl | hc
  · exact I.all_congruent
  · obtain rfl := List.mem_singleton.1 hc
    exact uart_congruent

/-- The map that the calls of `early_init` make. -/
lemma mapping_calls (I : Image) (a : ℕ) : mapping [I.all, uart] a =
    if I.all.Covers a ∨ uart.Covers a then some (a, attrWord uart.attrs) else none := by
  have htarget : ∀ c : Call, c.phys = c.virt → c.Covers a → c.target a = (a, attrWord c.attrs) := by
    intro c h hc
    rw [Call.target, h, Nat.add_sub_cancel' hc.1]
  show (if uart.Covers a then some (uart.target a)
    else if I.all.Covers a then some (I.all.target a) else none) = _
  by_cases hu : uart.Covers a
  · rw [if_pos hu, if_pos (.inr hu), htarget uart rfl hu]
  · by_cases hi : I.all.Covers a
    · rw [if_neg hu, if_pos hi, if_pos (.inl hi), htarget I.all rfl hi]
      rfl
    · rw [if_neg hu, if_neg hi, if_neg (not_or.2 ⟨hi, hu⟩)]

/-- `early_init` returns if the tables are zeroed. -/
lemma earlyInit_returns (h0 : Zeroed I.toLayout m) :
    ∃ m', AddMaps I.toLayout m [I.all, uart] m' := by
  have hwf := Wf.of_zeroed h0 alignInv
  have hfine := fine_of_congruent I.fine_calls
  obtain ⟨m', hm', -⟩ :=
    AddMaps.returns hwf hfine (poolLasts_of_length h0.tableIdx hwf hfine (by simp))
  exact ⟨m', hm'⟩

/-- `early_init` leaves well-formed tables that stand for its two mappings. -/
lemma earlyInit_maps (h0 : Zeroed I.toLayout m) (h : AddMaps I.toLayout m [I.all, uart] m') :
    Wf I.toLayout alignInv m' ∧ ∀ r a, translate (enableMmu I.toLayout r) m'.mem a =
      if I.all.Covers a ∨ uart.Covers a then some (a, attrWord uart.attrs) else none := by
  have hwf := Wf.of_zeroed h0 alignInv
  have hfine := fine_of_congruent I.fine_calls
  have hpool := poolLasts_of_length h0.tableIdx hwf hfine (by simp)
  refine ⟨h.wf hwf hfine hpool, fun r a => ?_⟩
  by_cases ha : a < 2 ^ 32
  · rw [h.translate_eq_mapping h0 I.fine_calls hpool ha, I.mapping_calls]
  · have hend := I.imageEnd_le
    rw [translate, walk_of_le _ (Nat.le_of_not_lt ha), Option.map_none, if_neg]
    rw [I.covers_all, covers_uart]
    omega

end Image

/-- Whatever the memory and the registers are at `entry`, `early_init` returns, with the MMU and the
caches on.  Then the addresses of the image and of the UART are translated to themselves, as
cacheable memory that can be written and executed, and every other address faults. -/
theorem boots (I : Image) (mem : Mem) (r : SysRegs) :
    ∃ m r', Boots I mem r m r' ∧ r'.sctlrEl2 &&& (sctlrOn ||| sctlrEE) = sctlrOn ∧
      ∀ a, (I.all.Covers a ∨ uart.Covers a →
          ∃ leaf, walk r' m.mem a = some leaf ∧ leaf.pa = a ∧ Ordinary leaf.desc) ∧
        (¬ (I.all.Covers a ∨ uart.Covers a) → walk r' m.mem a = none) := by
  obtain ⟨mem', hbss⟩ : ∃ mem', ZeroBss I mem mem' := ⟨_, I.zeroBss_iff.2 rfl⟩
  have h0 := Image.zeroed_machine hbss
  obtain ⟨m, hm⟩ := Image.earlyInit_returns h0
  obtain ⟨-, hmap⟩ := Image.earlyInit_maps h0 hm
  refine ⟨m, _, ⟨_, hbss, hm, rfl⟩, sctlr_enableMmu _ r, fun a => ⟨fun ha => ?_, fun ha => ?_⟩⟩
  · have h := hmap (realEntry r) a
    rw [if_pos ha, translate, Option.map_eq_some_iff] at h
    obtain ⟨leaf, hleaf, he⟩ := h
    obtain ⟨hpa, hattrs⟩ := Prod.mk.inj he
    exact ⟨leaf, hleaf, hpa, ordinary_of_attrs hattrs⟩
  · have h := hmap (realEntry r) a
    rwa [if_neg ha, translate, Option.map_eq_none_iff] at h

/-! ### Later calls -/

/-- The tables map the image and the UART to themselves, with blocks that are aligned. -/
def SelfView (I : Image) (mem : Mem) : Prop :=
  ∀ va : Va, I.all.Covers va ∨ uart.Covers va → Aligned I.toLayout mem va ∧
    decode va (view I.toLayout mem 3 va) = some ((va : ℕ), attrWord uart.attrs)

/-- Their addresses have 32 bits. -/
lemma Image.lt_of_covers (I : Image) {a : ℕ} (ha : I.all.Covers a ∨ uart.Covers a) :
    a < 2 ^ 32 := by
  have hend := I.imageEnd_le
  rw [I.covers_all, covers_uart] at ha
  omega

lemma SelfView.selfMapped (h : SelfView I mem) (r : SysRegs) :
    SelfMapped I (enableMmu I.toLayout r) mem := by
  intro a ha
  have hlt := I.lt_of_covers ha
  obtain ⟨va, rfl⟩ : ∃ va : Va, (va : ℕ) = a := ⟨⟨a, by omega⟩, rfl⟩
  obtain ⟨hal, hv⟩ := h va ha
  rw [translate_eq r hlt hal, hv]

lemma SelfView.of_view (h : SelfView I mem) (hview : view I.toLayout mem' = view I.toLayout mem) :
    SelfView I mem' := by
  intro va ha
  obtain ⟨hal, hv⟩ := h va ha
  rw [hview]
  exact ⟨fun h1 h2 hd => hal h1 h2 (by rwa [hview] at hd), hv⟩

/-- In the loop of a call for a region apart from the image and the UART these stay mapped to
themselves. -/
lemma Sim.selfView {Q : LeafInv} {s : Loop} (h : Sim I.toLayout Q c m s) (hc : c.Paged)
    (hall : c.DisjointFrom I.all) (huart : c.DisjointFrom uart) (hm : SelfView I m.mem) :
    SelfView I s.m.mem := by
  intro va ha
  obtain ⟨hal, hv⟩ := hm va ha
  have hout : ¬ c.Covers va := fun hca => ha.elim (hall va hca) (huart va hca)
  have hthree : view I.toLayout s.m.mem 3 va = view I.toLayout m.mem 3 va :=
    h.swept.outside (by omega) le_rfl (hc.not_meets_three hout)
  refine ⟨fun {ℓ d} h1 h2 hd => ?_, by rw [hthree, hv]⟩
  by_cases hmeets : Greedy.Meets gran c.virt.toNat c.stop ℓ va
  · -- a span that the region cuts is as before or has got a table
    have hcut : Greedy.Cut gran c.virt.toNat c.stop ℓ va :=
      ⟨hmeets, fun hin => hout (gran_nested.mem_of_inside hin)⟩
    rcases h.swept.cut h1 (by omega) hcut with he | ⟨t, -, -, ht⟩
    · exact hal h1 h2 (he.symm.trans hd)
    · exact absurd (ht.symm.trans hd) (by simp)
  · exact hal h1 h2 ((h.swept.outside h1 (by omega) hmeets).symm.trans hd)

/-- A call that is page-aligned and whose region is apart from the image and the UART. -/
structure Call.Later (c : Call) (I : Image) : Prop where
  paged : c.Paged
  all : c.DisjointFrom I.all
  uart : c.DisjointFrom uart

lemma fine_of_later (hcs : ∀ c ∈ cs, c.Later I) : Fine anyLeaf cs := fun c hc =>
  ⟨(hcs c hc).paged, c.writes_any⟩

/-- So do the calls of a run. -/
lemma AddMaps.selfView (h : AddMaps I.toLayout m cs m') (hwf : Wf I.toLayout anyLeaf m)
    (hcs : ∀ c ∈ cs, c.Later I) (hpool : PoolLasts I.toLayout m cs) (hm : SelfView I m.mem) :
    SelfView I m'.mem := by
  induction cs using List.reverseRecOn generalizing m' with
  | nil => exact Run.nil_iff.1 h ▸ hm
  | append_singleton cs c ih =>
      have hcs₁ : ∀ c' ∈ cs, c'.Later I := fun c' hc' => hcs c' (by simp [hc'])
      have hc := hcs c (by simp)
      obtain ⟨hpool, hroom⟩ := poolLasts_snoc.1 hpool
      obtain ⟨m₁, hm₁, s, ⟨hs, -⟩, rfl⟩ := Run.snoc_iff.1 h
      have hwf₁ := AddMaps.wf hm₁ hwf (fine_of_later hcs₁) hpool
      exact (Sim.of_visits hc.paged c.writes_any hwf₁ (hroom m₁ hm₁) hs).selfView hc.paged hc.all
        hc.uart (ih hm₁ hcs₁ hpool)

/-! ### The C frames -/

/-- The words of the tables in use are off the C frames. -/
lemma Image.Clear.slot {depth : ℕ} (h : I.Clear depth n) {T : Table} {i : ℕ} (hT : T.Live n)
    (hi : i < T.entries) : I.OffFrames depth (T.slot I.toLayout i) 8 := by
  cases T with
  | base =>
      have hi : i < 64 := hi
      have hoff : _ ∨ _ := h.base
      rw [numBaseLevelEntries] at hoff
      simp only [Image.OffFrames, Separate, Table.slot, Table.addr]
      omega
  | pool t =>
      have hi : i < 512 := hi
      have hoff : _ ∨ _ := h.tables t hT
      rw [xlatTableEntries] at hoff
      simp only [Image.OffFrames, Separate, Table.slot, Table.addr]
      omega

/-- The words of the tables are in the image. -/
lemma Image.covers_slot (I : Image) {T : Table} {i k : ℕ} (hT : T.Live configMaxXlatTables)
    (hi : i < T.entries) (hk : k < 8) : I.all.Covers (T.slot I.toLayout i + k) := by
  have h1 := I.start_le
  have h2 := I.bssEnd_le
  rw [I.covers_all]
  cases T with
  | base =>
      have h3 := I.base_le
      have h4 := I.le_base
      have hslot : Table.base.slot I.toLayout i = I.baseXlatTable + 8 * i := rfl
      have hi : i < numBaseLevelEntries := hi
      rw [hslot]
      omega
  | pool t =>
      have h3 := I.tables_le
      have h4 := I.le_tables
      have hslot : (Table.pool t).slot I.toLayout i = I.xlatTables + 8 * 512 * t + 8 * i := rfl
      have hi : i < 512 := hi
      have hT : t < configMaxXlatTables := hT
      rw [configMaxXlatTables] at hT h4
      rw [hslot]
      omega

namespace Image

/-- After `early_init` the tables are well-formed and map the image and the UART to themselves. -/
lemma earlyInit_selfView (h0 : Zeroed I.toLayout m) (h : AddMaps I.toLayout m [I.all, uart] m') :
    Wf I.toLayout anyLeaf m' ∧ SelfView I m'.mem := by
  obtain ⟨hwf', hmap⟩ := earlyInit_maps h0 h
  have hwf := Wf.of_zeroed h0 anyLeaf
  have hfine : Fine anyLeaf [I.all, uart] := fun c hc => ⟨(I.fine_calls c hc).paged, c.writes_any⟩
  refine ⟨h.wf hwf hfine (poolLasts_of_length h0.tableIdx hwf hfine (by simp)), fun va ha => ?_⟩
  refine ⟨fun h1 h2 hd => (hwf'.leaf_holds (by omega) hd).2, ?_⟩
  rw [← hwf'.translate_eq (r := ⟨0, 0, 0, 0⟩) va (I.lt_of_covers ha), hmap, if_pos ha]

end Image

/-- After `early_init` the program runs on the tables that it goes on to edit.  Page-aligned calls
for regions apart from the image and the UART keep these translated to themselves, before and after
every single store of `add_map`, which goes to an address of the image off the C frames, and
whatever the frames hold.  For that the frames have to be off the tables that are handed out. -/
theorem image_stays_mapped (I : Image) (mem : Mem) (r : SysRegs) (m : Machine) (r' : SysRegs)
    (cs : List Call) (c : Call) (depth : ℕ) (hboot : Boots I mem r m r')
    (hcs : ∀ c' ∈ cs ++ [c], c'.Later I) (hpool : PoolLasts I.toLayout m (cs ++ [c]))
    (hclear : ∀ m₂, AddMaps I.toLayout m (cs ++ [c]) m₂ → I.Clear depth m₂.tableIdx) :
    ∃ m₁ m₂ evs, AddMaps I.toLayout m cs m₁ ∧ AddMap I.toLayout m₁ c m₂ ∧
      m₂.mem = replay m₁.mem (stores evs) ∧ m₂.trace = m₁.trace ++ evs ∧
      (∀ w ∈ stores evs, (∀ k < 8, I.all.Covers (w.1 + k)) ∧ I.OffFrames depth w.1 8) ∧
      ∀ ws₁ ws₂, stores evs = ws₁ ++ ws₂ → ∀ memS : Mem,
        (∀ p, I.OffFrames depth p 8 → memS p = replay m₁.mem ws₁ p) → SelfMapped I r' memS := by
  obtain ⟨mem', hbss, hinit, rfl⟩ := hboot
  obtain ⟨hwf, hself⟩ := Image.earlyInit_selfView (Image.zeroed_machine hbss) hinit
  have hc := hcs c (by simp)
  have hcs₁ : ∀ c' ∈ cs, c'.Later I := fun c' hc' => hcs c' (List.mem_append_left _ hc')
  obtain ⟨hpool₁, hroom⟩ := poolLasts_snoc.1 hpool
  obtain ⟨m₁, hm₁, hwf₁⟩ := AddMaps.returns hwf (fine_of_later hcs₁) hpool₁
  obtain ⟨m₂, hm₂, hwf₂, -⟩ := Call.returns hc.paged c.writes_any hwf₁ (hroom m₁ hm₁)
  have hself₁ : SelfView I m₁.mem := hm₁.selfView hwf hcs₁ hpool₁ hself
  have hclear₂ := hclear m₂ (hm₁.snoc hm₂)
  obtain ⟨s, ⟨hs, hgo⟩, rfl⟩ := hm₂
  obtain ⟨evs, htrace, hreplay, hmoments⟩ :=
    Call.Visits.moments hs hwf₁ hc.paged c.writes_any (hroom m₁ hm₁)
  refine ⟨m₁, s.m, evs, hm₁, ⟨s, ⟨hs, hgo⟩, rfl⟩, hreplay, htrace, fun w hw => ?_, ?_⟩
  · have hmem : .store w.1 w.2 ∈ s.m.trace := htrace ▸ List.mem_append_right _ (mem_stores hw)
    obtain ⟨T, ℓ, i, hT, hi, he⟩ := hwf₂.written hmem
    rw [he]
    exact ⟨fun k hk => I.covers_slot (hwf₂.live32 hT) hi hk, hclear₂.slot (hwf₂.live hT) hi⟩
  · intro ws₁ ws₂ hws memS hmemS
    obtain ⟨s₁, hs₁, hidx, hview⟩ := hmoments ws₁ ws₂ hws
    have hsim := Sim.of_visits hc.paged c.writes_any hwf₁ (hroom m₁ hm₁) hs₁
    have hviewS : view I.toLayout memS = view I.toLayout s₁.m.mem :=
      hsim.wf.view_eq_of_agree hview fun hT hi =>
        hmemS _ (hclear₂.slot ((hsim.wf.live hT).mono hidx) hi)
    exact ((hsim.selfView hc.paged hc.all hc.uart hself₁).of_view hviewS).selfMapped (realEntry r)

/-- A page that is mapped to another one behind the sample image, with one page of C frames, and
with a memory that was not zero before. -/
theorem image_stays_mapped_sample : ∃ m r' m₂ evs,
    Boots sampleImage (fun _ => -1) ⟨0, 0, 0, 0⟩ m r' ∧
      AddMap sampleImage.toLayout m ⟨0x50003000, 0x80000000, 0x1000, 28⟩ m₂ ∧
      m₂.mem = replay m.mem (stores evs) ∧
      ∀ ws₁ ws₂, stores evs = ws₁ ++ ws₂ → ∀ memS : Mem,
        (∀ p, sampleImage.OffFrames 0x1000 p 8 → memS p = replay m.mem ws₁ p) →
          SelfMapped sampleImage r' memS := by
  obtain ⟨mem', hbss⟩ : ∃ mem', ZeroBss sampleImage (fun _ => -1) mem' :=
    ⟨_, (Image.zeroBss_iff _).2 rfl⟩
  have h0 := Image.zeroed_machine hbss
  obtain ⟨m, hm⟩ := Image.earlyInit_returns h0
  have hall : Call.DisjointFrom ⟨0x50003000, 0x80000000, 0x1000, 28⟩ sampleImage.all := by
    intro a h₁ h₂
    have h1 : 0x80000000 ≤ a := h₁.1
    have h2 : a < 0x40049000 := (sampleImage.covers_all.1 h₂).2
    omega
  have huart : Call.DisjointFrom ⟨0x50003000, 0x80000000, 0x1000, 28⟩ uart := by
    intro a h₁ h₂
    have h1 : 0x80000000 ≤ a := h₁.1
    have h2 : a < 0x09002000 := h₂.2
    omega
  have hpaged : ∀ c ∈ [sampleImage.all, uart] ++ [⟨0x50003000, 0x80000000, 0x1000, 28⟩],
      c.Paged := by decide
  obtain ⟨hpool, hidx⟩ := tableIdx_le_of_length h0.tableIdx (Wf.of_zeroed h0 anyLeaf)
    (fun c hc => ⟨hpaged c hc, c.writes_any⟩) (by simp)
  obtain ⟨m₁, m₂, evs, hm₁, hm₂, hmem, -, -, hself⟩ := image_stays_mapped sampleImage (fun _ => -1)
    ⟨0, 0, 0, 0⟩ m _ [] ⟨0x50003000, 0x80000000, 0x1000, 28⟩ 0x1000 ⟨mem', hbss, hm, rfl⟩
    (fun c hc => by
      obtain rfl := List.mem_singleton.1 hc
      exact ⟨by decide, hall, huart⟩)
    (hpool.rest hm) (fun m₂ hm₂ => by
      -- the frames reach the last table only
      have hle : m₂.tableIdx ≤ 4 * 3 := hidx m₂ (Run.append_iff.2 ⟨m, hm, hm₂⟩)
      refine ⟨by decide, fun t ht => .inr ?_, by decide⟩
      show 0x40004000 + 8 * 512 * t + 8 * 512 ≤ 0x40024000 - 0x1000
      omega)
  obtain rfl := Run.nil_iff.1 hm₁
  exact ⟨m, _, m₂, evs, ⟨mem', hbss, hm, rfl⟩, hm₂, hmem, hself⟩

end Arm64Mmu
