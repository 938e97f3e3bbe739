import Mathlib.Data.List.TakeDrop
import Mathlib.Data.Nat.Basic
import Arm64Mmu.Libc.Compare

/-!
# `strlcpy`

On a terminated source that the destination does not overlap, `strlcpy` returns the length of the
source and leaves in the destination as much of it as fits, always terminated
(`strlcpy_truncates`).  So its result shows whether the copy is equal to the source
(`strlcpy_strcmp`).
-/

namespace Arm64Mmu.Libc

open Lib Lib.Bytes Lib.Return

variable {m m' : ByteMem} {dst src p : Ptr} {dsize r : U64} {n : ℕ} {x : List U8}

/-- The first loop ends with the terminator if the source fits. -/
lemma strlcpyCopy_fits (hx : IsStr m src x) (hap : Apart dst n src (x.length + 1))
    (hn : x.length + 2 ≤ n) (hw : n ≤ 2 ^ 64) : strlcpyCopy n ⟨m, dst, src⟩ =
      (n - (x.length + 1),
        ⟨write m dst (x ++ [0]), off dst (x.length + 1), off src (x.length + 1)⟩) := by
  induction x generalizing m dst src n with
  | nil =>
      obtain ⟨n, rfl⟩ : ∃ k, n = k + 1 := ⟨n - 1, by omega⟩
      have hne : n ≠ 0 := by rintro rfl; simp at hn
      have h0 : m src = 0 := isStr_nil.1 hx
      rw [strlcpyCopy, if_pos hne]
      simp only [h0, if_true]
      rw [List.nil_append, write_cons _ _ _ (by simp)]
      rfl
  | cons c x ih =>
      obtain ⟨n, rfl⟩ : ∃ k, n = k + 1 := ⟨n - 1, by omega⟩
      rw [List.length_cons] at hn hap
      obtain ⟨hc, hc0, hx⟩ := isStr_cons.1 hx
      have hx' := hx.update c fun j hj he => hap.head (j + 1) (by omega) (by rw [off_succ, he])
      rw [strlcpyCopy, if_pos (by omega)]
      simp only [hc, hc0, if_false]
      rw [ih hx' hap.tail (by omega) (by omega), List.cons_append,
        write_cons _ _ _ (by simp; omega), List.length_cons, ← off_succ, ← off_succ,
        Nat.add_sub_add_right]

/-- Otherwise it ends when only the place for a terminator is left. -/
lemma strlcpyCopy_cut (hx : IsStr m src x) (hap : Apart dst n src (x.length + 1)) (h1 : 1 ≤ n)
    (hn : n ≤ x.length + 1) (hw : n ≤ 2 ^ 64) : strlcpyCopy n ⟨m, dst, src⟩ =
      (0, ⟨write m dst (x.take (n - 1)), off dst (n - 1), off src (n - 1)⟩) := by
  induction x generalizing m dst src n with
  | nil =>
      obtain rfl : n = 1 := by simp at hn; omega
      simp [strlcpyCopy]
  | cons c x ih =>
      obtain ⟨n, rfl⟩ : ∃ k, n = k + 1 := ⟨n - 1, by omega⟩
      rw [List.length_cons] at hn hap
      rcases Nat.eq_zero_or_pos n with rfl | hpos
      · simp [strlcpyCopy]
      obtain ⟨hc, hc0, hx⟩ := isStr_cons.1 hx
      have hx' := hx.update c fun j hj he => hap.head (j + 1) (by omega) (by rw [off_succ, he])
      obtain ⟨k, rfl⟩ : ∃ k, n = k + 1 := ⟨n - 1, by omega⟩
      rw [strlcpyCopy, if_pos (by omega)]
      simp only [hc, hc0, if_false]
      rw [ih hx' hap.tail (by omega) (by omega) (by omega), Nat.add_sub_cancel, Nat.add_sub_cancel,
        List.take_succ_cons, write_cons _ _ _ (by rw [List.length_take]; omega), ← off_succ,
        ← off_succ]

/-- The second loop runs to the end of the source. -/
lemma strlcpySkip_returns (hx : IsStr m p x) :
    Returns (strlcpySkip m) p (off p (x.length + 1)) := by
  have hbody : strlcpySkip m = scan (fun p => m p = 0) (fun p => p + 1) (fun p => p + 1) := by
    funext p
    rw [strlcpySkip, scan, ite_not]
  rw [hbody, returns_scan]
  simp only [iterate_add_one]
  exact ⟨x.length, hx.terminator, fun j hj => hx.apply_ne hj, (off_succ' p _).symm⟩

/-- What `strlcpy` stores: as much of the source as fits, and a terminator. -/
def cutString (x : List U8) (dsize : U64) : List U8 :=
  if dsize = 0 then [] else x.take (dsize.toNat - 1) ++ [0]

/-- The difference of the two pointers, without the terminator. -/
lemma off_sub_one (hn : n < 2 ^ 64) : (off src (n + 1) - src - 1).toNat = n := by
  rw [off_succ', BitVec.sub_eq_add_neg, BitVec.sub_eq_add_neg, BitVec.add_assoc (off src n),
    BitVec.add_comm 1, ← BitVec.add_assoc, BitVec.add_assoc, ← BitVec.sub_eq_add_neg 1,
    BitVec.sub_self, BitVec.add_zero, ← BitVec.sub_eq_add_neg, off_toNat_sub src hn]

/-- The second loop ends behind the terminator of the source, wherever it starts. -/
lemma strlcpyReturns_cut (hx : IsStr m src x) (hap : Apart dst dsize.toNat src (x.length + 1)) :
    StrlcpyReturns m dst src dsize (off src (x.length + 1) - src - 1)
      (write m dst (cutString x dsize)) := by
  have hlt := hx.length_lt
  have hw := dsize.isLt
  rcases Nat.eq_zero_or_pos dsize.toNat with h0 | hpos
  · -- nothing is stored, and the source is measured
    have hz : dsize = 0 := BitVec.eq_of_toNat_eq h0
    rw [cutString, if_pos hz, write_nil, StrlcpyReturns, h0]
    simp only [strlcpyCopy, if_true, hz, ne_eq, not_true_eq_false, if_false, and_true]
    exact ⟨_, strlcpySkip_returns hx, rfl⟩
  · have hz : dsize ≠ 0 := by
      rintro rfl
      exact absurd hpos (by decide)
    rw [cutString, if_neg hz, StrlcpyReturns]
    rcases Nat.lt_or_ge (x.length + 1) dsize.toNat with hfit | hcut
    · -- the first loop stops at the terminator
      have hleft : dsize.toNat - (x.length + 1) ≠ 0 := by omega
      rw [strlcpyCopy_fits hx hap hfit (by omega), List.take_of_length_le (by omega)]
      simp only [hleft, if_false, and_self]
    · -- the terminator is stored behind the part that fits, and the rest is measured
      have hlen : (x.take (dsize.toNat - 1)).length = dsize.toNat - 1 := by
        rw [List.length_take]
        omega
      have hwrite : write m dst (x.take (dsize.toNat - 1) ++ [0]) =
          Function.update (write m dst (x.take (dsize.toNat - 1))) (off dst (dsize.toNat - 1))
            0 := by
        rw [write_snoc _ _ _ (by omega), hlen]
      have hlen' : (x.take (dsize.toNat - 1) ++ [0]).length = dsize.toNat := by
        rw [List.length_append, hlen, List.length_singleton]
        omega
      have hx' : IsStr (write m dst (x.take (dsize.toNat - 1) ++ [0])) src x :=
        hx.write (by rwa [hlen'])
      have hskip := strlcpySkip_returns (hx'.drop (n := dsize.toNat - 1) (by omega))
      rw [off_off, List.length_drop, show dsize.toNat - 1 + (x.length - (dsize.toNat - 1) + 1) =
        x.length + 1 by omega] at hskip
      rw [strlcpyCopy_cut hx hap hpos hcut (by omega)]
      simp only [if_true, hz, ne_eq, not_false_eq_true, ← hwrite, and_true]
      exact ⟨_, hskip, rfl⟩

/-- `strlcpy` returns the length of the source, and stores as much of it as fits into the
destination, with a terminator; nothing else changes. -/
theorem strlcpy_truncates (m : ByteMem) (dst src : Ptr) (dsize : U64) (x : List U8)
    (hx : IsStr m src x) (hap : Apart dst dsize.toNat src (x.length + 1)) :
    ∃ r, StrlcpyReturns m dst src dsize r (write m dst (cutString x dsize)) ∧
      r.toNat = x.length :=
  ⟨_, strlcpyReturns_cut hx hap, off_sub_one hx.length_lt⟩

/-- A copy into four bytes. -/
theorem strlcpy_truncates_sample :
    ∃ r, Libc.StrlcpyReturns sampleStrings 0x300 0x100 4 r
        (write sampleStrings 0x300 (cutString [0x55, 0x41, 0x52, 0x54] 4)) ∧ r.toNat = 4 :=
  strlcpy_truncates sampleStrings 0x300 0x100 4 _ isStr_sampleStrings (by decide)

/-- After a copy into an array with room for a terminator, `strcmp` says that the copy is equal to
the source exactly if the value returned is less than the size. -/
theorem strlcpy_strcmp (m : ByteMem) (dst src : Ptr) (dsize : U64) (x : List U8)
    (hx : IsStr m src x) (hap : Apart dst dsize.toNat src (x.length + 1)) (hz : dsize ≠ 0) :
    ∃ r m', StrlcpyReturns m dst src dsize r m' ∧ (Strcmp m' dst src 0 ↔ r < dsize) := by
  refine ⟨_, _, strlcpyReturns_cut hx hap, ?_⟩
  have hlt := hx.length_lt
  have hr : (off src (x.length + 1) - src - 1).toNat = x.length := off_sub_one hlt
  have hpos : 0 < dsize.toNat := Nat.pos_of_ne_zero fun h => hz (BitVec.eq_of_toNat_eq h)
  have hcut : cutString x dsize = x.take (dsize.toNat - 1) ++ [0] := if_neg hz
  have hdst : IsStr (write m dst (cutString x dsize)) dst (x.take (dsize.toNat - 1)) := by
    rw [hcut]
    exact isStr_write m dst (fun h => hx.not_mem (List.mem_of_mem_take h))
      (Nat.lt_of_le_of_lt (List.length_take_le _ _) (by omega))
  have hsrc : IsStr (write m dst (cutString x dsize)) src x := by
    refine hx.write (hap.mono ?_ le_rfl)
    rw [hcut, List.length_append, List.length_take, List.length_singleton]
    omega
  obtain ⟨v, hv, hcomp⟩ := strcmp_compares _ dst src _ x hdst hsrc
  have hiff : x.take (dsize.toNat - 1) = x ↔ x.length < dsize.toNat := by
    rw [List.take_eq_self_iff]
    omega
  rw [BitVec.lt_def, hr, ← hiff, ← hcomp.eq]
  exact ⟨fun h => hv.unique h, fun h => h ▸ hv⟩

/-- The four bytes hold less than the source. -/
theorem strlcpy_strcmp_sample : ∃ r m', Libc.StrlcpyReturns sampleStrings 0x300 0x100 4 r m' ∧
    (Strcmp m' 0x300 0x100 0 ↔ r < 4) :=
  strlcpy_strcmp sampleStrings 0x300 0x100 4 _ isStr_sampleStrings (by decide) (by decide)

end Arm64Mmu.Libc
