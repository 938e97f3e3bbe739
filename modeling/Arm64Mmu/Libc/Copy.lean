import Arm64Mmu.Model.Libc

/-!
# Copying and filling

`memcpy` copies upwards.  If the destination starts inside the source it overwrites what it has
yet to read, and then it repeats the part of the source before the destination; in every other
case it makes a copy (`memcpy_repeats`).  `memmove` always makes a copy, because its test for an
overlap is made with unsigned numbers that wrap around (`memmove_copies`).
-/

namespace Arm64Mmu.Libc

open Lib.Bytes

variable {m : ByteMem} {d s p : Ptr} {n : ℕ}

/-! ### Upwards -/

/-- What the loop of `memcpy` leaves in the destination. -/
def copied (m : ByteMem) (d s : Ptr) (n : ℕ) : List U8 :=
  (List.range n).map fun i => m (off s (i % (d - s).toNat))

lemma length_copied (m : ByteMem) (d s : Ptr) (n : ℕ) : (copied m d s n).length = n := by
  simp [copied]

/-- The first store of the loop does not change what the others leave. -/
lemma copied_succ (m : ByteMem) (d s : Ptr) (n : ℕ) :
    copied m d s (n + 1) = m s :: copied (Function.update m d (m s)) (d + 1) (s + 1) n := by
  have hk : (d - s).toNat < 2 ^ 64 := (d - s).isLt
  rw [copied, copied, List.range_succ_eq_map, List.map_cons, List.map_map, add_one_sub_add_one]
  refine congrArg₂ _ (by rw [Nat.zero_mod, off_zero]) (List.map_congr_left fun i _ => ?_)
  have hd : d = off s (d - s).toNat := (off_toNat s d).symm
  have hmod : (i + 1) % (d - s).toNat = (i % (d - s).toNat + 1) % (d - s).toNat :=
    (Nat.mod_add_mod i _ 1).symm
  show m (off s ((i + 1) % (d - s).toNat)) = _
  rw [← off_succ, hmod]
  generalize (d - s).toNat = k at hd hk
  rcases Nat.eq_zero_or_pos k with rfl | hpos
  · -- both pointers are the same, and the store changes nothing
    obtain rfl : d = s := by simpa using hd
    rw [Function.update_eq_self, Nat.mod_zero, Nat.mod_zero]
  · have hlt := Nat.mod_lt i hpos
    rcases Nat.lt_or_eq_of_le (Nat.succ_le_of_lt hlt) with h | h
    · -- a cell of the source that the store does not reach
      have hne : off s (i % k + 1) ≠ d := by
        rw [hd]
        exact fun he => absurd ((off_inj s (by omega) hk).1 he) (by omega)
      rw [Nat.mod_eq_of_lt h, Function.update_of_ne hne]
    · -- the cell that the store writes
      have h' : i % k + 1 = k := h
      rw [h', Nat.mod_self, off_zero, ← hd, Function.update_self]

lemma memcpyLoop_eq (m : ByteMem) (d s : Ptr) (hn : n < 2 ^ 64) :
    memcpyLoop d s n m = write m d (copied m d s n) := by
  induction n generalizing m d s with
  | zero => rfl
  | succ n ih =>
      rw [memcpyLoop, ih _ _ _ (by omega), copied_succ,
        write_cons _ _ _ (by rw [length_copied]; omega)]

/-- Without an overlap that does harm, the loop makes a copy. -/
lemma copied_eq_bytes (h : n ≤ (d - s).toNat) : copied m d s n = bytes m s n := by
  refine List.map_congr_left fun i hi => ?_
  rw [Nat.mod_eq_of_lt (Nat.lt_of_lt_of_le (List.mem_range.1 hi) h)]

/-- `memcpy` leaves at `dst + i` what was at `src + i % (dst - src)`, and changes nothing outside
its destination: a copy if `dst` is not inside the source, and otherwise the part of the source
before `dst` again and again. -/
theorem memcpy_repeats (m : ByteMem) (dst src : Ptr) (len : U64) :
    (memcpy m dst src len).1 = dst ∧
      (∀ i < len.toNat,
        (memcpy m dst src len).2 (off dst i) = m (off src (i % (dst - src).toNat))) ∧
      ∀ a, (∀ i < len.toNat, a ≠ off dst i) → (memcpy m dst src len).2 a = m a := by
  have hlen := length_copied m dst src len.toNat
  refine ⟨rfl, fun i hi => ?_, fun a ha => ?_⟩
  · simp only [memcpy, memcpyLoop_eq m dst src len.isLt]
    rw [write_off m dst (hlen.symm ▸ hi) (hlen.symm ▸ Nat.le_of_lt len.isLt)]
    simp [copied]
  · rw [memcpy, memcpyLoop_eq m dst src len.isLt]
    exact write_of_ne m (by rwa [hlen])

/-! ### Downwards -/

/-- The backward loop makes a copy if no store reaches a cell of the source that is read later. -/
lemma memmoveLoop_eq (m : ByteMem) (d s : Ptr) (hn : n < 2 ^ 64)
    (h : ∀ i < n, ∀ j < i, off s j ≠ off d i) :
    memmoveLoop (off d n) (off s n) n m = write m d (bytes m s n) := by
  induction n generalizing m with
  | zero => rfl
  | succ n ih =>
      have hd : off d (n + 1) - 1 = off d n := by rw [off_succ', BitVec.add_sub_cancel]
      have hs : off s (n + 1) - 1 = off s n := by rw [off_succ', BitVec.add_sub_cancel]
      have hbytes : bytes (Function.update m (off d n) (m (off s n))) s n = bytes m s n :=
        bytes_congr fun j hj => Function.update_of_ne (h n (Nat.lt_succ_self n) j hj) _ _
      rw [memmoveLoop, hd, hs, ih _ (by omega) fun i hi => h i (by omega), hbytes, bytes_succ',
        write_update m _ (by simp) (by omega), write_snoc _ _ _ (by simp; omega), length_bytes]

/-- `memmove` copies what the source was before the call, whatever the overlap.  No array is
longer than `2 ^ 63` bytes. -/
theorem memmove_copies (m : ByteMem) (dst src : Ptr) (len : U64) (h : len.toNat ≤ 2 ^ 63) :
    memmove m dst src len = (dst, write m dst (bytes m src len.toNat)) := by
  by_cases hge : dst - src ≥ len
  · have hle : len.toNat ≤ (dst - src).toNat := hge
    rw [memmove, if_pos hge, memcpy, memcpyLoop_eq m dst src len.isLt, copied_eq_bytes hle]
  · have hlt : (dst - src).toNat < len.toNat := Nat.not_le.1 hge
    have hdst : dst = off src (dst - src).toNat := (off_toNat src dst).symm
    have hoff : ∀ q : Ptr, q + len = off q len.toNat := fun q => by
      rw [off, BitVec.ofNat_toNat, BitVec.setWidth_eq]
    rw [memmove, if_neg hge, hoff, hoff, memmoveLoop_eq m dst src len.isLt]
    intro i hi j hj he
    rw [hdst, off_off, off_inj src (by omega) (by omega)] at he
    omega

/-- Eight bytes moved by three places inside themselves. -/
theorem memmove_copies_sample :
    memmove sampleBytes 3 0 8 = (3, write sampleBytes 3 (bytes sampleBytes 0 8)) :=
  memmove_copies sampleBytes 3 0 8 (by decide)

/-! ### Filling -/

/-- `memset` stores the low byte of `val` in every byte of its destination and nowhere else. -/
theorem memset_fills (m : ByteMem) (dst : Ptr) (val : U32) (count : U64) :
    memset m dst val count =
      (dst, write m dst (List.replicate count.toNat (val.setWidth 8))) := by
  have h : ∀ (n : ℕ) (m : ByteMem) (p : Ptr), n < 2 ^ 64 →
      memsetLoop (val.setWidth 8) p n m = write m p (List.replicate n (val.setWidth 8)) := by
    intro n
    induction n with
    | zero => exact fun m p _ => rfl
    | succ n ih =>
        intro m p hn
        rw [memsetLoop, ih _ _ (by omega), List.replicate_succ,
          write_cons _ _ _ (by rw [List.length_replicate]; omega)]
  rw [memset, h _ m dst count.isLt]

end Arm64Mmu.Libc
