import Arm64Mmu.Model.Libc

/-!
# Searching

What the functions that look for a byte return: `memchr` and `strchr` the first place of it,
`memrchr` and `strrchr` the last one, `strlen` and `strnlen` the place of the terminator.  For
the string functions the terminator is a byte of the string, and with it the string is an array
(`strchr_memchr`).
-/

namespace Arm64Mmu.Libc

open Lib.Bytes Lib.Return

variable {m : ByteMem} {p q s : Ptr} {c : U8} {n i : ℕ} {x : List U8} {r : Option Ptr}

/-- `r` is the first of the `n` cells from `p` on that holds `c`, or `none`. -/
def IsFirst (m : ByteMem) (p : Ptr) (n : ℕ) (c : U8) : Option Ptr → Prop
  | none => ∀ i < n, m (off p i) ≠ c
  | some q => ∃ i < n, q = off p i ∧ m q = c ∧ ∀ j < i, m (off p j) ≠ c

/-- `r` is the last of the `n` cells from `p` on that holds `c`, or `none`. -/
def IsLast (m : ByteMem) (p : Ptr) (n : ℕ) (c : U8) : Option Ptr → Prop
  | none => ∀ i < n, m (off p i) ≠ c
  | some q => ∃ i < n, q = off p i ∧ m q = c ∧ ∀ j < n, i < j → m (off p j) ≠ c

/-! ### The first place -/

lemma isFirst_head (h : m p = c) : IsFirst m p (n + 1) c (some p) :=
  ⟨0, n.succ_pos, (off_zero p).symm, h, fun j hj => absurd hj j.not_lt_zero⟩

/-- A cell in front that does not hold the byte. -/
lemma IsFirst.cons (h : IsFirst m (p + 1) n c r) (hne : m p ≠ c) : IsFirst m p (n + 1) c r := by
  have hcell : ∀ j k, (∀ i < k, m (off (p + 1) i) ≠ c) → j < k + 1 → m (off p j) ≠ c := by
    intro j k hk hj
    cases j with
    | zero => rwa [off_zero]
    | succ j => exact off_succ p j ▸ hk j (by omega)
  cases r with
  | none => exact fun j hj => hcell j n h hj
  | some q =>
      obtain ⟨i, hi, rfl, hc, hlt⟩ := h
      exact ⟨i + 1, by omega, (off_succ p i).symm, hc, fun j hj => hcell j i hlt hj⟩

lemma memchrLoop_first (m : ByteMem) (c : U8) (p : Ptr) (n : ℕ) :
    IsFirst m p n c (memchrLoop m c p n) := by
  induction n generalizing p with
  | zero => exact fun i hi => absurd hi i.not_lt_zero
  | succ n ih =>
      rw [memchrLoop]
      by_cases hc : m p = c
      · rw [if_pos hc]
        exact isFirst_head hc
      · rw [if_neg hc]
        exact (ih (p + 1)).cons hc

/-- `memchr` finds the first place of the byte. -/
theorem memchr_first (m : ByteMem) (src : Ptr) (c : U32) (len : U64) :
    IsFirst m src len.toNat (c.setWidth 8) (memchr m src c len) :=
  memchrLoop_first m _ src _

/-- The loop of `strchr` is that of `memchr` on the string with its terminator. -/
lemma returns_strchrBody (c : U8) (hx : IsStr m p x) :
    Returns (strchrBody m c) p (memchrLoop m c p (x.length + 1)) := by
  induction x generalizing p with
  | nil =>
      have h0 : m p = 0 := isStr_nil.1 hx
      refine .of_inr ?_
      rw [strchrBody, if_pos h0, List.length_nil, memchrLoop, memchrLoop]
      split_ifs <;> rfl
  | cons b x ih =>
      obtain ⟨hb, hb0, hx⟩ := isStr_cons.1 hx
      have h0 : m p ≠ 0 := fun h => hb0 (hb.symm.trans h)
      rw [List.length_cons, memchrLoop]
      by_cases hc : m p = c
      · rw [if_pos hc]
        exact .of_inr (if_pos hc)
      · rw [if_neg hc]
        exact (ih hx).head ((if_neg hc).trans (if_neg h0))

/-- `strchr` returns the first place of the byte in the string and its terminator. -/
theorem strchr_first (m : ByteMem) (p : Ptr) (ch : U32) (x : List U8) (hx : IsStr m p x) :
    ∃ r, Strchr m p ch r ∧ IsFirst m p (x.length + 1) (ch.setWidth 8) r :=
  ⟨_, returns_strchrBody _ hx, memchrLoop_first m _ p _⟩

/-! ### The last place -/

/-- One more cell behind. -/
lemma IsLast.snoc (h : IsLast m p n c r) :
    IsLast m p (n + 1) c (if m (off p n) = c then some (off p n) else r) := by
  by_cases hc : m (off p n) = c
  · rw [if_pos hc]
    exact ⟨n, Nat.lt_succ_self n, rfl, hc, fun j hj hlt => absurd hlt (by omega)⟩
  · rw [if_neg hc]
    have hcell : ∀ j < n + 1, (j < n → m (off p j) ≠ c) → m (off p j) ≠ c := by
      intro j hj hold
      rcases Nat.lt_succ_iff_lt_or_eq.1 hj with hlt | rfl
      · exact hold hlt
      · exact hc
    cases r with
    | none => exact fun j hj => hcell j hj (h j)
    | some q =>
        obtain ⟨i, hi, rfl, hq, hgt⟩ := h
        exact ⟨i, by omega, rfl, hq, fun j hj hlt => hcell j hj fun hj' => hgt j hj' hlt⟩

/-- The loop of `memrchr`, from the last of `n + 1` cells on. -/
lemma memrchrLoop_succ (m : ByteMem) (c : U8) (p : Ptr) (n : ℕ) :
    memrchrLoop m c (off p (n + 1) - 1) (n + 1) =
      if m (off p n) = c then some (off p n) else memrchrLoop m c (off p n - 1) n := by
  rw [off_succ', BitVec.add_sub_cancel, memrchrLoop]

lemma memrchrLoop_last (m : ByteMem) (c : U8) (p : Ptr) (n : ℕ) :
    IsLast m p n c (memrchrLoop m c (off p n - 1) n) := by
  induction n with
  | zero => exact fun i hi => absurd hi i.not_lt_zero
  | succ n ih =>
      rw [memrchrLoop_succ]
      exact ih.snoc

lemma memrchr_eq (m : ByteMem) (src : Ptr) (c : U32) (len : U64) :
    memrchr m src c len = memrchrLoop m (c.setWidth 8) (off src len.toNat - 1) len.toNat := by
  have hstart : src + (len - 1) = off src len.toNat - 1 := by
    rw [off, BitVec.ofNat_toNat, BitVec.setWidth_eq, BitVec.sub_eq_add_neg, BitVec.sub_eq_add_neg,
      BitVec.add_assoc]
  rw [memrchr, hstart]

/-- `memrchr` finds the last place of the byte. -/
theorem memrchr_last (m : ByteMem) (src : Ptr) (c : U32) (len : U64) :
    IsLast m src len.toNat (c.setWidth 8) (memrchr m src c len) := by
  rw [memrchr_eq]
  exact memrchrLoop_last m _ src _

/-- The loop of `strrchr` ends with what that of `memrchr` finds in the string with its
terminator. -/
lemma returns_strrchrBody (c : U8) (hx : IsStr m p x) : Returns (strrchrBody m c) (none, p)
    (memrchrLoop m c (off p (x.length + 1) - 1) (x.length + 1)) := by
  -- the loop has passed `k` cells, and `save` is the last place among them
  suffices H : ∀ (y : List U8) (k : ℕ), IsStr m (off p k) y →
      Returns (strrchrBody m c) (memrchrLoop m c (off p k - 1) k, off p k)
        (memrchrLoop m c (off p (k + y.length + 1) - 1) (k + y.length + 1)) by
    have h := H x 0 (by rwa [off_zero])
    rwa [off_zero, Nat.zero_add] at h
  intro y
  induction y with
  | nil =>
      intro k hy
      have h0 : m (off p k) = 0 := isStr_nil.1 hy
      rw [List.length_nil, Nat.add_zero, memrchrLoop_succ]
      exact .of_inr (if_pos h0)
  | cons b y ih =>
      intro k hy
      obtain ⟨hb, hb0, hy⟩ := isStr_cons.1 hy
      have h0 : m (off p k) ≠ 0 := fun h => hb0 (hb.symm.trans h)
      rw [← off_succ'] at hy
      have h := ih (k + 1) hy
      rw [memrchrLoop_succ, off_succ', Nat.add_right_comm k] at h
      rw [List.length_cons, ← Nat.add_assoc]
      exact h.head (if_neg h0)

/-- `strrchr` returns the last place of the byte in the string and its terminator. -/
theorem strrchr_last (m : ByteMem) (p : Ptr) (ch : U32) (x : List U8) (hx : IsStr m p x) :
    ∃ r, Strrchr m p ch r ∧ IsLast m p (x.length + 1) (ch.setWidth 8) r :=
  ⟨_, returns_strrchrBody _ hx, memrchrLoop_last m _ p _⟩

/-- The last `R` of a name. -/
theorem strrchr_last_sample :
    ∃ r, Strrchr sampleStrings 0x100 0x52 r ∧ IsLast sampleStrings 0x100 5 0x52 r :=
  strrchr_last sampleStrings 0x100 0x52 _ isStr_sampleStrings

/-! ### The terminator -/

lemma strlen_iff_first (m : ByteMem) (s : Ptr) (r : U64) : Strlen m s r ↔
    ∃ i, m (off s i) = 0 ∧ (∀ j < i, m (off s j) ≠ 0) ∧ off s i - s = r := by
  have hbody : strlenBody m s = scan (fun c => m c = 0) (fun c => c + 1) (fun c => c - s) := by
    funext c
    rw [strlenBody, scan, ite_not]
  rw [Strlen, hbody, returns_scan]
  simp only [iterate_add_one]

lemma strlen_of_isStr (hx : IsStr m s x) : Strlen m s (BitVec.ofNat 64 x.length) :=
  (strlen_iff_first m s _).2 ⟨_, hx.terminator, fun _ hj => hx.apply_ne hj, off_sub s _⟩

lemma isStr_of_strlen {r : U64} (h : Strlen m s r) : ∃ x, IsStr m s x ∧ r.toNat = x.length := by
  obtain ⟨i, h0, hlt, rfl⟩ := (strlen_iff_first m s r).1 h
  have hx := isStr_of_first h0 hlt
  have hlen := hx.length_lt
  refine ⟨_, hx, ?_⟩
  rw [length_bytes] at hlen ⊢
  exact off_toNat_sub s hlen

/-- `strlen` returns exactly if a string stands at `s`, and then its length. -/
theorem strlen_iff (m : ByteMem) (s : Ptr) (r : U64) :
    Strlen m s r ↔ ∃ x, IsStr m s x ∧ r.toNat = x.length := by
  constructor
  · exact isStr_of_strlen
  · rintro ⟨x, hx, hr⟩
    have h := strlen_of_isStr hx
    rwa [← hr, BitVec.ofNat_toNat, BitVec.setWidth_eq] at h

/-- `strnlen` returns how much of the string `maxlen` bytes hold; it needs no terminator. -/
theorem strnlen_eq (m : ByteMem) (s : Ptr) (maxlen : U64) :
    (strnlen m s maxlen).toNat = (strTake m s maxlen.toNat).length := by
  have h : ∀ (n : ℕ) (p : Ptr) (len : U64),
      strnlenLoop m p len n = off len (strTake m p n).length := by
    intro n
    induction n with
    | zero => exact fun p len => (off_zero len).symm
    | succ n ih =>
        intro p len
        rw [strnlenLoop, strTake_succ]
        by_cases h0 : m p = 0
        · rw [if_pos h0, if_pos h0]
          exact (off_zero len).symm
        · rw [if_neg h0, if_neg h0, ih, List.length_cons, off_succ]
  have hlt : (strTake m s maxlen.toNat).length < 2 ^ 64 := by
    have := length_strTake_le m s maxlen.toNat
    have := maxlen.isLt
    omega
  rw [strnlen, h]
  simpa using off_toNat_sub (0 : U64) hlt

/-! ### Strings as arrays -/

/-- On a string whose length `strlen` returns, `strchr` and `strrchr` are `memchr` and `memrchr`
with one byte more than that.  The sum is 0 if all of memory is one string. -/
theorem strchr_memchr (m : ByteMem) (p : Ptr) (ch : U32) (len : U64) (h : Strlen m p len)
    (hlen : len + 1 ≠ 0) : Strchr m p ch (memchr m p ch (len + 1)) ∧
      Strrchr m p ch (memrchr m p ch (len + 1)) := by
  obtain ⟨x, hx, he⟩ := isStr_of_strlen h
  have hsucc : (len + 1).toNat = x.length + 1 := by
    have hne : (len + 1).toNat ≠ 0 := fun h0 => hlen (BitVec.eq_of_toNat_eq h0)
    have hadd : (len + 1).toNat = (len.toNat + 1) % 2 ^ 64 := BitVec.toNat_add len 1
    have hlt := len.isLt
    omega
  rw [memrchr_eq, memchr, hsucc]
  exact ⟨returns_strchrBody _ hx, returns_strrchrBody _ hx⟩

theorem strchr_memchr_sample : Strchr sampleStrings 0x100 0x52 (memchr sampleStrings 0x100 0x52 5) ∧
    Strrchr sampleStrings 0x100 0x52 (memrchr sampleStrings 0x100 0x52 5) :=
  strchr_memchr sampleStrings 0x100 0x52 4 (strlen_of_isStr isStr_sampleStrings) (by decide)

end Arm64Mmu.Libc
