import Mathlib.Algebra.Group.Nat.Defs
import Mathlib.Data.List.Induction
import Mathlib.Data.Nat.Basic
import Mathlib.Logic.Function.Iterate

/-!
# Arrays and strings in a memory with wrapping addresses

A memory gives a value to every address `BitVec w`, and `off p i` is the address `i` cells after
`p`.  `bytes m p n` are the `n` cells from `p` on, `write m p bs` is the memory after the list
`bs` was stored there, and `IsStr m p s` says that the string `s` stands at `p`, with the
terminator behind it.
-/

namespace Arm64Mmu.Lib.Bytes

variable {w : ℕ} {β : Type*} {m m' : BitVec w → β} {p q a : BitVec w} {i j n k : ℕ}
  {bs cs : List β} {b c : β}

/-! ### Addresses -/

/-- The address `i` cells after `p`. -/
def off (p : BitVec w) (i : ℕ) : BitVec w := p + BitVec.ofNat w i

@[simp] lemma off_zero (p : BitVec w) : off p 0 = p := by simp [off]

lemma off_off (p : BitVec w) (i j : ℕ) : off (off p i) j = off p (i + j) := by
  rw [off, off, off, BitVec.ofNat_add, BitVec.add_assoc]

lemma off_one (p : BitVec w) : off p 1 = p + 1 := rfl

lemma off_succ (p : BitVec w) (i : ℕ) : off p (i + 1) = off (p + 1) i := by
  rw [← off_one, off_off, Nat.add_comm]

lemma off_succ' (p : BitVec w) (i : ℕ) : off p (i + 1) = off p i + 1 := by
  rw [← off_one, off_off]

lemma off_add_two_pow (p : BitVec w) (i : ℕ) : off p (i + 2 ^ w) = off p i := by
  have h : BitVec.ofNat w (i + 2 ^ w) = BitVec.ofNat w i :=
    BitVec.eq_of_toNat_eq (by rw [BitVec.toNat_ofNat, BitVec.toNat_ofNat, Nat.add_mod_right])
  rw [off, off, h]

lemma off_sub (p : BitVec w) (i : ℕ) : off p i - p = BitVec.ofNat w i := by
  rw [off, BitVec.add_comm, BitVec.add_sub_cancel]

lemma off_toNat_sub (p : BitVec w) (hi : i < 2 ^ w) : (off p i - p).toNat = i := by
  rw [off_sub, BitVec.toNat_ofNat, Nat.mod_eq_of_lt hi]

lemma off_inj (p : BitVec w) (hi : i < 2 ^ w) (hj : j < 2 ^ w) : off p i = off p j ↔ i = j := by
  constructor
  · intro h
    rw [← off_toNat_sub p hi, h, off_toNat_sub p hj]
  · rintro rfl
    rfl

/-- Every address is at some distance from `p`. -/
lemma off_toNat (p a : BitVec w) : off p (a - p).toNat = a := by
  rw [off, BitVec.ofNat_toNat, BitVec.setWidth_eq, BitVec.add_comm, BitVec.sub_add_cancel]

lemma add_one_sub_add_one (p q : BitVec w) : p + 1 - (q + 1) = p - q := by
  obtain ⟨k, rfl⟩ : ∃ k, p = off q k := ⟨_, (off_toNat q p).symm⟩
  rw [← off_succ', off_succ, off_sub, off_sub]

lemma iterate_add_one (p : BitVec w) (i : ℕ) : (fun q => q + 1)^[i] p = off p i := by
  induction i generalizing p with
  | zero => simp
  | succ i ih => rw [Function.iterate_succ_apply, ih, off_succ]

/-! ### Reading -/

/-- The `n` cells from `p` on. -/
def bytes (m : BitVec w → β) (p : BitVec w) (n : ℕ) : List β :=
  (List.range n).map fun i => m (off p i)

@[simp] lemma length_bytes (m : BitVec w → β) (p : BitVec w) (n : ℕ) :
    (bytes m p n).length = n := by
  simp [bytes]

@[simp] lemma bytes_zero (m : BitVec w → β) (p : BitVec w) : bytes m p 0 = [] := rfl

lemma bytes_succ (m : BitVec w → β) (p : BitVec w) (n : ℕ) :
    bytes m p (n + 1) = m p :: bytes m (p + 1) n := by
  simp [bytes, List.range_succ_eq_map, off_succ]

lemma bytes_add (m : BitVec w → β) (p : BitVec w) (n k : ℕ) :
    bytes m p (n + k) = bytes m p n ++ bytes m (off p n) k := by
  simp [bytes, List.range_add, off_off]

lemma bytes_succ' (m : BitVec w → β) (p : BitVec w) (n : ℕ) :
    bytes m p (n + 1) = bytes m p n ++ [m (off p n)] := by
  rw [bytes_add, bytes_succ, bytes_zero]

lemma getElem_bytes (h : i < (bytes m p n).length) : (bytes m p n)[i] = m (off p i) := by
  simp [bytes]

lemma mem_bytes : b ∈ bytes m p n ↔ ∃ i < n, m (off p i) = b := by
  simp [bytes]

lemma bytes_eq_iff : bytes m p n = bs ↔
    n = bs.length ∧ ∀ i, (h : i < bs.length) → m (off p i) = bs[i] := by
  constructor
  · rintro rfl
    exact ⟨(length_bytes ..).symm, fun i h => (getElem_bytes h).symm⟩
  · rintro ⟨rfl, h⟩
    refine List.ext_getElem (length_bytes ..) fun i hi hi' => ?_
    rw [getElem_bytes, h i hi']

lemma bytes_congr (h : ∀ i < n, m (off p i) = m' (off q i)) : bytes m p n = bytes m' q n := by
  rw [bytes, bytes]
  exact List.map_congr_left fun i hi => h i (List.mem_range.1 hi)

/-- The cells from `p` on up to a terminator, but no more than `n` of them. -/
def strTake [Zero β] [DecidableEq β] (m : BitVec w → β) (p : BitVec w) (n : ℕ) : List β :=
  (bytes m p n).takeWhile fun b => b ≠ 0

section

variable [Zero β] [DecidableEq β]

lemma strTake_succ (m : BitVec w → β) (p : BitVec w) (n : ℕ) :
    strTake m p (n + 1) = if m p = 0 then [] else m p :: strTake m (p + 1) n := by
  rw [strTake, bytes_succ, List.takeWhile_cons]
  by_cases h : m p = 0
  · simp [h]
  · simp [h, strTake]

lemma length_strTake_le (m : BitVec w → β) (p : BitVec w) (n : ℕ) : (strTake m p n).length ≤ n := by
  have h := (List.takeWhile_prefix (l := bytes m p n) fun b => decide (b ≠ 0)).length_le
  rwa [length_bytes] at h

end

/-! ### Writing -/

/-- The memory after `bs` was stored from `p` on. -/
def write (m : BitVec w → β) (p : BitVec w) (bs : List β) : BitVec w → β :=
  fun a => (bs[(a - p).toNat]?).getD (m a)

@[simp] lemma write_nil (m : BitVec w → β) (p : BitVec w) : write m p [] = m := rfl

lemma write_off (m : BitVec w → β) (p : BitVec w) (hi : i < bs.length) (hw : bs.length ≤ 2 ^ w) :
    write m p bs (off p i) = bs[i] := by
  rw [write, off_toNat_sub p (Nat.lt_of_lt_of_le hi hw), List.getElem?_eq_getElem hi,
    Option.getD_some]

lemma write_of_le (m : BitVec w → β) (h : bs.length ≤ (a - p).toNat) : write m p bs a = m a := by
  rw [write, List.getElem?_eq_none h, Option.getD_none]

/-- What is not one of the cells stored to is as before. -/
lemma write_of_ne (m : BitVec w → β) (h : ∀ i < bs.length, a ≠ off p i) :
    write m p bs a = m a := by
  refine write_of_le m (Nat.not_lt.1 fun hlt => ?_)
  exact h _ hlt (off_toNat p a).symm

/-- One more store behind those made. -/
lemma write_snoc (m : BitVec w → β) (p : BitVec w) (b : β) (hw : bs.length < 2 ^ w) :
    write m p (bs ++ [b]) = Function.update (write m p bs) (off p bs.length) b := by
  funext a
  by_cases ha : a = off p bs.length
  · subst ha
    rw [Function.update_self, write_off _ _ (by simp) (by simpa [Nat.succ_le_iff] using hw)]
    simp
  · rw [Function.update_of_ne ha, write, write]
    by_cases hlt : (a - p).toNat < bs.length
    · rw [List.getElem?_append_left hlt]
    · have hne : (a - p).toNat ≠ bs.length := fun h => ha (by rw [← h, off_toNat])
      have hle : (bs ++ [b]).length ≤ (a - p).toNat := by
        rw [List.length_append, List.length_singleton]
        omega
      rw [List.getElem?_eq_none hle, List.getElem?_eq_none (Nat.not_lt.1 hlt)]

/-- The first store before the others. -/
lemma write_cons (m : BitVec w → β) (p : BitVec w) (b : β) (hw : bs.length < 2 ^ w) :
    write m p (b :: bs) = write (Function.update m p b) (p + 1) bs := by
  induction bs using List.reverseRecOn with
  | nil =>
      have h : write m p ([] ++ [b]) = _ := write_snoc m p b hw
      simpa using h
  | append_singleton bs c ih =>
      have hlen : bs.length + 1 < 2 ^ w := by simpa using hw
      rw [← List.cons_append, write_snoc _ _ _ (by simpa using hlen), ih (by omega),
        write_snoc _ _ _ (by omega), List.length_cons, off_succ]

/-- A store to a cell that is not written afterwards. -/
lemma write_update (m : BitVec w → β) (b : β) (h : bs.length ≤ i) (hi : i < 2 ^ w) :
    write (Function.update m (off p i) b) p bs = Function.update (write m p bs) (off p i) b := by
  funext a
  by_cases ha : a = off p i
  · subst ha
    rw [write_of_le _ (by rwa [off_toNat_sub p hi]), Function.update_self, Function.update_self]
  · rw [Function.update_of_ne ha, write, write, Function.update_of_ne ha]

/-- The `n` cells from `p` on and the `k` cells from `q` on have none in common. -/
def Apart (p : BitVec w) (n : ℕ) (q : BitVec w) (k : ℕ) : Prop :=
  ∀ i < n, ∀ j < k, off p i ≠ off q j

instance : Decidable (Apart p n q k) :=
  inferInstanceAs (Decidable (∀ i < n, ∀ j < k, off p i ≠ off q j))

lemma Apart.mono {n' k' : ℕ} (h : Apart p n q k) (hn : n' ≤ n) (hk : k' ≤ k) :
    Apart p n' q k' := fun i hi j hj =>
  h i (Nat.lt_of_lt_of_le hi hn) j (Nat.lt_of_lt_of_le hj hk)

lemma Apart.head (h : Apart p (n + 1) q k) : ∀ j < k, off q j ≠ p := fun j hj he =>
  h 0 n.succ_pos j hj (by rw [off_zero, he])

lemma Apart.tail (h : Apart p (n + 1) q (k + 1)) : Apart (p + 1) n (q + 1) k := by
  intro i hi j hj
  rw [← off_succ, ← off_succ]
  exact h (i + 1) (Nat.succ_lt_succ hi) (j + 1) (Nat.succ_lt_succ hj)

/-- What is apart from the cells written is as before. -/
lemma Apart.write_off (h : Apart p bs.length q k) (hi : i < k) :
    write m p bs (off q i) = m (off q i) :=
  write_of_ne m fun j hj he => h j hj i hi he.symm

/-! ### Strings -/

variable [Zero β] {s t : List β}

/-- The string `s` stands at `p`, and the terminator behind it. -/
structure IsStr (m : BitVec w → β) (p : BitVec w) (s : List β) : Prop where
  bytes : bytes m p s.length = s
  terminator : m (off p s.length) = 0
  not_mem : 0 ∉ s

lemma isStr_nil : IsStr m p [] ↔ m p = 0 := by
  constructor
  · intro h
    simpa using h.terminator
  · intro h
    exact ⟨rfl, by simpa using h, by simp⟩

lemma isStr_cons : IsStr m p (c :: s) ↔ m p = c ∧ c ≠ 0 ∧ IsStr m (p + 1) s := by
  constructor
  · rintro ⟨hb, ht, h0⟩
    rw [List.length_cons, bytes_succ, List.cons.injEq] at hb
    rw [List.length_cons, off_succ] at ht
    rw [List.mem_cons, not_or] at h0
    exact ⟨hb.1, fun h => h0.1 h.symm, hb.2, ht, h0.2⟩
  · rintro ⟨rfl, hc, hb, ht, h0⟩
    refine ⟨?_, ?_, ?_⟩
    · rw [List.length_cons, bytes_succ, hb]
    · rw [List.length_cons, off_succ, ht]
    · rw [List.mem_cons, not_or]
      exact ⟨fun h => hc h.symm, h0⟩

lemma IsStr.apply (h : IsStr m p s) (hi : i < s.length) : m (off p i) = s[i] :=
  (bytes_eq_iff.1 h.bytes).2 i hi

lemma IsStr.apply_ne (h : IsStr m p s) (hi : i < s.length) : m (off p i) ≠ 0 := fun h0 =>
  h.not_mem (by rw [← h0, h.apply hi]; exact List.getElem_mem hi)

lemma IsStr.strTake [DecidableEq β] (h : IsStr m p s) (n : ℕ) : strTake m p n = s.take n := by
  induction s generalizing p n with
  | nil =>
      cases n with
      | zero => rfl
      | succ n => rw [strTake_succ, if_pos (isStr_nil.1 h), List.take_nil]
  | cons c s ih =>
      obtain ⟨hc, hc0, hs⟩ := isStr_cons.1 h
      cases n with
      | zero => rfl
      | succ n => rw [strTake_succ, hc, if_neg hc0, ih hs, List.take_succ_cons]

/-- One string stands at an address. -/
lemma IsStr.unique (h : IsStr m p s) (h' : IsStr m p t) : s = t := by
  have hlen : s.length = t.length := by
    rcases Nat.lt_trichotomy s.length t.length with hlt | he | hlt
    · exact absurd h.terminator (h'.apply_ne hlt)
    · exact he
    · exact absurd h'.terminator (h.apply_ne hlt)
  rw [← h.bytes, ← h'.bytes, hlen]

/-- The addresses wrap around, so that a string is shorter than the memory. -/
lemma IsStr.length_lt (h : IsStr m p s) : s.length < 2 ^ w := by
  by_contra hle
  obtain ⟨k, hk⟩ := Nat.exists_eq_add_of_le (Nat.not_lt.1 hle)
  have hpos := Nat.two_pow_pos w
  refine h.apply_ne (show k < s.length by omega) ?_
  rw [← h.terminator, hk, Nat.add_comm, off_add_two_pow]

/-- A string is what it is where its cells and the terminator are. -/
lemma IsStr.congr (h : IsStr m p s) (hm : ∀ i ≤ s.length, m' (off q i) = m (off p i)) :
    IsStr m' q s where
  bytes := (bytes_congr fun i hi => hm i (Nat.le_of_lt hi)).trans h.bytes
  terminator := (hm _ (Nat.le_refl _)).trans h.terminator
  not_mem := h.not_mem

/-- A store apart from a string. -/
lemma IsStr.update (h : IsStr m p s) (b : β) (hne : ∀ j < s.length + 1, off p j ≠ a) :
    IsStr (Function.update m a b) p s :=
  h.congr fun j hj => Function.update_of_ne (hne j (Nat.lt_succ_of_le hj)) _ _

/-- Stores apart from a string. -/
lemma IsStr.write (h : IsStr m p s) (hap : Apart q bs.length p (s.length + 1)) :
    IsStr (write m q bs) p s :=
  h.congr fun _ hj => hap.write_off (Nat.lt_succ_of_le hj)

/-- The end of a string is a string. -/
lemma IsStr.drop (h : IsStr m p s) (hn : n ≤ s.length) : IsStr m (off p n) (s.drop n) := by
  induction n generalizing p s with
  | zero => simpa using h
  | succ n ih =>
      cases s with
      | nil => simp at hn
      | cons c s =>
          rw [List.drop_succ_cons, off_succ]
          exact ih (isStr_cons.1 h).2.2 (by simpa using hn)

/-- A string that was written with its terminator. -/
lemma isStr_write (m : BitVec w → β) (p : BitVec w) (h0 : 0 ∉ s) (hw : s.length < 2 ^ w) :
    IsStr (Bytes.write m p (s ++ [0])) p s where
  bytes := bytes_eq_iff.2 ⟨rfl, fun i hi => by
    rw [write_off m p (by simp; omega) (by simpa [Nat.succ_le_iff] using hw),
      List.getElem_append_left hi]⟩
  terminator := by
    rw [write_off m p (by simp) (by simpa [Nat.succ_le_iff] using hw)]
    simp
  not_mem := h0

/-- The string of the cells before the first terminator. -/
lemma isStr_of_first (h0 : m (off p n) = 0) (h : ∀ i < n, m (off p i) ≠ 0) :
    IsStr m p (Bytes.bytes m p n) where
  bytes := by rw [length_bytes]
  terminator := by rwa [length_bytes]
  not_mem := by
    rw [mem_bytes]
    rintro ⟨i, hi, he⟩
    exact h i hi he

end Arm64Mmu.Lib.Bytes
