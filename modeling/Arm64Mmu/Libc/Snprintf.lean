import Arm64Mmu.Libc.Printed
import Arm64Mmu.Libc.Search
import Arm64Mmu.Libc.Strlcpy

/-!
# `snprintf` prints into a bounded array

If the array overlaps neither the format nor the strings that it prints, `snprintf` leaves in it
what the format means, cut as `strlcpy` cuts a string (`snprintf_truncates`, `snprintf_strlcpy`), so
that the value returned shows whether it was cut (`snprintf_whole`).  On the conversions that it
shares with `printf` both print the same characters (`snprintf_agrees`).
-/

namespace Arm64Mmu.Snprintf

open Lib Lib.Bytes Lib.Numeral Lib.Return Printf

variable {strs : Strings} {va : VaList} {m : ByteMem} {s p : Ptr} {n : U64} {c d : U8}
  {cs fmt x : List U8} {is : List Item} {l : Label} {a N : ℕ}

/-! ### Formats -/

/-- The conversions of `snprintf`. -/
def convOf (c : U8) : Option Conv :=
  if c = ch 'i' ∨ c = ch 'd' then some .dec
  else if c = ch 's' then some .str
  else if c = ch 'u' then some .udec
  else none

/-- The items of a format.  Other conversions are passed over.  The terminator is passed over too
if it stands behind a `%`, and the format goes on behind it, so that the list of its characters
ends only at the next one. -/
def parse : List U8 → Option (List Item)
  | [] => some []
  | c :: fmt =>
      if c = 0 then none
      else if c = ch '%' then
        match fmt with
        | [] => none
        | c :: fmt =>
            match convOf c with
            | some k => (parse fmt).map fun is => .conv k 0 0 :: is
            | none => parse fmt
      else (parse fmt).map fun is => .lit c :: is

/-- How `parse` takes a format apart. -/
inductive Parses : List U8 → List Item → Prop
  | nil : Parses [] []
  | lit {c : U8} {fmt : List U8} {is : List Item} (h0 : c ≠ 0) (hc : c ≠ ch '%')
      (h : Parses fmt is) : Parses (c :: fmt) (.lit c :: is)
  | conv {d : U8} {k : Conv} {fmt : List U8} {is : List Item} (hd : convOf d = some k)
      (h : Parses fmt is) : Parses (ch '%' :: d :: fmt) (.conv k 0 0 :: is)
  | skip {d : U8} {fmt : List U8} {is : List Item} (hd : convOf d = none)
      (h : Parses fmt is) : Parses (ch '%' :: d :: fmt) is

lemma Parses.of_parse (h : parse fmt = some is) : Parses fmt is := by
  induction hk : fmt.length using Nat.strong_induction_on generalizing fmt is with
  | _ k ih =>
  subst hk
  cases fmt with
  | nil =>
      obtain rfl := Option.some.inj h
      exact .nil
  | cons c fmt =>
      rw [parse.eq_def] at h
      simp only at h
      split_ifs at h with h0 hc
      · subst hc
        cases fmt with
        | nil => exact absurd h (by simp)
        | cons d fmt =>
            have ih := fun {js} (hj : parse fmt = some js) => ih fmt.length (by simp) hj rfl
            cases hd : convOf d with
            | none => exact .skip hd (ih (by simpa only [hd] using h))
            | some k =>
                simp only [hd, Option.map_eq_some_iff] at h
                obtain ⟨js, hjs, rfl⟩ := h
                exact .conv hd (ih hjs)
      · obtain ⟨js, hjs, rfl⟩ := Option.map_eq_some_iff.1 h
        exact .lit h0 hc (ih fmt.length (Nat.lt_succ_self _) hjs rfl)

example : parse (lit "a%" ++ [0] ++ lit "%xb") = some [.lit (ch 'a'), .lit (ch 'b')] := by decide

/-! ### What the array does not overlap -/

/-- The characters `x` stand at `p` with a terminator behind them, apart from the array of `N`
characters at `s`. -/
structure Kept (m : ByteMem) (s : Ptr) (N : ℕ) (p : Ptr) (x : List U8) : Prop where
  bytes : bytes m p (x.length + 1) = x ++ [0]
  apart : Apart s N p (x.length + 1)

/-- A string argument, apart from the array. -/
def KeptStr (strs : Strings) (m : ByteMem) (s : Ptr) (N : ℕ) (p : U64) : Prop :=
  Kept m s N p (strs p) ∧ 0 ∉ strs p

lemma Kept.of_isStr (h : IsStr m p x) (hap : Apart s N p (x.length + 1)) : Kept m s N p x where
  bytes := by rw [bytes_succ', h.bytes, h.terminator]
  apart := hap

/-- Stores into the array. -/
lemma Kept.write (h : Kept m s N p x) {bs : List U8} (hbs : bs.length ≤ N) :
    Kept (write m s bs) s N p x where
  bytes := (bytes_congr fun _ hi => (h.apart.mono hbs le_rfl).write_off hi).trans h.bytes
  apart := h.apart

lemma Kept.nil (h : Kept m s N p []) : m p = 0 := by
  simpa [bytes_succ] using h.bytes

lemma Kept.cons (h : Kept m s N p (c :: x)) : m p = c ∧ Kept m s N (p + 1) x := by
  have hb := h.bytes
  rw [List.length_cons, bytes_succ, List.cons_append, List.cons.injEq] at hb
  refine ⟨hb.1, hb.2, fun i hi j hj => ?_⟩
  rw [← off_succ]
  exact h.apart i hi (j + 1) (Nat.succ_lt_succ hj)

/-! ### The loops -/

/-- The state after the characters `cs` were printed into the array of `n` characters at `s`. -/
def printed (m : ByteMem) (s : Ptr) (n : U64) (cs : List U8) (l : Label) (p : Ptr) (a : ℕ) :
    State :=
  ⟨l, write m s (cs.take n.toNat), off s (cs.take n.toNat).length, p, a, BitVec.ofNat 64 cs.length⟩

lemma put_printed (hlt : cs.length < 2 ^ 64) :
    (printed m s n cs l p a).put n c = printed m s n (cs ++ [c]) l p a := by
  have hn := n.isLt
  have hroom : BitVec.ofNat 64 cs.length < n ↔ cs.length < n.toNat := by
    rw [BitVec.lt_def, BitVec.toNat_ofNat, Nat.mod_eq_of_lt hlt]
  have hcount : BitVec.ofNat 64 (cs ++ [c]).length = BitVec.ofNat 64 cs.length + 1 := by
    rw [List.length_append, List.length_singleton, BitVec.ofNat_add]
    rfl
  rw [printed, State.put, printed, hcount]
  by_cases h : cs.length < n.toNat
  · have ht : cs.take n.toNat = cs := List.take_of_length_le (by omega)
    have ht' : (cs ++ [c]).take n.toNat = cs ++ [c] := List.take_of_length_le (by simp; omega)
    simp only [hroom, h, if_true]
    rw [ht, ht', write_snoc _ _ _ hlt, List.length_append, List.length_singleton, off_succ']
  · have ht' : (cs ++ [c]).take n.toNat = cs.take n.toNat :=
      List.take_append_of_le_length (by omega)
    simp only [hroom, h, if_false]
    rw [ht']

lemma foldl_put_printed (hlt : cs.length + x.length < 2 ^ 64) :
    x.foldl (fun t c => State.put t n c) (printed m s n cs l p a) =
      printed m s n (cs ++ x) l p a := by
  induction x generalizing cs with
  | nil => rw [List.foldl_nil, List.append_nil]
  | cons c x ih =>
      rw [List.length_cons] at hlt
      rw [List.foldl_cons, put_printed (by omega), ih (by simp; omega), List.append_assoc,
        List.singleton_append]

lemma digit_eq {d : ℕ} (hd : d < 10) :
    ch '0' + (BitVec.ofNat 32 d).setWidth 8 = digitChar d := by
  interval_cases d <;> rfl

/-- `unsigned_dec_print` prints the number: `num_buf` has room for every 32-bit number. -/
lemma print_printed {unum : U32} (hlt : cs.length + (number 10 unum.toNat 0).length < 2 ^ 64) :
    (printed m s n cs l p a).print n unum =
      .inl (printed m s n (cs ++ number 10 unum.toNat 0) l (p + 1) a) := by
  have hlen : (low 10 unum.toNat).length ≤ 10 :=
    length_low_le (by decide) (by decide) (unum.isLt.trans_le (by decide))
  have hdigits : (low 10 unum.toNat).map (fun d => ch '0' + (BitVec.ofNat 32 d).setWidth 8) =
      (low 10 unum.toNat).map digitChar :=
    List.map_congr_left fun d hd => digit_eq (lt_of_mem_low (by decide) hd)
  have hbuf : numBufLoop (fun rem : U32 => ch '0' + rem.setWidth 8) 10 10 unum =
      some ((low 10 unum.toNat).map digitChar) :=
    (numBufLoop_eq _ (by decide) hlen).trans (congrArg some hdigits)
  have h0 : (0 : U32).toInt.toNat = 0 := by decide
  have hnum : number 10 unum.toNat 0 = ((low 10 unum.toNat).map digitChar).reverse := by
    rw [number_eq, h0, Nat.zero_sub, List.replicate_zero, List.nil_append]
  rw [hnum] at hlt ⊢
  rw [State.print, unsignedDecPrint, hbuf, Option.map_some, putDigits_eq, foldl_put_printed hlt]
  rfl

/-- What `%d` prints of a negative `int`; without padding the sign takes no place. -/
lemma dec_out_of_slt {arg : U64} (h : (arg.setWidth 32).slt 0 = true) :
    (Conv.dec.out strs arg 0 0).chars = ch '-' :: number 10 (-arg.setWidth 32).toNat 0 := by
  have hneg : numArg arg 0 < 0 := by simpa [BitVec.slt, numArg] using h
  rw [toNat_neg_of_slt h, Conv.out]
  exact congrArg Out.chars (if_pos hneg)

lemma dec_out_of_not_slt {arg : U64} (h : ¬ (arg.setWidth 32).slt 0 = true) :
    (Conv.dec.out strs arg 0 0).chars = number 10 (arg.setWidth 32).toNat 0 := by
  have hneg : ¬ numArg arg 0 < 0 := by simpa [BitVec.slt, numArg] using h
  rw [toNat_of_not_slt h, Conv.out]
  exact congrArg Out.chars (if_neg hneg)

/-- What is apart from the array is read as it was. -/
lemma Kept.take (hk : Kept m s N p x) (hN : n.toNat ≤ N) (cs : List U8) :
    Kept (Bytes.write m s (cs.take n.toNat)) s N p x :=
  hk.write ((List.length_take_le ..).trans hN)

/-- A character of the format is read. -/
lemma read_printed (hk : Kept m s N p (c :: x)) (hN : n.toNat ≤ N) :
    (printed m s n cs l p a).m (printed m s n cs l p a).fmt = c :=
  (hk.take hN cs).cons.1

/-- The loop of `string_print` prints the string. -/
lemma returns_string {q : Ptr} {r : Option State} (hk : Kept m s N q x) (hN : n.toNat ≤ N)
    (h0 : 0 ∉ x) (hlt : cs.length + x.length < 2 ^ 64)
    (h : Returns (step va n) (printed m s n (cs ++ x) .head (p + 1) a) r) :
    Returns (step va n) (printed m s n cs (.string q) p a) r := by
  induction x generalizing q cs with
  | nil =>
      have hend : (printed m s n cs (.string q) p a).m q = 0 := (hk.take hN cs).nil
      have hstep : step va n (printed m s n cs (.string q) p a) =
          .inl (printed m s n cs .head (p + 1) a) := by
        change Sum.inl (stringPrint n q _) = _
        rw [stringPrint, if_neg (not_not.2 hend)]
        rfl
      rw [List.append_nil] at h
      exact .head hstep h
  | cons c x ih =>
      rw [List.length_cons] at hlt
      rw [List.mem_cons, not_or] at h0
      have hc : (printed m s n cs (.string q) p a).m q = c := (hk.take hN cs).cons.1
      have hstep : step va n (printed m s n cs (.string q) p a) =
          .inl (printed m s n (cs ++ [c]) (.string (q + 1)) p a) := by
        change Sum.inl (stringPrint n q _) = _
        rw [stringPrint, hc, if_pos (Ne.symm h0.1), put_printed (by omega)]
        rfl
      refine .head hstep (ih hk.cons.2 h0.2 (by simp; omega) ?_)
      rwa [List.append_assoc, List.singleton_append]

/-- One conversion, with `fmt` behind the `%`. -/
lemma returns_convert {k : Conv} {r : Option State} (hk : Kept m s N p (d :: fmt))
    (hN : n.toNat ≤ N) (hd : convOf d = some k) (hs : k = .str → KeptStr strs m s N (va a))
    (hlt : cs.length + (k.out strs (va a) 0 0).chars.length < 2 ^ 64)
    (h : Returns (step va n)
      (printed m s n (cs ++ (k.out strs (va a) 0 0).chars) .head (p + 1) (a + 1)) r) :
    ∃ t, convert va n (printed m s n cs .head p a) = .inl t ∧ Returns (step va n) t r := by
  rw [convOf] at hd
  rw [convert]
  simp only [read_printed hk hN]
  split_ifs at hd with h1 h2 h3
  · obtain rfl := Option.some.inj hd
    rw [if_pos h1]
    change ∃ t, (if ((va a).setWidth 32).slt 0 = true then
      ((printed m s n cs .head p (a + 1)).put n (ch '-')).print n (-(va a).setWidth 32)
        else (printed m s n cs .head p (a + 1)).print n ((va a).setWidth 32)) = .inl t ∧ _
    split_ifs with hneg
    · -- the sign, and the number negated
      rw [dec_out_of_slt hneg] at h hlt
      rw [List.length_cons] at hlt
      refine ⟨_, ?_, h⟩
      rw [put_printed (by omega), print_printed, List.append_assoc, List.singleton_append]
      rw [List.length_append, List.length_singleton]
      omega
    · rw [dec_out_of_not_slt hneg] at h hlt
      exact ⟨_, print_printed hlt, h⟩
  · obtain rfl := Option.some.inj hd
    obtain ⟨hx, h0⟩ := hs rfl
    rw [if_neg h1, if_pos h2]
    exact ⟨_, rfl, returns_string hx hN h0 hlt h⟩
  · obtain rfl := Option.some.inj hd
    rw [if_neg h1, if_neg h2, if_pos h3]
    exact ⟨_, print_printed hlt, h⟩

/-- Any other character behind a `%`. -/
lemma convert_skip (hk : Kept m s N p (d :: fmt)) (hN : n.toNat ≤ N) (hd : convOf d = none) :
    convert va n (printed m s n cs .head p a) = .inl (printed m s n cs .head (p + 1) a) := by
  rw [convOf] at hd
  split_ifs at hd with h1 h2 h3
  rw [convert]
  simp only [read_printed hk hN, if_neg h1, if_neg h2, if_neg h3]
  rfl

/-- From the head of the loop on. -/
lemma step_head {t : State} (hl : t.label = .head) (hc : t.m t.fmt = c) : step va n t =
    if c = 0 then .inr (some t)
    else if c = ch '%' then convert va n { t with fmt := t.fmt + 1 }
    else .inl { t.put n c with fmt := t.fmt + 1 } := by
  rw [step, hl, hc]

/-- The loop prints what the items of the format mean. -/
lemma returns_printed (hp : Parses fmt is) (hk : Kept m s N p fmt) (hN : n.toNat ≤ N)
    (hs : StrArgs va (KeptStr strs m s N) a is)
    (hlt : cs.length + (render strs va a is).chars.length < 2 ^ 64) :
    ∃ a', Returns (step va n) (printed m s n cs .head p a)
      (some (printed m s n (cs ++ (render strs va a is).chars) .head (off p fmt.length) a')) := by
  induction hp generalizing cs p a with
  | nil =>
      have hend : (printed m s n cs .head p a).m p = 0 := (hk.take hN cs).nil
      refine ⟨a, .of_inr ?_⟩
      rw [step_head rfl hend, if_pos rfl, render, Out.empty, List.append_nil, List.length_nil,
        off_zero]
  | @lit c fmt is h0 hc h ih =>
      simp only [render, Out.append, Out.ofChars, List.length_append, List.length_singleton] at hlt
      have hlt' : (cs ++ [c]).length + (render strs va a is).chars.length < 2 ^ 64 := by
        rw [List.length_append, List.length_singleton]
        omega
      have hstep : step va n (printed m s n cs .head p a) =
          .inl (printed m s n (cs ++ [c]) .head (p + 1) a) := by
        rw [step_head rfl (read_printed hk hN), if_neg h0, if_neg hc, put_printed (by omega)]
        rfl
      obtain ⟨a', ih⟩ := ih hk.cons.2 hs hlt'
      rw [List.append_assoc, ← off_succ] at ih
      exact ⟨a', .head hstep ih⟩
  | @conv d k fmt is hd h ih =>
      simp only [render, Out.append, List.length_append] at hlt
      have hlt' : (cs ++ (k.out strs (va a) 0 0).chars).length +
          (render strs va (a + 1) is).chars.length < 2 ^ 64 := by
        rw [List.length_append]
        omega
      obtain ⟨a', ih⟩ := ih hk.cons.2.cons.2 hs.2 hlt'
      rw [List.append_assoc, ← off_succ, ← off_succ] at ih
      obtain ⟨t, ht, hr⟩ := returns_convert hk.cons.2 hN hd hs.1 (by omega) ih
      refine ⟨a', Returns.head ?_ hr⟩
      rw [step_head rfl (read_printed hk hN), if_neg (by decide), if_pos rfl]
      exact ht
  | @skip d fmt is hd h ih =>
      obtain ⟨a', ih⟩ := ih hk.cons.2.cons.2 hs hlt
      rw [← off_succ, ← off_succ] at ih
      refine ⟨a', Returns.head ?_ ih⟩
      rw [step_head rfl (read_printed hk hN), if_neg (by decide), if_pos rfl]
      exact convert_skip hk.cons.2 hN hd

/-! ### The array -/

/-- `snprintf` returns one value at most. -/
lemma unique {r r' : Option (ByteMem × U32)} (h : Snprintf va m s n p r)
    (h' : Snprintf va m s n p r') : r = r' := by
  obtain ⟨t, ht, rfl⟩ := h
  obtain ⟨t', ht', rfl⟩ := h'
  rw [ht.unique ht']

/-- The loop from the start of the output on. -/
lemma returns_start (hp : Parses fmt is) (hk : Kept m s N p fmt) (hN : n.toNat ≤ N)
    (hs : StrArgs va (KeptStr strs m s N) 0 is)
    (hlt : (render strs va 0 is).chars.length < 2 ^ 64) :
    ∃ a', Returns (step va n) ⟨.head, m, s, p, 0, 0⟩
      (some (printed m s n (render strs va 0 is).chars .head (off p fmt.length) a')) := by
  have hstart : printed m s n [] .head p 0 = ⟨.head, m, s, p, 0, 0⟩ := by simp [printed]
  have hlt' : ([] : List U8).length + (render strs va 0 is).chars.length < 2 ^ 64 := by
    simpa using hlt
  obtain ⟨a', h⟩ := returns_printed hp hk hN hs hlt'
  rw [hstart] at h
  exact ⟨a', h⟩

/-- The loop prints into what is left without the place of the terminator, which is stored last. -/
lemma snprintf_of_parses (hp : Parses fmt is) (hk : Kept m s n.toNat p fmt)
    (hs : StrArgs va (KeptStr strs m s n.toNat) 0 is)
    (hlt : (render strs va 0 is).chars.length < 2 ^ 64) :
    Snprintf va m s n p (some (write m s (Libc.cutString (render strs va 0 is).chars n),
      BitVec.ofNat 32 (render strs va 0 is).chars.length)) := by
  have hcount : (BitVec.ofNat 64 (render strs va 0 is).chars.length).setWidth 32 =
      BitVec.ofNat 32 (render strs va 0 is).chars.length :=
    BitVec.setWidth_ofNat_of_le (by decide) _
  rw [Snprintf]
  by_cases h0 : n = 0
  · have hn : n.toNat = 0 := by rw [h0]; rfl
    obtain ⟨a', h⟩ := returns_start hp hk le_rfl hs hlt
    rw [if_pos h0]
    refine ⟨_, h, ?_⟩
    simp [printed, Libc.cutString, hcount, h0]
  by_cases h1 : n = 1
  · have hbs : [(0 : U8)].length ≤ n.toNat := by rw [h1]; rfl
    have hw : write m s [0] = Function.update m s 0 := by
      rw [write_cons _ _ _ (by decide), write_nil]
    obtain ⟨a', h⟩ := returns_start (n := 0) hp (hk.write hbs) (Nat.zero_le _)
      (hs.imp fun q hq => ⟨hq.1.write hbs, hq.2⟩) hlt
    rw [hw] at h
    rw [if_neg h0, if_pos h1]
    refine ⟨_, h, ?_⟩
    simpa [printed, Libc.cutString, hcount, h1] using hw
  · have hlt' := n.isLt
    have hn : 2 ≤ n.toNat := by
      by_contra hlt
      have h01 : n.toNat = 0 ∨ n.toNat = 1 := by omega
      rcases h01 with h | h
      · exact h0 (BitVec.eq_of_toNat_eq h)
      · exact h1 (BitVec.eq_of_toNat_eq h)
    have hsub : (n - 1).toNat = n.toNat - 1 := by
      rw [BitVec.toNat_sub_of_le (by rw [BitVec.le_def]; exact (by decide : 1 ≤ 2).trans hn)]
      rfl
    have hpos : 0 < n - 1 := by
      rw [BitVec.lt_def, hsub]
      exact Nat.sub_pos_of_lt hn
    have hlen := List.length_take_le (n.toNat - 1) (render strs va 0 is).chars
    obtain ⟨a', h⟩ := returns_start hp hk (by rw [hsub]; omega) hs hlt
    rw [if_neg h0, if_neg h1]
    refine ⟨_, h, ?_⟩
    simp only [h0, if_false, Option.map_some, hpos, if_true, printed, hsub, Libc.cutString, hcount]
    rw [write_snoc _ _ _ (by omega)]

/-- The sample strings, with a format at `0x200`. -/
def sampleFormat (fmt : List U8) : ByteMem := write sampleStrings 0x200 (fmt ++ [0])

lemma isStr_sampleFormat (fmt : List U8) (h0 : 0 ∉ fmt) (hlen : fmt.length < 16) :
    IsStr (sampleFormat fmt) 0x200 fmt ∧ IsStr (sampleFormat fmt) 0x100 (lit "UART") := by
  refine ⟨isStr_write _ _ h0 (by omega), isStr_sampleStrings.write ?_⟩
  have hap : Apart (0x200 : Ptr) 16 0x100 5 := by decide
  exact hap.mono (by simp; omega) le_rfl

lemma kept_sampleFormat (fmt : List U8) (h0 : 0 ∉ fmt) (hlen : fmt.length < 16) :
    Kept (sampleFormat fmt) 0x300 8 0x200 fmt ∧
      KeptStr (fun _ => lit "UART") (sampleFormat fmt) 0x300 8 0x100 := by
  obtain ⟨h₁, h₂⟩ := isStr_sampleFormat fmt h0 hlen
  have hap : Apart (0x300 : Ptr) 8 0x200 16 := by decide
  exact ⟨.of_isStr h₁ (hap.mono le_rfl (by omega)), .of_isStr h₂ (by decide), by decide⟩

/-- If the array overlaps neither the format nor a string that it prints, `snprintf` leaves what
the format means in the array, cut to fit with a terminator, changes nothing else and returns the
whole length. -/
theorem snprintf_truncates (strs : Strings) (va : VaList) (m : ByteMem) (s : Ptr) (n : U64)
    (p : Ptr) (fmt : List U8) (is : List Item) (hp : parse fmt = some is)
    (hk : Kept m s n.toNat p fmt) (hs : StrArgs va (KeptStr strs m s n.toNat) 0 is)
    (hlt : (render strs va 0 is).chars.length < 2 ^ 64) (r : Option (ByteMem × U32)) :
    Snprintf va m s n p r ↔
      let cs := (render strs va 0 is).chars
      r = some (write m s (Libc.cutString cs n), BitVec.ofNat 32 cs.length) := by
  have h := snprintf_of_parses (Parses.of_parse hp) hk hs hlt
  refine ⟨fun hr => hr.unique h, ?_⟩
  rintro rfl
  exact h

lemma parse_sampleFormat : parse (lit "%s: %d") =
    some [.conv .str 0 0, .lit (ch ':'), .lit (ch ' '), .conv .dec 0 0] := by decide

/-- Ten characters into eight bytes. -/
theorem snprintf_truncates_sample :
    Snprintf (fun i => if i = 0 then 0x100 else 0x713) (sampleFormat (lit "%s: %d")) 0x300 8 0x200
      (some (write (sampleFormat (lit "%s: %d")) 0x300 (lit "UART: 1" ++ [0]), 10)) := by
  have h := kept_sampleFormat (lit "%s: %d") (by decide) (by decide)
  exact (snprintf_truncates (fun _ => lit "UART") _ _ _ _ _ _ _ parse_sampleFormat h.1
    ⟨fun _ => h.2, fun h => absurd h (by decide), trivial⟩ (by decide) _).2 rfl

/-- `snprintf` with the format `%s` is `strlcpy`, but for the upper half of the value returned. -/
theorem snprintf_strlcpy (strs : Strings) (m : ByteMem) (dst src fmt : Ptr) (n : U64)
    (hx : IsStr m src (strs src)) (hap : Apart dst n.toNat src ((strs src).length + 1))
    (hfmt : IsStr m fmt (lit "%s")) (hap' : Apart dst n.toNat fmt 3) :
    ∃ m' r, Snprintf (fun _ => src) m dst n fmt (some (m', r.setWidth 32)) ∧
      Libc.StrlcpyReturns m dst src n r m' := by
  refine ⟨_, _, ?_, Libc.strlcpyReturns_cut hx hap⟩
  have hr : off src ((strs src).length + 1) - src - 1 = BitVec.ofNat 64 (strs src).length :=
    BitVec.eq_of_toNat_eq (by
      rw [Libc.off_sub_one hx.length_lt, BitVec.toNat_ofNat, Nat.mod_eq_of_lt hx.length_lt])
  have hout : (render strs (fun _ => src) 0 [.conv .str 0 0]).chars = strs src := by
    simp [render, Conv.out, Out.ofChars]
  have hparse : parse (lit "%s") = some [.conv .str 0 0] := rfl
  have hargs : StrArgs (fun _ => src) (KeptStr strs m dst n.toNat) 0 [.conv .str 0 0] :=
    ⟨fun _ => ⟨.of_isStr hx hap, hx.not_mem⟩, trivial⟩
  have h := snprintf_of_parses (Parses.of_parse hparse) (.of_isStr hfmt hap') hargs
    (by rw [hout]; exact hx.length_lt)
  rw [hout] at h
  rwa [hr, BitVec.setWidth_ofNat_of_le (by decide)]

/-- Four bytes of a name, by either function. -/
theorem snprintf_strlcpy_sample : ∃ m' r,
    Snprintf (fun _ => 0x100) (sampleFormat (lit "%s")) 0x300 4 0x200 (some (m', r.setWidth 32)) ∧
      Libc.StrlcpyReturns (sampleFormat (lit "%s")) 0x300 0x100 4 r m' :=
  snprintf_strlcpy (fun _ => lit "UART") (sampleFormat (lit "%s")) 0x300 0x100 0x200 4
    (isStr_sampleFormat _ (by decide) (by decide)).2 (by decide)
    (isStr_sampleFormat _ (by decide) (by decide)).1 (by decide)

/-! ### The same characters as `printf` -/

/-- A format in which every `%` is followed by a conversion of `snprintf`. -/
def Reduced : List U8 → Prop
  | [] => True
  | c :: fmt =>
      if c = ch '%' then
        match fmt with
        | [] => False
        | c :: fmt => (convOf c).isSome ∧ Reduced fmt
      else Reduced fmt

lemma printf_convOf {k : Conv} (h : convOf c = some k) : Printf.convOf c = some k := by
  rw [convOf] at h
  split_ifs at h with h1 h2 h3
  · rwa [Printf.convOf, if_pos h1]
  · rwa [Printf.convOf, if_neg h1, if_pos h2]
  · rwa [h3]

/-- Both read the same items. -/
lemma parses_of_reduced (h : Reduced fmt) (h0 : 0 ∉ fmt) :
    Parses fmt (Printf.parse fmt none).1 ∧ (Printf.parse fmt none).2 = true := by
  induction hk : fmt.length using Nat.strong_induction_on generalizing fmt with
  | _ k ih =>
  subst hk
  cases fmt with
  | nil => exact ⟨.nil, rfl⟩
  | cons c fmt =>
      rw [List.mem_cons, not_or] at h0
      by_cases hc : c = ch '%'
      · subst hc
        cases fmt with
        | nil => exact absurd h (by simp [Reduced])
        | cons d fmt =>
            rw [Reduced, if_pos rfl] at h
            obtain ⟨k, hd⟩ := Option.isSome_iff_exists.1 h.1
            obtain ⟨ih₁, ih₂⟩ := ih fmt.length (by simp) h.2
              (fun h => h0.2 (List.mem_cons_of_mem d h)) rfl
            rw [Printf.parse, if_pos rfl, Printf.parse, if_neg (by simp)]
            simp only [printf_convOf hd, Prod.map_fst, Prod.map_snd, ih₂, id_eq, and_true]
            exact .conv hd ih₁
      · rw [Reduced.eq_def] at h
        simp only [if_neg hc] at h
        obtain ⟨ih₁, ih₂⟩ := ih fmt.length (by simp) h h0.2 rfl
        rw [Printf.parse, if_neg hc]
        simp only [Prod.map_fst, Prod.map_snd, ih₂, id_eq, and_true]
        exact .lit (Ne.symm h0.1) hc ih₁

/-- If every `%` of the format is followed by a conversion of `snprintf`, it puts the characters
that `vprintf` prints into its array, and returns their number; the array overlaps neither the
format nor a string that is printed. -/
theorem snprintf_agrees (strs : Strings) (va : VaList) (m : ByteMem) (s : Ptr) (n : U64)
    (p : Ptr) (fmt : List U8) (h : Reduced fmt) (hfmt : IsStr m p fmt)
    (hap : Apart s n.toNat p (fmt.length + 1))
    (hs : StrArgs va (KeptStr strs m s n.toNat) 0 (Printf.parse fmt none).1) :
    ∃ o, Vprintf strs va fmt (some o) ∧ (o.chars.length < 2 ^ 64 → Snprintf va m s n p
      (some (write m s (Libc.cutString o.chars n), BitVec.ofNat 32 o.chars.length))) := by
  refine ⟨_, vprintf_finish strs va fmt, fun hlt => ?_⟩
  obtain ⟨h₁, h₂⟩ := parses_of_reduced h hfmt.not_mem
  rw [finish, h₂, if_pos rfl, empty_append] at hlt ⊢
  exact snprintf_of_parses h₁ (.of_isStr hfmt hap) hs hlt

/-- A name with a number behind it, into eight bytes. -/
theorem snprintf_agrees_sample :
    ∃ o, Vprintf (fun _ => lit "UART") (fun i => if i = 0 then 0x100 else -1) (lit "%s%d")
        (some o) ∧ (o.chars.length < 2 ^ 64 →
      Snprintf (fun i => if i = 0 then 0x100 else -1) (sampleFormat (lit "%s%d")) 0x300 8 0x200
        (some (write (sampleFormat (lit "%s%d")) 0x300 (Libc.cutString o.chars 8),
          BitVec.ofNat 32 o.chars.length))) := by
  have h := kept_sampleFormat (lit "%s%d") (by decide) (by decide)
  exact snprintf_agrees (fun _ => lit "UART") _ _ _ _ _ _ ⟨rfl, rfl, trivial⟩
    (isStr_sampleFormat _ (by decide) (by decide)).1 h.1.apart
    ⟨fun _ => h.2, fun h => absurd h (by decide), trivial⟩

/-! ### Whether the output was cut -/

lemma Parses.lit_ne_zero (h : Parses fmt is) : .lit 0 ∉ is := by
  induction h with
  | nil => exact List.not_mem_nil
  | lit h0 hc h ih =>
      rw [List.mem_cons, not_or]
      exact ⟨fun he => h0 (Item.lit.inj he).symm, ih⟩
  | conv hd h ih =>
      rw [List.mem_cons, not_or]
      exact ⟨nofun, ih⟩
  | skip hd h ih => exact ih

/-- What is left in an array with room for a terminator is a string shorter than the array, and it
is the whole output exactly if the value returned, as long as an `int` holds it, is lower than the
size. -/
theorem snprintf_whole (strs : Strings) (va : VaList) (m : ByteMem) (s : Ptr) (n : U64)
    (p : Ptr) (fmt : List U8) (is : List Item) (hp : parse fmt = some is)
    (hk : Kept m s n.toNat p fmt) (hs : StrArgs va (KeptStr strs m s n.toNat) 0 is) (hn : n ≠ 0)
    (hlt : (render strs va 0 is).chars.length < 2 ^ 31) :
    ∃ m' r len, Snprintf va m s n p (some (m', r)) ∧ Libc.Strlen m' s len ∧ len < n ∧
      (r.toNat < n.toNat ↔ IsStr m' s (render strs va 0 is).chars) := by
  have hparses := Parses.of_parse hp
  have h0 : 0 ∉ (render strs va 0 is).chars :=
    render_ne_zero (hs.imp fun _ h => h.2) hparses.lit_ne_zero
  have hret := snprintf_of_parses hparses hk hs (by omega)
  generalize (render strs va 0 is).chars = cs at h0 hlt hret
  have hpos : 0 < n.toNat := Nat.pos_of_ne_zero fun h => hn (BitVec.eq_of_toNat_eq h)
  have hlen : (cs.take (n.toNat - 1)).length = min (n.toNat - 1) cs.length := List.length_take
  have hwrite : Libc.cutString cs n = cs.take (n.toNat - 1) ++ [0] := if_neg hn
  have hstr : IsStr (write m s (Libc.cutString cs n)) s (cs.take (n.toNat - 1)) := by
    rw [hwrite]
    exact isStr_write m s (fun h => h0 (List.mem_of_mem_take h)) (by omega)
  refine ⟨_, _, _, hret, Libc.strlen_of_isStr hstr, ?_, ?_⟩
  · rw [BitVec.lt_def, BitVec.toNat_ofNat, hlen]
    omega
  · have hfits : cs.take (n.toNat - 1) = cs ↔ cs.length < n.toNat := by
      rw [List.take_eq_self_iff]
      omega
    rw [BitVec.toNat_ofNat, Nat.mod_eq_of_lt (by omega), ← hfits]
    refine ⟨fun h => ?_, fun h => hstr.unique h⟩
    rwa [h] at hstr

/-- Eight bytes are too few for ten characters. -/
theorem snprintf_whole_sample : ∃ m' r len,
    Snprintf (fun i => if i = 0 then 0x100 else 0x713) (sampleFormat (lit "%s: %d")) 0x300 8 0x200
      (some (m', r)) ∧ Libc.Strlen m' 0x300 len ∧ len < 8 ∧
      (r.toNat < 8 ↔ IsStr m' 0x300 (lit "UART: 1811")) := by
  have hout : (render (fun _ => lit "UART") (fun i => if i = 0 then 0x100 else 0x713) 0
      [.conv .str 0 0, .lit (ch ':'), .lit (ch ' '), .conv .dec 0 0]).chars =
        lit "UART: 1811" := by decide
  have h := kept_sampleFormat (lit "%s: %d") (by decide) (by decide)
  rw [← hout]
  exact snprintf_whole (fun _ => lit "UART") _ _ _ _ _ _ _ parse_sampleFormat h.1
    ⟨fun _ => h.2, fun h => absurd h (by decide), trivial⟩ (by decide) (by rw [hout]; decide)

end Arm64Mmu.Snprintf
