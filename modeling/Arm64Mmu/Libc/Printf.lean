import Mathlib.Tactic.IntervalCases
import Arm64Mmu.Libc.Format

/-!
# `vprintf` prints what its format means

The loops of `printf.c` print characters behind those printed already, and count them.  From every
label `vprintf` goes on to print the items of the rest of the format, so that it returns for every
format and every argument (`vprintf_renders`), and never stores behind the end of `num_buf`.
-/

namespace Arm64Mmu

open Lib Lib.Return Lib.Numeral

/-! ### The loops -/

/-- The digits that the loop stores, if they fit. -/
lemma numBufLoop_eq {w : ℕ} (digit : BitVec w → U8) {radix : BitVec w} (hr : 1 < radix.toNat)
    {room : ℕ} {unum : BitVec w} (h : (low radix.toNat unum.toNat).length ≤ room) :
    numBufLoop digit radix room unum =
      some ((low radix.toNat unum.toNat).map fun d => digit (BitVec.ofNat w d)) := by
  induction room generalizing unum with
  | zero => exact absurd (length_low_pos radix.toNat unum.toNat) (by omega)
  | succ room ih =>
      have hdiv : (unum / radix).toNat = unum.toNat / radix.toNat := BitVec.toNat_udiv
      have hmod : BitVec.ofNat w (unum.toNat % radix.toNat) = unum % radix := by
        rw [← BitVec.toNat_umod, BitVec.ofNat_toNat, BitVec.setWidth_eq]
      have hpos : 0 < unum / radix ↔ ¬ unum.toNat / radix.toNat = 0 := by
        rw [BitVec.lt_def, hdiv]
        simp [Nat.pos_iff_ne_zero]
      rw [low_eq hr] at h ⊢
      rw [numBufLoop]
      simp only [hpos]
      by_cases h0 : unum.toNat / radix.toNat = 0
      · rw [if_pos h0, if_neg (not_not.2 h0), List.map_singleton, hmod]
      · rw [if_neg h0] at h
        rw [if_neg h0, if_pos h0, ih (by rw [hdiv]; simpa using h), hdiv, Option.map_some,
          List.map_cons, hmod]

variable {σ : Type*} (put : σ → U8 → σ)

lemma putString_eq (str : List U8) (o : σ) : putString put str o = str.foldl put o := by
  induction str generalizing o with
  | nil => rfl
  | cons c str ih => rw [putString, ih, List.foldl_cons]

lemma putDigits_eq (numBuf : List U8) (o : σ) :
    putDigits put numBuf numBuf.length o = numBuf.reverse.foldl put o := by
  suffices H : ∀ n ≤ numBuf.length, ∀ o,
      putDigits put numBuf n o = (numBuf.take n).reverse.foldl put o by
    rw [H _ le_rfl, List.take_length]
  intro n
  induction n with
  | zero => exact fun _ _ => rfl
  | succ n ih =>
      intro hn o
      have hget : numBuf.getD n 0 = numBuf[n] := by
        rw [List.getD_eq_getElem?_getD, List.getElem?_eq_getElem hn, Option.getD_some]
      rw [putDigits, ih (by omega), hget, List.take_succ_eq_append_getElem hn, List.reverse_append,
        List.reverse_singleton, List.singleton_append, List.foldl_cons]

namespace Printf

namespace Out

lemma put_eq (o : Out) (c : U8) : o.put c = o.append (ofChars [c]) := rfl

lemma ofChars_append (cs cs' : List U8) :
    (ofChars cs).append (ofChars cs') = ofChars (cs ++ cs') := by
  simp [append, ofChars, BitVec.ofNat_add]

lemma putchar_append (o : Out) (c : U8) (cs : List U8) :
    (o.putchar c).append (ofChars cs) = o.append ⟨c :: cs, BitVec.ofNat 32 cs.length⟩ := by
  simp [append, ofChars, putchar]

lemma append_ofChars_nil (o : Out) : o.append (ofChars []) = o := append_empty o

end Out

open Out

variable {strs : Strings} {va : VaList} {c padc : U8} {padn : U32} {o : Out} {i n b : ℕ}
  {fmt : List U8} {s : State} {k : Conv}

lemma foldl_put (cs : List U8) (o : Out) : cs.foldl Out.put o = o.append (ofChars cs) := by
  induction cs generalizing o with
  | nil => exact (append_ofChars_nil o).symm
  | cons c cs ih =>
      rw [List.foldl_cons, ih, put_eq, append_assoc, ofChars_append, List.singleton_append]

lemma stringPrint_eq (str : List U8) (o : Out) : stringPrint str o = o.append (ofChars str) := by
  rw [stringPrint, putString_eq, foldl_put]

lemma padLoop_eq (padc : U8) (i n : ℕ) (o : Out) :
    padLoop padc i n o = o.append (ofChars (List.replicate (n - i) padc)) := by
  induction n generalizing o with
  | zero => rw [padLoop, Nat.zero_sub, List.replicate_zero, append_ofChars_nil]
  | succ n ih =>
      rw [padLoop]
      by_cases h : i < n + 1
      · rw [if_pos h, ih, put_eq, append_assoc, ofChars_append, Nat.succ_sub (by omega),
          List.replicate_succ, List.singleton_append]
      · rw [if_neg h, Nat.sub_eq_zero_of_le (by omega), List.replicate_zero, append_ofChars_nil]

lemma numDigit_eq (hd : n < 16) : numDigit (BitVec.ofNat 64 n) = digitChar n := by
  interval_cases n <;> rfl

lemma number_eq (b n : ℕ) (width : U32) : number b n width =
    List.replicate (width.toInt.toNat - (low b n).length) (ch '0') ++
      ((low b n).map digitChar).reverse := by
  rw [number, numeral, List.map_append, List.map_replicate, List.map_reverse]
  rfl

/-- The padding of a positive width. -/
lemma toInt_toNat_of_slt (h : BitVec.slt 0 padn = true) : padn.toInt.toNat = padn.toNat := by
  have h1 : 0 < padn.toInt := by simpa [BitVec.slt] using h
  rw [BitVec.toInt_eq_toNat_cond] at h1 ⊢
  split_ifs at h1 ⊢ with h2
  · rfl
  · omega

lemma toInt_toNat_of_not_slt (h : ¬ BitVec.slt 0 padn = true) : padn.toInt.toNat = 0 := by
  have h1 : ¬ 0 < padn.toInt := by simpa [BitVec.slt] using h
  omega

/-- `unsigned_num_print` prints the number with its padding: `num_buf` has room for every 64-bit
number. -/
lemma unsignedNumPrint_eq (hb : b = 10 ∨ b = 16) (unum : U64)
    (hpad : BitVec.slt 0 padn → padc = ch '0') (o : Out) :
    unsignedNumPrint unum (BitVec.ofNat 64 b) padc padn o =
      some (o.append (ofChars (number b unum.toNat padn))) := by
  have hb1 : 1 < b := by omega
  have hradix : (BitVec.ofNat 64 b).toNat = b := by
    rw [BitVec.toNat_ofNat]
    omega
  have hlen : (low b unum.toNat).length ≤ 20 := by
    refine length_low_le hb1 (by decide) (unum.isLt.trans_le ?_)
    rcases hb with rfl | rfl <;> decide
  have hbuf : numBufLoop numDigit (BitVec.ofNat 64 b) 20 unum = _ :=
    numBufLoop_eq numDigit (by omega) (by rwa [hradix])
  rw [hradix] at hbuf
  have hdigits : (low b unum.toNat).map (fun d => numDigit (BitVec.ofNat 64 d)) =
      (low b unum.toNat).map digitChar :=
    List.map_congr_left fun d hd => numDigit_eq ((lt_of_mem_low hb1 hd).trans_le (by omega))
  rw [unsignedNumPrint, hbuf, hdigits, number_eq]
  simp only
  by_cases hp : BitVec.slt 0 padn = true
  · rw [if_pos hp, padLoop_eq, hpad hp, putDigits_eq, foldl_put, append_assoc, ofChars_append,
      List.length_map, toInt_toNat_of_slt hp]
  · rw [if_neg hp, putDigits_eq, foldl_put, toInt_toNat_of_not_slt hp, Nat.zero_sub,
      List.replicate_zero, List.nil_append]

/-! ### The arguments -/

lemma slt_one_or (l : U32) : (BitVec.slt 1 l = true ∨ l = 1) ↔ BitVec.slt 0 l = true := by
  have h1 : (1 : U32).toInt = 1 := by decide
  have h0 : (0 : U32).toInt = 0 := by decide
  have he : l = 1 ↔ l.toInt = 1 := by rw [← h1, BitVec.toInt_inj]
  rw [he, BitVec.slt_iff_toInt_lt, BitVec.slt_iff_toInt_lt, h1, h0]
  omega

lemma getNumVaArgs_toInt (arg : U64) (l : U32) : (getNumVaArgs arg l).toInt = numArg arg l := by
  rw [getNumVaArgs, numArg]
  by_cases h : BitVec.slt 0 l = true
  · rw [if_pos h]
    rcases (slt_one_or l).2 h with h1 | h1
    · rw [if_pos h1]
    · simp [h1]
  · obtain ⟨h1, h2⟩ := not_or.1 (mt (slt_one_or l).1 h)
    rw [if_neg h, if_neg h1, if_neg h2, BitVec.toInt_signExtend_of_le (by decide)]

lemma getUnumVaArgs_toNat (arg : U64) (l : U32) : (getUnumVaArgs arg l).toNat = unumArg arg l := by
  rw [getUnumVaArgs, unumArg]
  by_cases h : BitVec.slt 0 l = true
  · rw [if_pos h]
    rcases (slt_one_or l).2 h with h1 | h1
    · rw [if_pos h1]
    · simp [h1]
  · obtain ⟨h1, h2⟩ := not_or.1 (mt (slt_one_or l).1 h)
    rw [if_neg h, if_neg h1, if_neg h2, BitVec.toNat_setWidth_of_le (by decide)]

/-- The magnitude of a negative number, also of the least one. -/
lemma toNat_neg_of_slt {w : ℕ} {x : BitVec w} (h : x.slt 0 = true) :
    (-x).toNat = x.toInt.natAbs := by
  have h1 : x.toInt < 0 := by simpa [BitVec.slt] using h
  have hlt := x.isLt
  rw [BitVec.toInt_eq_toNat_cond] at h1 ⊢
  split_ifs at h1 ⊢ with hcond
  · omega
  · have hpos : 0 < x.toNat := by omega
    rw [BitVec.toNat_neg, Nat.mod_eq_of_lt (by omega)]
    omega

lemma toNat_of_not_slt {w : ℕ} {x : BitVec w} (h : ¬ x.slt 0 = true) :
    x.toNat = x.toInt.natAbs := by
  have h1 : ¬ x.toInt < 0 := by simpa [BitVec.slt] using h
  have hlt := x.isLt
  rw [BitVec.toInt_eq_toNat_cond] at h1 ⊢
  split_ifs at h1 ⊢ <;> omega

/-! ### One conversion -/

/-- Whenever there is something to pad with, it is the character `0`. -/
def State.Padded (s : State) : Prop := s.padn ≠ 0 ∨ s.label = .digits → s.padc = ch '0'

variable (hpad : s.Padded)
include hpad

/-- A number is printed, and the loop goes on behind the conversion. -/
lemma State.print_eq (hb : b = 10 ∨ b = 16) (unum : U64)
    (hwidth : BitVec.slt 0 padn = true → s.padn ≠ 0) (o : Out) :
    s.print fmt unum (BitVec.ofNat 64 b) padn o =
      .inl { s with label := .head, fmt := fmt, args := s.args + 1,
                    out := o.append (ofChars (number b unum.toNat padn)) } := by
  rw [State.print, unsignedNumPrint_eq hb unum fun h => hpad (.inl (hwidth h))]

/-- A conversion prints what it means and takes one argument. -/
lemma step_conv (hl : s.label = .loop) (hfmt : s.fmt = c :: fmt) (hc : convOf c = some k) :
    step strs va s =
      .inl { s with label := .head, fmt := fmt, args := s.args + 1,
                    out := s.out.append (k.out strs (va s.args) s.lCount s.padn) } := by
  -- a width that is positive after something was taken off it was not 0 before
  have hw : ∀ d : U32, ¬ BitVec.slt 0 (0 - d) = true → BitVec.slt 0 (s.padn - d) = true →
      s.padn ≠ 0 := fun d hd h h0 => hd (h0 ▸ h)
  have hw0 : BitVec.slt 0 s.padn = true → s.padn ≠ 0 := fun h h0 =>
    absurd (h0 ▸ h : BitVec.slt 0 (0 : U32) = true) (by decide)
  rw [step, hl, hfmt]
  simp only [convOf] at hc
  simp only
  split_ifs at hc with h1 h2 h3 h4 h5
  · -- `%d`
    obtain rfl := Option.some.inj hc
    have hnum := getNumVaArgs_toInt (va s.args) s.lCount
    rw [if_pos h1, Conv.out, ← hnum]
    by_cases hneg : (getNumVaArgs (va s.args) s.lCount).slt 0 = true
    · have hlt : (getNumVaArgs (va s.args) s.lCount).toInt < 0 := by simpa [BitVec.slt] using hneg
      rw [if_pos hneg]
      refine (State.print_eq hpad (b := 10) (.inl rfl) _ (hw 1 (by decide)) _).trans ?_
      simp only [hlt, if_true, toNat_neg_of_slt hneg, putchar_append]
    · have hlt : ¬ (getNumVaArgs (va s.args) s.lCount).toInt < 0 := by
        simpa [BitVec.slt] using hneg
      rw [if_neg hneg]
      refine (State.print_eq hpad (b := 10) (.inl rfl) _ hw0 _).trans ?_
      simp only [hlt, if_false, toNat_of_not_slt hneg]
  · -- `%s`
    obtain rfl := Option.some.inj hc
    rw [if_neg h1, if_pos h2, Conv.out, stringPrint_eq]
  · -- `%p`
    obtain rfl := Option.some.inj hc
    rw [if_neg h1, if_neg h2, if_pos h3, Conv.out]
    by_cases h0 : va s.args = 0
    · have hnot : ¬ (0 : U64) < va s.args := by rw [h0]; decide
      rw [if_neg hnot, if_pos h0]
      refine (State.print_eq hpad (b := 16) (.inr rfl) _ hw0 _).trans ?_
      rw [h0]
      rfl
    · have hpos : (0 : U64) < va s.args := by
        rw [BitVec.lt_def]
        exact Nat.pos_of_ne_zero fun h => h0 (BitVec.eq_of_toNat_eq h)
      rw [if_pos hpos, if_neg h0]
      refine (State.print_eq hpad (b := 16) (.inr rfl) _ (hw 2 (by decide)) _).trans ?_
      rw [stringPrint_eq, append_assoc, ofChars_append]
      rfl
  · -- `%x`
    obtain rfl := Option.some.inj hc
    rw [if_neg h1, if_neg h2, if_neg h3, if_pos h4, Conv.out, ← getUnumVaArgs_toNat]
    exact State.print_eq hpad (b := 16) (.inr rfl) _ hw0 _
  · -- `%u`, which the code tests behind the length specifiers
    obtain rfl := Option.some.inj hc
    subst h5
    rw [if_neg h1, if_neg h2, if_neg h3, if_neg h4, if_neg (by decide), if_neg (by decide),
      if_pos rfl, Conv.out, ← getUnumVaArgs_toNat]
    exact State.print_eq hpad (b := 10) (.inl rfl) _ hw0 _

/-! ### The whole format -/

omit hpad

/-- What has been read of a conversion at a label. -/
def State.spec (s : State) : Option Spec :=
  match s.label with
  | .head => none
  | .loop => some ⟨s.lCount, s.padn, false⟩
  | .digits => some ⟨s.lCount, s.padn, true⟩

/-- What is printed when the rest of the format is read from the argument number `a` on, behind
what was printed already. -/
def finish (strs : Strings) (va : VaList) (a : ℕ) (o : Out) (p : List Item × Bool) : Out :=
  let o := o.append (render strs va a p.1)
  if p.2 then o else { o with count := -1 }

lemma finish_lit (a : ℕ) (o : Out) (p : List Item × Bool) :
    finish strs va a o (p.map (fun is => .lit c :: is) id) = finish strs va a (o.put c) p := by
  simp only [finish, Prod.map_fst, Prod.map_snd, id_eq, render, put_eq, append_assoc]

lemma finish_conv (a : ℕ) (o : Out) (l w : U32) (p : List Item × Bool) :
    finish strs va a o (p.map (fun is => .conv k l w :: is) id) =
      finish strs va (a + 1) (o.append (k.out strs (va a) l w)) p := by
  simp only [finish, Prod.map_fst, Prod.map_snd, id_eq, render, append_assoc]

/-- Behind a conversion the padding stays. -/
lemma State.Padded.head (hpad : s.Padded) :
    State.Padded { s with label := .head, fmt := fmt, args := i, out := o } := fun h =>
  hpad (.inl (h.resolve_right (by simp)))

lemma parse_of_not_digit {l w : U32} (h : c < ch '0' ∨ ch '9' < c) :
    parse (c :: fmt) (some ⟨l, w, true⟩) = parse (c :: fmt) (some ⟨l, w, false⟩) := by
  have hnot : ¬ (ch '0' ≤ c ∧ c ≤ ch '9') := by
    rintro ⟨h1, h2⟩
    rw [BitVec.lt_def, BitVec.lt_def] at h
    rw [BitVec.le_def] at h1 h2
    omega
  simp only [parse, hnot, and_false, if_false]

/-- From the label `loop`, if `vprintf` prints what every shorter rest of the format means. -/
lemma returns_loop (hpad : s.Padded) (hl : s.label = .loop)
    (ih : ∀ t : State, t.fmt.length < s.fmt.length → t.Padded →
      Returns (step strs va) t (some (finish strs va t.args t.out (parse t.fmt t.spec)))) :
    Returns (step strs va) s (some (finish strs va s.args s.out (parse s.fmt s.spec))) := by
  have hspec : s.spec = some ⟨s.lCount, s.padn, false⟩ := by rw [State.spec, hl]
  rw [hspec]
  cases hfmt : s.fmt with
  | nil =>
      refine .of_inr ?_
      rw [step, hl, hfmt]
      simp only [parse, finish, render, append_empty, Bool.false_eq_true, if_false]
  | cons c fmt =>
      have ih' := fun t (ht : t.fmt = fmt) => ih t (by rw [ht, hfmt]; exact Nat.lt_succ_self _)
      cases hc : convOf c with
      | some k =>
          refine Returns.head (step_conv hpad hl hfmt hc) ?_
          simp only [parse, Bool.false_eq_true, false_and, if_false, hc, finish_conv]
          exact ih' { s with label := .head, fmt := fmt, args := s.args + 1, out := _ } rfl
            hpad.head
      | none =>
          simp only [parse, Bool.false_eq_true, false_and, if_false, hc]
          simp only [convOf] at hc
          split_ifs at hc with h1 h2 h3 h4 h5
          have hstep : step strs va s =
              if c = ch 'z' then .inl { s with lCount := 2, fmt := fmt }
              else if c = ch 'l' then .inl { s with lCount := s.lCount + 1, fmt := fmt }
              else if c = ch '0' then
                .inl { s with label := .digits, padc := ch '0', padn := 0, fmt := fmt }
              else .inr (some { s.out with count := -1 }) := by
            rw [step, hl, hfmt]
            simp only [h1, h2, h3, h4, h5, if_false]
          by_cases hz : c = ch 'z'
          · rw [if_pos hz] at hstep ⊢
            have h := ih' { s with lCount := 2, fmt := fmt } rfl hpad
            simp only [State.spec, hl] at h hstep
            exact h.head hstep
          by_cases hll : c = ch 'l'
          · rw [if_neg hz, if_pos hll] at hstep ⊢
            have h := ih' { s with lCount := s.lCount + 1, fmt := fmt } rfl hpad
            simp only [State.spec, hl] at h hstep
            exact h.head hstep
          by_cases h0 : c = ch '0'
          · rw [if_neg hz, if_neg hll, if_pos h0] at hstep ⊢
            have h := ih' { s with label := .digits, padc := ch '0', padn := 0, fmt := fmt } rfl
              fun _ => rfl
            exact h.head hstep
          · rw [if_neg hz, if_neg hll, if_neg h0] at hstep ⊢
            refine .of_inr (hstep.trans ?_)
            simp only [finish, render, append_empty, Bool.false_eq_true, if_false]

/-- From every label, `vprintf` prints what the rest of the format means. -/
theorem returns_finish (strs : Strings) (va : VaList) (s : State)
    (hpad : s.Padded) :
    Returns (step strs va) s (some (finish strs va s.args s.out (parse s.fmt s.spec))) := by
  -- by induction on the length of what is left of the format
  induction hn : s.fmt.length using Nat.strong_induction_on generalizing s with
  | _ n ih =>
  subst hn
  replace ih := fun (t : State) (ht : t.fmt.length < s.fmt.length)
    (hp : t.Padded) => ih _ ht t hp rfl
  cases hl : s.label with
  | head =>
      have hspec : s.spec = none := by rw [State.spec, hl]
      rw [hspec]
      cases hfmt : s.fmt with
      | nil =>
          refine .of_inr ?_
          rw [step, hl, hfmt]
          simp only [parse, finish, render, append_empty, if_true]
      | cons c fmt =>
          have hlt : fmt.length < s.fmt.length := by rw [hfmt]; exact Nat.lt_succ_self _
          by_cases hc : c = ch '%'
          · have h := ih { s with label := .loop, lCount := 0, padn := 0, fmt := fmt } hlt
              (by simp [State.Padded])
            rw [parse, if_pos hc]
            refine Returns.head ?_ h
            rw [step, hl, hfmt]
            simp only [hc, if_true]
          · have h := ih { s with lCount := 0, padn := 0, fmt := fmt, out := s.out.put c } hlt
              (by simp [State.Padded, hl])
            rw [parse, if_neg hc, finish_lit]
            simp only [State.spec, hl] at h
            refine Returns.head ?_ h
            rw [step, hl, hfmt]
            simp only [hc, if_false]
  | loop => exact returns_loop hpad hl ih
  | digits =>
      have hspec : s.spec = some ⟨s.lCount, s.padn, true⟩ := by rw [State.spec, hl]
      have h0 : s.padc = ch '0' := hpad (.inr hl)
      have hloop := returns_loop (s := { s with label := .loop }) (fun _ => h0) rfl ih
      rw [hspec]
      cases hfmt : s.fmt with
      | nil =>
          rw [hfmt] at hloop
          refine Returns.head ?_ hloop
          rw [step, hl, hfmt]
      | cons c fmt =>
          have hlt : fmt.length < s.fmt.length := by rw [hfmt]; exact Nat.lt_succ_self _
          by_cases hc : c < ch '0' ∨ ch '9' < c
          · rw [hfmt] at hloop
            rw [parse_of_not_digit hc]
            refine Returns.head ?_ hloop
            rw [step, hl, hfmt]
            simp only [hc, if_true]
          · have hdigit : ch '0' ≤ c ∧ c ≤ ch '9' := by
              rw [BitVec.lt_def, BitVec.lt_def] at hc
              rw [BitVec.le_def, BitVec.le_def]
              omega
            have h := ih { s with padn := s.padn * 10 + (c - ch '0').setWidth 32, fmt := fmt } hlt
              fun _ => h0
            simp only [State.spec, hl] at h
            simp only [parse, hdigit, and_self, if_true]
            refine Returns.head ?_ h
            rw [step, hl, hfmt]
            simp only [hc, if_false]

lemma vprintf_finish (strs : Strings) (va : VaList) (fmt : List U8) :
    Vprintf strs va fmt (some (finish strs va 0 .empty (parse fmt none))) :=
  returns_finish strs va (start fmt) (by simp [State.Padded, start])

/-- For every format and all arguments `vprintf` returns, without a store outside `num_buf`, and
it has printed what the format means up to its end or up to a conversion that is not one. -/
theorem vprintf_renders (strs : Strings) (va : VaList) (fmt : List U8) (r : Option Out) :
    Vprintf strs va fmt r ↔ r = some (finish strs va 0 .empty (parse fmt none)) := by
  constructor
  · exact fun h => h.unique (vprintf_finish strs va fmt)
  · rintro rfl
    exact vprintf_finish strs va fmt

end Printf

end Arm64Mmu
