import Arm64Mmu.Libc.Printf

/-!
# What `printf` guarantees

Facts about the output of every format.  The value returned counts the characters printed, except
for minus signs (`vprintf_count`).  Printing two formats one after the other is printing them as
one (`vprintf_append`).  No character printed is a terminator (`vprintf_no_nul`).
-/

namespace Arm64Mmu.Printf

open Lib Lib.Return Lib.Numeral Out

variable {strs : Strings} {va : VaList} {fmt fmt' : List U8} {a : ℕ} {is js : List Item}
  {sp : Option Spec} {arg : U64} {l w : U32} {k : Conv} {c : U8}

@[simp] lemma empty_append (o : Out) : Out.empty.append o = o := by
  simp [Out.append, Out.empty]

/-! ### Counting -/

/-- The number of arguments that the items take. -/
def conversions : List Item → ℕ
  | [] => 0
  | .lit _ :: is => conversions is
  | .conv .. :: is => conversions is + 1

/-- The number of minus signs that the items print. -/
def minusSigns (va : VaList) : ℕ → List Item → ℕ
  | _, [] => 0
  | a, .lit _ :: is => minusSigns va a is
  | a, .conv k l _ :: is =>
      (if k = .dec ∧ numArg (va a) l < 0 then 1 else 0) + minusSigns va (a + 1) is

/-- A conversion counts what it prints, but for a minus sign. -/
lemma conv_count (strs : Strings) (k : Conv) (arg : U64) (l w : U32) :
    (k.out strs arg l w).count + BitVec.ofNat 32 (if k = .dec ∧ numArg arg l < 0 then 1 else 0) =
      BitVec.ofNat 32 (k.out strs arg l w).chars.length := by
  cases k with
  | dec =>
      by_cases h : numArg arg l < 0
      · simp [Conv.out, h, BitVec.ofNat_add]
      · simp [Conv.out, h, ofChars]
  | udec => simp [Conv.out, ofChars]
  | hex => simp [Conv.out, ofChars]
  | ptr =>
      rw [if_neg (by simp), Conv.out]
      split_ifs <;> simp [ofChars]
  | str => simp [Conv.out, ofChars]

lemma render_count (strs : Strings) (va : VaList) (a : ℕ) (is : List Item) :
    (render strs va a is).count + BitVec.ofNat 32 (minusSigns va a is) =
      BitVec.ofNat 32 (render strs va a is).chars.length := by
  induction is generalizing a with
  | nil => rfl
  | cons i is ih =>
      cases i with
      | lit c =>
          simp only [render, minusSigns, append, ofChars, List.length_append, BitVec.ofNat_add,
            ← ih]
          rw [BitVec.add_assoc]
      | conv k l w =>
          simp only [render, minusSigns, append, List.length_append, BitVec.ofNat_add, ← ih,
            ← conv_count]
          ac_rfl

/-- The value that `vprintf` returns is the number of characters that it printed, less the minus
signs of the numbers among them, or −1 if it met a conversion that is not one. -/
theorem vprintf_count (strs : Strings) (va : VaList) (fmt : List U8) :
    ∃ o, Vprintf strs va fmt (some o) ∧
      ((parse fmt none).2 = true →
        o.count + BitVec.ofNat 32 (minusSigns va 0 (parse fmt none).1) =
          BitVec.ofNat 32 o.chars.length) ∧
      ((parse fmt none).2 = false → o.count = -1) := by
  refine ⟨_, vprintf_finish strs va fmt, fun h => ?_, fun h => ?_⟩
  · rw [finish, h, if_pos rfl, empty_append]
    exact render_count strs va 0 _
  · rw [finish, h]
    rfl

/-! ### One format behind another -/

lemma parse_append (g : List U8) (h : (parse fmt sp).2 = true) :
    parse (fmt ++ g) sp = (parse g none).map (fun js => (parse fmt sp).1 ++ js) id := by
  induction fmt generalizing sp with
  | nil =>
      cases sp with
      | none => rfl
      | some s => exact absurd h (by simp [parse])
  | cons c fmt ih =>
      cases sp with
      | none =>
          simp only [List.cons_append, parse] at h ⊢
          by_cases hc : c = ch '%'
          · simp only [hc, if_true] at h ⊢
            exact ih h
          · simp only [hc, if_false] at h ⊢
            rw [ih h]
            rfl
      | some s =>
          simp only [List.cons_append, parse] at h ⊢
          by_cases hdigit : s.inPad = true ∧ ch '0' ≤ c ∧ c ≤ ch '9'
          · simp only [hdigit, and_self, if_true] at h ⊢
            exact ih h
          simp only [hdigit, if_false] at h ⊢
          cases hk : convOf c with
          | some k =>
              simp only [hk] at h ⊢
              rw [ih h]
              rfl
          | none =>
              simp only [hk] at h ⊢
              by_cases hz : c = ch 'z'
              · simp only [if_pos hz] at h ⊢
                exact ih h
              by_cases hl : c = ch 'l'
              · simp only [if_neg hz, if_pos hl] at h ⊢
                exact ih h
              by_cases h0 : c = ch '0'
              · simp only [if_neg hz, if_neg hl, if_pos h0] at h ⊢
                exact ih h
              · simp only [if_neg hz, if_neg hl, if_neg h0] at h
                exact absurd h (by simp)

lemma render_append (strs : Strings) (va : VaList) (a : ℕ) (is js : List Item) :
    render strs va a (is ++ js) =
      (render strs va a is).append (render strs va (a + conversions is) js) := by
  induction is generalizing a with
  | nil => exact (empty_append _).symm
  | cons i is ih =>
      cases i with
      | lit c => rw [List.cons_append, render, ih, render, conversions, append_assoc]
      | conv k l w =>
          rw [List.cons_append, render, ih, render, conversions, append_assoc, Nat.add_right_comm,
            Nat.add_assoc]

/-- The arguments behind the first `n`. -/
def VaList.drop (va : VaList) (n : ℕ) : VaList := fun i => va (n + i)

lemma render_drop (strs : Strings) (va : VaList) (n a : ℕ) (is : List Item) :
    render strs (VaList.drop va n) a is = render strs va (n + a) is := by
  induction is generalizing a with
  | nil => rfl
  | cons i is ih =>
      cases i with
      | lit c => rw [render, render, ih]
      | conv k l w => rw [render, render, ih, VaList.drop, Nat.add_assoc]

/-- Printing two formats one after the other prints the same as their concatenation, if the first
one is printed to its end; the values returned add up if the second one is too. -/
theorem vprintf_append (strs : Strings) (va : VaList) (fmt fmt' : List U8)
    (h : (parse fmt none).2 = true) :
    ∃ o o' o'', Vprintf strs va fmt (some o) ∧
      Vprintf strs (VaList.drop va (conversions (parse fmt none).1)) fmt' (some o') ∧
      Vprintf strs va (fmt ++ fmt') (some o'') ∧ o''.chars = o.chars ++ o'.chars ∧
      o''.count = if (parse fmt' none).2 then o.count + o'.count else -1 := by
  refine ⟨_, _, _, vprintf_finish strs va fmt, vprintf_finish strs _ fmt',
    vprintf_finish strs va (fmt ++ fmt'), ?_, ?_⟩
  all_goals
    rw [parse_append fmt' h]
    simp only [finish, h, if_true, Prod.map_fst, Prod.map_snd, id_eq, empty_append, render_append,
      render_drop, Nat.zero_add]
    split_ifs <;> rfl

/-- A name, and a number behind it. -/
theorem vprintf_append_sample :
    ∃ o o' o'', Vprintf (fun _ => lit "uart") (fun i => BitVec.ofNat 64 i) (lit "%s ") (some o) ∧
      Vprintf (fun _ => lit "uart") (VaList.drop (fun i => BitVec.ofNat 64 i) 1) (lit "%04x")
        (some o') ∧
      Vprintf (fun _ => lit "uart") (fun i => BitVec.ofNat 64 i) (lit "%s " ++ lit "%04x")
        (some o'') ∧
      o''.chars = o.chars ++ o'.chars ∧ o''.count = o.count + o'.count :=
  vprintf_append (fun _ => lit "uart") (fun i => BitVec.ofNat 64 i) (lit "%s ") (lit "%04x")
    (by decide)

/-! ### No terminator is printed -/

lemma digitChar_ne_zero {d : ℕ} (hd : d < 16) : digitChar d ≠ 0 := by
  interval_cases d <;> decide

lemma number_ne_zero {b n : ℕ} (hb : b = 10 ∨ b = 16) (w : U32) : 0 ∉ number b n w := by
  rw [number, List.mem_map]
  rintro ⟨d, hd, h0⟩
  have hlt : d < b := lt_of_mem_numeral (by omega) hd
  exact digitChar_ne_zero (by omega) h0

lemma conv_ne_zero {k : Conv} (h : k = .str → 0 ∉ strs arg) (l w : U32) :
    0 ∉ (k.out strs arg l w).chars := by
  cases k with
  | dec =>
      simp only [Conv.out]
      split_ifs
      · exact List.not_mem_cons_of_ne_of_not_mem (by decide) (number_ne_zero (.inl rfl) _)
      · exact number_ne_zero (.inl rfl) _
  | udec => exact number_ne_zero (.inl rfl) _
  | hex => exact number_ne_zero (.inr rfl) _
  | ptr =>
      simp only [Conv.out]
      split_ifs
      · exact number_ne_zero (.inr rfl) _
      · exact List.not_mem_cons_of_ne_of_not_mem (by decide)
          (List.not_mem_cons_of_ne_of_not_mem (by decide) (number_ne_zero (.inr rfl) _))
  | str => exact h rfl

lemma mem_of_lit_mem (h : .lit c ∈ (parse fmt sp).1) : c ∈ fmt := by
  induction fmt generalizing sp with
  | nil => cases sp <;> simp [parse] at h
  | cons b fmt ih =>
      have htail : ∀ sp', .lit c ∈ (parse fmt sp').1 → c ∈ b :: fmt := fun _ h =>
        List.mem_cons_of_mem _ (ih h)
      cases sp with
      | none =>
          rw [parse] at h
          split_ifs at h with hb
          · exact htail _ h
          · rw [Prod.map_fst, List.mem_cons] at h
            rcases h with h | h
            · rw [Item.lit.inj h]
              exact List.mem_cons_self
            · exact htail _ h
      | some s =>
          rw [parse] at h
          by_cases hdigit : s.inPad = true ∧ ch '0' ≤ b ∧ b ≤ ch '9'
          · rw [if_pos hdigit] at h
            exact htail _ h
          · rw [if_neg hdigit] at h
            cases hk : convOf b with
            | some k =>
                simp only [hk, Prod.map_fst, List.mem_cons, reduceCtorEq, false_or] at h
                exact htail _ h
            | none =>
                simp only [hk] at h
                split_ifs at h
                · exact htail _ h
                · exact htail _ h
                · exact htail _ h
                · exact absurd h List.not_mem_nil

lemma render_ne_zero (hstrs : StrArgs va (fun arg => 0 ∉ strs arg) a is) (hlit : .lit 0 ∉ is) :
    0 ∉ (render strs va a is).chars := by
  induction is generalizing a with
  | nil => exact List.not_mem_nil
  | cons i is ih =>
      rw [List.mem_cons, not_or] at hlit
      cases i with
      | lit c =>
          rw [render, append, List.mem_append, not_or]
          refine ⟨fun h => hlit.1 ?_, ih hstrs hlit.2⟩
          rw [List.mem_singleton.1 h]
      | conv k l w =>
          rw [render, append, List.mem_append, not_or]
          exact ⟨conv_ne_zero hstrs.1 l w, ih hstrs.2 hlit.2⟩

/-- Padding included, no character that `vprintf` prints is a terminator. -/
theorem vprintf_no_nul (strs : Strings) (va : VaList) (fmt : List U8) (hfmt : 0 ∉ fmt)
    (hstrs : ∀ arg, 0 ∉ strs arg) : ∃ o, Vprintf strs va fmt (some o) ∧ 0 ∉ o.chars := by
  refine ⟨_, vprintf_finish strs va fmt, ?_⟩
  have h : 0 ∉ (render strs va 0 (parse fmt none).1).chars :=
    render_ne_zero (.of_forall va hstrs 0 _) fun h => hfmt (mem_of_lit_mem h)
  rw [finish, empty_append]
  split_ifs <;> exact h

/-- A padded number, a string and a pointer. -/
theorem vprintf_no_nul_sample :
    ∃ o, Vprintf (fun _ => lit "uart") (fun i => BitVec.ofNat 64 i) (lit "%08ld %s %p") (some o) ∧
      0 ∉ o.chars :=
  vprintf_no_nul _ _ _ (by decide) fun _ => by decide

end Arm64Mmu.Printf
