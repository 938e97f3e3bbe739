import Arm64Mmu.Libc.Directive
import Arm64Mmu.Model.Console

/-!
# What appears on the console

`uart_print` prints up to the first newline, and does not return if there is none
(`uart_print_iff`); `puts` prints a string and a newline, as `printf` would (`puts_agrees`).  From
the output of `dump_esr` the registers that say why the exception was taken can be read back
(`dump_esr_injective`, `dump_esr_reads_back`).
-/

namespace Arm64Mmu

open Lib Lib.Bytes Lib.Return Printf

variable {m : ByteMem} {p s : Ptr} {x out : List U8} {strs : Strings} {va : VaList} {c : U8}

/-! ### Formats without conversions -/

/-- Characters in front of the rest of a format. -/
lemma finish_lits {p : List U8} (h : ch '%' ∉ p) (fmt : List U8) (a : ℕ) (o : Out) :
    finish strs va a o (parse (p ++ fmt) none) =
      finish strs va a (o.append (.ofChars p)) (parse fmt none) := by
  induction p generalizing o with
  | nil => rw [Out.append_ofChars_nil, List.nil_append]
  | cons c p ih =>
      rw [List.mem_cons, not_or] at h
      rw [List.cons_append, parse, if_neg fun hc => h.1 hc.symm, finish_lit, ih h.2, Out.put_eq,
        Out.append_assoc, Out.ofChars_append, List.singleton_append]

lemma finish_nil (a : ℕ) (o : Out) : finish strs va a o (parse [] none) = o := by
  simp [finish, parse, render]

/-- A format without conversions. -/
lemma finish_plain {p : List U8} (h : ch '%' ∉ p) :
    finish strs va 0 .empty (parse p none) = .ofChars p := by
  have hp : finish strs va 0 .empty (parse (p ++ []) none) = _ := finish_lits h [] 0 .empty
  rwa [List.append_nil, finish_nil, empty_append] at hp

/-! ### `uart_print` and `puts` -/

/-- `uart_print` prints the bytes up to the first newline, whatever stands between, and it returns
if and only if there is a newline. -/
theorem uart_print_iff (m : ByteMem) (x0 : Ptr) (out : List U8) :
    UartPrint m x0 out ↔
      ∃ n, m (off x0 n) = 0xa ∧ (∀ i < n, m (off x0 i) ≠ 0xa) ∧ out = bytes m x0 (n + 1) := by
  have hbody : uartPrintBody m =
      scan (fun s => m s.1 = 0xa) (fun s => (s.1 + 1, s.2 ++ [m s.1]))
        fun s => s.2 ++ [m s.1] := rfl
  have hiter : ∀ n, (fun s : Ptr × List U8 => (s.1 + 1, s.2 ++ [m s.1]))^[n] (x0, []) =
      (off x0 n, bytes m x0 n) := by
    intro n
    induction n with
    | zero => rw [Function.iterate_zero_apply, off_zero, bytes_zero]
    | succ n ih => rw [Function.iterate_succ_apply', ih, off_succ', bytes_succ']
  rw [UartPrint, hbody, returns_scan]
  simp only [hiter, ← bytes_succ', eq_comm (b := out)]

/-- A character is printed and returned, and it is not `EOF`. -/
lemma putchar_eq (c : U8) (out : List U8) :
    putchar (c.setWidth 32) out = (c.setWidth 32, out ++ [c]) ∧ (c.setWidth 32 : U32) ≠ -1 := by
  have hlt := c.isLt
  have h8 : (c.setWidth 32 : U32).setWidth 8 = c := by simp
  have h32 : (c.setWidth 32 : U32).toNat = c.toNat := by
    rw [BitVec.toNat_setWidth]
    omega
  have hpos : BitVec.sle 0#32 (c.setWidth 32) = true := by
    rw [BitVec.sle_iff_toInt_le, BitVec.toInt_eq_toNat_cond (c.setWidth 32 : U32), h32, if_pos]
    · exact Int.natCast_nonneg _
    · omega
  refine ⟨?_, fun h => ?_⟩
  · simp [putchar, uartPutchar, h8, hpos]
  · rw [h] at h32
    exact absurd (h32 ▸ hlt) (by decide)

/-- `puts` prints the string and a newline, and returns the number of characters printed. -/
theorem puts_prints (m : ByteMem) (s : Ptr) (x : List U8) (hx : IsStr m s x) :
    Puts m s (BitVec.ofNat 32 (x.length + 1)) (x ++ [ch '\n']) := by
  suffices H : ∀ (count : U32) (out : List U8), Returns (putsBody m) (s, count, out)
      (count + BitVec.ofNat 32 (x.length + 1), out ++ (x ++ [ch '\n'])) by
    simpa [Puts] using H 0 []
  induction x generalizing s with
  | nil =>
      intro count out
      have h0 : m s = 0 := isStr_nil.1 hx
      obtain ⟨hput, hne⟩ := putchar_eq (ch '\n') out
      refine .of_inr ?_
      simp only [putsBody, h0, hput, hne, ne_eq, not_true_eq_false, if_false]
      rfl
  | cons c x ih =>
      intro count out
      obtain ⟨hc, hc0, hx⟩ := isStr_cons.1 hx
      obtain ⟨hput, hne⟩ := putchar_eq c out
      have hstep : putsBody m (s, count, out) = .inl (s + 1, count + 1, out ++ [c]) := by
        simp only [putsBody, hc, hput, hne, hc0, ne_eq, not_false_eq_true, if_true, if_false]
      have hcount : count + 1 + BitVec.ofNat 32 (x.length + 1) =
          count + BitVec.ofNat 32 ((c :: x).length + 1) := by
        rw [List.length_cons, BitVec.add_assoc, Nat.add_comm (x.length + 1), BitVec.ofNat_add 1]
        rfl
      have hout : out ++ [c] ++ (x ++ [ch '\n']) = out ++ (c :: x ++ [ch '\n']) := by simp
      rw [← hcount, ← hout]
      exact (ih (s + 1) hx _ _).head hstep

/-- `puts` prints and returns what `printf` does with the format `%s` and a newline, and with the
string itself as a format if there is no `%` in it. -/
theorem puts_agrees (strs : Strings) (m : ByteMem) (s : Ptr) (hx : IsStr m s (strs s)) :
    ∃ o, Puts m s o.count o.chars ∧ Vprintf strs (fun _ => s) (lit "%s\n") (some o) ∧
      (ch '%' ∉ strs s → ∀ va, Vprintf strs va (strs s ++ lit "\n") (some o)) := by
  refine ⟨.ofChars (strs s ++ [ch '\n']), ?_, ?_, fun h va => ?_⟩
  · have h := puts_prints m s (strs s) hx
    rwa [Out.ofChars, List.length_append, List.length_singleton]
  · have h := vprintf_finish strs (fun _ => s) (lit "%s\n")
    have hparse : parse (lit "%s\n") none = ([.conv .str 0 0, .lit (ch '\n')], true) := rfl
    rwa [hparse, finish, if_pos rfl, empty_append, render, render, render, Out.append_empty,
      Conv.out, Out.ofChars_append] at h
  · have hplain : ch '%' ∉ strs s ++ lit "\n" := by
      rw [List.mem_append, not_or]
      exact ⟨h, by decide⟩
    have h := vprintf_finish strs va (strs s ++ lit "\n")
    rwa [finish_plain hplain] at h

/-- A name and a newline. -/
theorem puts_agrees_sample : ∃ o, Puts sampleStrings 0x100 o.count o.chars ∧
    Vprintf (fun _ => [0x55, 0x41, 0x52, 0x54]) (fun _ => 0x100) (lit "%s\n") (some o) := by
  obtain ⟨o, hputs, hprintf, -⟩ :=
    puts_agrees (fun _ => [0x55, 0x41, 0x52, 0x54]) sampleStrings 0x100 isStr_sampleStrings
  exact ⟨o, hputs, hprintf⟩

/-! ### `dump_esr` -/

/-- Calls of `printf` print their formats one behind the other. -/
lemma printfs_iff {calls : List (List U8 × List U64)} : Printfs strs calls out ↔
    out = calls.flatMap fun call =>
      (finish strs (fun i => call.2.getD i 0) 0 .empty (parse call.1 none)).chars := by
  induction calls generalizing out with
  | nil => rfl
  | cons call calls ih =>
      obtain ⟨fmt, args⟩ := call
      rw [Printfs, List.flatMap_cons]
      constructor
      · rintro ⟨o, out', ho, hout, rfl⟩
        obtain rfl := Option.some.inj (ho.unique (vprintf_finish strs _ fmt))
        rw [ih.1 hout]
      · rintro rfl
        exact ⟨_, _, vprintf_finish strs _ fmt, ih.2 rfl, rfl⟩

/-- `%llx`, padded or not, with characters around it. -/
lemma finish_hex {p q : List U8} (hp : ch '%' ∉ p) (hq : ch '%' ∉ q)
    (pad : Option (List (Fin 10))) (arg : U64) :
    (finish strs (fun i => [arg].getD i 0) 0 .empty
      (parse (p ++ ((⟨pad, .longLong, .hex⟩ : Directive).text ++ q)) none)).chars =
      p ++ (number 16 arg.toNat (⟨pad, .longLong, .hex⟩ : Directive).width ++ q) := by
  have hq : ∀ va o, finish strs va 1 o (parse (q ++ []) none) = _ :=
    fun va o => finish_lits hq [] 1 o
  rw [finish_lits hp, parse_directive, Directive.item, finish_conv, ← List.append_nil q, hq,
    finish_nil, empty_append]
  simp only [Out.append, Out.ofChars, List.append_nil, List.append_assoc]
  rfl

lemma percent_not_mem_lit {l : List Char} (h : (l.all fun c => c.toNat % 2 ^ 8 != 0x25) = true) :
    ch '%' ∉ lit (String.ofList l) := by
  rw [lit, String.toList_ofList, List.mem_map]
  rintro ⟨c, hc, he⟩
  have hnat := congrArg BitVec.toNat he
  have hne := List.all_eq_true.1 h c hc
  exact bne_iff_ne.1 hne (by simpa [ch] using hnat)

lemma percent_not_mem_append {s t : String} (hs : ch '%' ∉ lit s) (ht : ch '%' ∉ lit t) :
    ch '%' ∉ lit (s ++ t) := by
  rw [lit, String.toList_append, List.map_append, List.mem_append, not_or]
  exact ⟨hs, ht⟩

lemma percent_not_mem_esrReason (ec : U64) : ch '%' ∉ lit (esrReason ec) := by
  rw [esrReason]
  split
  all_goals
    repeat' with_reducible refine percent_not_mem_append ?_ ?_
    all_goals exact percent_not_mem_lit rfl

/-- The three fields make up the register. -/
lemma esr_fields (esr : U32) :
    (esrEc esr).toNat * 2 ^ 26 + (esrIl esr).toNat * 2 ^ 25 + (esrIss esr).toNat = esr.toNat := by
  have hlt := esr.isLt
  have h6 : (bitMask 6).toNat = 2 ^ 6 - 1 := rfl
  have h1 : (bitMask 1).toNat = 2 ^ 1 - 1 := rfl
  have h25 : (bitMask 25).toNat = 2 ^ 25 - 1 := rfl
  rw [esrEc, esrIl, esrIss, BitVec.toNat_and, BitVec.toNat_and, BitVec.toNat_and, h6, h1, h25]
  simp only [Nat.and_two_pow_sub_one_eq_mod, BitVec.toNat_setWidth, BitVec.toNat_ushiftRight,
    Nat.shiftRight_eq_div_pow]
  omega

/-- The value of a slot with an `unsigned int` in it. -/
lemma toNat_slot (junk esr : U32) : (junk ++ esr).toNat = junk.toNat * 2 ^ 32 + esr.toNat := by
  rw [BitVec.toNat_append, ← Nat.shiftLeft_add_eq_or_of_lt esr.isLt, Nat.shiftLeft_eq]

/-- What `dump_esr` prints. -/
def esrText (junk : U32) (esrEl2 elrEl2 : U64) : List U8 :=
  let esr := esrEl2.setWidth 32
  lit "ESR_ELn: 0x" ++ (number 16 (junk ++ esr).toNat 16 ++
    (lit "  EC:  0x" ++ (number 16 (esrEc esr).toNat 0 ++
      (lit "  IL:  0x" ++ (number 16 (esrIl esr).toNat 0 ++
        (lit "  ISS: 0x" ++ (number 16 (esrIss esr).toNat 0 ++ (lit "\n" ++
          (lit "  ELR: 0x" ++ (number 16 elrEl2.toNat 0 ++ (lit "\n" ++
            (lit (esrReason (esrEc esr)) ++ lit "\n"))))))))))))

lemma printfs_dumpEsr (strs : Strings) (junk : U32) (esrEl2 elrEl2 : U64) :
    Printfs strs (dumpEsr junk esrEl2 elrEl2) out ↔ out = esrText junk esrEl2 elrEl2 := by
  have hnl : ch '%' ∉ lit "\n" := by decide
  have h₁ : ∀ arg, (finish strs (fun i => [arg].getD i 0) 0 .empty
      (parse (lit "ESR_ELn: 0x%016llx") none)).chars = lit "ESR_ELn: 0x" ++ (_ ++ []) :=
    finish_hex (p := lit "ESR_ELn: 0x") (by decide) List.not_mem_nil (some [1, 6])
  have h₂ : ∀ arg, (finish strs (fun i => [arg].getD i 0) 0 .empty
      (parse (lit "  EC:  0x%llx") none)).chars = lit "  EC:  0x" ++ (_ ++ []) :=
    finish_hex (p := lit "  EC:  0x") (by decide) List.not_mem_nil none
  have h₃ : ∀ arg, (finish strs (fun i => [arg].getD i 0) 0 .empty
      (parse (lit "  IL:  0x%llx") none)).chars = lit "  IL:  0x" ++ (_ ++ []) :=
    finish_hex (p := lit "  IL:  0x") (by decide) List.not_mem_nil none
  have h₄ : ∀ arg, (finish strs (fun i => [arg].getD i 0) 0 .empty
      (parse (lit "  ISS: 0x%llx\n") none)).chars = lit "  ISS: 0x" ++ (_ ++ lit "\n") :=
    finish_hex (p := lit "  ISS: 0x") (by decide) hnl none
  have h₅ : ∀ arg, (finish strs (fun i => [arg].getD i 0) 0 .empty
      (parse (lit "  ELR: 0x%llx\n") none)).chars = lit "  ELR: 0x" ++ (_ ++ lit "\n") :=
    finish_hex (p := lit "  ELR: 0x") (by decide) hnl none
  rw [printfs_iff]
  simp only [dumpEsr, List.flatMap_cons, List.flatMap_nil, h₁, h₂, h₃, h₄, h₅,
    finish_plain (percent_not_mem_esrReason _), finish_plain hnl, Out.ofChars, List.append_nil,
    List.append_assoc]
  rfl

/-- What `dump_esr` prints shows why the exception was taken, and where: the same is printed for
two exceptions only if the low half of `ESR_EL2` and the whole of `ELR_EL2` are the same, and what
happens to be in the upper half of the argument slot. -/
theorem dump_esr_injective (strs strs' : Strings) (junk junk' : U32)
    (esrEl2 esrEl2' elrEl2 elrEl2' : U64) :
    (∃ out, Printfs strs (dumpEsr junk esrEl2 elrEl2) out ∧
      Printfs strs' (dumpEsr junk' esrEl2' elrEl2') out) ↔
    junk = junk' ∧ esrEl2.setWidth 32 = esrEl2'.setWidth 32 ∧ elrEl2 = elrEl2' := by
  simp only [printfs_dumpEsr, exists_eq_left, esrText]
  generalize esrEl2.setWidth 32 = esr
  generalize esrEl2'.setWidth 32 = esr'
  constructor
  · intro h
    have hlen : ∀ arg : U64, (number 16 arg.toNat 16).length = 16 := by
      intro arg
      have hlow : (Numeral.low 16 arg.toNat).length ≤ 16 :=
        Numeral.length_low_le (by decide) (by decide) (arg.isLt.trans_le (by decide))
      rw [length_number]
      exact Nat.max_eq_left hlow
    have hnumber : ∀ {a b : U64} {w : U32}, number 16 a.toNat w = number 16 b.toNat w → a = b := by
      intro a b w he
      have hval := readNumber_number (.inr rfl) a.toNat w
      rw [he, readNumber_number (.inr rfl)] at hval
      exact BitVec.eq_of_toNat_eq (by exact_mod_cast hval.symm)
    obtain ⟨he, hrest⟩ := List.append_inj (List.append_cancel_left h)
      ((hlen _).trans (hlen _).symm)
    have hslot := congrArg BitVec.toNat (hnumber he)
    have hlt := esr.isLt
    have hlt' := esr'.isLt
    rw [toNat_slot, toNat_slot] at hslot
    obtain rfl : junk = junk' := BitVec.eq_of_toNat_eq (by omega)
    obtain rfl : esr = esr' := BitVec.eq_of_toNat_eq (by omega)
    simp only [List.append_cancel_left_eq] at hrest
    exact ⟨rfl, rfl, hnumber (List.append_cancel_right hrest)⟩
  · rintro ⟨rfl, rfl, rfl⟩
    rfl

/-- The numbers behind `EC`, `IL` and `ISS` are the fields of the register, whose low half also
stands behind `ESR_ELn`, whatever is in front of it. -/
theorem dump_esr_reads_back (strs : Strings) (junk : U32) (esrEl2 elrEl2 : U64) :
    ∃ e ec il iss elr, Printfs strs (dumpEsr junk esrEl2 elrEl2)
      (lit "ESR_ELn: 0x" ++ (e ++ (lit "  EC:  0x" ++ (ec ++ (lit "  IL:  0x" ++ (il ++
        (lit "  ISS: 0x" ++ (iss ++ (lit "\n" ++ (lit "  ELR: 0x" ++ (elr ++ (lit "\n" ++
          (lit (esrReason (esrEc (esrEl2.setWidth 32))) ++ lit "\n"))))))))))))) ∧
      readNumber 16 ec * 2 ^ 26 + readNumber 16 il * 2 ^ 25 + readNumber 16 iss =
        (esrEl2.setWidth 32).toNat ∧
      readNumber 16 e % 2 ^ 32 = (esrEl2.setWidth 32).toNat ∧ readNumber 16 elr = elrEl2.toNat := by
  refine ⟨_, _, _, _, _, (printfs_dumpEsr strs junk esrEl2 elrEl2).2 rfl, ?_, ?_, ?_⟩
  · rw [readNumber_number (.inr rfl), readNumber_number (.inr rfl), readNumber_number (.inr rfl)]
    exact_mod_cast esr_fields _
  · have hlt := (esrEl2.setWidth 32).isLt
    rw [readNumber_number (.inr rfl), toNat_slot]
    omega
  · exact readNumber_number (.inr rfl) _ _

end Arm64Mmu
