import Arm64Mmu.Libc.Printed

/-!
# The documented conversions

The comment above `vprintf` lists the conversions, the length specifiers and the padding.  One such
conversion is one item (`parse_directive`), so that a number printed with any padding can be read
back (`vprintf_reads_back`), and fills the places asked for (`vprintf_pads`).
-/

namespace Arm64Mmu.Printf

open Lib Lib.Return Lib.Numeral Out

variable {fmt : List U8} {l w : U32} {c : U8}

/-! ### Conversions -/

/-- The length specifiers that the documentation of `vprintf` lists. -/
inductive Length where
  | int
  | long
  | longLong
  | size
deriving DecidableEq

namespace Length

def text : Length → List U8
  | int => []
  | long => lit "l"
  | longLong => lit "ll"
  | size => lit "z"

def lCount : Length → U32
  | int => 0
  | long => 1
  | longLong => 2
  | size => 2

end Length

/-- The character of a conversion. -/
def Conv.char : Conv → U8
  | .dec => ch 'd'
  | .udec => ch 'u'
  | .hex => ch 'x'
  | .ptr => ch 'p'
  | .str => ch 's'

/-- A documented conversion: `%`, padding with zeros up to a decimal number of places, a length
specifier and a type specifier. -/
structure Directive where
  pad : Option (List (Fin 10))
  length : Length
  conv : Conv

namespace Directive

/-- The padding specifier. -/
def padText (d : Directive) : List U8 :=
  match d.pad with
  | none => []
  | some ds => ch '0' :: ds.map fun i : Fin 10 => digitChar i

/-- The number in the padding specifier, in the arithmetic of `int`. -/
def width (d : Directive) : U32 :=
  match d.pad with
  | none => 0
  | some ds => ds.foldl (fun w (i : Fin 10) => w * 10 + BitVec.ofNat 32 i) 0

def text (d : Directive) : List U8 := ch '%' :: (d.padText ++ (d.length.text ++ [d.conv.char]))

def item (d : Directive) : Item := .conv d.conv d.length.lCount d.width

end Directive

lemma parse_conv_char (k : Conv) (fmt : List U8) (l w : U32) :
    parse (k.char :: fmt) (some ⟨l, w, false⟩) =
      (parse fmt none).map (fun is => .conv k l w :: is) id := by
  rw [parse, if_neg (by simp)]
  cases k <;> rfl

/-- A character that is no digit ends the padding. -/
lemma parse_inPad (h : c < ch '0' ∨ ch '9' < c) (w : U32) (b : Bool) :
    parse (c :: fmt) (some ⟨l, w, b⟩) = parse (c :: fmt) (some ⟨l, w, false⟩) := by
  cases b with
  | false => rfl
  | true => exact parse_of_not_digit h

lemma parse_length (len : Length) (k : Conv) (fmt : List U8) (w : U32) (b : Bool) :
    parse (len.text ++ k.char :: fmt) (some ⟨0, w, b⟩) =
      (parse fmt none).map (fun is => .conv k len.lCount w :: is) id := by
  cases len with
  | int =>
      rw [Length.text, List.nil_append, parse_inPad (by cases k <;> decide), parse_conv_char]
      rfl
  | long =>
      show parse (ch 'l' :: k.char :: fmt) _ = _
      rw [parse_inPad (by decide), parse, if_neg (by simp)]
      exact parse_conv_char k fmt 1 w
  | longLong =>
      show parse (ch 'l' :: ch 'l' :: k.char :: fmt) _ = _
      rw [parse_inPad (by decide), parse, if_neg (by simp)]
      show parse (ch 'l' :: k.char :: fmt) (some ⟨1, w, false⟩) = _
      rw [parse, if_neg (by simp)]
      exact parse_conv_char k fmt 2 w
  | size =>
      show parse (ch 'z' :: k.char :: fmt) _ = _
      rw [parse_inPad (by decide), parse, if_neg (by simp)]
      exact parse_conv_char k fmt 2 w

/-- The digits of the padding. -/
lemma parse_digits (ds : List (Fin 10)) (fmt : List U8) (w : U32) :
    parse (ds.map (fun i : Fin 10 => digitChar i) ++ fmt) (some ⟨l, w, true⟩) =
      parse fmt
        (some ⟨l, ds.foldl (fun w (i : Fin 10) => w * 10 + BitVec.ofNat 32 i) w, true⟩) := by
  induction ds generalizing w with
  | nil => rfl
  | cons d ds ih =>
      have hdigit : ch '0' ≤ digitChar d ∧ digitChar d ≤ ch '9' := by
        revert d
        decide
      have hval : (digitChar d - ch '0').setWidth 32 = BitVec.ofNat 32 d := by
        revert d
        decide
      rw [List.map_cons, List.cons_append, parse, if_pos ⟨rfl, hdigit⟩, hval]
      exact ih _

/-- A documented conversion is one item. -/
lemma parse_directive (d : Directive) (fmt : List U8) :
    parse (d.text ++ fmt) none = (parse fmt none).map (fun is => d.item :: is) id := by
  obtain ⟨pad, len, k⟩ := d
  rw [Directive.text, List.cons_append, parse, if_pos rfl, List.append_assoc, List.append_assoc,
    List.singleton_append]
  cases pad with
  | none => exact parse_length len k fmt 0 false
  | some ds =>
      show parse (ch '0' :: (ds.map (fun i : Fin 10 => digitChar i) ++ _)) _ = _
      rw [parse, if_neg (by simp)]
      show parse (ds.map (fun i : Fin 10 => digitChar i) ++ _) (some ⟨0, 0, true⟩) = _
      rw [parse_digits, parse_length]
      rfl

/-! ### Reading back -/

/-- The digit that a character stands for. -/
def charDigit (c : U8) : ℕ := if c ≤ ch '9' then (c - ch '0').toNat else (c - ch 'a').toNat + 10

/-- The number that characters stand for, with a minus sign in front of a negative one. -/
def readNumber (b : ℕ) : List U8 → ℤ
  | [] => 0
  | c :: cs =>
      if c = ch '-' then -(value b (cs.map charDigit) : ℤ)
      else value b ((c :: cs).map charDigit)

lemma charDigit_digitChar {d : ℕ} (hd : d < 16) : charDigit (digitChar d) = d := by
  interval_cases d <;> rfl

lemma value_number {b : ℕ} (hb : b = 10 ∨ b = 16) (n : ℕ) (w : U32) :
    value b ((number b n w).map charDigit) = n := by
  have h : (number b n w).map charDigit = numeral b w.toInt.toNat n := by
    rw [number, List.map_map]
    refine (List.map_congr_left fun d hd => ?_).trans (List.map_id _)
    have hlt : d < b := lt_of_mem_numeral (by omega) hd
    exact charDigit_digitChar (by omega)
  rw [h, value_numeral]

/-- A number is read back without its padding. -/
lemma readNumber_number {b : ℕ} (hb : b = 10 ∨ b = 16) (n : ℕ) (w : U32) :
    readNumber b (number b n w) = n := by
  have hval := value_number hb n w
  cases hcs : number b n w with
  | nil =>
      rw [hcs, List.map_nil, value_nil] at hval
      rw [← hval]
      rfl
  | cons c cs =>
      have hc : c ≠ ch '-' := by
        have hmem : c ∈ number b n w := hcs ▸ List.mem_cons_self
        obtain ⟨d, hd, rfl⟩ := List.mem_map.1 hmem
        have hlt : d < 16 := (lt_of_mem_numeral (by omega) hd).trans_le (by omega)
        interval_cases d <;> decide
      rw [readNumber, if_neg hc, ← hcs, hval]

/-- A documented conversion on its own. -/
lemma vprintf_directive (strs : Strings) (va : VaList) (d : Directive) :
    Vprintf strs va d.text (some (d.conv.out strs (va 0) d.length.lCount d.width)) := by
  have h := vprintf_finish strs va d.text
  have hparse := parse_directive d []
  rw [List.append_nil] at hparse
  rw [hparse] at h
  simpa [finish, parse, render, Directive.item] using h

/-- Numbers are read back as the arguments that they were printed from, whatever the padding: with
`%d` as a signed one, with `%u` and `%x` as an unsigned one, of 32 bits without a length
specifier and of 64 bits with one. -/
theorem vprintf_reads_back (strs : Strings) (va : VaList) (d : Directive) :
    ∃ o, Vprintf strs va d.text (some o) ∧
      (d.conv = .dec → readNumber 10 o.chars = numArg (va 0) d.length.lCount) ∧
      (d.conv = .udec → readNumber 10 o.chars = unumArg (va 0) d.length.lCount) ∧
      (d.conv = .hex → readNumber 16 o.chars = unumArg (va 0) d.length.lCount) := by
  refine ⟨_, vprintf_directive strs va d, fun hk => ?_, fun hk => ?_, fun hk => ?_⟩
  · rw [hk]
    simp only [Conv.out]
    split_ifs with h
    · rw [readNumber, if_pos rfl, value_number (.inl rfl)]
      omega
    · rw [ofChars, readNumber_number (.inl rfl)]
      omega
  · rw [hk]
    exact readNumber_number (.inl rfl) _ _
  · rw [hk]
    exact readNumber_number (.inr rfl) _ _

/-! ### Padding -/

lemma length_number (b n : ℕ) (w : U32) :
    (number b n w).length = max w.toInt.toNat (low b n).length := by
  rw [number, List.length_map, length_numeral]

/-- The number of places that the padding asks for. -/
def Directive.places (d : Directive) : ℕ := value 10 ((d.pad.getD []).map fun i : Fin 10 => (i : ℕ))

/-- Nine digits fit into an `int`. -/
lemma Directive.width_toNat (d : Directive) (h : (d.pad.getD []).length ≤ 9) :
    d.width.toNat = d.places ∧ d.places < 10 ^ 9 := by
  have hfold : ∀ ds : List (Fin 10), ds.foldl (fun w (i : Fin 10) => w * 10 + BitVec.ofNat 32 i) 0 =
      BitVec.ofNat 32 (value 10 (ds.map fun i : Fin 10 => (i : ℕ))) := by
    intro ds
    induction ds using List.reverseRecOn with
    | nil => rfl
    | append_singleton ds i ih =>
        rw [List.foldl_append, ih, List.map_append, List.map_singleton, value_snoc,
          BitVec.ofNat_add, BitVec.ofNat_mul]
        rfl
  have hlt : d.places < 10 ^ 9 := by
    refine (value_lt (by decide) ?_).trans_le (Nat.pow_le_pow_right (by decide) (by simpa using h))
    intro i hi
    obtain ⟨j, -, rfl⟩ := List.mem_map.1 hi
    exact j.isLt
  refine ⟨?_, hlt⟩
  have hwidth : d.width = BitVec.ofNat 32 d.places := by
    obtain ⟨pad, len, k⟩ := d
    cases pad with
    | none => rfl
    | some ds => exact hfold ds
  rw [hwidth, BitVec.toNat_ofNat, Nat.mod_eq_of_lt (by omega)]

/-- Places taken off a width for a sign or a prefix. -/
lemma sub_toInt_toNat {p n : ℕ} (hw : w.toNat = p) (hp : p < 10 ^ 9) (hn : n ≤ 2) :
    (w - BitVec.ofNat 32 n).toInt.toNat = p - n := by
  rw [BitVec.toInt_eq_toNat_cond, BitVec.toNat_sub, BitVec.toNat_ofNat, hw]
  split_ifs <;> omega

/-- The characters of a padded number and of the same number without padding. -/
lemma length_conv_out (strs : Strings) (k : Conv) (hk : k ≠ .str) (arg : U64) (l : U32) {p : ℕ}
    (hw : w.toNat = p) (hp : p < 10 ^ 9) :
    (k.out strs arg l w).chars.length = max p (k.out strs arg l 0).chars.length := by
  have h0 : w.toInt.toNat = p := by simpa using sub_toInt_toNat hw hp (show 0 ≤ 2 by decide)
  have h1 : (w - 1).toInt.toNat = p - 1 := sub_toInt_toNat (n := 1) hw hp (by decide)
  have h2 : (w - 2).toInt.toNat = p - 2 := sub_toInt_toNat (n := 2) hw hp (by decide)
  have z0 : (0 : U32).toInt.toNat = 0 := by decide
  have z1 : ((0 : U32) - 1).toInt.toNat = 0 := by decide
  have z2 : ((0 : U32) - 2).toInt.toNat = 0 := by decide
  cases k with
  | dec =>
      simp only [Conv.out]
      split_ifs
      · rw [List.length_cons, List.length_cons, length_number, length_number, h1, z1]
        omega
      · rw [ofChars, ofChars, length_number, length_number, h0, z0]
        omega
  | udec =>
      rw [Conv.out, Conv.out, ofChars, ofChars, length_number, length_number, h0, z0]
      omega
  | hex =>
      rw [Conv.out, Conv.out, ofChars, ofChars, length_number, length_number, h0, z0]
      omega
  | ptr =>
      simp only [Conv.out]
      split_ifs
      · rw [ofChars, ofChars, length_number, length_number, h0, z0]
        omega
      · simp only [ofChars, List.length_cons, length_number, h2, z2]
        omega
  | str => exact absurd rfl hk

/-- A padded number, with its sign or its `0x`, fills the places asked for, or has as many
characters as without padding if these are more. -/
theorem vprintf_pads (strs : Strings) (va : VaList) (d : Directive) (hk : d.conv ≠ .str)
    (h : (d.pad.getD []).length ≤ 9) :
    ∃ o o₀, Vprintf strs va d.text (some o) ∧
      Vprintf strs va { d with pad := none }.text (some o₀) ∧
      o.chars.length = max d.places o₀.chars.length := by
  obtain ⟨hw, hp⟩ := d.width_toNat h
  exact ⟨_, _, vprintf_directive strs va d, vprintf_directive strs va { d with pad := none },
    length_conv_out strs d.conv hk (va 0) d.length.lCount hw hp⟩

/-- `%016llx`. -/
theorem vprintf_pads_sample :
    ∃ o o₀, Vprintf (fun _ => []) (fun _ => 0x713) (lit "%016llx") (some o) ∧
      Vprintf (fun _ => []) (fun _ => 0x713) (lit "%llx") (some o₀) ∧
      o.chars.length = max 16 o₀.chars.length :=
  vprintf_pads (fun _ => []) (fun _ => 0x713) ⟨some [1, 6], .longLong, .hex⟩ (by decide) (by decide)

end Arm64Mmu.Printf
