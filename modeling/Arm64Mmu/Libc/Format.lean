import Arm64Mmu.Lib.Numeral
import Arm64Mmu.Model.Printf

/-!
# What a format means

A format is a list of items, characters and conversions, and each item says on its own what it
prints (`Item.out`).  `parse` reads the items of a format up to its end, or up to a conversion
that is not one; `render` is what they print one after the other.
-/

namespace Arm64Mmu.Printf

open Lib.Numeral

/-! ### Printed characters -/

namespace Out

/-- Characters that are all counted. -/
def ofChars (cs : List U8) : Out := ⟨cs, BitVec.ofNat 32 cs.length⟩

/-- One part of the output behind another. -/
def append (o o' : Out) : Out := ⟨o.chars ++ o'.chars, o.count + o'.count⟩

/-- Nothing. -/
def empty : Out := ⟨[], 0⟩

@[simp] lemma append_empty (o : Out) : o.append empty = o := by
  simp [append, empty]

lemma append_assoc (o o' o'' : Out) : (o.append o').append o'' = o.append (o'.append o'') := by
  simp [append, List.append_assoc, BitVec.add_assoc]

end Out

/-! ### Items -/

/-- The kinds of conversions. -/
inductive Conv where
  | dec
  | udec
  | hex
  | ptr
  | str
deriving DecidableEq

/-- A character, or a conversion with what its length and padding specifiers leave in `l_count`
and `padn`. -/
inductive Item where
  | lit (c : U8)
  | conv (k : Conv) (lCount width : U32)
deriving DecidableEq

/-- A digit as a character. -/
def digitChar (d : ℕ) : U8 := BitVec.ofNat 8 (if d < 10 then 0x30 + d else 0x57 + d)

/-- A number with zeros in front, up to a width that may be negative. -/
def number (b n : ℕ) (width : U32) : List U8 := (numeral b width.toInt.toNat n).map digitChar

/-- A signed argument, of 64 bits if there is a length specifier. -/
def numArg (arg : U64) (lCount : U32) : ℤ :=
  if BitVec.slt 0 lCount then arg.toInt else (arg.setWidth 32).toInt

/-- An unsigned argument. -/
def unumArg (arg : U64) (lCount : U32) : ℕ :=
  if BitVec.slt 0 lCount then arg.toNat else (arg.setWidth 32).toNat

/-- What a conversion prints of an argument.  A minus sign takes one place of the width and is
not counted. -/
def Conv.out (strs : Strings) (arg : U64) (lCount width : U32) : Conv → Out
  | .dec =>
      let v := numArg arg lCount
      if v < 0 then
        let cs := number 10 v.natAbs (width - 1)
        ⟨ch '-' :: cs, BitVec.ofNat 32 cs.length⟩
      else .ofChars (number 10 v.natAbs width)
  | .udec => .ofChars (number 10 (unumArg arg lCount) width)
  | .hex => .ofChars (number 16 (unumArg arg lCount) width)
  | .ptr =>
      if arg = 0 then .ofChars (number 16 0 width)
      else .ofChars (ch '0' :: ch 'x' :: number 16 arg.toNat (width - 2))
  | .str => .ofChars (strs arg)

/-- What the items print, the first conversion taking the argument number `a`. -/
def render (strs : Strings) (va : VaList) : ℕ → List Item → Out
  | _, [] => .empty
  | a, .lit c :: is => (Out.ofChars [c]).append (render strs va a is)
  | a, .conv k l w :: is => (k.out strs (va a) l w).append (render strs va (a + 1) is)

/-- What holds of every argument that the items print as a string. -/
def StrArgs (va : VaList) (P : U64 → Prop) : ℕ → List Item → Prop
  | _, [] => True
  | a, .lit _ :: is => StrArgs va P a is
  | a, .conv k _ _ :: is => (k = .str → P (va a)) ∧ StrArgs va P (a + 1) is

lemma StrArgs.imp {va : VaList} {P Q : U64 → Prop} {a : ℕ} {is : List Item}
    (h : StrArgs va P a is) (hPQ : ∀ p, P p → Q p) : StrArgs va Q a is := by
  induction is generalizing a with
  | nil => trivial
  | cons i is ih =>
      cases i with
      | lit c => exact ih h
      | conv k l w => exact ⟨fun hk => hPQ _ (h.1 hk), ih h.2⟩

lemma StrArgs.of_forall (va : VaList) {P : U64 → Prop} (h : ∀ p, P p) (a : ℕ) (is : List Item) :
    StrArgs va P a is := by
  induction is generalizing a with
  | nil => trivial
  | cons i is ih =>
      cases i with
      | lit c => exact ih a
      | conv k l w => exact ⟨fun _ => h _, ih (a + 1)⟩

/-! ### Parsing -/

/-- The conversion that a character asks for. -/
def convOf (c : U8) : Option Conv :=
  if c = ch 'i' ∨ c = ch 'd' then some .dec
  else if c = ch 's' then some .str
  else if c = ch 'p' then some .ptr
  else if c = ch 'x' then some .hex
  else if c = ch 'u' then some .udec
  else none

/-- What stands between a `%` and the conversion: the length, the padding, and whether the
padding may have more digits. -/
structure Spec where
  lCount : U32
  width : U32
  inPad : Bool

/-- The items of a format, and whether its end was reached.  The second argument is what was read
of a conversion. -/
def parse : List U8 → Option Spec → List Item × Bool
  | [], none => ([], true)
  | [], some _ => ([], false)
  | c :: fmt, none =>
      if c = ch '%' then parse fmt (some ⟨0, 0, false⟩)
      else ((parse fmt none).map (fun is => .lit c :: is) id)
  | c :: fmt, some s =>
      if s.inPad ∧ ch '0' ≤ c ∧ c ≤ ch '9' then
        parse fmt (some { s with width := s.width * 10 + (c - ch '0').setWidth 32 })
      else
        match convOf c with
        | some k => (parse fmt none).map (fun is => .conv k s.lCount s.width :: is) id
        | none =>
            if c = ch 'z' then parse fmt (some ⟨2, s.width, false⟩)
            else if c = ch 'l' then parse fmt (some ⟨s.lCount + 1, s.width, false⟩)
            else if c = ch '0' then parse fmt (some ⟨s.lCount, 0, true⟩)
            else ([], false)

example : parse (lit "a %05d\n") none =
    ([.lit (ch 'a'), .lit (ch ' '), .conv .dec 0 5, .lit (ch '\n')], true) := by decide

end Arm64Mmu.Printf
