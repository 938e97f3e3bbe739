import Arm64Mmu.Lib.Return
import Arm64Mmu.Model.Libc

/-!
# `printf.c` and `snprintf.c`

`printf` stores nothing outside its own variables, so a string that it reads is the list of its
characters up to the terminator, and a pointer into it is what is left of it.  `snprintf` reads the
memory that it stores to.  The arguments are a row of slots of eight bytes: `va_arg` takes the
next slot, and the low half of it for an `int`.  What `putchar` writes to the UART is a list of
characters; it never fails.  An `int` that overflows, as `padn`, `count` and the number negated
can, is taken to wrap around, although C leaves it open.
-/

namespace Arm64Mmu

open Lib Lib.Return

/-- A character constant. -/
def ch (c : Char) : U8 := BitVec.ofNat 8 c.toNat

/-- The argument slots of a `va_list`. -/
abbrev VaList := ℕ → U64

/-- The string at each address. -/
abbrev Strings := U64 → List U8

/-! ### Numbers -/

/-- The loop that fills `num_buf`, with `room` entries of it left: what it stores from here on.
`none` is a store behind the end of the array. -/
def numBufLoop {w : ℕ} (digit : BitVec w → U8) (radix : BitVec w) :
    ℕ → BitVec w → Option (List U8)
  | 0, _ => none
  | room + 1, unum =>
      let rem := unum % radix
      let unum := unum / radix
      if 0 < unum then (numBufLoop digit radix room unum).map fun cs => digit rem :: cs
      else some [digit rem]

/-- The two functions `string_print`, by how they put out a character. -/
def putString {σ : Type*} (put : σ → U8 → σ) : List U8 → σ → σ
  | [], o => o
  | c :: str, o => putString put str (put o c)

/-- The loop `while (--i >= 0)` behind the one that fills `num_buf`. -/
def putDigits {σ : Type*} (put : σ → U8 → σ) (numBuf : List U8) : ℕ → σ → σ
  | 0, o => o
  | i + 1, o => putDigits put numBuf i (put o (numBuf.getD i 0))

namespace Printf

/-- What was printed, and the number of characters that were counted. -/
structure Out where
  chars : List U8
  count : U32
deriving DecidableEq

/-- `(void)putchar(c)`. -/
def Out.putchar (o : Out) (c : U8) : Out := { o with chars := o.chars ++ [c] }

/-- `(void)putchar(c); count++`.  A function that returns a count to be added adds it here. -/
def Out.put (o : Out) (c : U8) : Out := { o.putchar c with count := o.count + 1 }

/-- `string_print`. -/
def stringPrint : List U8 → Out → Out := putString Out.put

/-- The digit of `unsigned_num_print`. -/
def numDigit (rem : U64) : U8 :=
  if rem < 0xa then ch '0' + rem.setWidth 8 else ch 'a' + (rem - 0xa).setWidth 8

/-- The loop `while (i < padn)`, which counts `padn` down. -/
def padLoop (padc : U8) (i : ℕ) : ℕ → Out → Out
  | 0, o => o
  | padn + 1, o => if i < padn + 1 then padLoop padc i padn (o.put padc) else o

/-- `unsigned_num_print`. -/
def unsignedNumPrint (unum radix : U64) (padc : U8) (padn : U32) (o : Out) : Option Out :=
  match numBufLoop numDigit radix 20 unum with
  | none => none
  | some numBuf =>
      let i := numBuf.length
      let o := if BitVec.slt 0 padn then padLoop padc i padn.toNat o else o
      some (putDigits Out.put numBuf i o)

/-- `get_num_va_args`, as a `long long`. -/
def getNumVaArgs (arg : U64) (lcount : U32) : U64 :=
  if BitVec.slt 1 lcount then arg
  else if lcount = 1 then arg
  else (arg.setWidth 32).signExtend 64

/-- `get_unum_va_args`, as an `unsigned long long`. -/
def getUnumVaArgs (arg : U64) (lcount : U32) : U64 :=
  if BitVec.slt 1 lcount then arg
  else if lcount = 1 then arg
  else (arg.setWidth 32).setWidth 64

/-! ### `vprintf` -/

/-- The places where a loop or a `goto` of `vprintf` continues. -/
inductive Label where
  /-- `while (*fmt != '\0')`. -/
  | head
  /-- `loop:`. -/
  | loop
  /-- `for (;;)`. -/
  | digits
deriving DecidableEq

/-- The variables of `vprintf`. -/
structure State where
  label : Label
  fmt : List U8
  /-- The number of the next argument slot. -/
  args : ℕ
  lCount : U32
  padc : U8
  padn : U32
  out : Out
deriving DecidableEq

/-- Print a number and go on behind the conversion. -/
def State.print (s : State) (fmt : List U8) (unum radix : U64) (padn : U32) (o : Out) :
    State ⊕ Option Out :=
  match unsignedNumPrint unum radix s.padc padn o with
  | none => .inr none
  | some o => .inl { s with label := .head, fmt := fmt, args := s.args + 1, out := o }

/-- From one label to the next: the new state, or what was printed with the value that `vprintf`
returns in place of the count.  `none` stands for a store outside `num_buf`. -/
def step (strs : Strings) (va : VaList) (s : State) : State ⊕ Option Out :=
  match s.label, s.fmt with
  | .head, [] => .inr (some s.out)
  | .head, c :: fmt =>
      let s := { s with lCount := 0, padn := 0, fmt := fmt }
      if c = ch '%' then .inl { s with label := .loop }
      else .inl { s with out := s.out.put c }
  | .loop, [] => .inr (some { s.out with count := -1 })
  | .loop, c :: fmt =>
      let arg := va s.args
      if c = ch 'i' ∨ c = ch 'd' then
        let num := getNumVaArgs arg s.lCount
        if num.slt 0 then s.print fmt (-num) 10 (s.padn - 1) (s.out.putchar (ch '-'))
        else s.print fmt num 10 s.padn s.out
      else if c = ch 's' then
        .inl { s with label := .head, fmt := fmt, args := s.args + 1,
                      out := stringPrint (strs arg) s.out }
      else if c = ch 'p' then
        if 0 < arg then
          s.print fmt arg 16 (s.padn - 2) (stringPrint [ch '0', ch 'x'] s.out)
        else s.print fmt arg 16 s.padn s.out
      else if c = ch 'x' then s.print fmt (getUnumVaArgs arg s.lCount) 16 s.padn s.out
      else if c = ch 'z' then .inl { s with lCount := 2, fmt := fmt }
      else if c = ch 'l' then .inl { s with lCount := s.lCount + 1, fmt := fmt }
      else if c = ch 'u' then s.print fmt (getUnumVaArgs arg s.lCount) 10 s.padn s.out
      else if c = ch '0' then
        .inl { s with label := .digits, padc := ch '0', padn := 0, fmt := fmt }
      else .inr (some { s.out with count := -1 })
  | .digits, [] => .inl { s with label := .loop }
  | .digits, c :: fmt =>
      if c < ch '0' ∨ ch '9' < c then .inl { s with label := .loop }
      else .inl { s with padn := s.padn * 10 + (c - ch '0').setWidth 32, fmt := fmt }

/-- The start of `vprintf`. -/
def start (fmt : List U8) : State := ⟨.head, fmt, 0, 0, 0, 0, ⟨[], 0⟩⟩

/-- `vprintf` returns `r.count` and has printed `r.chars`; a result `none` is a store outside
`num_buf`. -/
def Vprintf (strs : Strings) (va : VaList) (fmt : List U8) (r : Option Out) : Prop :=
  Returns (step strs va) (start fmt) r

/-- The characters of a string literal. -/
def lit (s : String) : List U8 := s.toList.map ch

example : loop (step (fun _ => []) fun i => if i = 0 then 0xfffffffe else 0x40001000) 40
    (start (lit "a %05d end %lx\n")) = some (some ⟨lit "a -0002 end 40001000\n", 20⟩) := by decide

end Printf

/-! ### `snprintf` -/

namespace Snprintf

/-- The places where a loop of `snprintf` continues. -/
inductive Label where
  /-- `while (*fmt != '\0')`. -/
  | head
  /-- `while (*str != '\0')` of `string_print`. -/
  | string (str : Ptr)

/-- The variables of `snprintf`, and the memory, which holds the format and the strings too. -/
structure State where
  label : Label
  m : ByteMem
  s : Ptr
  fmt : Ptr
  /-- The number of the next argument slot. -/
  args : ℕ
  charsPrinted : U64

/-- One character, which is stored if there is room for it. -/
def State.put (t : State) (n : U64) (c : U8) : State :=
  let t := if t.charsPrinted < n then { t with m := Function.update t.m t.s c, s := t.s + 1 }
    else t
  { t with charsPrinted := t.charsPrinted + 1 }

/-- One turn of the loop of `string_print`, behind which `snprintf` goes on. -/
def stringPrint (n : U64) (str : Ptr) (t : State) : State :=
  if t.m str ≠ 0 then { t.put n (t.m str) with label := .string (str + 1) }
  else { t with label := .head, fmt := t.fmt + 1 }

/-- `unsigned_dec_print`; `none` is a store behind the end of `num_buf`. -/
def unsignedDecPrint (n : U64) (unum : U32) (t : State) : Option State :=
  (numBufLoop (fun rem => ch '0' + rem.setWidth 8) 10 10 unum).map fun numBuf =>
    putDigits (fun t c => t.put n c) numBuf numBuf.length t

/-- Print a number and go on behind the conversion. -/
def State.print (t : State) (n : U64) (unum : U32) : State ⊕ Option State :=
  match unsignedDecPrint n unum t with
  | none => .inr none
  | some t => .inl { t with fmt := t.fmt + 1 }

/-- The `switch`, with `fmt` behind the `%`.  A character that is no conversion is passed over, also
if it is the terminator. -/
def convert (va : VaList) (n : U64) (t : State) : State ⊕ Option State :=
  let c := t.m t.fmt
  let arg := va t.args
  if c = ch 'i' ∨ c = ch 'd' then
    let t := { t with args := t.args + 1 }
    let num := arg.setWidth 32
    if num.slt 0 then (t.put n (ch '-')).print n (-num) else t.print n num
  else if c = ch 's' then .inl { t with args := t.args + 1, label := .string arg }
  else if c = ch 'u' then { t with args := t.args + 1 }.print n (arg.setWidth 32)
  else .inl { t with fmt := t.fmt + 1 }

/-- From one label to the next. -/
def step (va : VaList) (n : U64) (t : State) : State ⊕ Option State :=
  match t.label with
  | .string str => .inl (stringPrint n str t)
  | .head =>
      let c := t.m t.fmt
      if c = 0 then .inr (some t)
      else if c = ch '%' then convert va n { t with fmt := t.fmt + 1 }
      else .inl { t.put n c with fmt := t.fmt + 1 }

end Snprintf

/-- `snprintf` leaves the memory and returns the value in `r`; a result `none` is a store outside
`num_buf`. -/
def Snprintf (va : VaList) (m : ByteMem) (s : Ptr) (n : U64) (fmt : Ptr)
    (r : Option (ByteMem × U32)) : Prop :=
  let (m, n) :=
    if n = 0 then (m, n)
    else if n = 1 then (Function.update m s 0, 0)
    else (m, n - 1)
  ∃ t, Returns (Snprintf.step va n) ⟨.head, m, s, fmt, 0, 0⟩ t ∧ r = t.map fun t =>
    (if 0 < n then Function.update t.m t.s 0 else t.m, t.charsPrinted.setWidth 32)

end Arm64Mmu
