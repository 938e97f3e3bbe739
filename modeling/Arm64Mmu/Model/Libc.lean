import Mathlib.Data.BitVec
import Arm64Mmu.Lib.Bytes
import Arm64Mmu.Lib.Return
import Arm64Mmu.Model.Macros

/-!
# The memory and string functions of `lib/libc`

Memory is an array of bytes, and a pointer is an address, so that pointers wrap around and two
arrays may overlap in any way.  A counted loop is a recursion on its counter.  A loop that ends
only at a terminator may never end, so a function with one is a relation (`Returns`), whose loop
body is a definition that can be run.  A `char` is unsigned, as on AArch64.
-/

namespace Arm64Mmu

/-- A byte, the C types `char` and `unsigned char`. -/
abbrev U8 := BitVec 8

/-- A pointer. -/
abbrev Ptr := BitVec 64

/-- The byte at each address. -/
abbrev ByteMem := Ptr → U8

/-- A memory in which every byte is the low byte of its address. -/
def sampleBytes : ByteMem := fun a => a.setWidth 8

/-- A memory with the string `UART` at `0x100` and nothing else. -/
def sampleStrings : ByteMem := Lib.Bytes.write (fun _ => 0) 0x100
  ([0x55, 0x41, 0x52, 0x54] ++ [0])

lemma isStr_sampleStrings : Lib.Bytes.IsStr sampleStrings 0x100 [0x55, 0x41, 0x52, 0x54] :=
  Lib.Bytes.isStr_write _ _ (by decide) (by decide)

namespace Libc

open Lib Lib.Return

/-! ### Memory -/

/-- The loop of `memcpy`; the number counts `len` down. -/
def memcpyLoop (d s : Ptr) : ℕ → ByteMem → ByteMem
  | 0, m => m
  | len + 1, m => memcpyLoop (d + 1) (s + 1) len (Function.update m d (m s))

/-- `memcpy`: the pointer it returns and the memory after it. -/
def memcpy (m : ByteMem) (dst src : Ptr) (len : U64) : Ptr × ByteMem :=
  (dst, memcpyLoop dst src len.toNat m)

/-- The backward loop of `memmove`; it runs down to `d = end`, `len` turns away. -/
def memmoveLoop (d s : Ptr) : ℕ → ByteMem → ByteMem
  | 0, m => m
  | len + 1, m =>
      let d := d - 1
      let s := s - 1
      memmoveLoop d s len (Function.update m d (m s))

/-- `memmove`. -/
def memmove (m : ByteMem) (dst src : Ptr) (len : U64) : Ptr × ByteMem :=
  if dst - src ≥ len then memcpy m dst src len
  else (dst, memmoveLoop (dst + len) (src + len) len.toNat m)

/-- The loop of `memset`. -/
def memsetLoop (val : U8) (ptr : Ptr) : ℕ → ByteMem → ByteMem
  | 0, m => m
  | count + 1, m => memsetLoop val (ptr + 1) count (Function.update m ptr val)

/-- `memset`. -/
def memset (m : ByteMem) (dst : Ptr) (val : U32) (count : U64) : Ptr × ByteMem :=
  (dst, memsetLoop (val.setWidth 8) dst count.toNat m)

/-- The difference of two bytes, an `int`. -/
def byteDiff (a b : U8) : ℤ := a.toNat - b.toNat

/-- The loop of `memcmp`. -/
def memcmpLoop (m : ByteMem) (s d : Ptr) : ℕ → ℤ
  | 0 => 0
  | len + 1 =>
      let sc := m s
      let dc := m d
      if byteDiff sc dc ≠ 0 then byteDiff sc dc else memcmpLoop m (s + 1) (d + 1) len

/-- `memcmp`. -/
def memcmp (m : ByteMem) (s1 s2 : Ptr) (len : U64) : ℤ := memcmpLoop m s1 s2 len.toNat

/-- The loop of `memchr`; `none` is `NULL`. -/
def memchrLoop (m : ByteMem) (c : U8) (s : Ptr) : ℕ → Option Ptr
  | 0 => none
  | len + 1 => if m s = c then some s else memchrLoop m c (s + 1) len

/-- `memchr`. -/
def memchr (m : ByteMem) (src : Ptr) (c : U32) (len : U64) : Option Ptr :=
  memchrLoop m (c.setWidth 8) src len.toNat

/-- The loop of `memrchr`. -/
def memrchrLoop (m : ByteMem) (c : U8) (s : Ptr) : ℕ → Option Ptr
  | 0 => none
  | len + 1 => if m s = c then some s else memrchrLoop m c (s - 1) len

/-- `memrchr`. -/
def memrchr (m : ByteMem) (src : Ptr) (c : U32) (len : U64) : Option Ptr :=
  memrchrLoop m (c.setWidth 8) (src + (len - 1)) len.toNat

/-! ### Strings -/

/-- The loop of `strlen`, for the string at `s`. -/
def strlenBody (m : ByteMem) (s cursor : Ptr) : Ptr ⊕ U64 :=
  if m cursor ≠ 0 then .inl (cursor + 1) else .inr (cursor - s)

/-- `strlen` returns `r`. -/
def Strlen (m : ByteMem) (s : Ptr) (r : U64) : Prop := Returns (strlenBody m s) s r

/-- The loop of `strnlen`, with `maxlen - len` turns to go. -/
def strnlenLoop (m : ByteMem) (s : Ptr) (len : U64) : ℕ → U64
  | 0 => len
  | n + 1 => if m s = 0 then len else strnlenLoop m (s + 1) (len + 1) n

/-- `strnlen`. -/
def strnlen (m : ByteMem) (s : Ptr) (maxlen : U64) : U64 := strnlenLoop m s 0 maxlen.toNat

/-- The loop of `strchr`. -/
def strchrBody (m : ByteMem) (c : U8) (p : Ptr) : Ptr ⊕ Option Ptr :=
  if m p = c then .inr (some p)
  else if m p = 0 then .inr none
  else .inl (p + 1)

/-- `strchr` returns `r`. -/
def Strchr (m : ByteMem) (p : Ptr) (ch : U32) (r : Option Ptr) : Prop :=
  Returns (strchrBody m (ch.setWidth 8)) p r

/-- The loop of `strrchr`, with `save` and `p`. -/
def strrchrBody (m : ByteMem) (c : U8) : Option Ptr × Ptr → (Option Ptr × Ptr) ⊕ Option Ptr
  | (save, p) =>
      let save := if m p = c then some p else save
      if m p = 0 then .inr save else .inl (save, p + 1)

/-- `strrchr` returns `r`. -/
def Strrchr (m : ByteMem) (p : Ptr) (ch : U32) (r : Option Ptr) : Prop :=
  Returns (strrchrBody m (ch.setWidth 8)) (none, p) r

/-- The loop of `strcmp`. -/
def strcmpBody (m : ByteMem) : Ptr × Ptr → (Ptr × Ptr) ⊕ ℤ
  | (s1, s2) =>
      let equal := m s1 = m s2
      let s2 := s2 + 1
      if equal then
        if m s1 = 0 then .inr 0 else .inl (s1 + 1, s2)
      else .inr (byteDiff (m s1) (m (s2 - 1)))

/-- `strcmp` returns `r`. -/
def Strcmp (m : ByteMem) (s1 s2 : Ptr) (r : ℤ) : Prop := Returns (strcmpBody m) (s1, s2) r

/-- The loop of `strncmp`; the number counts `n` down and is not 0 at its start. -/
def strncmpLoop (m : ByteMem) (s1 s2 : Ptr) : ℕ → ℤ
  | 0 => 0
  | n + 1 =>
      let differ := m s1 ≠ m s2
      let s2 := s2 + 1
      if differ then byteDiff (m s1) (m (s2 - 1))
      else if m s1 = 0 then 0
      else strncmpLoop m (s1 + 1) s2 n

/-- `strncmp`; its loop is `do … while (--n != 0)`, behind a check that `n` is not 0. -/
def strncmp (m : ByteMem) (s1 s2 : Ptr) (n : U64) : ℤ := strncmpLoop m s1 s2 n.toNat

/-- What `strlcpy` keeps while it copies. -/
structure Strlcpy where
  m : ByteMem
  dst : Ptr
  src : Ptr

/-- The first loop of `strlcpy`, entered with `nleft` not 0: the state behind it, and `nleft`. -/
def strlcpyCopy : ℕ → Strlcpy → ℕ × Strlcpy
  | 0, s => (0, s)
  | nleft + 1, s =>
      if nleft ≠ 0 then
        let c := s.m s.src
        let s := ⟨Function.update s.m s.dst c, s.dst + 1, s.src + 1⟩
        if c = 0 then (nleft, s) else strlcpyCopy nleft s
      else (0, s)

/-- The second loop of `strlcpy`, `while (*src++)`. -/
def strlcpySkip (m : ByteMem) (src : Ptr) : Ptr ⊕ Ptr :=
  if m src ≠ 0 then .inl (src + 1) else .inr (src + 1)

/-- `strlcpy` returns `r` and leaves the memory `m'`. -/
def StrlcpyReturns (m : ByteMem) (dst src : Ptr) (dsize : U64) (r : U64) (m' : ByteMem) : Prop :=
  let (nleft, s) := strlcpyCopy dsize.toNat ⟨m, dst, src⟩
  if nleft = 0 then
    let m₁ := if dsize ≠ 0 then Function.update s.m s.dst 0 else s.m
    ∃ src', Returns (strlcpySkip m₁) s.src src' ∧ r = src' - src - 1 ∧ m' = m₁
  else r = s.src - src - 1 ∧ m' = s.m

end Libc

end Arm64Mmu
