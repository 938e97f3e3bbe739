import Arm64Mmu.Model.Printf

/-!
# The console and the exception handler

What is written to the data register of the UART is a list of characters.  `uart_print` is the
loop of `pl011.S` that prints up to a newline, `putchar` and `puts` are those of `lib/libc`, and
`dump_esr` is the function of `handle.c` that says why an exception was taken.
-/

namespace Arm64Mmu

open Lib Lib.Return

/-! ### Characters -/

/-- `uart_putchar`: the value returned and what was written. -/
def uartPutchar (c : U32) (out : List U8) : U32 × List U8 := (c, out ++ [c.setWidth 8])

/-- `putchar`. -/
def putchar (c : U32) (out : List U8) : U32 × List U8 :=
  let (r, out) := uartPutchar ((c.setWidth 8).setWidth 32) out
  let res := if BitVec.sle 0 r then c else -1
  (res, out)

/-- The loop of `puts`, with the count. -/
def putsBody (m : ByteMem) : Ptr × U32 × List U8 → (Ptr × U32 × List U8) ⊕ (U32 × List U8)
  | (s, count, out) =>
      if m s ≠ 0 then
        let (r, out) := putchar ((m s).setWidth 32) out
        if r = -1 then .inr (-1, out) else .inl (s + 1, count + 1, out)
      else
        let (r, out) := putchar ((ch '\n').setWidth 32) out
        if r = -1 then .inr (-1, out) else .inr (count + 1, out)

/-- `puts` returns `r` and has printed `out`. -/
def Puts (m : ByteMem) (s : Ptr) (r : U32) (out : List U8) : Prop :=
  Returns (putsBody m) (s, 0, []) (r, out)

/-- A turn of the loop `uart_print`. -/
def uartPrintBody (m : ByteMem) : Ptr × List U8 → (Ptr × List U8) ⊕ List U8
  | (x0, out) =>
      let w2 := m x0
      let x0 := x0 + 1
      let out := out ++ [w2]
      if w2 = 0xa then .inr out else .inl (x0, out)

/-- `uart_print` returns and has printed `out`. -/
def UartPrint (m : ByteMem) (x0 : Ptr) (out : List U8) : Prop :=
  Returns (uartPrintBody m) (x0, []) out

/-! ### `dump_esr` -/

/-- `BIT_MASK`. -/
def bitMask (nr : ℕ) : U64 := (1#64 <<< nr) - 1

def esrEc (esr : U32) : U64 := (esr >>> 26).setWidth 64 &&& bitMask 6
def esrIl (esr : U32) : U64 := (esr >>> 25).setWidth 64 &&& bitMask 1
def esrIss (esr : U32) : U64 := esr.setWidth 64 &&& bitMask 25

/-- What the `switch` of `dump_esr` prints. -/
def esrReason (ec : U64) : String :=
  match ec.toNat with
  | 0x00 => "Unknown reason"
  | 0x01 => "Trapped WFI or WFE instruction execution"
  | 0x03 => "Trapped MCR or MRC access with (coproc==0b1111) that " ++
      "is not reported using EC 0b000000"
  | 0x04 => "Trapped MCRR or MRRC access with (coproc==0b1111) " ++
      "that is not reported using EC 0b000000"
  | 0x05 => "Trapped MCR or MRC access with (coproc==0b1110)"
  | 0x06 => "Trapped LDC or STC access"
  | 0x07 => "Trapped access to SVE, Advanced SIMD, or " ++
      "floating-point functionality"
  | 0x0c => "Trapped MRRC access with (coproc==0b1110)"
  | 0x0d => "Branch Target Exception"
  | 0x0e => "Illegal Execution state"
  | 0x11 => "SVC instruction execution in AArch32 state"
  | 0x18 => "Trapped MSR, MRS or System instruction execution in " ++
      "AArch64 state, that is not reported using EC " ++
      "0b000000, 0b000001 or 0b000111"
  | 0x19 => "Trapped access to SVE functionality"
  | 0x20 => "Instruction Abort from a lower Exception level, that " ++
      "might be using AArch32 or AArch64"
  | 0x21 => "Instruction Abort taken without a change in Exception " ++
      "level."
  | 0x22 => "PC alignment fault exception."
  | 0x24 => "Data Abort from a lower Exception level, that might " ++
      "be using AArch32 or AArch64"
  | 0x25 => "Data Abort taken without a change in Exception level"
  | 0x26 => "SP alignment fault exception"
  | 0x28 => "Trapped floating-point exception taken from AArch32 " ++
      "state"
  | 0x2c => "Trapped floating-point exception taken from AArch64 " ++
      "state."
  | 0x2f => "SError interrupt"
  | 0x30 => "Breakpoint exception from a lower Exception level, " ++
      "that might be using AArch32 or AArch64"
  | 0x31 => "Breakpoint exception taken without a change in " ++
      "Exception level"
  | 0x32 => "Software Step exception from a lower Exception level, " ++
      "that might be using AArch32 or AArch64"
  | 0x33 => "Software Step exception taken without a change in " ++
      "Exception level"
  | 0x34 => "Watchpoint exception from a lower Exception level, " ++
      "that might be using AArch32 or AArch64"
  | 0x35 => "Watchpoint exception taken without a change in " ++
      "Exception level."
  | 0x38 => "BKPT instruction execution in AArch32 state"
  | 0x3c => "BRK instruction execution in AArch64 state."
  | _ => "Unknown"

/-- The calls of `printf` in `dump_esr`, each with its format and its arguments, for the values of
`ESR_EL2` and `ELR_EL2`.  `esr` is an `unsigned int`, and `junk` is in the upper half of its slot.
After the last call the function stays in `b .`. -/
def dumpEsr (junk : U32) (esrEl2 elrEl2 : U64) : List (List U8 × List U64) :=
  let esr := esrEl2.setWidth 32
  [ (Printf.lit "ESR_ELn: 0x%016llx", [junk ++ esr]),
    (Printf.lit "  EC:  0x%llx", [esrEc esr]),
    (Printf.lit "  IL:  0x%llx", [esrIl esr]),
    (Printf.lit "  ISS: 0x%llx\n", [esrIss esr]),
    (Printf.lit "  ELR: 0x%llx\n", [elrEl2]),
    (Printf.lit (esrReason (esrEc esr)), []),
    (Printf.lit "\n", []) ]

/-- Calls of `printf`, one after the other, print `out`. -/
def Printfs (strs : Strings) : List (List U8 × List U64) → List U8 → Prop
  | [], out => out = []
  | (fmt, args) :: calls, out => ∃ (o : Printf.Out) (out' : List U8),
      Printf.Vprintf strs (fun i => args.getD i 0) fmt (some o) ∧ Printfs strs calls out' ∧
        out = o.chars ++ out'

end Arm64Mmu
