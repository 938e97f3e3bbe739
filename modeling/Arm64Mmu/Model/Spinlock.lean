import Mathlib.Logic.Function.Basic
import Arm64Mmu.Lib.Lock
import Arm64Mmu.Model.Macros

/-!
# The spinlock of `spinlock.S`

The two routines as lists of instructions, and any number of cores that run them on one lock
word.  An instruction of a core is one step.  `LDAXR` sets the exclusive reservation of the
core, every store to the word clears the reservations of all cores, and `STXR` stores only while
its core has one; it may also fail for no reason.  `WFE` may resume at any time, so it does
nothing here, and neither does `SEVL`.
-/

namespace Arm64Mmu.Spinlock

open Lib

/-! ### The routines -/

/-- The registers of the routines.  `x0` always holds the address of the lock. -/
inductive Reg where
  | w1
  | w2
  | wzr
deriving DecidableEq

/-- The instructions.  The operand `[x0]` is left out; a label is the index of an instruction. -/
inductive Instr where
  | mov (d : Reg) (imm : U32)
  | sevl
  | wfe
  | ldaxr (t : Reg)
  | cbnz (t : Reg) (label : ℕ)
  | stxr (s t : Reg)
  | stlr (t : Reg)
  | ret
deriving DecidableEq

def l1 : ℕ := 2
def l2 : ℕ := 3

/-- `spin_lock`. -/
def spinLock : List Instr :=
  [ .mov .w2 1,
    .sevl,
    .wfe,          -- l1
    .ldaxr .w1,    -- l2
    .cbnz .w1 l1,
    .stxr .w1 .w2,
    .cbnz .w1 l2,
    .ret ]

/-- `spin_unlock`. -/
def spinUnlock : List Instr :=
  [ .stlr .wzr,
    .ret ]

/-! ### Cores -/

/-- Where a core is. -/
inductive Loc where
  /-- Before the call of `spin_lock`. -/
  | idle
  | spinLock (pc : ℕ)
  /-- After the return of `spin_lock` and before the call of `spin_unlock`. -/
  | held
  | spinUnlock (pc : ℕ)
deriving DecidableEq

/-- The instruction that is executed next. -/
def Loc.fetch : Loc → Option Instr
  | .spinLock pc => Spinlock.spinLock[pc]?
  | .spinUnlock pc => Spinlock.spinUnlock[pc]?
  | _ => none

/-- The location of an instruction of the same routine. -/
def Loc.goto (label : ℕ) : Loc → Loc
  | .spinLock _ => .spinLock label
  | .spinUnlock _ => .spinUnlock label
  | l => l

/-- The location of the instruction behind. -/
def Loc.next : Loc → Loc
  | .spinLock pc => .spinLock (pc + 1)
  | .spinUnlock pc => .spinUnlock (pc + 1)
  | l => l

/-- The location after the return of the routine. -/
def Loc.ret : Loc → Loc
  | .spinLock _ => .held
  | .spinUnlock _ => .idle
  | l => l

structure Core where
  loc : Loc
  w1 : U32
  w2 : U32
  /-- The exclusive reservation. -/
  reserved : Bool
deriving DecidableEq

namespace Core

/-- The value of a register. -/
def get (c : Core) : Reg → U32
  | .w1 => c.w1
  | .w2 => c.w2
  | .wzr => 0

/-- Write a register. -/
def set (c : Core) : Reg → U32 → Core
  | .w1, v => { c with w1 := v }
  | .w2, v => { c with w2 := v }
  | .wzr, _ => c

/-- Execute an instruction while the lock word has the value `word`: the core after it, and the
value that it stores to the word.  `ok` says whether an `STXR` succeeds. -/
def exec (word : U32) (c : Core) (ok : Bool) : Instr → Option (Core × Option U32)
  | .mov d imm => some ({ c.set d imm with loc := c.loc.next }, none)
  | .sevl => some ({ c with loc := c.loc.next }, none)
  | .wfe => some ({ c with loc := c.loc.next }, none)
  | .ldaxr t => some ({ c.set t word with loc := c.loc.next, reserved := true }, none)
  | .cbnz t label =>
      some ({ c with loc := if c.get t ≠ 0 then c.loc.goto label else c.loc.next }, none)
  | .stxr s t =>
      if ok then
        if c.reserved then some ({ c.set s 0 with loc := c.loc.next }, some (c.get t)) else none
      else some ({ c.set s 1 with loc := c.loc.next }, none)
  | .stlr t => some ({ c with loc := c.loc.next }, some (c.get t))
  | .ret => some ({ c with loc := c.loc.ret }, none)

/-- Call `spin_lock`, or `spin_unlock` if the lock is held.  The code before the call leaves any
values in the registers. -/
def call (c : Core) (w1 w2 : U32) : Option Core :=
  match c.loc with
  | .idle => some { c with loc := .spinLock 0, w1 := w1, w2 := w2 }
  | .held => some { c with loc := .spinUnlock 0, w1 := w1, w2 := w2 }
  | _ => none

end Core

/-! ### The system -/

/-- The lock word and the cores. -/
structure State (κ : Type*) where
  word : U32
  core : κ → Core

/-- What a core does in a step. -/
inductive Act where
  | call (w1 w2 : U32)
  | exec (ins : Instr) (ok : Bool)
deriving DecidableEq

variable {κ : Type*} [DecidableEq κ]

/-- The state after the core `i` became `c` and stored a value or nothing. -/
def State.update (s : State κ) (i : κ) (c : Core) : Option U32 → State κ
  | none => { s with core := Function.update s.core i c }
  | some v => ⟨v, fun j => { Function.update s.core i c j with reserved := false }⟩

/-- A step of the system. -/
def step (s : State κ) : κ × Act → Option (State κ)
  | (i, .call w1 w2) => ((s.core i).call w1 w2).map fun c => s.update i c none
  | (i, .exec ins ok) =>
      if (s.core i).loc.fetch = some ins then
        ((s.core i).exec s.word ok ins).map fun (c, v) => s.update i c v
      else none

/-- The system starts with the lock word 0 and no core in a routine. -/
structure Initial (s : State κ) : Prop where
  word : s.word = 0
  loc : ∀ i, (s.core i).loc = .idle

/-- The runs of the system. -/
abbrev Runs (s : State κ) (ls : List (κ × Act)) (t : State κ) : Prop :=
  Run (fun s l t => step s l = some t) s ls t

/-- What a step is to the lock: a successful `STXR` acquires it and an `STLR` releases it. -/
def Act.event : Act → Lock.Event
  | .exec (.stxr _ _) true => .acquire
  | .exec (.stlr _) _ => .release
  | _ => .other

/-- After the steps `ls` the core `i` is between a successful `STXR` and the next `STLR`. -/
def Owns (i : κ) (ls : List (κ × Act)) : Prop :=
  Lock.Inside i (ls.map fun l => (l.1, l.2.event))

end Arm64Mmu.Spinlock
