import IshAok.Core.Float80

/-!
# The x87 Instructions

The model of the arithmetic and the comparisons of `emu/fpu.c`, over the part of
the cpu state that they read and write. The stack is seen from its top, so
`st i` is `ST(i)`. The status word is split into its exception bits and its
condition codes.

The arithmetic of `emu/float80.c` reads its rounding mode and precision from
thread-local variables that follow the control word: `fpuSyncControl`. An
instruction first tries a fast path, which is only offered in round to nearest.
Otherwise it clears the record of what the arithmetic did, computes, and adds
the record to the status word.

## Main definitions

* `Cpu`: The control word, the stack, the status word and the flags.
* `fpuSyncControl`: The rounding mode and precision of the control word.
* `fpuFast`, `fpuGeneral`: The two ways through an arithmetic instruction.
* `fpuAdd`, `fpuSub`, `fpuSubr`, `fpuMul`, `fpuDiv`, `fpuDivr`: The arithmetic.
* `fpuCompare`, `fpuComparei`: The comparisons.
-/

namespace IshAok.F80

/-- What the x87 instructions use of `struct cpu_state`. -/
structure Cpu where
  rc : Fin 4
  pc : Fin 4
  st : Fin 8 → Float80
  /-- The low bits of `fsw`: IE, DE, ZE, OE, UE and PE. -/
  except : Nat
  c0 : Bool
  c1 : Bool
  c2 : Bool
  c3 : Bool
  cf : Bool
  pf : Bool
  zf : Bool

/-- The values of `enum f80_rounding_mode`. -/
def roundingMode (rc : Fin 4) : RoundingMode :=
  match rc with
  | 0 => .roundToNearest
  | 1 => .roundDown
  | 2 => .roundUp
  | 3 => .roundChop

def f80PrecisionFromPc (pc : Fin 4) : Int :=
  match pc with
  | 0 => 24
  | 2 => 53
  | _ => 64

variable (cpu : Cpu) (srci dsti : Fin 8)

def fpuSyncControl : Control :=
  { mode := roundingMode cpu.rc, precision := f80PrecisionFromPc cpu.pc }

/-- Storing to `ST(i)`. -/
def Cpu.setSt (i : Fin 8) (f : Float80) : Cpu :=
  { cpu with st := fun j => if j = i then f else cpu.st j }

/-- `FPU_BEGIN`. -/
def fpuBegin : Flags := { inexact := false, roundedUp := false, exceptions := 0 }

/-- `FPU_END`. -/
def fpuEnd (fl : Flags) : Cpu :=
  { cpu with
    except := cpu.except ||| ((fl.exceptions &&& 0x1f) ||| if fl.inexact then 0x20 else 0)
    c1 := fl.roundedUp }

/-- The precision for a fast path, or 0 if it may not be taken. -/
def fpuFastPrecision : Nat :=
  if cpu.rc ≠ 0 then 0 else if cpu.pc = 0 then 24 else if cpu.pc = 2 then 53 else 64

/-- `fpu_fast_add`, `fpu_fast_mul` and `fpu_fast_div`, for their operation. -/
def fpuFast (op : Float80 → Float80 → Nat → Option FastResult) (cpu : Cpu) (a b : Float80)
    (dst : Fin 8) : Option Cpu :=
  if fpuFastPrecision cpu = 0 then none
  else
    match op a b (fpuFastPrecision cpu) with
    | none => none
    | some r =>
      some { cpu.setSt dst r.out with
          except := if r.inexact then cpu.except ||| 0x20 else cpu.except
          c1 := r.up }

/-- The general path of an arithmetic instruction. -/
def fpuGeneral (op : Control → Flags → Float80 → Float80 → Float80 × Flags) (cpu : Cpu)
    (a b : Float80) (dst : Fin 8) : Cpu :=
  match op (fpuSyncControl cpu) fpuBegin a b with
  | (r, fl) => fpuEnd (cpu.setSt dst r) fl

def fpuAdd : Cpu :=
  match fpuFast f80AddFast cpu (cpu.st dsti) (cpu.st srci) dsti with
  | some cpu => cpu
  | none => fpuGeneral f80Add cpu (cpu.st dsti) (cpu.st srci) dsti

def fpuSub : Cpu :=
  match fpuFast f80AddFast cpu (cpu.st dsti) (f80Neg (cpu.st srci)) dsti with
  | some cpu => cpu
  | none => fpuGeneral f80Sub cpu (cpu.st dsti) (cpu.st srci) dsti

def fpuSubr : Cpu :=
  match fpuFast f80AddFast cpu (cpu.st srci) (f80Neg (cpu.st dsti)) dsti with
  | some cpu => cpu
  | none => fpuGeneral f80Sub cpu (cpu.st srci) (cpu.st dsti) dsti

def fpuMul : Cpu :=
  match fpuFast f80MulFast cpu (cpu.st dsti) (cpu.st srci) dsti with
  | some cpu => cpu
  | none => fpuGeneral f80Mul cpu (cpu.st dsti) (cpu.st srci) dsti

def fpuDiv : Cpu :=
  match fpuFast f80DivFast cpu (cpu.st dsti) (cpu.st srci) dsti with
  | some cpu => cpu
  | none => fpuGeneral f80Div cpu (cpu.st dsti) (cpu.st srci) dsti

def fpuDivr : Cpu :=
  match fpuFast f80DivFast cpu (cpu.st srci) (cpu.st dsti) dsti with
  | some cpu => cpu
  | none => fpuGeneral f80Div cpu (cpu.st srci) (cpu.st dsti) dsti

/-- A comparison that sets the flags. The record that `f80Lt` leaves behind is
    not looked at, so it is a parameter. -/
def fpuComparei (fl : Flags) (cpu : Cpu) (x : Float80) : Cpu :=
  if f80Uncomparable (cpu.st 0) x then { cpu with zf := true, pf := true, cf := true }
  else
    { cpu with
      pf := false
      cf := (f80Lt (fpuSyncControl cpu) fl (cpu.st 0) x).1
      zf := f80Eq (cpu.st 0) x }

/-- A comparison that sets the condition codes. -/
def fpuCompare (fl : Flags) (cpu : Cpu) (x : Float80) : Cpu :=
  if f80Uncomparable (cpu.st 0) x then
    { cpu with c0 := true, c1 := false, c2 := true, c3 := true }
  else
    { cpu with
      c0 := (f80Lt (fpuSyncControl cpu) fl (cpu.st 0) x).1
      c1 := false
      c2 := false
      c3 := f80Eq (cpu.st 0) x }

end IshAok.F80
