import IshAok.Core.Errno
import Mathlib

/-!
# Classic BPF for Seccomp

The programs of `kernel/seccomp.c`: the checker `bpf_check` a program has to
pass, and the interpreter `bpf_run`.

The opcodes are grouped the way their numbers are, by class, operation and
source. `Opcode.ofCode` is the list of the numbers `bpf_code_allowed` knows,
and a number it does not know is the default case of the interpreter.

The interpreter has no checks of its own. Where C leaves a step undefined
(an instruction past the end, a scratch word or data word outside its array,
a shift of 32 or more, a division by an immediate zero) the step here is a
`fault`. Program counters are unsigned 32-bit sums.

A program comes with the bounds on its length that both callers of
`bpf_check` test before they copy it in, since the checker reads the last
instruction without asking whether there is one.

## Main definitions

* `Opcode`, `SockFilter`, `Program`: Instructions and programs.
* `bpfCheck`: The checker.
* `BpfState`, `bpfStep`: One instruction.
* `bpfRun`: A whole run.
-/

namespace IshAok.Seccomp

/-- The operations with two operands. -/
inductive AluOp
  | add
  | sub
  | mul
  | div
  | or
  | and
  | lsh
  | rsh
  | xor
  deriving DecidableEq, Repr

/-- The comparisons of the conditional jumps. -/
inductive JmpOp
  | eq
  | gt
  | ge
  | set
  deriving DecidableEq, Repr

/-- The second operand: the immediate or the index register. -/
inductive Src
  | k
  | x
  deriving DecidableEq, Repr

/-- The instructions seccomp allows. -/
inductive Opcode
  | ldWAbs
  | ldWLen
  | ldxWLen
  | ldImm
  | ldxImm
  | ldMem
  | ldxMem
  | st
  | stx
  | tax
  | txa
  | alu (op : AluOp) (src : Src)
  | neg
  | ja
  | jmp (op : JmpOp) (src : Src)
  | retK
  | retA
  deriving DecidableEq, Repr

/-- The numbers of the instructions. -/
def Opcode.ofCode (code : UInt16) : Option Opcode :=
  match code.toNat with
  | 0x20 => some .ldWAbs
  | 0x80 => some .ldWLen
  | 0x81 => some .ldxWLen
  | 0x00 => some .ldImm
  | 0x01 => some .ldxImm
  | 0x60 => some .ldMem
  | 0x61 => some .ldxMem
  | 0x02 => some .st
  | 0x03 => some .stx
  | 0x07 => some .tax
  | 0x87 => some .txa
  | 0x04 => some (.alu .add .k)
  | 0x0c => some (.alu .add .x)
  | 0x14 => some (.alu .sub .k)
  | 0x1c => some (.alu .sub .x)
  | 0x24 => some (.alu .mul .k)
  | 0x2c => some (.alu .mul .x)
  | 0x34 => some (.alu .div .k)
  | 0x3c => some (.alu .div .x)
  | 0x44 => some (.alu .or .k)
  | 0x4c => some (.alu .or .x)
  | 0x54 => some (.alu .and .k)
  | 0x5c => some (.alu .and .x)
  | 0x64 => some (.alu .lsh .k)
  | 0x6c => some (.alu .lsh .x)
  | 0x74 => some (.alu .rsh .k)
  | 0x7c => some (.alu .rsh .x)
  | 0x84 => some .neg
  | 0xa4 => some (.alu .xor .k)
  | 0xac => some (.alu .xor .x)
  | 0x05 => some .ja
  | 0x15 => some (.jmp .eq .k)
  | 0x1d => some (.jmp .eq .x)
  | 0x25 => some (.jmp .gt .k)
  | 0x2d => some (.jmp .gt .x)
  | 0x35 => some (.jmp .ge .k)
  | 0x3d => some (.jmp .ge .x)
  | 0x45 => some (.jmp .set .k)
  | 0x4d => some (.jmp .set .x)
  | 0x06 => some .retK
  | 0x16 => some .retA
  | _ => none

/-- `struct sock_filter`. -/
structure SockFilter where
  code : UInt16
  jt : UInt8
  jf : UInt8
  k : UInt32
  deriving DecidableEq, Repr

/-- The instruction a `struct sock_filter` holds. -/
def SockFilter.op (i : SockFilter) : Option Opcode :=
  Opcode.ofCode i.code

/-- `BPF_MAXINSNS`. -/
def bpfMaxInsns : Nat := 4096

/-- `BPF_MEMWORDS`. -/
def bpfMemWords : Nat := 16

/-- `SECCOMP_DATA_SIZE`, the size of `struct seccomp_data`. -/
def seccompDataSize : Nat := 64

/-- A program of a length the callers of the checker accept. -/
structure Program where
  insns : List SockFilter
  pos : 0 < insns.length
  short : insns.length ≤ bpfMaxInsns

/-- The checks `bpf_check` makes on a single instruction. -/
def insnRefused (len pc : Nat) (i : SockFilter) : Bool :=
  match i.op with
  | none => true
  | some (.alu .div .k) => decide (i.k.toNat = 0)
  | some (.alu .lsh .k) => decide (i.k.toNat ≥ 32)
  | some (.alu .rsh .k) => decide (i.k.toNat ≥ 32)
  | some .ldMem => decide (i.k.toNat ≥ bpfMemWords)
  | some .ldxMem => decide (i.k.toNat ≥ bpfMemWords)
  | some .st => decide (i.k.toNat ≥ bpfMemWords)
  | some .stx => decide (i.k.toNat ≥ bpfMemWords)
  | some .ja => decide (i.k.toNat ≥ len - pc - 1)
  | some .ldWAbs => decide (i.k.toNat ≥ seccompDataSize) || decide (i.k.toNat % 4 ≠ 0)
  | some (.jmp _ _) => decide (pc + i.jt.toNat + 1 ≥ len) || decide (pc + i.jf.toNat + 1 ≥ len)
  | some _ => false

/-- The first loop of `bpf_check`. -/
def checkInsns (len : Nat) : Nat → List SockFilter → Except Errno Unit
  | _, [] => .ok ()
  | pc, i :: rest =>
    if insnRefused len pc i then .error .einval else checkInsns len (pc + 1) rest

/-- `valid_in[pc] &= valid`. -/
def meetAt (validIn : List (BitVec 16)) (pc : Nat) (valid : BitVec 16) : List (BitVec 16) :=
  validIn.set pc (validIn.getD pc 0xffff &&& valid)

/-- The loop of `check_load_and_stores`. -/
def checkLoads : Nat → List SockFilter → BitVec 16 → List (BitVec 16) → Except Errno Unit
  | _, [], _, _ => .ok ()
  | pc, i :: rest, valid, validIn =>
    let valid := valid &&& validIn.getD pc 0xffff
    match i.op with
    | some .st => checkLoads (pc + 1) rest (valid ||| (1#16 <<< i.k.toNat)) validIn
    | some .stx => checkLoads (pc + 1) rest (valid ||| (1#16 <<< i.k.toNat)) validIn
    | some .ldMem =>
      if valid &&& (1#16 <<< i.k.toNat) = 0 then .error .einval
      else checkLoads (pc + 1) rest valid validIn
    | some .ldxMem =>
      if valid &&& (1#16 <<< i.k.toNat) = 0 then .error .einval
      else checkLoads (pc + 1) rest valid validIn
    | some .ja =>
      checkLoads (pc + 1) rest 0xffff (meetAt validIn (pc + 1 + i.k.toNat) valid)
    | some (.jmp _ _) =>
      checkLoads (pc + 1) rest 0xffff
        (meetAt (meetAt validIn (pc + 1 + i.jt.toNat) valid) (pc + 1 + i.jf.toNat) valid)
    | _ => checkLoads (pc + 1) rest valid validIn

/-- The last instruction returns. -/
def endsInRet (p : Program) : Bool :=
  match p.insns.getLast? with
  | none => false
  | some i => decide (i.op = some .retK ∨ i.op = some .retA)

/-- `bpf_check`. Memory for `valid_in` may run out. -/
def bpfCheck (p : Program) (memory : Bool) : Except Errno Unit :=
  match checkInsns p.insns.length 0 p.insns with
  | .error e => .error e
  | .ok () =>
    if endsInRet p = false then .error .einval
    else if memory = false then .error .enomem
    else checkLoads 0 p.insns 0 (List.replicate p.insns.length 0xffff)

/-- The registers of a run, and the next instruction. -/
structure BpfState where
  a : UInt32
  x : UInt32
  m : List UInt32
  pc : Nat
  deriving DecidableEq, Repr

/-- The state `bpf_run` starts in. -/
def BpfState.initial : BpfState :=
  { a := 0, x := 0, m := List.replicate bpfMemWords 0, pc := 0 }

/-- How one instruction ends. `divZero` is a division by an index register of
    zero, which returns 0; `unknown` is the default case, which returns
    `SECCOMP_RET_KILL_PROCESS`. -/
inductive StepResult
  | next (s : BpfState)
  | ret (v : UInt32)
  | divZero
  | unknown
  | fault
  deriving DecidableEq, Repr

/-- An operation that C defines. -/
def aluEval (op : AluOp) (a v : UInt32) : UInt32 :=
  match op with
  | .add => a + v
  | .sub => a - v
  | .mul => a * v
  | .div => a / v
  | .or => a ||| v
  | .and => a &&& v
  | .lsh => a <<< v
  | .rsh => a >>> v
  | .xor => a ^^^ v

/-- The test of a conditional jump. -/
def jmpEval (op : JmpOp) (a v : UInt32) : Bool :=
  match op with
  | .eq => decide (a = v)
  | .gt => decide (a > v)
  | .ge => decide (a ≥ v)
  | .set => decide (a &&& v ≠ 0)

/-- The value of the second operand. -/
def Src.pick (src : Src) (k x : UInt32) : UInt32 :=
  match src with
  | .k => k
  | .x => x

/-- The operand of an operation: a shift by the index register uses its low
    five bits. -/
def operand (op : AluOp) (src : Src) (k x : UInt32) : UInt32 :=
  match src, op with
  | .x, .lsh => x &&& 31
  | .x, .rsh => x &&& 31
  | src, _ => src.pick k x

/-- An operation with its special cases. -/
def aluStep (op : AluOp) (src : Src) (k : UInt32) (s : BpfState) : StepResult :=
  match op, src with
  | .div, .k => if k = 0 then .fault else .next { s with a := aluEval .div s.a k }
  | .div, .x => if s.x = 0 then .divZero else .next { s with a := aluEval .div s.a s.x }
  | .lsh, .k => if k.toNat ≥ 32 then .fault else .next { s with a := aluEval .lsh s.a k }
  | .rsh, .k => if k.toNat ≥ 32 then .fault else .next { s with a := aluEval .rsh s.a k }
  | op, src => .next { s with a := aluEval op s.a (operand op src k s.x) }

/-- A sum of program counters. -/
def pcAdd (pc n : Nat) : Nat :=
  (pc + n) % 2 ^ 32

/-- One instruction, with the program counter already moved past it. -/
def bpfExec (data : List UInt32) (i : SockFilter) (op : Opcode) (s : BpfState) : StepResult :=
  match op with
  | .ldWAbs => match data[i.k.toNat / 4]? with
    | none => .fault
    | some w => .next { s with a := w }
  | .ldWLen => .next { s with a := UInt32.ofNat seccompDataSize }
  | .ldxWLen => .next { s with x := UInt32.ofNat seccompDataSize }
  | .ldImm => .next { s with a := i.k }
  | .ldxImm => .next { s with x := i.k }
  | .ldMem => match s.m[i.k.toNat]? with
    | none => .fault
    | some w => .next { s with a := w }
  | .ldxMem => match s.m[i.k.toNat]? with
    | none => .fault
    | some w => .next { s with x := w }
  | .st => if i.k.toNat ≥ s.m.length then .fault else .next { s with m := s.m.set i.k.toNat s.a }
  | .stx => if i.k.toNat ≥ s.m.length then .fault else .next { s with m := s.m.set i.k.toNat s.x }
  | .tax => .next { s with x := s.a }
  | .txa => .next { s with a := s.x }
  | .alu op src => aluStep op src i.k s
  | .neg => .next { s with a := 0 - s.a }
  | .ja => .next { s with pc := pcAdd s.pc i.k.toNat }
  | .jmp op src =>
    .next { s with
      pc := pcAdd s.pc (if jmpEval op s.a (src.pick i.k s.x) then i.jt.toNat else i.jf.toNat) }
  | .retK => .ret i.k
  | .retA => .ret s.a

/-- One turn of the loop of `bpf_run`. -/
def bpfStep (f : List SockFilter) (data : List UInt32) (s : BpfState) : StepResult :=
  match f[s.pc]? with
  | none => .fault
  | some i => match i.op with
    | none => .unknown
    | some op => bpfExec data i op { s with pc := pcAdd s.pc 1 }

/-- The loop of `bpf_run` for at most `fuel` instructions: how the last of
    them ended, or nothing if the loop is still going. -/
def runLoop (f : List SockFilter) (data : List UInt32) : Nat → BpfState → Option StepResult
  | 0, _ => none
  | fuel + 1, s => match bpfStep f data s with
    | .next s' => runLoop f data fuel s'
    | r => some r

/-- `bpf_run`. The loop has no bound in the source; the length of the program
    is one. -/
def bpfRun (f : List SockFilter) (data : List UInt32) : Option StepResult :=
  runLoop f data f.length .initial

/-- `SECCOMP_RET_KILL_PROCESS`. -/
def retKillProcess : UInt32 := 0x80000000

/-- The value `bpf_run` returns. A run that faults or goes on returns none. -/
def bpfValue (f : List SockFilter) (data : List UInt32) : Option UInt32 :=
  match bpfRun f data with
  | some (.ret v) => some v
  | some .divZero => some 0
  | some .unknown => some retKillProcess
  | _ => none

end IshAok.Seccomp
