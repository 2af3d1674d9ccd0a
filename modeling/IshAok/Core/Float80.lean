import Mathlib

/-!
# 80-bit Floating Point

The model of the arithmetic of `emu/float80.c`. A `float80` is a sign, a 15-bit
exponent field and a 64-bit significand whose top bit, the integer bit, is
explicit. It is the value `signif * 2 ^ (exp - 63)` for the unbiased exponent
`exp`.

The operations work on 128-bit significands, which are natural numbers below
`2 ^ 128` here, and every result goes through `u128NormalizeRound`. The
rounding mode and the precision are thread-local variables that an operation
only reads: `Control`. The record of what an operation did to its result is
thread-local too and is passed along: `Flags`.

The integer square root starts from an estimate that the host's floating point
unit makes. The estimate is a parameter, because the two loops after it make
the root exact from any start.

## Main definitions

* `Float80`: A number.
* `Control`, `Flags`: What the rounding reads, and what it reports.
* `u128ShiftRightRound`, `u128ShiftRightSticky`: Dropping bits.
* `u128NormalizeRound`: From a 128-bit significand to a number.
* `f80Add`, `f80Sub`, `f80Mul`, `f80Div`, `f80Sqrt`: The operations.
* `f80AddFast`, `f80MulFast`, `f80DivFast`: The fast paths.
* `f80Lt`, `f80Eq`, `f80Uncomparable`: Comparisons.
-/

namespace IshAok.F80

/-- `BIAS80`. -/
def bias80 : Int := 0x3fff

/-- `EXP_MAX`. -/
def expMax : Nat := 0x7ffe

/-- `EXP_MIN`. -/
def expMin : Nat := 0x0001

/-- `EXP_SPECIAL`. -/
def expSpecial : Nat := 0x7fff

/-- `EXP_DENORMAL`. -/
def expDenormal : Nat := 0

def bias (exp : Int) : Nat := ((exp + bias80) % 2 ^ 32).toNat

def unbias (exp : Nat) : Int := exp - bias80

/-- The exponent that is right for denormal numbers too. -/
def unbiasDenormal (exp : Nat) : Int :=
  if exp = expDenormal then unbias expMin else unbias exp

/-- A number: its significand, its exponent field and its sign. -/
structure Float80 where
  signif : Nat
  exp : Nat
  sign : Bool
  signif_lt : signif < 2 ^ 64
  exp_lt : exp < 2 ^ 15
deriving DecidableEq

/-- Storing to the fields of a `float80` keeps as many bits as they have. -/
def float80 (signif exp : Nat) (sign : Bool) : Float80 :=
  { signif := signif % 2 ^ 64
    exp := exp % 2 ^ 15
    sign := sign
    signif_lt := Nat.mod_lt _ (Nat.two_pow_pos 64)
    exp_lt := Nat.mod_lt _ (Nat.two_pow_pos 15) }

/-- `F80_NAN`. -/
def f80Nan : Float80 := float80 0xc000000000000000 0x7fff false

/-- `F80_INDEFINITE`. -/
def f80Indefinite : Float80 := float80 0xc000000000000000 0x7fff true

/-- `F80_INF`, with a sign. -/
def f80Inf (sign : Bool) : Float80 := float80 0x8000000000000000 0x7fff sign

/-- A zero. -/
def f80Zero (sign : Bool) : Float80 := float80 0 0 sign

/-- `enum f80_rounding_mode`. -/
inductive RoundingMode
  | roundToNearest
  | roundDown
  | roundUp
  | roundChop
deriving DecidableEq

/-- The rounding mode and the number of significand bits to round to. -/
structure Control where
  mode : RoundingMode
  precision : Int

/-- `f80_inexact`, `f80_rounded_up` and `f80_exceptions`. -/
structure Flags where
  inexact : Bool
  roundedUp : Bool
  exceptions : Nat
deriving DecidableEq

def excInvalid : Nat := 1

def excDenormal : Nat := 2

def excDivzero : Nat := 4

def excOverflow : Nat := 8

def excUnderflow : Nat := 16

def Flags.raise (fl : Flags) (exc : Nat) : Flags :=
  { fl with exceptions := fl.exceptions ||| exc }

def roundAwayFromZero (mode : RoundingMode) (sign : Bool) : Bool :=
  (mode == .roundUp && !sign) || (mode == .roundDown && sign)

variable (c : Control) (fl : Flags) (a b : Float80)

/-- Shift right, rounding in the current mode. -/
def u128ShiftRightRound (i shift : Nat) (sign : Bool) : Nat × Flags :=
  if shift = 0 then (i, fl)
  else if shift > 127 then
    if i = 0 then (0, fl)
    else if roundAwayFromZero c.mode sign then
      (1, { fl with inexact := true, roundedUp := true })
    else (0, { fl with inexact := true })
  else if i / 2 ^ (shift - 1) % 2 = 0 ∧ i % 2 ^ (shift - 1) = 0 then (i / 2 ^ shift, fl)
  else if roundAwayFromZero c.mode sign then
    (i / 2 ^ shift + 1, { fl with inexact := true, roundedUp := true })
  else if c.mode = .roundToNearest ∧ i / 2 ^ (shift - 1) % 2 = 1 then
    -- Past the halfway point, or at it with an odd result.
    if i % 2 ^ (shift - 1) ≠ 0 then
      (i / 2 ^ shift + 1, { fl with inexact := true, roundedUp := true })
    else if i / 2 ^ shift % 2 = 1 then
      (i / 2 ^ shift + 1, { fl with inexact := true, roundedUp := true })
    else (i / 2 ^ shift, { fl with inexact := true })
  else (i / 2 ^ shift, { fl with inexact := true })

/-- Shift right, keeping the lowest bit set if anything was shifted out. -/
def u128ShiftRightSticky (i : Nat) (shift : Int) : Nat :=
  if shift ≤ 0 then i
  else if shift > 127 then if i ≠ 0 then 1 else 0
  else i / 2 ^ shift.toNat ||| if i % 2 ^ shift.toNat ≠ 0 then 1 else 0

/-- Shift left in 128 bits. -/
def u128ShiftLeft (i shift : Nat) : Nat := i * 2 ^ shift % 2 ^ 128

/-- A number whose integer bit is as it must be. -/
def f80IsSupported (f : Float80) : Bool :=
  if f.exp = expDenormal then f.signif / 2 ^ 63 == 0 else f.signif / 2 ^ 63 == 1

def f80IsNan (f : Float80) : Bool := f.exp == expSpecial && f.signif % 2 ^ 63 != 0

def f80IsInf (f : Float80) : Bool := f.exp == expSpecial && f.signif % 2 ^ 63 == 0

def f80IsZero (f : Float80) : Bool := f.exp == expDenormal && f.signif == 0

def f80IsDenormal (f : Float80) : Bool := f.exp == expDenormal && f.signif != 0

def f80IsSnan (f : Float80) : Bool := f80IsNan f && f.signif / 2 ^ 62 % 2 == 0

/-- `__builtin_clzl`, for a number that is not zero. -/
def clzl (x : Nat) : Nat := 63 - Nat.log2 x

def u128Clz (x : Nat) : Nat :=
  if x / 2 ^ 64 ≠ 0 then clzl (x / 2 ^ 64) else if x ≠ 0 then 64 + clzl x else 128

/-- How many low bits of a significand stay zero under precision control. -/
def f80PrecisionExtra : Nat :=
  if 64 - c.precision < 0 ∨ 64 - c.precision > 40 then 0 else (64 - c.precision).toNat

/-- The result of an overflow: infinity, or the largest finite number when the
    rounding mode points back to zero. -/
def f80Overflow (sign : Bool) : Float80 × Flags :=
  if (c.mode = .roundUp ∧ sign = true) ∨ (c.mode = .roundDown ∧ sign = false) ∨
      c.mode = .roundChop then
    (float80 ((2 ^ 64 - 1) * 2 ^ f80PrecisionExtra c) expMax sign, { fl with
        roundedUp := false, inexact := true, exceptions := fl.exceptions ||| excOverflow })
  else
    (f80Inf sign,
      { fl with roundedUp := true, inexact := true, exceptions := fl.exceptions ||| excOverflow })

/-- The end of `u128_normalize_round`, with the rounded significand and the
    exponent field. -/
def finishRound (callerInexact : Bool) (signif exp : Nat)
    (tiny sign : Bool) : Float80 × Flags :=
  ( float80 (u128ShiftLeft signif (f80PrecisionExtra c))
      -- A denormal that rounded up into the integer bit is the smallest normal.
      (if exp = expDenormal ∧ u128ShiftLeft signif (f80PrecisionExtra c) / 2 ^ 63 ≠ 0 then expMin
        else exp)
      sign,
    { fl with
      inexact := fl.inexact || callerInexact
      exceptions :=
        if tiny && fl.inexact then fl.exceptions ||| excUnderflow else fl.exceptions })

/-- The rounding part of `u128_normalize_round`, once the significand stands
    where the exponent says. -/
def roundPlaced (callerInexact : Bool) (signif : Nat) (exp : Int)
    (tiny sign : Bool) : Float80 × Flags :=
  match u128ShiftRightRound c fl signif (64 + f80PrecisionExtra c) sign with
  | (r, fl) =>
    if r / 2 ^ (64 - f80PrecisionExtra c) ≠ 0 then
      -- The carry out of the top bit can take the exponent past its maximum.
      if bias exp + 1 > expMax then f80Overflow c fl sign
      else finishRound c fl callerInexact (r / 2) (bias exp + 1) tiny sign
    else finishRound c fl callerInexact r (bias exp) tiny sign

/-- Whether a value below the smallest normal number is tiny: one just below it
    is not when it rounds up to it at the current precision. -/
def isTiny (signif : Nat) (exp : Int) (sign : Bool) : Bool :=
  if exp - u128Clz signif = unbias expMin - 1 then
    (u128ShiftRightRound c fl (u128ShiftLeft signif (u128Clz signif)) (64 + f80PrecisionExtra c)
      sign).1 / 2 ^ (64 - f80PrecisionExtra c) == 0
  else true

/-- The significand of a value below the smallest normal number, moved to the
    exponent of the denormals. -/
def denormalSignif (signif : Nat) (exp : Int) : Nat :=
  if exp > unbias expMin then u128ShiftLeft signif (exp - unbias expMin).toNat
  else u128ShiftRightSticky signif (unbias expMin - exp)

/-- Round `signif * 2 ^ (exp - 127)` to the current precision. -/
def u128NormalizeRound (signif : Nat) (exp : Int) (sign : Bool) :
    Float80 × Flags :=
  if signif = 0 then (f80Zero sign, fl)
  else if exp - u128Clz signif < unbias expMin then
    roundPlaced c { fl with inexact := false } fl.inexact (denormalSignif signif exp)
      (unbias expDenormal) (isTiny c { fl with inexact := false } signif exp sign) sign
  else if exp - u128Clz signif > unbias expMax then
    f80Overflow c { fl with inexact := false } sign
  else
    roundPlaced c { fl with inexact := false } fl.inexact (u128ShiftLeft signif (u128Clz signif))
      (exp - u128Clz signif) false sign

def f80Neg (f : Float80) : Float80 := { f with sign := !f.sign }

/-- Set the quiet bit of a significand. -/
def quiet (f : Float80) : Float80 := float80 (f.signif ||| 2 ^ 62) f.exp f.sign

/-- `handle_nans`: the answer, unless both operands are supported numbers that
    are not NaNs. -/
def handleNans (fl : Flags) (a b : Float80) : Option (Float80 × Flags) :=
  if !f80IsSupported a || !f80IsSupported b then some (f80Nan, fl.raise excInvalid)
  else
    match if f80IsSnan a || f80IsSnan b then
        (if f80IsNan a then quiet a else a, if f80IsNan b then quiet b else b, fl.raise excInvalid)
      else (a, b, fl) with
    | (a, b, fl) =>
      if f80IsNan a && f80IsNan b && a.sign && !b.sign then some (b, fl)
      else if f80IsNan a then some (a, fl)
      else if f80IsNan b then some (b, fl)
      else none

/-- The sum of two 128-bit significands at one exponent: the carry costs a bit
    of precision. -/
def addSignif (a b : Nat) (exp : Int) : Nat × Int :=
  if a + b ≥ 2 ^ 128 then
    (u128ShiftRightSticky ((a + b) % 2 ^ 128) 1 ||| 2 ^ 127, exp + 1)
  else (a + b, exp)

/-- `f80_add` of finite operands that are not both zero, the first with the
    larger exponent. The signs are flipped to make the first one positive. -/
def addOrdered : Float80 × Flags :=
  match u128ShiftRightSticky (b.signif * 2 ^ 64) (unbiasDenormal a.exp - unbiasDenormal b.exp) with
  | shifted =>
    if a.sign = b.sign then
      u128NormalizeRound c fl (addSignif (a.signif * 2 ^ 64) shifted (unbiasDenormal a.exp)).1
        (addSignif (a.signif * 2 ^ 64) shifted (unbiasDenormal a.exp)).2 a.sign
    else
      match
        -- In chop mode a small number that was shifted out must still count.
        if c.mode = .roundChop ∧ shifted = 0 ∧ b.signif ≠ 0 then 1 else shifted with
      | shifted =>
        if a.signif * 2 ^ 64 = shifted then
          if a.signif * 2 ^ 64 ≠ 0 ∧ c.mode = .roundDown then (f80Zero true, fl)
          else (f80Zero false, fl)
        else if a.signif * 2 ^ 64 ≥ shifted then
          u128NormalizeRound c fl (a.signif * 2 ^ 64 - shifted) (unbiasDenormal a.exp) a.sign
        else
          u128NormalizeRound c fl (shifted - a.signif * 2 ^ 64) (unbiasDenormal a.exp) (!a.sign)

def f80Add : Float80 × Flags :=
  match handleNans fl a b with
  | some answer => answer
  | none =>
    if f80IsInf a || f80IsInf b then
      if f80IsInf a && f80IsInf b && a.sign != b.sign then (f80Nan, fl.raise excInvalid)
      else (if f80IsInf a then a else b, fl)
    else if f80IsZero a && f80IsZero b then
      -- Zeros of opposite sign sum to +0, except rounding down.
      (f80Zero (if a.sign = b.sign then a.sign else c.mode == .roundDown), fl)
    else if a.exp < b.exp then addOrdered c fl b a
    else addOrdered c fl a b

def f80Sub : Float80 × Flags :=
  f80Add c fl a (f80Neg b)

def f80Mul : Float80 × Flags :=
  match handleNans fl a b with
  | some answer => answer
  | none =>
    if f80IsInf a || f80IsInf b then
      if f80IsZero a || f80IsZero b then (f80Nan, fl.raise excInvalid)
      else (f80Inf (a.sign ^^ b.sign), fl)
    else
      u128NormalizeRound c fl (a.signif * b.signif)
        (unbiasDenormal a.exp + unbiasDenormal b.exp + 1) (a.sign ^^ b.sign)

/-- 128 bits of the quotient of two normalized significands, the last of them
    sticky. -/
def divSignif (m n : Nat) : Nat :=
  match m * 2 ^ 63 / n * 2 ^ 64 ||| m * 2 ^ 63 % n * 2 ^ 64 / n with
  | q => if m * 2 ^ 63 % n * 2 ^ 64 % n ≠ 0 then q ||| 1 else q

def f80Div : Float80 × Flags :=
  match handleNans fl a b with
  | some answer => answer
  | none =>
    if f80IsInf a then
      if f80IsInf b then (f80Indefinite, fl.raise excInvalid)
      else (f80Inf (a.sign ^^ b.sign), fl)
    else if f80IsInf b then (f80Zero (a.sign ^^ b.sign), fl)
    else if f80IsZero b then
      if f80IsZero a then (f80Indefinite, fl.raise excInvalid)
      else (f80Inf (a.sign ^^ b.sign), fl.raise excDivzero)
    else if f80IsZero a then (f80Zero (a.sign ^^ b.sign), fl)
    else
      u128NormalizeRound c fl
        (divSignif (a.signif * 2 ^ clzl a.signif) (b.signif * 2 ^ clzl b.signif))
        (unbiasDenormal a.exp - clzl a.signif - (unbiasDenormal b.exp - clzl b.signif))
        (a.sign ^^ b.sign)

/-- `while (r * r > n) r--`. -/
def isqrtLower (n : Nat) : Nat → Nat
  | 0 => 0
  | r + 1 => if (r + 1) * (r + 1) > n then isqrtLower n r else r + 1

/-- `while (r != ~0 && (r + 1) * (r + 1) <= n) r++`, for at most `fuel` turns. -/
def isqrtRaise (n : Nat) : Nat → Nat → Nat
  | 0, r => r
  | fuel + 1, r =>
    if r ≠ 2 ^ 64 - 1 ∧ (r + 1) * (r + 1) ≤ n then isqrtRaise n fuel (r + 1) else r

/-- `f80_u128_isqrt` from an estimate: the root and the remainder. The estimate
    is below `2 ^ 64`, so as many turns are enough. -/
def u128Isqrt (estimate n : Nat) : Nat × Nat :=
  if n = 0 then (0, 0)
  else
    match isqrtRaise n (2 ^ 64) (isqrtLower n (estimate % 2 ^ 64)) with
    | r => (r, n - r * r)

/-- The significand of a root: below its last bit, the half bit and whether any
    bit at all is set. -/
def sqrtSignif (root rem : Nat) : Nat :=
  if rem = 0 then root * 2 ^ 64
  else root * 2 ^ 64 ||| if rem > root then 3 * 2 ^ 62 else 1

/-- `f80_sqrt` of `m * 2 ^ e`, with `m` normalized. An even power of two is put
    outside and the root is taken of what is left. -/
def sqrtNormalized (estimate : Nat → Nat) (c : Control) (fl : Flags) (e : Int) (m : Nat) :
    Float80 × Flags :=
  if e % 2 = 1 then
    match u128Isqrt (estimate (m * 2 ^ 63)) (m * 2 ^ 63) with
    | (r, rem) => u128NormalizeRound c fl (sqrtSignif r rem) ((e - 63) / 2 + 63) false
  else
    match u128Isqrt (estimate (m * 2 ^ 64)) (m * 2 ^ 64) with
    | (r, rem) => u128NormalizeRound c fl (sqrtSignif r rem) ((e - 64) / 2 + 63) false

def f80Sqrt (estimate : Nat → Nat) (c : Control) (fl : Flags) (x : Float80) : Float80 × Flags :=
  if !f80IsSupported x then (f80Indefinite, fl.raise excInvalid)
  else if f80IsZero x then (x, fl)
  else if f80IsNan x then
    if f80IsSnan x then (quiet x, fl.raise excInvalid) else (x, fl)
  else if x.sign then (f80Indefinite, fl.raise excInvalid)
  else if f80IsInf x then (x, fl)
  else
    sqrtNormalized estimate c (if f80IsDenormal x then fl.raise excDenormal else fl)
      (unbiasDenormal x.exp - 63 - clzl x.signif) (x.signif * 2 ^ clzl x.signif)

/-- What a fast path reports: the result, whether it was rounded, and whether
    up. -/
structure FastResult where
  out : Float80
  inexact : Bool
  up : Bool
deriving DecidableEq

def f80FastNormal (f : Float80) : Bool :=
  decide (f.exp ≥ expMin) && decide (f.exp ≤ expMax) && f.signif / 2 ^ 63 != 0

/-- Whether rounding to nearest drops `shift` bits upwards. -/
def fastRoundsUp (s shift : Nat) : Bool :=
  decide (s % 2 ^ shift > 2 ^ (shift - 1)) ||
    (s % 2 ^ shift == 2 ^ (shift - 1) && s / 2 ^ shift % 2 == 1)

/-- The end of `f80_fast_finish`, with the rounded significand. -/
def fastPack (kept : Nat) (exp : Int) (sign : Bool) (p : Nat) (inexact up : Bool) :
    Option FastResult :=
  if exp < unbias expMin ∨ exp > unbias expMax then none
  else some ⟨float80 (kept * 2 ^ (64 - p)) (bias exp) sign, inexact, up⟩

def f80FastFinish (s : Nat) (exp : Int) (sign : Bool) (p : Nat) : Option FastResult :=
  match s / 2 ^ (128 - p) + if fastRoundsUp s (128 - p) then 1 else 0 with
  | kept =>
    if kept / 2 ^ p ≠ 0 then
      fastPack (kept / 2) (exp + 1) sign p (s % 2 ^ (128 - p) != 0) (fastRoundsUp s (128 - p))
    else fastPack kept exp sign p (s % 2 ^ (128 - p) != 0) (fastRoundsUp s (128 - p))

/-- `f80_add_fast` of normal operands, the first with the larger exponent. -/
def addFastOrdered (a b : Float80) (p : Nat) : Option FastResult :=
  if a.exp - b.exp > 63 then none
  else
    match b.signif * 2 ^ 64 / 2 ^ (a.exp - b.exp) with
    | shifted =>
      if a.sign = b.sign then
        if a.signif * 2 ^ 64 + shifted ≥ 2 ^ 128 then
          match (a.signif * 2 ^ 64 + shifted) % 2 ^ 128 with
          | s => f80FastFinish (s / 2 ||| s % 2 ||| 2 ^ 127) (unbias a.exp + 1) a.sign p
        else f80FastFinish (a.signif * 2 ^ 64 + shifted) (unbias a.exp) a.sign p
      else if a.signif * 2 ^ 64 = shifted then some ⟨f80Zero false, false, false⟩
      else if a.signif * 2 ^ 64 ≥ shifted then
        match a.signif * 2 ^ 64 - shifted with
        | s =>
          f80FastFinish (u128ShiftLeft s (u128Clz s)) (unbias a.exp - u128Clz s) a.sign p
      else
        match shifted - a.signif * 2 ^ 64 with
        | s =>
          f80FastFinish (u128ShiftLeft s (u128Clz s)) (unbias a.exp - u128Clz s) b.sign p

def f80AddFast (a b : Float80) (p : Nat) : Option FastResult :=
  if !f80FastNormal a || !f80FastNormal b then none
  else if a.exp < b.exp then addFastOrdered b a p
  else addFastOrdered a b p

def f80MulFast (a b : Float80) (p : Nat) : Option FastResult :=
  if !f80FastNormal a || !f80FastNormal b then none
  else if a.signif * b.signif / 2 ^ 127 = 0 then
    f80FastFinish (u128ShiftLeft (a.signif * b.signif) 1) (unbias a.exp + unbias b.exp)
      (a.sign ^^ b.sign) p
  else
    f80FastFinish (a.signif * b.signif) (unbias a.exp + unbias b.exp + 1) (a.sign ^^ b.sign) p

/-- One correction loop of `f80_divlu`: the quotient digit and its remainder. -/
def divluFix (vn1 vn0 un : Nat) : Nat → Nat → Nat × Nat
  | 0, rhat => (0, rhat)
  | q + 1, rhat =>
    if q + 1 ≥ 2 ^ 32 ∨ (q + 1) * vn0 % 2 ^ 64 > (2 ^ 32 * rhat + un) % 2 ^ 64 then
      if rhat + vn1 ≥ 2 ^ 32 then (q, rhat + vn1) else divluFix vn1 vn0 un q (rhat + vn1)
    else (q + 1, rhat)

/-- One digit of the quotient: the digit of `(hi * 2 ^ 32 + un) / v`. -/
def divluDigit (hi un v : Nat) : Nat :=
  (divluFix (v / 2 ^ 32) (v % 2 ^ 32) un (hi / (v / 2 ^ 32)) (hi % (v / 2 ^ 32))).1

/-- The turns of that loop. -/
def fixTurns (vn1 vn0 un : Nat) : Nat → Nat → Nat
  | 0, _ => 0
  | q + 1, rhat =>
    if q + 1 ≥ 2 ^ 32 ∨ (q + 1) * vn0 % 2 ^ 64 > (2 ^ 32 * rhat + un) % 2 ^ 64 then
      if rhat + vn1 ≥ 2 ^ 32 then 1 else fixTurns vn1 vn0 un q (rhat + vn1) + 1
    else 0

/-- The turns made for a digit. -/
def digitTurns (hi un v : Nat) : Nat :=
  fixTurns (v / 2 ^ 32) (v % 2 ^ 32) un (hi / (v / 2 ^ 32)) (hi % (v / 2 ^ 32))

/-- The difference of two 64-bit expressions, which wraps. -/
def subWord (a b : Nat) : Nat := (((a : Int) - b) % 2 ^ 64).toNat

/-- `f80_divlu`: the quotient and the remainder of `(u1 : u0) / v`. -/
def f80Divlu (u1 u0 v : Nat) : Nat × Nat :=
  match divluDigit u1 (u0 / 2 ^ 32) v with
  | q1 =>
    match subWord (u1 * 2 ^ 32 + u0 / 2 ^ 32) (q1 * v) with
    | un21 =>
      match divluDigit un21 (u0 % 2 ^ 32) v with
      | q0 => ((q1 * 2 ^ 32 + q0) % 2 ^ 64, subWord (un21 * 2 ^ 32 + u0 % 2 ^ 32) (q0 * v))

/-- The normalized quotient of the fast division. -/
def divFastSignif (as bs : Nat) : Nat × Nat :=
  match f80Divlu (as / 2) (as * 2 ^ 63 % 2 ^ 64) bs with
  | (qHi, r) =>
    match f80Divlu r 0 bs with
    | (qLo, r2) => (qHi, if r2 ≠ 0 then (qHi * 2 ^ 64 ||| qLo) ||| 1 else qHi * 2 ^ 64 ||| qLo)

def f80DivFast (a b : Float80) (p : Nat) : Option FastResult :=
  if !f80FastNormal a || !f80FastNormal b then none
  else
    match divFastSignif a.signif b.signif with
    | (qHi, q) =>
      f80FastFinish (u128ShiftLeft q (clzl qHi)) (unbias a.exp - unbias b.exp - clzl qHi)
        (a.sign ^^ b.sign) p

def f80Uncomparable (a b : Float80) : Bool :=
  if !f80IsSupported a || !f80IsSupported b then true else f80IsNan a || f80IsNan b

/-- `f80_lt` decides by subtracting. -/
def f80Lt : Bool × Flags :=
  if f80Uncomparable a b then (false, fl)
  else if f80IsInf a && f80IsInf b && a.sign == b.sign then (false, fl)
  else if f80IsZero a && f80IsZero b then (false, fl)
  else
    match f80Sub c fl a b with
    | (diff, fl) => (diff.sign && !f80IsZero diff, fl)

def f80Eq (a b : Float80) : Bool :=
  if f80Uncomparable a b then false
  else
    (if f80IsZero a then false else a.sign) == (if f80IsZero b then false else b.sign) &&
      a.exp == b.exp && a.signif == b.signif

end IshAok.F80
