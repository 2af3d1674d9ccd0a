import IshAok.Core.Fpu
import IshAok.Theory.Float80.Arith

/-!
# The Fast Paths

In round to nearest, with normal operands and a normal result, an arithmetic
instruction takes a shorter way. What it computes is what the general operation
computes, bit for bit, and the general operation raises no exception there.

A fast path has its own rounding step and, for the quotient, its own division.
The division takes 32 bits of the quotient at a time: an estimate from the high
word of the divisor, which a loop then lowers. The estimate is never too small,
and the loop stops at the first digit that is not too large.

## Theorems

* `divluDigit_eq`: A digit of the quotient is right.
* `f80Divlu_eq`, `f80Divlu_exact`: The division is division, in few turns.
* `fastFinish_general`: The short rounding step agrees with the general one.
* `fast_paths_agree`: A fast path agrees with the general operation, and every
  instruction with its general path.
-/

namespace IshAok.F80

open Base Nat

/-- The loop lowers an estimate that is not too small to the digit. -/
theorem divluFix_eq {vn1 vn0 un hi q rhat : Nat} (hvn0 : vn0 < 2 ^ 32)
    (hun : un < 2 ^ 32) (hsplit : hi = q * vn1 + rhat) (hrhat : rhat < 2 ^ 32)
    (hq : q ≤ 2 ^ 32 + 1) (hhi : hi < vn1 * 2 ^ 32 + vn0)
    (hge : (hi * 2 ^ 32 + un) / (vn1 * 2 ^ 32 + vn0) ≤ q) :
    (divluFix vn1 vn0 un q rhat).1 = (hi * 2 ^ 32 + un) / (vn1 * 2 ^ 32 + vn0) := by
  have hv : 0 < vn1 * 2 ^ 32 + vn0 := by omega
  -- The digit is below the base.
  have hdigit : (hi * 2 ^ 32 + un) / (vn1 * 2 ^ 32 + vn0) < 2 ^ 32 := by
    rw [Nat.div_lt_iff_lt_mul hv]
    nlinarith
  induction q generalizing rhat with
  | zero =>
    exact (le_zero.mp hge).symm
  | succ q ih =>
    have hnext : hi = q * vn1 + (rhat + vn1) := by
      rw [hsplit]
      ring
    have htest : 2 ^ 32 * rhat + un < 2 ^ 64 := by omega
    rw [divluFix, mod_eq_of_lt htest]
    by_cases htoo : q + 1 ≥ 2 ^ 32 ∨ (q + 1) * vn0 % 2 ^ 64 > 2 ^ 32 * rhat + un
    · -- The estimate is too large.
      have hlower : (hi * 2 ^ 32 + un) / (vn1 * 2 ^ 32 + vn0) ≤ q := by
        rcases htoo with hbig | hprod
        · omega
        have hle : (q + 1) * vn0 % 2 ^ 64 ≤ (q + 1) * vn0 := mod_le _ _
        rw [← Nat.lt_succ_iff, Nat.div_lt_iff_lt_mul hv, hsplit]
        nlinarith
      rw [if_pos htoo]
      by_cases hbreak : rhat + vn1 ≥ 2 ^ 32
      · -- With the remainder past the base, the next estimate is right.
        rw [if_pos hbreak]
        refine (le_antisymm ?_ hlower)
        rw [Nat.le_div_iff_mul_le hv, hnext]
        have hprod : q * vn0 ≤ 2 ^ 32 * 2 ^ 32 := Nat.mul_le_mul (by omega) (by omega)
        nlinarith
      · rw [if_neg hbreak]
        exact ih hnext (by omega) (by omega) hlower
    · -- The estimate is not too large either.
      rw [if_neg htoo]
      rw [not_or, not_le, not_lt] at htoo
      have hprod : (q + 1) * vn0 < 2 ^ 64 := by
        calc (q + 1) * vn0 < 2 ^ 32 * 2 ^ 32 := Nat.mul_lt_mul'' htoo.1 hvn0
          _ = 2 ^ 64 := by norm_num
      rw [mod_eq_of_lt hprod] at htoo
      refine le_antisymm ?_ hge
      rw [Nat.le_div_iff_mul_le hv, hsplit]
      nlinarith [htoo.2]

theorem divluDigit_eq {hi un v : Nat} (hv : 2 ^ 63 ≤ v) (hv' : v < 2 ^ 64) (hhi : hi < v)
    (hun : un < 2 ^ 32) : divluDigit hi un v = (hi * 2 ^ 32 + un) / v := by
  have hsplit : v / 2 ^ 32 * 2 ^ 32 + v % 2 ^ 32 = v := div_add_mod' v (2 ^ 32)
  have hlow : 2 ^ 31 ≤ v / 2 ^ 32 := by omega
  have hhigh : v / 2 ^ 32 < 2 ^ 32 := by omega
  have hrem : v % 2 ^ 32 < 2 ^ 32 := mod_lt _ (Nat.two_pow_pos 32)
  unfold divluDigit
  generalize v / 2 ^ 32 = vn1 at *
  generalize v % 2 ^ 32 = vn0 at *
  subst hsplit
  have hpos : 0 < vn1 := by omega
  have hmod : hi % vn1 < vn1 := mod_lt _ hpos
  refine divluFix_eq hrem hun (div_add_mod' hi vn1).symm (by omega) ?_ hhi ?_
  · -- The estimate exceeds the base by one at most.
    rw [← Nat.lt_succ_iff, Nat.div_lt_iff_lt_mul hpos]
    nlinarith
  · rw [Nat.le_div_iff_mul_le hpos]
    have hle := div_mul_le_self (hi * 2 ^ 32 + un) (vn1 * 2 ^ 32 + vn0)
    generalize (hi * 2 ^ 32 + un) / (vn1 * 2 ^ 32 + vn0) = q at *
    have hdrop : q * vn1 * 2 ^ 32 < (hi + 1) * 2 ^ 32 := by nlinarith
    exact Nat.lt_succ_iff.mp (Nat.lt_of_mul_lt_mul_right hdrop)

/-- Taking the quotient away leaves the remainder, whether it wraps or not. -/
theorem subWord_div {t v : Nat} (hv : 0 < v) (hv' : v < 2 ^ 64) :
    subWord t (t / v * v) = t % v := by
  have hdm := div_add_mod' t v
  have hlt : t % v < v := mod_lt _ hv
  have hsub : (t : Int) - (t / v * v : Nat) = (t % v : Nat) := by omega
  rw [subWord, hsub]
  omega

/-- Two digits and the last remainder are the quotient and the remainder. -/
theorem long_division {u1 u0 un1 un0 v q1 r1 q0 r0 : Nat} (hu0 : un1 * 2 ^ 32 + un0 = u0)
    (h1 : q1 * v + r1 = u1 * 2 ^ 32 + un1) (h0 : q0 * v + r0 = r1 * 2 ^ 32 + un0) (hr0 : r0 < v) :
    (u1 * 2 ^ 64 + u0) / v = q1 * 2 ^ 32 + q0 ∧ (u1 * 2 ^ 64 + u0) % v = r0 := by
  refine (Nat.div_mod_unique (by omega)).mpr ⟨?_, hr0⟩
  nlinarith

/-- The division of a two-word number by a normalized word. -/
theorem f80Divlu_eq {u1 u0 v : Nat} (hv : 2 ^ 63 ≤ v) (hv' : v < 2 ^ 64) (hu1 : u1 < v)
    (hu0 : u0 < 2 ^ 64) :
    f80Divlu u1 u0 v = ((u1 * 2 ^ 64 + u0) / v, (u1 * 2 ^ 64 + u0) % v) := by
  have hpos : 0 < v := by omega
  have hun1 : u0 / 2 ^ 32 < 2 ^ 32 := by omega
  have hun0 : u0 % 2 ^ 32 < 2 ^ 32 := mod_lt _ (Nat.two_pow_pos 32)
  have hr1 : (u1 * 2 ^ 32 + u0 / 2 ^ 32) % v < v := mod_lt _ hpos
  have hlong := long_division (div_add_mod' u0 (2 ^ 32))
    (div_add_mod' (u1 * 2 ^ 32 + u0 / 2 ^ 32) v)
    (div_add_mod' ((u1 * 2 ^ 32 + u0 / 2 ^ 32) % v * 2 ^ 32 + u0 % 2 ^ 32) v)
    (mod_lt _ hpos)
  have hlt : (u1 * 2 ^ 64 + u0) / v < 2 ^ 64 := by
    rw [Nat.div_lt_iff_lt_mul hpos]
    nlinarith
  -- The first digit leaves a remainder, which is divided for the second.
  unfold f80Divlu
  rw [divluDigit_eq hv hv' hu1 hun1]
  dsimp only
  rw [subWord_div hpos hv', divluDigit_eq hv hv' hr1 hun0, subWord_div hpos hv', ← hlong.1,
    hlong.2, mod_eq_of_lt hlt]

/-- Each turn adds half the base to the remainder, and the loop ends at the base. -/
theorem digitTurns_le {v : Nat} (hv : 2 ^ 63 ≤ v) (hi un : Nat) : digitTurns hi un v ≤ 2 := by
  have hvn1 : 2 ^ 31 ≤ v / 2 ^ 32 := by omega
  unfold digitTurns
  generalize hi / (v / 2 ^ 32) = q, hi % (v / 2 ^ 32) = rhat
  cases q with
  | zero => exact Nat.zero_le _
  | succ q =>
    rw [fixTurns]
    split
    · split
      · omega
      cases q with
      | zero => exact le_succ 1
      | succ q =>
        rw [fixTurns, if_pos (show rhat + v / 2 ^ 32 + v / 2 ^ 32 ≥ 2 ^ 32 by omega)]
        split <;> omega
    · omega

/-- The long division is exact, and neither of its loops makes more than two turns. -/
theorem f80Divlu_exact {u1 u0 v : Nat} (hv : 2 ^ 63 ≤ v) (hv' : v < 2 ^ 64) (hu1 : u1 < v)
    (hu0 : u0 < 2 ^ 64) :
    f80Divlu u1 u0 v = ((u1 * 2 ^ 64 + u0) / v, (u1 * 2 ^ 64 + u0) % v) ∧
      digitTurns u1 (u0 / 2 ^ 32) v ≤ 2 ∧
      digitTurns (subWord (u1 * 2 ^ 32 + u0 / 2 ^ 32) (divluDigit u1 (u0 / 2 ^ 32) v * v))
        (u0 % 2 ^ 32) v ≤ 2 :=
  ⟨f80Divlu_eq hv hv' hu1 hu0, digitTurns_le hv _ _, digitTurns_le hv _ _⟩

theorem f80Divlu_exact_half : f80Divlu 1 1 (2 ^ 63) = (2, 1) :=
  (f80Divlu_exact (by decide) (by decide) (by decide) (by decide)).1

section Nearest

variable {c : Control} {p : Nat}

theorem extra_eq (hc : ValidPrecision c) (hp : c.precision = p) :
    f80PrecisionExtra c = 64 - p ∧ 24 ≤ p ∧ p ≤ 64 := by
  have hadd := extra_add hc
  omega

theorem carry_even_eq (s k : Nat) (hk : 1 ≤ k) :
    carry .even (s / 2 ^ k) (s % 2 ^ k) (2 ^ k) = if fastRoundsUp s k then 1 else 0 := by
  have hpow : 2 ^ k = 2 * 2 ^ (k - 1) := by
    rw [← Nat.pow_succ']
    congr 1
    omega
  unfold carry fastRoundsUp
  rw [hpow]
  generalize s % (2 * 2 ^ (k - 1)) = r
  generalize s / (2 * 2 ^ (k - 1)) = q
  generalize 2 ^ (k - 1) = half
  rcases Nat.lt_trichotomy r half with hlt | heq | hgt
  · simp [show 2 * r < 2 * half by omega, show ¬ half < r by omega, hlt.ne]
  · subst heq
    rcases mod_two_eq_zero_or_one q with hq | hq <;> simp [hq]
  · simp [show ¬ 2 * r < 2 * half by omega, hgt]

variable (hc : ValidPrecision c) (hm : c.mode = .roundToNearest) (hp : c.precision = p)

include hc hm hp in
theorem keptBits_nearest (sign : Bool) (s : Nat) :
    keptBits c sign s = s / 2 ^ (128 - p) + if fastRoundsUp s (128 - p) then 1 else 0 := by
  have hextra := extra_eq hc hp
  have hshift : 64 + f80PrecisionExtra c = 128 - p := by omega
  have hdir : direction c.mode sign = .even := (direction_even c.mode sign).mpr hm
  rw [keptBits, hdir, hshift, carry_even_eq s _ (by omega)]

include hc hm hp in
theorem keptFlags_nearest (sign : Bool) (s : Nat) :
    keptFlags c fpuBegin sign s = ⟨s % 2 ^ (128 - p) != 0, fastRoundsUp s (128 - p), 0⟩ := by
  have hextra := extra_eq hc hp
  have hshift : 64 + f80PrecisionExtra c = 128 - p := by omega
  have hdir : direction c.mode sign = .even := (direction_even c.mode sign).mpr hm
  have hbne : ∀ r : Nat, decide (r ≠ 0) = (r != 0) := by
    intro r
    cases r <;> rfl
  rw [keptFlags, hdir, hshift, carry_even_eq s _ (by omega), hbne]
  cases fastRoundsUp s (128 - p) <;> rfl

/-- Storing a kept significand, the general way. -/
theorem finishRound_pack (hc : ValidPrecision c) (hp : c.precision = p) {fl : Flags}
    (hexc : fl.exceptions = 0) {kept exp : Nat} (hexp : exp ≠ expDenormal) (sign : Bool) :
    finishRound c fl false kept exp false sign =
      (float80 (kept * 2 ^ (64 - p)) exp sign, ⟨fl.inexact, fl.roundedUp, 0⟩) := by
  have hmod : float80 (kept * 2 ^ (64 - p) % 2 ^ 128) exp sign =
      float80 (kept * 2 ^ (64 - p)) exp sign := by
    simp only [float80, mod_mod_of_dvd _ (Nat.pow_dvd_pow 2 (by decide : 64 ≤ 128))]
  unfold finishRound
  rw [if_neg (fun h => hexp h.1), (extra_eq hc hp).1, u128ShiftLeft, hmod, Bool.or_false,
    Bool.false_and, if_neg Bool.false_ne_true, hexc]

variable {r : FastResult} {a b : Float80}

include hc hm hp in
/-- In the range of the normal numbers the two rounding steps are one. -/
theorem fastFinish_normal {s : Nat} {e : ℤ} (hlo : unbias expMin ≤ e) (hhi : e ≤ unbias expMax)
    {sign : Bool} (h : f80FastFinish s e sign p = some r) :
    roundPlaced c fpuBegin false s e false sign = (r.out, ⟨r.inexact, r.up, 0⟩) := by
  have hextra := extra_eq hc hp
  have hbits : 64 - f80PrecisionExtra c = p := by omega
  have hbias := bias_of_range hlo hhi
  rw [roundPlaced_eq hc, keptBits_nearest hc hm hp, keptFlags_nearest hc hm hp, hbits]
  unfold f80FastFinish at h
  generalize (s / 2 ^ (128 - p) + if fastRoundsUp s (128 - p) = true then 1 else 0) = kept at *
  by_cases hcarry : kept / 2 ^ p = 0
  · rw [if_neg (fun hne => hne hcarry)] at h ⊢
    unfold fastPack at h
    rw [if_neg (by omega), Option.some.injEq] at h
    rw [finishRound_pack hc hp rfl hbias.2.1, ← h]
  · rw [if_pos hcarry] at h ⊢
    unfold fastPack at h
    by_cases hrange : e + 1 < unbias expMin ∨ e + 1 > unbias expMax
    · rw [if_pos hrange] at h
      cases h
    rw [if_neg hrange, Option.some.injEq] at h
    have hnext := bias_of_range (e := e + 1) (by omega) (by omega)
    have hsucc : bias (e + 1) = bias e + 1 := by omega
    rw [if_neg (by omega), ← hsucc, finishRound_pack hc hp rfl hnext.2.1, ← h]

/-- Half of a normalized significand, as it is placed for a denormal number. -/
theorem denormalSignif_half {n : Nat} (hn : n ≠ 0) (hlt : n < 2 ^ 128) {exp : ℤ}
    (he : exp - u128Clz n = unbias expMin - 1) :
    n * 2 ^ u128Clz n / 2 ≤ denormalSignif n exp ∧ denormalSignif n exp < 2 ^ 127 := by
  have hspec := u128Clz_spec hn hlt
  constructor
  · unfold denormalSignif
    by_cases hleft : exp > unbias expMin
    · have hshift : (exp - unbias expMin).toNat + 1 = u128Clz n := by omega
      have hsplit : n * 2 ^ u128Clz n = n * 2 ^ (exp - unbias expMin).toNat * 2 := by
        rw [← hshift, Nat.pow_succ, Nat.mul_assoc]
      rw [if_pos hleft, u128ShiftLeft, mod_eq_of_lt (by omega)]
      omega
    · rw [if_neg hleft]
      unfold u128ShiftRightSticky
      by_cases hzero : unbias expMin - exp ≤ 0
      · have hone : u128Clz n = 1 := by omega
        rw [if_pos hzero, hone]
        omega
      · have hnone : u128Clz n = 0 := by omega
        have hgap : (unbias expMin - exp).toNat = 1 := by omega
        rw [if_neg hzero, if_neg (by omega), hgap, hnone, Nat.pow_zero, Nat.mul_one, Nat.pow_one]
        exact left_le_or
  · have hexact : (n : ℝ) * 2 ^ (exp - 127) / 2 ^ (exp - 127) = n :=
      mul_div_cancel_right₀ _ (zpow_ne_zero _ two_ne_zero)
    refine (placed_denormal (x := n * 2 ^ (exp - 127)) hn hlt ?_ (by omega)).1
    rw [hexact]
    exact sameSide_refl _ _

include hc hm hp in
/-- A significand just below the carry rounds up to the integer bit when it is
    halved first. -/
theorem keptBits_top (sign : Bool) {d : Nat} (hlo : 2 ^ 127 - 2 ^ (126 - p) ≤ d)
    (hhi : d < 2 ^ 127) :
    keptBits c sign d = 2 ^ (p - 1) ∧ keptFlags c fpuBegin sign d = ⟨true, true, 0⟩ := by
  have hextra := extra_eq hc hp
  have hpow : 2 ^ 127 = 2 ^ (p - 1) * 2 ^ (128 - p) := by
    rw [← Nat.pow_add]
    congr 1
    omega
  have hquarter : 2 ^ (128 - p) = 4 * 2 ^ (126 - p) := by
    rw [show 128 - p = 126 - p + 2 by omega, Nat.pow_add]
    omega
  have hhalf : 2 ^ (128 - p - 1) = 2 * 2 ^ (126 - p) := by
    rw [show 128 - p - 1 = 126 - p + 1 by omega, Nat.pow_succ, Nat.mul_comm]
  have hpos : 0 < 2 ^ (126 - p) := Nat.two_pow_pos _
  have hsmall : 2 ^ (126 - p) ≤ 2 ^ 102 := Nat.pow_le_pow_right (by decide) (by omega)
  have hone : 1 ≤ 2 ^ (p - 1) := Nat.one_le_two_pow
  -- The quotient and the remainder of a number so close to the power of two.
  have hsplit : d / 2 ^ (128 - p) = 2 ^ (p - 1) - 1 ∧
      d % 2 ^ (128 - p) = d - (2 ^ (p - 1) - 1) * 2 ^ (128 - p) := by
    refine (Nat.div_mod_unique (Nat.two_pow_pos _)).mpr ?_
    rw [Nat.mul_comm (2 ^ (128 - p)), Nat.sub_mul, one_mul, ← hpow]
    constructor <;> omega
  have hrem : d % 2 ^ (128 - p) ≥ 3 * 2 ^ (126 - p) := by
    rw [hsplit.2, Nat.sub_mul, one_mul, ← hpow]
    omega
  have hup : fastRoundsUp d (128 - p) = true := by
    rw [fastRoundsUp, Bool.or_eq_true, decide_eq_true_eq]
    left
    omega
  have hne : (d % 2 ^ (128 - p) != 0) = true := by
    rw [bne_iff_ne]
    omega
  rw [keptBits_nearest hc hm hp, keptFlags_nearest hc hm hp, hsplit.1, hup, hne]
  exact ⟨by rw [if_pos rfl]; omega, rfl⟩

include hc hm hp in
/-- A carry needs a significand just below the next power of two. -/
theorem carry_bounds (sign : Bool) {s : Nat} (hs : s < 2 ^ 128)
    (hcarry : keptBits c sign s / 2 ^ p ≠ 0) :
    keptBits c sign s = 2 ^ p ∧ fastRoundsUp s (128 - p) = true ∧
      (s % 2 ^ (128 - p) != 0) = true ∧ 2 ^ 128 - 2 ^ (127 - p) ≤ s := by
  have hextra := extra_eq hc hp
  have hpow : 2 ^ 128 = 2 ^ p * 2 ^ (128 - p) := by
    rw [← Nat.pow_add]
    congr 1
    omega
  have hhalf : 2 ^ (128 - p) = 2 * 2 ^ (127 - p) := by
    rw [← Nat.pow_succ']
    congr 1
    omega
  have hpos : 0 < 2 ^ (127 - p) := Nat.two_pow_pos _
  have hone : 1 ≤ 2 ^ p := Nat.one_le_two_pow
  have hge : 2 ^ p ≤ keptBits c sign s := by
    by_contra hlt
    exact hcarry (div_eq_of_lt (not_le.mp hlt))
  have hquot : s / 2 ^ (128 - p) < 2 ^ p := by
    rw [Nat.div_lt_iff_lt_mul (Nat.two_pow_pos _), ← hpow]
    exact hs
  have hkept := keptBits_nearest hc hm hp sign s
  have hup : fastRoundsUp s (128 - p) = true := by
    by_contra hne
    rw [if_neg hne] at hkept
    omega
  rw [if_pos hup] at hkept
  -- Rounding up means at least half of the last unit.
  have hrem : 2 ^ (127 - p) ≤ s % 2 ^ (128 - p) := by
    have hor := hup
    rw [fastRoundsUp, Bool.or_eq_true, Bool.and_eq_true, decide_eq_true_eq, beq_iff_eq,
      show 128 - p - 1 = 127 - p by omega] at hor
    rcases hor with hgt | heq
    · exact hgt.le
    · exact heq.1.ge
  refine ⟨by omega, hup, ?_, ?_⟩
  · rw [bne_iff_ne]
    omega
  · have hdm := div_add_mod' s (2 ^ (128 - p))
    have hq : s / 2 ^ (128 - p) = 2 ^ p - 1 := by omega
    rw [hq, Nat.sub_mul, one_mul, ← hpow] at hdm
    omega

include hc hm hp in
/-- What a fast path reports is what the general rounding gives. -/
theorem fastFinish_general {n : Nat} (hn : n ≠ 0) (hlt : n < 2 ^ 128) {exp : ℤ} {sign : Bool}
    (h : f80FastFinish (n * 2 ^ u128Clz n) (exp - u128Clz n) sign p = some r) :
    u128NormalizeRound c fpuBegin n exp sign = (r.out, ⟨r.inexact, r.up, 0⟩) := by
  have hspec := u128Clz_spec hn hlt
  have hextra := extra_eq hc hp
  have hclear : { fpuBegin with inexact := false } = fpuBegin := rfl
  have hcaller : fpuBegin.inexact = false := rfl
  have hleft : u128ShiftLeft n (u128Clz n) = n * 2 ^ u128Clz n := mod_eq_of_lt hspec.2.1
  unfold u128NormalizeRound
  rw [if_neg hn, hclear, hcaller, hleft]
  by_cases htiny : exp - u128Clz n < unbias expMin
  · -- Only the carry can lift the number into the normal range.
    rw [if_pos htiny]
    have hkept := keptBits_nearest hc hm hp sign (n * 2 ^ u128Clz n)
    unfold f80FastFinish fastPack at h
    rw [← hkept] at h
    by_cases hcarry : keptBits c sign (n * 2 ^ u128Clz n) / 2 ^ p = 0
    · rw [if_neg (fun hne => hne hcarry), if_pos (Or.inl htiny)] at h
      cases h
    rw [if_pos hcarry] at h
    by_cases hlow : exp - u128Clz n + 1 < unbias expMin ∨ exp - u128Clz n + 1 > unbias expMax
    · rw [if_pos hlow] at h
      cases h
    rw [if_neg hlow, Option.some.injEq] at h
    have hedge : exp - u128Clz n = unbias expMin - 1 := by omega
    have hhalf := denormalSignif_half hn hlt hedge
    obtain ⟨hfull, hup, hne, hlow'⟩ := carry_bounds hc hm hp sign hspec.2.1 hcarry
    have hdouble : 2 ^ (127 - p) = 2 * 2 ^ (126 - p) := by
      rw [← Nat.pow_succ']
      congr 1
      omega
    obtain ⟨hkept', hflags⟩ := keptBits_top hc hm hp sign (by omega) hhalf.2
    have hbits : 64 - f80PrecisionExtra c = p := by omega
    have hsmall : 2 ^ (p - 1) / 2 ^ p = 0 :=
      div_eq_of_lt (Nat.pow_lt_pow_right (by decide) (by omega))
    have htop : 2 ^ p / 2 = 2 ^ (p - 1) := by
      rw [show 2 ^ p = 2 ^ (p - 1) * 2 by rw [← Nat.pow_succ]; congr 1; omega]
      exact Nat.mul_div_cancel _ two_pos
    have hword : 2 ^ (p - 1) * 2 ^ (64 - p) = 2 ^ 63 := by
      rw [← Nat.pow_add]
      congr 1
      omega
    -- Rounded at its own exponent the number would be normal, so it is not tiny.
    have hnot : isTiny c fpuBegin n exp sign = false := by
      rw [isTiny, if_pos hedge, hleft,
        u128ShiftRightRound_eq c fpuBegin _ _ sign (by omega) (by omega), hbits]
      exact beq_eq_false_iff_ne.mpr hcarry
    rw [roundPlaced_eq hc, hkept', hflags, hbits, if_neg (fun hne => hne hsmall), hnot, ← h, hfull,
      hup, hne, htop, hword, hedge]
    unfold finishRound
    rw [hextra.1, u128ShiftLeft, hword]
    rfl
  · rw [if_neg htiny]
    by_cases hover : exp - u128Clz n > unbias expMax
    · -- Past the largest exponent a fast path gives up.
      unfold f80FastFinish fastPack at h
      dsimp only at h
      split_ifs at h <;> omega
    · rw [if_neg hover]
      exact fastFinish_normal hc hm hp (not_lt.mp htiny) (not_lt.mp hover) h

theorem fastNormal_spec {f : Float80} (h : f80FastNormal f = true) :
    FiniteNumber f ∧ 2 ^ 63 ≤ f.signif ∧ unbiasDenormal f.exp = unbias f.exp := by
  have hlt := f.signif_lt
  simp only [f80FastNormal, Bool.and_eq_true, decide_eq_true_eq, bne_iff_ne] at h
  have hne : f.exp ≠ expDenormal := by
    have hmin := h.1.1
    unfold expMin at hmin
    unfold expDenormal
    omega
  refine ⟨⟨?_, h.1.2⟩, by omega, ?_⟩
  · rw [f80IsSupported, if_neg hne, beq_iff_eq]
    omega
  · rw [unbiasDenormal, if_neg hne]

/-- Operands that a fast path takes are normal. -/
theorem normal_of_fast {α : Type} {x : Option α} {y : α}
    (h : (if !f80FastNormal a || !f80FastNormal b then none else x) = some y) :
    f80FastNormal a = true ∧ f80FastNormal b = true ∧ x = some y := by
  cases ha : f80FastNormal a <;> cases hb : f80FastNormal b <;> simp_all

theorem clz_eq {n k : Nat} (hlt : n < 2 ^ 128) (hk : k ≤ 127) (hge : 2 ^ (127 - k) ≤ n)
    (hlt' : n < 2 ^ (128 - k)) : u128Clz n = k := by
  have hn : n ≠ 0 := ((Nat.two_pow_pos _).trans_le hge).ne'
  have hspec := u128Clz_spec hn hlt
  refine le_antisymm (clz_le hlt hk hge) ?_
  by_contra hgt
  -- One zero less would leave the top bit out of reach.
  have hsmall : n * 2 ^ u128Clz n < 2 ^ 127 := by
    calc n * 2 ^ u128Clz n < 2 ^ (128 - k) * 2 ^ u128Clz n :=
          Nat.mul_lt_mul_of_pos_right hlt' (Nat.two_pow_pos _)
      _ ≤ 2 ^ 127 := by
          rw [← Nat.pow_add]
          exact Nat.pow_le_pow_right (by decide) (by omega)
  omega

include hc hm hp in
theorem f80MulFast_general (h : f80MulFast a b p = some r) :
    f80Mul c fpuBegin a b = (r.out, ⟨r.inexact, r.up, 0⟩) := by
  obtain ⟨hna, hnb, h⟩ := normal_of_fast h
  obtain ⟨ha, hsa, hea⟩ := fastNormal_spec hna
  obtain ⟨hb, hsb, heb⟩ := fastNormal_spec hnb
  have hlo : 2 ^ 126 ≤ a.signif * b.signif := by
    have hle := Nat.mul_le_mul hsa hsb
    omega
  have hhi : a.signif * b.signif < 2 ^ 128 := by
    have hle := Nat.mul_le_mul (le_sub_one_of_lt a.signif_lt) (le_sub_one_of_lt b.signif_lt)
    omega
  unfold f80Mul
  rw [handleNans_finite _ ha hb]
  simp only [(not_special ha.exp_le).2, (not_special hb.exp_le).2, Bool.or_self,
    Bool.false_eq_true, if_false, hea, heb]
  refine fastFinish_general hc hm hp (by omega) hhi ?_
  by_cases htop : a.signif * b.signif / 2 ^ 127 = 0
  · have hclz : u128Clz (a.signif * b.signif) = 1 := clz_eq hhi (by decide) hlo (by omega)
    rw [if_pos htop, u128ShiftLeft, mod_eq_of_lt (by omega)] at h
    rw [hclz, ← h, cast_one, add_sub_cancel_right]
  · have hclz : u128Clz (a.signif * b.signif) = 0 := clz_eq hhi (by decide) (by omega) (by omega)
    rw [if_neg htop] at h
    rw [hclz, ← h, cast_zero, sub_zero, Nat.pow_zero, Nat.mul_one]

/-- The sticky bit does not reach the high word. -/
theorem high_word (hi rem : Nat) {lo : Nat} (hlo : lo < 2 ^ 64) :
    (if rem ≠ 0 then (hi * 2 ^ 64 + lo) ||| 1 else hi * 2 ^ 64 + lo) / 2 ^ 64 = hi := by
  by_cases hzero : rem = 0
  · rw [if_neg (fun h => h hzero)]
    omega
  rw [if_pos hzero, lor_one]
  omega

/-- The quotient of the fast division is the general one. -/
theorem divFastSignif_eq {m n : Nat} (hm : m < 2 ^ 64) (hn : 2 ^ 63 ≤ n) (hn' : n < 2 ^ 64) :
    divFastSignif m n = (m * 2 ^ 63 / n, divSignif m n) ∧
      divSignif m n / 2 ^ 64 = m * 2 ^ 63 / n := by
  have hpos : 0 < n := by omega
  have hwhole : m / 2 * 2 ^ 64 + m * 2 ^ 63 % 2 ^ 64 = m * 2 ^ 63 := by omega
  have hrem : m * 2 ^ 63 % n < n := mod_lt _ hpos
  have hlow : m * 2 ^ 63 % n * 2 ^ 64 / n < 2 ^ 64 := by
    rw [Nat.div_lt_iff_lt_mul hpos, Nat.mul_comm]
    exact Nat.mul_lt_mul_of_pos_left hrem (Nat.two_pow_pos 64)
  have hfirst := f80Divlu_eq hn hn' (show m / 2 < n by omega)
    (mod_lt (m * 2 ^ 63) (Nat.two_pow_pos 64))
  have hsecond := f80Divlu_eq hn hn' hrem (Nat.two_pow_pos 64)
  rw [hwhole] at hfirst
  rw [Nat.add_zero] at hsecond
  constructor
  · unfold divFastSignif divSignif
    rw [hfirst]
    dsimp only
    rw [hsecond]
  · unfold divSignif
    rw [lor_word _ _ hlow]
    exact high_word _ _ hlow

include hc hm hp in
theorem f80DivFast_general (h : f80DivFast a b p = some r) :
    f80Div c fpuBegin a b = (r.out, ⟨r.inexact, r.up, 0⟩) := by
  obtain ⟨hna, hnb, h⟩ := normal_of_fast h
  obtain ⟨ha, hsa, hea⟩ := fastNormal_spec hna
  obtain ⟨hb, hsb, heb⟩ := fastNormal_spec hnb
  have hspec := divSignif_spec hsa a.signif_lt hsb b.signif_lt
  obtain ⟨hfast, hhigh⟩ := divFastSignif_eq a.signif_lt hsb b.signif_lt
  have hclzl : ∀ f : Float80, 2 ^ 63 ≤ f.signif → clzl f.signif = 0 := by
    intro f hf
    have hlog : f.signif.log2 = 63 :=
      (log2_eq_iff (by omega)).mpr ⟨hf, f.signif_lt⟩
    rw [clzl, hlog]
  have hzero : ∀ f : Float80, 2 ^ 63 ≤ f.signif → FiniteNumber f → f80IsZero f = false := by
    intro f hf hfin
    rw [Bool.eq_false_iff]
    intro hz
    have hsignif := (f80IsZero_iff hfin.supported).mp hz
    omega
  have hclz : u128Clz (divSignif a.signif b.signif) = clzl (a.signif * 2 ^ 63 / b.signif) := by
    rw [u128Clz, if_pos (by omega), hhigh]
  unfold f80Div
  rw [handleNans_finite _ ha hb]
  simp only [(not_special ha.exp_le).2, (not_special hb.exp_le).2, Bool.false_eq_true, if_false,
    hzero a hsa ha, hzero b hsb hb, hclzl a hsa, hclzl b hsb, hea, heb, Nat.pow_zero, Nat.mul_one,
    cast_zero, sub_zero]
  have hnorm := u128Clz_spec (show divSignif a.signif b.signif ≠ 0 by omega) hspec.2.1
  refine fastFinish_general hc hm hp (by omega) hspec.2.1 ?_
  rw [hfast] at h
  dsimp only at h
  rw [← hclz, u128ShiftLeft, mod_eq_of_lt hnorm.2.1] at h
  exact h

/-- Aligning the smaller operand of a fast sum loses nothing. -/
theorem shifted_eq (signif : Nat) {d : Nat} (hd : d ≤ 63) :
    u128ShiftRightSticky (signif * 2 ^ 64) d = signif * 2 ^ 64 / 2 ^ d := by
  unfold u128ShiftRightSticky
  by_cases hzero : (d : Int) ≤ 0
  · have hz : d = 0 := by omega
    rw [if_pos hzero, hz, Nat.pow_zero, Nat.div_one]
  have hrem : signif * 2 ^ 64 % 2 ^ d = 0 := by
    refine mod_eq_zero_of_dvd (Dvd.dvd.mul_left (Nat.pow_dvd_pow 2 (by omega)) _)
  rw [if_neg hzero, if_neg (by omega), Int.toNat_natCast, hrem, if_neg (fun h => h rfl),
    or_zero]

theorem sticky_one (i : Nat) : u128ShiftRightSticky i 1 = i / 2 ||| i % 2 := by
  have hdef : u128ShiftRightSticky i 1 = i / 2 ^ 1 ||| if i % 2 ^ 1 ≠ 0 then 1 else 0 := rfl
  rw [hdef, Nat.pow_one]
  rcases mod_two_eq_zero_or_one i with hi | hi <;> rw [hi] <;> rfl

theorem carried_bounds {t : Nat} (hlo : 2 ^ 128 ≤ t) (hhi : t < 2 ^ 129) :
    2 ^ 127 ≤ u128ShiftRightSticky (t % 2 ^ 128) 1 ||| 2 ^ 127 ∧
      u128ShiftRightSticky (t % 2 ^ 128) 1 ||| 2 ^ 127 < 2 ^ 128 := by
  rw [carried_eq hlo hhi]
  by_cases hodd : t % 2 = 0
  · rw [if_neg (fun h => h hodd)]
    omega
  rw [if_pos hodd, lor_one]
  omega

include hc hm hp in
theorem addFastOrdered_general (hna : f80FastNormal a = true) (hnb : f80FastNormal b = true)
    (hle : b.exp ≤ a.exp) (h : addFastOrdered a b p = some r) :
    addOrdered c fpuBegin a b = (r.out, ⟨r.inexact, r.up, 0⟩) := by
  obtain ⟨ha, hsa, hea⟩ := fastNormal_spec hna
  obtain ⟨hb, hsb, heb⟩ := fastNormal_spec hnb
  have hsa' := a.signif_lt
  unfold addFastOrdered at h
  by_cases hfar : a.exp - b.exp > 63
  · rw [if_pos hfar] at h
    cases h
  rw [if_neg hfar] at h
  have hgap : unbiasDenormal a.exp - unbiasDenormal b.exp = (a.exp - b.exp : Nat) := by
    rw [hea, heb]
    unfold unbias
    omega
  have hchop : ¬ c.mode = .roundChop := by
    rw [hm]
    exact fun heq => absurd heq (by decide)
  have hdown : ¬ c.mode = .roundDown := by
    rw [hm]
    exact fun heq => absurd heq (by decide)
  unfold addOrdered
  rw [hgap, shifted_eq b.signif (by omega)]
  have hslt : b.signif * 2 ^ 64 / 2 ^ (a.exp - b.exp) < 2 ^ 128 := by
    have hb' := b.signif_lt
    exact (Nat.div_le_self _ _).trans_lt (by omega)
  generalize b.signif * 2 ^ 64 / 2 ^ (a.exp - b.exp) = s at *
  simp only [hea, if_neg (fun h : c.mode = .roundChop ∧ s = 0 ∧ b.signif ≠ 0 => hchop h.1)]
  dsimp only at h
  by_cases hsign : a.sign = b.sign
  · rw [if_pos hsign] at h ⊢
    unfold addSignif
    by_cases hcarry : a.signif * 2 ^ 64 + s ≥ 2 ^ 128
    · -- The carry costs a bit, which both remember.
      rw [if_pos hcarry] at h ⊢
      obtain ⟨hlo, hhi⟩ := carried_bounds hcarry (by omega)
      have hclz := clz_eq (k := 0) hhi (by decide) hlo hhi
      refine fastFinish_general hc hm hp (by omega) hhi ?_
      rw [hclz, Nat.pow_zero, Nat.mul_one, cast_zero, sub_zero, sticky_one]
      exact h
    · rw [if_neg hcarry] at h ⊢
      have hclz : u128Clz (a.signif * 2 ^ 64 + s) = 0 :=
        clz_eq (by omega) (by decide) (by omega) (by omega)
      refine fastFinish_general hc hm hp (by omega) (by omega) ?_
      rw [hclz, Nat.pow_zero, Nat.mul_one, cast_zero, sub_zero]
      exact h
  · have hopp : b.sign = !a.sign :=
      (by decide : ∀ s t : Bool, ¬ s = t → t = !s) _ _ hsign
    rw [if_neg hsign] at h ⊢
    rcases Nat.lt_trichotomy (a.signif * 2 ^ 64) s with hlt | heq | hgt
    · have hn : s - a.signif * 2 ^ 64 ≠ 0 := by omega
      have hnorm := u128Clz_spec hn (by omega)
      rw [if_neg (by omega), if_neg (by omega)] at h ⊢
      rw [u128ShiftLeft, mod_eq_of_lt hnorm.2.1, hopp] at h
      exact fastFinish_general hc hm hp hn (by omega) h
    · rw [if_pos heq, Option.some.injEq] at h
      rw [if_pos heq, if_neg (fun hand => hdown hand.2), ← h]
      rfl
    · have hn : a.signif * 2 ^ 64 - s ≠ 0 := by omega
      have hnorm := u128Clz_spec hn (by omega)
      rw [if_neg (by omega), if_pos (by omega)] at h ⊢
      rw [u128ShiftLeft, mod_eq_of_lt hnorm.2.1] at h
      exact fastFinish_general hc hm hp hn (by omega) h

include hc hm hp in
theorem f80AddFast_general (h : f80AddFast a b p = some r) :
    f80Add c fpuBegin a b = (r.out, ⟨r.inexact, r.up, 0⟩) := by
  obtain ⟨hna, hnb, h⟩ := normal_of_fast h
  obtain ⟨ha, hsa, -⟩ := fastNormal_spec hna
  obtain ⟨hb, -, -⟩ := fastNormal_spec hnb
  have hzero : ¬ (f80IsZero a && f80IsZero b) = true := by
    rw [Bool.and_eq_true, f80IsZero_iff ha.supported]
    omega
  unfold f80Add
  rw [handleNans_finite _ ha hb]
  simp only [(not_special ha.exp_le).2, (not_special hb.exp_le).2, Bool.or_self,
    Bool.false_eq_true, if_false]
  rw [if_neg hzero]
  by_cases hlt : a.exp < b.exp
  · rw [if_pos hlt] at h ⊢
    exact addFastOrdered_general hc hm hp hnb hna hlt.le h
  rw [if_neg hlt] at h ⊢
  exact addFastOrdered_general hc hm hp hna hnb (not_lt.mp hlt) h

end Nearest

/-- The control word allows a fast path only in round to nearest, and gives it
    the precision that the general operation has. -/
theorem fastPrecision_spec {cpu : Cpu} (h : fpuFastPrecision cpu ≠ 0) :
    (fpuSyncControl cpu).mode = .roundToNearest ∧
      (fpuSyncControl cpu).precision = fpuFastPrecision cpu := by
  have hrc : cpu.rc = 0 := by
    by_contra hne
    exact h (if_pos hne)
  unfold fpuSyncControl fpuFastPrecision
  rw [hrc]
  refine ⟨rfl, ?_⟩
  generalize cpu.pc = pc
  revert pc
  decide

theorem validPrecision_sync (cpu : Cpu) : ValidPrecision (fpuSyncControl cpu) := by
  have hall : ∀ pc, f80PrecisionFromPc pc = 64 ∨ f80PrecisionFromPc pc = 53 ∨
      f80PrecisionFromPc pc = 24 := by decide
  exact hall cpu.pc

/-- An instruction with a fast path that agrees does what its general path
    does. -/
theorem fpuFast_general {fast : Float80 → Float80 → Nat → Option FastResult}
    {op : Control → Flags → Float80 → Float80 → Float80 × Flags} {cpu : Cpu} {a b b' : Float80}
    (hop : ∀ r, (fpuSyncControl cpu).mode = .roundToNearest →
      (fpuSyncControl cpu).precision = fpuFastPrecision cpu →
      fast a b (fpuFastPrecision cpu) = some r →
      op (fpuSyncControl cpu) fpuBegin a b' = (r.out, ⟨r.inexact, r.up, 0⟩)) (dst : Fin 8) :
    (match fpuFast fast cpu a b dst with
      | some cpu => cpu
      | none => fpuGeneral op cpu a b' dst) = fpuGeneral op cpu a b' dst := by
  unfold fpuFast
  by_cases hzero : fpuFastPrecision cpu = 0
  · rw [if_pos hzero]
  have hspec := fastPrecision_spec hzero
  rw [if_neg hzero]
  cases hfast : fast a b (fpuFastPrecision cpu) with
  | none => rfl
  | some r =>
    have hgeneral := hop r hspec.1 hspec.2 hfast
    -- An exact result adds nothing to the status word, an inexact one PE.
    unfold fpuGeneral
    rw [hgeneral]
    unfold fpuEnd
    cases hin : r.inexact <;> simp [Cpu.setSt, hin]

/-- A fast path that succeeds gives what the general operation gives in round to
    nearest, with the same report and no exception. So an instruction leaves the
    same state as its general path, whatever the control word says. -/
theorem fast_paths_agree :
    (∀ (p : Nat) (a b : Float80) (r : FastResult), p = 64 ∨ p = 53 ∨ p = 24 →
      (f80AddFast a b p = some r →
        f80Add ⟨.roundToNearest, p⟩ fpuBegin a b = (r.out, ⟨r.inexact, r.up, 0⟩)) ∧
      (f80MulFast a b p = some r →
        f80Mul ⟨.roundToNearest, p⟩ fpuBegin a b = (r.out, ⟨r.inexact, r.up, 0⟩)) ∧
      (f80DivFast a b p = some r →
        f80Div ⟨.roundToNearest, p⟩ fpuBegin a b = (r.out, ⟨r.inexact, r.up, 0⟩))) ∧
    (∀ (cpu : Cpu) (s d : Fin 8),
      fpuAdd cpu s d = fpuGeneral f80Add cpu (cpu.st d) (cpu.st s) d ∧
      fpuSub cpu s d = fpuGeneral f80Sub cpu (cpu.st d) (cpu.st s) d ∧
      fpuSubr cpu s d = fpuGeneral f80Sub cpu (cpu.st s) (cpu.st d) d ∧
      fpuMul cpu s d = fpuGeneral f80Mul cpu (cpu.st d) (cpu.st s) d ∧
      fpuDiv cpu s d = fpuGeneral f80Div cpu (cpu.st d) (cpu.st s) d ∧
      fpuDivr cpu s d = fpuGeneral f80Div cpu (cpu.st s) (cpu.st d) d) := by
  constructor
  · intro p a b r hp
    have hc : ValidPrecision ⟨.roundToNearest, (p : Int)⟩ := by
      simp only [ValidPrecision]
      omega
    exact ⟨f80AddFast_general hc rfl rfl, f80MulFast_general hc rfl rfl,
      f80DivFast_general hc rfl rfl⟩
  · intro cpu s d
    have hc := validPrecision_sync cpu
    refine ⟨?_, ?_, ?_, ?_, ?_, ?_⟩
    · exact fpuFast_general (fun r hm hp h => f80AddFast_general hc hm hp h) d
    · exact fpuFast_general (fun r hm hp h => f80AddFast_general hc hm hp h) d
    · exact fpuFast_general (fun r hm hp h => f80AddFast_general hc hm hp h) d
    · exact fpuFast_general (fun r hm hp h => f80MulFast_general hc hm hp h) d
    · exact fpuFast_general (fun r hm hp h => f80DivFast_general hc hm hp h) d
    · exact fpuFast_general (fun r hm hp h => f80DivFast_general hc hm hp h) d

/-- One and a half plus one and a half. -/
theorem fast_paths_agree_three :
    f80Add ⟨.roundToNearest, 53⟩ fpuBegin (float80 (3 * 2 ^ 62) 0x3fff false)
        (float80 (3 * 2 ^ 62) 0x3fff false) =
      (float80 (3 * 2 ^ 62) 0x4000 false, ⟨false, false, 0⟩) :=
  (fast_paths_agree.1 53 (float80 (3 * 2 ^ 62) 0x3fff false) (float80 (3 * 2 ^ 62) 0x3fff false)
    ⟨float80 (3 * 2 ^ 62) 0x4000 false, false, false⟩ (.inr (.inl rfl))).1 (by decide)

/-- In another rounding mode a fast path and the general operation differ: the
    fast path always rounds to nearest. -/
theorem fast_path_ignores_mode :
    f80AddFast (float80 (2 ^ 63) 0x3fff false) (float80 (2 ^ 63 + 1) 0x3fc0 false) 64 =
        some ⟨float80 (2 ^ 63 + 1) 0x3fff false, true, false⟩ ∧
      f80Add ⟨.roundUp, 64⟩ fpuBegin (float80 (2 ^ 63) 0x3fff false)
          (float80 (2 ^ 63 + 1) 0x3fc0 false) =
        (float80 (2 ^ 63 + 2) 0x3fff false, ⟨true, true, 0⟩) := by
  decide

end IshAok.F80
