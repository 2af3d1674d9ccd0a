import IshAok.Base.Rounding
import IshAok.Core.Float80
import Mathlib.Algebra.Order.Archimedean.Real.Basic
import Mathlib.Data.EReal.Basic
import Mathlib.Data.Nat.Log
import Mathlib.Tactic.NormNum

/-!
# One Rounding

Every arithmetic result goes through `u128NormalizeRound`, which is given a
128-bit significand that may have a sticky last bit. What is needed for the
number that comes out to be the exact value rounded once is proved here.

The exact value enters as a real number `x` that lies on the same side as the
significand of every multiple of `2 ^ (63 - clz)`, where `clz` is the number of
leading zeros. Moving the significand to the top, or to the exponent of the
denormals, moves that grid to at most `2 ^ 63`, which is half of the lowest bit
that is kept. So the exact value and the significand are rounded alike, and
what is reported about the one is true of the other.

## Main definitions

* `direction`: Which way a magnitude is rounded.
* `format`: The format that precision control selects.
* `mag`: The magnitude of a finite number.

## Theorems

* `u128ShiftRightRound_eq`: Dropping bits is rounding the quotient.
* `u128ShiftRightSticky_sameSide`: A sticky shift stays on the same side.
* `placed_round`: A significand and the exact value are rounded alike.
-/

namespace IshAok.F80

open Base Nat

/-- Which way the magnitude of a number with this sign is rounded. -/
def direction (mode : RoundingMode) (sign : Bool) : Toward :=
  match mode, sign with
  | .roundToNearest, _ => .even
  | .roundChop, _ => .zero
  | .roundUp, false => .away
  | .roundUp, true => .zero
  | .roundDown, false => .zero
  | .roundDown, true => .away

/-- The three precision control settings. -/
def ValidPrecision (c : Control) : Prop :=
  c.precision = 64 ∨ c.precision = 53 ∨ c.precision = 24

/-- The format that precision control selects. -/
def format (c : Control) : Format := ⟨c.precision.toNat, unbias expMin⟩

/-- The magnitude of a finite number. -/
noncomputable def mag (f : Float80) : ℝ := f.signif * 2 ^ (unbiasDenormal f.exp - 63)

/-- The largest finite number at the current precision. -/
noncomputable def maxFinite (c : Control) : ℝ :=
  (2 ^ c.precision.toNat - 1) * 2 ^ (unbias expMax - (c.precision - 1))

@[simp] theorem float80_signif (signif exp : Nat) (sign : Bool) :
    (float80 signif exp sign).signif = signif % 2 ^ 64 := rfl

@[simp] theorem float80_exp (signif exp : Nat) (sign : Bool) :
    (float80 signif exp sign).exp = exp % 2 ^ 15 := rfl

theorem extra_add {c : Control} (hc : ValidPrecision c) :
    f80PrecisionExtra c + c.precision.toNat = 64 ∧ f80PrecisionExtra c ≤ 40 ∧
      (c.precision.toNat : ℤ) = c.precision := by
  unfold f80PrecisionExtra
  rcases hc with h | h | h <;> rw [h] <;> decide

theorem roundAwayFromZero_eq (mode : RoundingMode) (sign : Bool) :
    roundAwayFromZero mode sign = decide (direction mode sign = .away) := by
  cases mode <;> cases sign <;> rfl

theorem direction_even (mode : RoundingMode) (sign : Bool) :
    direction mode sign = .even ↔ mode = .roundToNearest := by
  cases mode <;> cases sign <;> simp [direction]

/-- Dropping bits is rounding the quotient. -/
theorem u128ShiftRightRound_eq (c : Control) (fl : Flags) (i k : Nat) (sign : Bool) (hk : 1 ≤ k)
    (hk' : k ≤ 127) :
    u128ShiftRightRound c fl i k sign =
      (i / 2 ^ k + carry (direction c.mode sign) (i / 2 ^ k) (i % 2 ^ k) (2 ^ k),
        { fl with
          inexact := fl.inexact || decide (i % 2 ^ k ≠ 0)
          roundedUp := fl.roundedUp ||
            decide (carry (direction c.mode sign) (i / 2 ^ k) (i % 2 ^ k) (2 ^ k) = 1) }) := by
  -- The remainder is the guard bit above the rest.
  have hpow : 2 ^ k = 2 * 2 ^ (k - 1) := by
    rw [← Nat.pow_succ']
    congr 1
    omega
  have hpos : 0 < 2 ^ (k - 1) := Nat.two_pow_pos _
  have hrem : i % 2 ^ k = i / 2 ^ (k - 1) % 2 * 2 ^ (k - 1) + i % 2 ^ (k - 1) := by
    rw [hpow, Nat.mul_comm 2, mod_mul, Nat.mul_comm (2 ^ (k - 1)), Nat.add_comm]
  have hrest : i % 2 ^ (k - 1) < 2 ^ (k - 1) := mod_lt _ hpos
  have hguard : i / 2 ^ (k - 1) % 2 = 0 ∨ i / 2 ^ (k - 1) % 2 = 1 := mod_two_eq_zero_or_one _
  unfold u128ShiftRightRound
  rw [if_neg (by omega), if_neg (by omega)]
  simp only [roundAwayFromZero_eq, ← direction_even c.mode sign, decide_eq_true_eq]
  rw [hrem, hpow]
  generalize i / 2 ^ (k - 1) % 2 = guard at *
  generalize i % 2 ^ (k - 1) = rest at *
  generalize i / (2 * 2 ^ (k - 1)) = q at *
  generalize 2 ^ (k - 1) = m at *
  rcases hguard with rfl | rfl
  · -- Below the halfway point.
    by_cases hzero : rest = 0
    · subst hzero
      cases direction c.mode sign <;> simp [carry, hpos]
    · cases direction c.mode sign <;> simp [carry, hzero, hrest]
  · have hnot : ¬ 2 * (m + rest) < 2 * m := by omega
    by_cases hzero : rest = 0
    · subst hzero
      rcases mod_two_eq_zero_or_one q with hq | hq <;>
        cases direction c.mode sign <;> simp [carry, hq, hpos.ne']
    · have hpast : 2 * m < 2 * (m + rest) := by omega
      cases direction c.mode sign <;> simp [carry, hzero, hnot, hpast, hpos.ne']

/-- Setting the lowest bit. -/
theorem lor_one (q : Nat) : q ||| 1 = 2 * (q / 2) + 1 := by
  have hhalf : (q ||| 1) / 2 = q / 2 := by
    rw [or_div_two]
    simp
  have hlow : (q ||| 1) % 2 = 1 := by
    rw [or_mod_two_eq_one]
    exact .inr rfl
  omega

/-- A quotient with a sticky bit for its remainder. -/
theorem sticky_sameSide (q r m : Nat) (hr : r < m) :
    SameSide (2 : ℝ) (((q * m + r : Nat) : ℝ) / m)
      (((if r ≠ 0 then q ||| 1 else q : Nat)) : ℝ) := by
  have hm : (0 : ℝ) < m := by
    have hpos : 0 < m := by omega
    exact_mod_cast hpos
  have hsplit : ((q * m + r : Nat) : ℝ) / m = q + r / m := by
    push_cast
    field_simp
  rw [hsplit]
  by_cases hzero : r = 0
  · rw [if_neg (fun h => h hzero), hzero]
    simp only [cast_zero, zero_div, add_zero]
    exact sameSide_refl 2 (q : ℝ)
  · have hlo : (0 : ℝ) < r / m := by
      have hr0 : (0 : ℝ) < r := by exact_mod_cast Nat.pos_of_ne_zero hzero
      positivity
    have hhi : (r : ℝ) / m < 1 := by
      rw [div_lt_one hm]
      exact_mod_cast hr
    rw [if_pos hzero, lor_one]
    -- Both numbers are strictly between two neighbouring even numbers.
    have hq : (q : ℝ) = 2 * (q / 2 : Nat) + (q % 2 : Nat) := by
      exact_mod_cast (div_add_mod q 2).symm
    have hq0 : (0 : ℝ) ≤ (q % 2 : Nat) := by positivity
    have hq1 : ((q % 2 : Nat) : ℝ) ≤ 1 := by
      have hle : q % 2 ≤ 1 := by omega
      exact_mod_cast hle
    generalize q / 2 = half at hq ⊢
    refine sameSide_of_between two_pos (half : ℤ) ?_ ?_ ?_ ?_
    all_goals
      push_cast
      linarith

theorem u128ShiftRightSticky_sameSide (i : Nat) (hi : i < 2 ^ 128) (shift : Int)
    (hshift : 0 ≤ shift) :
    SameSide (2 : ℝ) (i / 2 ^ shift) (u128ShiftRightSticky i shift) := by
  have hpow : (2 : ℝ) ^ shift = ((2 ^ shift.toNat : Nat) : ℝ) := by
    rw [cast_pow, cast_ofNat, ← zpow_natCast, Int.toNat_of_nonneg hshift]
  unfold u128ShiftRightSticky
  by_cases hzero : shift ≤ 0
  · have heq : shift = 0 := by omega
    subst heq
    rw [if_pos hzero, zpow_zero, div_one]
    exact sameSide_refl 2 (i : ℝ)
  rw [if_neg hzero, hpow]
  by_cases hbig : shift > 127
  · -- Everything is shifted out.
    have hlt : i < 2 ^ shift.toNat :=
      hi.trans_le (Nat.pow_le_pow_right (by decide) (by omega))
    have hs := sticky_sameSide 0 i (2 ^ shift.toNat) hlt
    rw [Nat.zero_mul, Nat.zero_add] at hs
    rw [if_pos hbig]
    exact hs
  · have hs := sticky_sameSide (i / 2 ^ shift.toNat) (i % 2 ^ shift.toNat) (2 ^ shift.toNat)
      (mod_lt _ (Nat.two_pow_pos _))
    rw [div_add_mod'] at hs
    rw [if_neg hbig]
    by_cases hrem : i % 2 ^ shift.toNat = 0
    · rw [if_neg (fun h => h hrem)] at hs ⊢
      rw [or_zero]
      exact hs
    · rw [if_pos hrem] at hs ⊢
      exact hs

/-- A significand that stands in for an exact value is rounded as that value
    is. -/
theorem placed_round (d : Toward) {y : ℝ} {n k : Nat} (hk : 1 ≤ k)
    (h : SameSide ((2 : ℝ) ^ (k - 1)) y n) :
    roundInt d (y / 2 ^ k) = ((n / 2 ^ k + carry d (n / 2 ^ k) (n % 2 ^ k) (2 ^ k) : Nat) : ℤ) ∧
      (n % 2 ^ k ≠ 0 ↔ (roundInt d (y / 2 ^ k) : ℝ) ≠ y / 2 ^ k) ∧
      (carry d (n / 2 ^ k) (n % 2 ^ k) (2 ^ k) = 1 ↔ y / 2 ^ k < roundInt d (y / 2 ^ k)) := by
  have hpos : (0 : ℝ) < 2 ^ k := by positivity
  have hgrid : ((2 : ℝ) ^ k)⁻¹ * 2 ^ (k - 1) = 1 / 2 := by
    have hsplit : (2 : ℝ) ^ k = 2 ^ (k - 1) * 2 := by
      rw [← pow_succ]
      congr 1
      omega
    rw [hsplit]
    field_simp
  have hside : SameSide (1 / 2) (y / 2 ^ k) ((n : ℝ) / 2 ^ k) := by
    have hs := sameSide_scale (inv_pos.mpr hpos) h
    rw [hgrid, inv_mul_eq_div, inv_mul_eq_div] at hs
    exact hs
  have hlt : n % 2 ^ k < 2 ^ k := mod_lt _ (Nat.two_pow_pos k)
  have hround := roundInt_div (K := ℝ) d (n / 2 ^ k) (n % 2 ^ k) (2 ^ k) hlt
  rw [div_add_mod', cast_pow, cast_ofNat] at hround
  have heq := (roundInt_congr d hside).trans hround
  have hint := sameSide_int hside (roundInt d (y / 2 ^ k))
  -- What the remainder and the carry say about the significand itself.
  have hn : (n : ℝ) / 2 ^ k = (n / 2 ^ k : Nat) + (n % 2 ^ k : Nat) / 2 ^ k := by
    have hdm : (n : ℝ) = (n / 2 ^ k : Nat) * 2 ^ k + (n % 2 ^ k : Nat) := by
      exact_mod_cast (div_add_mod' n (2 ^ k)).symm
    field_simp
    linarith
  have hr1 : ((n % 2 ^ k : Nat) : ℝ) / 2 ^ k < 1 := by
    rw [div_lt_one hpos]
    exact_mod_cast hlt
  have hval : (roundInt d (y / 2 ^ k) : ℝ) =
      (n / 2 ^ k : Nat) + (carry d (n / 2 ^ k) (n % 2 ^ k) (2 ^ k) : Nat) := by
    rw [heq, Int.cast_add, Int.cast_natCast, Int.cast_natCast]
  have hne : (roundInt d (y / 2 ^ k) : ℝ) ≠ y / 2 ^ k ↔
      (roundInt d (y / 2 ^ k) : ℝ) ≠ n / 2 ^ k := by
    rw [ne_iff_lt_or_gt, hint.1, hint.2, ← ne_iff_lt_or_gt]
  refine ⟨by rw [heq, cast_add], ?_, ?_⟩
  · rw [hne, hval, hn]
    by_cases hzero : n % 2 ^ k = 0
    · rw [hzero, carry_zero d _ (Nat.two_pow_pos k)]
      simp
    · have hr0 : (0 : ℝ) < (n % 2 ^ k : Nat) := by exact_mod_cast Nat.pos_of_ne_zero hzero
      have hr2 : (0 : ℝ) < (n % 2 ^ k : Nat) / 2 ^ k := by positivity
      refine ⟨fun _ heq' => ?_, fun _ => hzero⟩
      rcases le_one_iff_eq_zero_or_eq_one.mp (carry_le_one d (n / 2 ^ k) (n % 2 ^ k) (2 ^ k))
        with hc | hc
      all_goals
        rw [hc] at heq'
        linarith
  · rw [hint.1, hval, hn]
    rcases le_one_iff_eq_zero_or_eq_one.mp (carry_le_one d (n / 2 ^ k) (n % 2 ^ k) (2 ^ k))
      with hc | hc
    · have hr0 : (0 : ℝ) ≤ (n % 2 ^ k : Nat) / 2 ^ k := by positivity
      rw [hc]
      refine ⟨fun h => absurd h (by decide), fun h => ?_⟩
      linarith
    · rw [hc]
      refine ⟨fun _ => ?_, fun _ => rfl⟩
      linarith

theorem clzl_spec {n : Nat} (hn : n ≠ 0) (hlt : n < 2 ^ 64) :
    2 ^ 63 ≤ n * 2 ^ clzl n ∧ n * 2 ^ clzl n < 2 ^ 64 ∧ clzl n ≤ 63 := by
  have hlog : n.log2 < 64 := (log2_lt hn).mpr hlt
  have hlo : 2 ^ n.log2 ≤ n := log2_self_le hn
  have hhi : n < 2 ^ (n.log2 + 1) := lt_log2_self
  unfold clzl
  refine ⟨?_, ?_, by omega⟩
  · have hpow : 2 ^ 63 = 2 ^ n.log2 * 2 ^ (63 - n.log2) := by
      rw [← Nat.pow_add]
      congr 1
      omega
    rw [hpow]
    exact Nat.mul_le_mul_right _ hlo
  · have hpow : 2 ^ 64 = 2 ^ (n.log2 + 1) * 2 ^ (63 - n.log2) := by
      rw [← Nat.pow_add]
      congr 1
      omega
    rw [hpow]
    exact Nat.mul_lt_mul_of_pos_right hhi (Nat.two_pow_pos _)

theorem u128Clz_spec {n : Nat} (hn : n ≠ 0) (hlt : n < 2 ^ 128) :
    2 ^ 127 ≤ n * 2 ^ u128Clz n ∧ n * 2 ^ u128Clz n < 2 ^ 128 ∧ u128Clz n ≤ 127 := by
  unfold u128Clz
  by_cases hhigh : n / 2 ^ 64 = 0
  · have hsmall : n < 2 ^ 64 := by omega
    have hspec := clzl_spec hn hsmall
    rw [if_neg (fun h => h hhigh), if_pos hn, Nat.pow_add, Nat.mul_left_comm]
    omega
  · have hspec := clzl_spec hhigh (by omega)
    have hle : n / 2 ^ 64 * 2 ^ 64 ≤ n := div_mul_le_self n (2 ^ 64)
    have hge : n < (n / 2 ^ 64 + 1) * 2 ^ 64 := by omega
    rw [if_pos hhigh]
    generalize n / 2 ^ 64 = high at *
    generalize clzl high = z at *
    -- The low word cannot carry past the power of two that bounds the high word.
    have hdiv : 2 ^ 64 = 2 ^ z * 2 ^ (64 - z) := by
      rw [← Nat.pow_add]
      congr 1
      omega
    have hnext : (high + 1) * 2 ^ z ≤ 2 ^ 64 := by
      have hstep : high < 2 ^ (64 - z) := by
        have hlt' := hspec.2.1
        rw [Nat.mul_comm, hdiv] at hlt'
        exact Nat.lt_of_mul_lt_mul_left hlt'
      rw [hdiv, Nat.mul_comm]
      exact Nat.mul_le_mul_left _ hstep
    refine ⟨?_, ?_, by omega⟩
    · calc 2 ^ 127 = 2 ^ 63 * 2 ^ 64 := by norm_num
        _ ≤ high * 2 ^ z * 2 ^ 64 := Nat.mul_le_mul_right _ hspec.1
        _ = high * 2 ^ 64 * 2 ^ z := by rw [Nat.mul_right_comm]
        _ ≤ n * 2 ^ z := Nat.mul_le_mul_right _ hle
    · calc n * 2 ^ z < (high + 1) * 2 ^ 64 * 2 ^ z :=
            Nat.mul_lt_mul_of_pos_right hge (Nat.two_pow_pos z)
        _ = (high + 1) * 2 ^ z * 2 ^ 64 := by rw [Nat.mul_right_comm]
        _ ≤ 2 ^ 64 * 2 ^ 64 := Nat.mul_le_mul_right _ hnext
        _ = 2 ^ 128 := by norm_num

end IshAok.F80
