import IshAok.Theory.Float80.Normalize
import Mathlib.Analysis.Real.Sqrt

/-!
# The Arithmetic Operations

Each operation finds a 128-bit significand that stands in for its exact result
and leaves the rounding to `u128NormalizeRound`. What is left to show is that the
significand lies on the same side as the exact result of every multiple of a grid
that is fine enough.

For the product there is nothing to lose. In a sum the smaller operand loses
bits only when the exponents are more than 64 apart, and then the larger operand
is normal and the sum has at most one leading zero. A quotient keeps at least 127
bits above a sticky one. A root keeps 64 bits, the half bit and whether anything
is left.

## Main definitions

* `toReal`, `value`: What a number denotes.
* `roundF80`: What a real number is rounded to.
* `CorrectlyRounded`: A result is the rounded exact value, and the flags say so.
* `FiniteNumber`: A supported number that is neither infinite nor a NaN.

## Theorems

* `f80Add_correct`, `f80Sub_correct`, `f80Mul_correct`, `f80Div_correct`,
  `f80Sqrt_correct`: Each operation rounds once.
* `arithmetic_rounds_once`: All of them.
-/

namespace IshAok.F80

open Base

/-- A magnitude with a sign. -/
def signed (sign : Bool) (m : ℝ) : ℝ := if sign then -m else m

/-- What a finite number denotes. -/
noncomputable def toReal (f : Float80) : ℝ := signed f.sign (mag f)

/-- What a number that is not a NaN denotes. -/
noncomputable def value (f : Float80) : EReal := if f.sign then -magnitude f else magnitude f

/-- What a real number is rounded to. -/
noncomputable def roundF80 (c : Control) (x : ℝ) : EReal :=
  if x = 0 then 0 else if x < 0 then -roundedTo c true (-x) else roundedTo c false x

/-- A result is the exact value rounded once, and the flags say how it differs
    from it. -/
structure CorrectlyRounded (c : Control) (x : ℝ) (res : Float80 × Flags) : Prop where
  supported : f80IsSupported res.1 = true
  notNan : f80IsNan res.1 = false
  rounded : value res.1 = roundF80 c x
  signed : x ≠ 0 → res.1.sign = decide (x < 0)
  inexact : res.2.inexact = true ↔ value res.1 ≠ x
  roundedUp : res.2.roundedUp = true ↔ ((|x| : ℝ) : EReal) < magnitude res.1

/-- A supported number that is neither infinite nor a NaN. -/
structure FiniteNumber (f : Float80) : Prop where
  supported : f80IsSupported f = true
  exp_le : f.exp ≤ expMax

theorem signed_mul (s t : Bool) (x y : ℝ) : signed s x * signed t y = signed (s ^^ t) (x * y) := by
  cases s <;> cases t <;> simp [signed]

theorem signed_add (s : Bool) (x y : ℝ) : signed s x + signed s y = signed s (x + y) := by
  cases s
  · rfl
  simp only [signed, if_true]
  ring

theorem signed_sub (s : Bool) (x y : ℝ) : signed s x + signed (!s) y = signed s (x - y) := by
  cases s
  · simp only [signed, Bool.not_false, if_true, Bool.false_eq_true, if_false]
    ring
  simp only [signed, Bool.not_true, if_true, Bool.false_eq_true, if_false]
  ring

theorem signed_neg (s : Bool) (x : ℝ) : signed (!s) x = signed s (-x) := by
  cases s <;> simp [signed]

theorem signed_div (s t : Bool) (x y : ℝ) : signed s x / signed t y = signed (s ^^ t) (x / y) := by
  cases s <;> cases t <;> simp [signed, neg_div, div_neg]

theorem signed_eq_zero {s : Bool} {x : ℝ} : signed s x = 0 ↔ x = 0 := by
  cases s <;> simp [signed]

variable {c : Control} {fl : Flags} {f a b : Float80} {n : Nat}

theorem correct_of_rounded {sign : Bool} {m : ℝ} {res : Float80 × Flags} (hm : 0 < m)
    (h : Rounded c sign m res) : CorrectlyRounded c (signed sign m) res := by
  have habs : |signed sign m| = m := by
    cases sign <;> simp [signed, abs_of_pos hm]
  have hne : signed sign m ≠ 0 := signed_eq_zero.not.mpr hm.ne'
  refine ⟨h.supported, h.notNan, ?_, ?_, ?_, ?_⟩
  · rw [value, h.signed, h.value, roundF80, if_neg hne]
    cases sign
    · have hpos : ¬ signed false m < 0 := not_lt.mpr hm.le
      rw [if_neg Bool.false_ne_true, if_neg hpos]
      rfl
    · have hneg : signed true m < 0 := neg_neg_of_pos hm
      rw [if_pos rfl, if_pos hneg]
      simp [signed]
  · intro _
    rw [h.signed]
    cases sign <;> simp [signed, hm, hm.le]
  · rw [h.inexact, value, h.signed]
    cases sign
    · rfl
    · simp [signed, Ne, neg_inj]
  · rw [h.roundedUp, habs]

/-- A zero, when the exact result is zero. -/
theorem correct_zero (hin : fl.inexact = false) (hup : fl.roundedUp = false) (hexp : f.exp = 0)
    (hsignif : f.signif = 0) : CorrectlyRounded c 0 (f, fl) := by
  have hmag : magnitude f = 0 := by
    have hinf : f80IsInf f = false := by
      rw [f80IsInf, hexp]
      rfl
    rw [magnitude, hinf, mag, hsignif]
    simp
  have hval : value f = 0 := by
    rw [value, hmag]
    simp
  refine ⟨?_, ?_, ?_, fun h => absurd rfl h, ?_, ?_⟩
  · rw [f80IsSupported, hexp, hsignif]
    rfl
  · rw [f80IsNan, hexp]
    rfl
  · rw [hval, roundF80, if_pos rfl]
  · rw [hin, hval]
    simp
  · rw [hup, hmag]
    simp

theorem handleNans_finite (fl : Flags) (ha : FiniteNumber a) (hb : FiniteNumber b) :
    handleNans fl a b = none := by
  have hna := (not_special ha.exp_le).1
  have hnb := (not_special hb.exp_le).1
  simp [handleNans, ha.supported, hb.supported, f80IsSnan, hna, hnb]

theorem mag_nonneg (f : Float80) : 0 ≤ mag f := by
  unfold mag
  positivity

theorem zero_of_f80IsZero (h : f80IsZero f = true) : f.exp = 0 ∧ f.signif = 0 := by
  simp only [f80IsZero, Bool.and_eq_true, beq_iff_eq] at h
  exact h

theorem toReal_eq_zero : toReal f = 0 ↔ f.signif = 0 := by
  have hpow : (2 : ℝ) ^ (unbiasDenormal f.exp - 63) ≠ 0 := zpow_ne_zero _ two_ne_zero
  rw [toReal, signed_eq_zero, mag, mul_eq_zero, or_iff_left hpow, Nat.cast_eq_zero]

/-- A significand that is zero makes a supported number a zero. -/
theorem f80IsZero_iff (h : f80IsSupported f = true) : f80IsZero f = true ↔ f.signif = 0 := by
  refine ⟨fun hz => (zero_of_f80IsZero hz).2, fun hz => ?_⟩
  unfold f80IsSupported at h
  by_cases hexp : f.exp = expDenormal
  · simp [f80IsZero, hexp, hz]
  rw [if_neg hexp, hz] at h
  cases h

variable (hc : ValidPrecision c) (hin : fl.inexact = false) (hup : fl.roundedUp = false)

include hc hin hup in
theorem f80Mul_correct (ha : FiniteNumber a) (hb : FiniteNumber b) :
    CorrectlyRounded c (toReal a * toReal b) (f80Mul c fl a b) := by
  unfold f80Mul
  rw [handleNans_finite fl ha hb]
  simp only [(not_special ha.exp_le).2, (not_special hb.exp_le).2, Bool.or_self,
    Bool.false_eq_true, if_false]
  rw [toReal, toReal, signed_mul]
  by_cases hzero : a.signif * b.signif = 0
  · have hmag : mag a * mag b = 0 := by
      rcases Nat.mul_eq_zero.mp hzero with h | h <;> simp [mag, h]
    rw [hzero, hmag, u128NormalizeRound, if_pos rfl]
    rw [signed_eq_zero.mpr rfl]
    exact correct_zero hin hup rfl rfl
  · have hlt : a.signif * b.signif < 2 ^ 128 := by
      have hle := Nat.mul_le_mul (Nat.le_sub_one_of_lt a.signif_lt)
        (Nat.le_sub_one_of_lt b.signif_lt)
      omega
    have hexact : mag a * mag b / 2 ^ (unbiasDenormal a.exp + unbiasDenormal b.exp + 1 - 127) =
        (a.signif * b.signif : Nat) := by
      rw [div_eq_iff (zpow_ne_zero _ two_ne_zero), mag, mag, mul_mul_mul_comm, two_zpow_add]
      push_cast
      congr 2
      ring
    have hpos : 0 < mag a * mag b := by
      have hp : (0 : ℝ) < (a.signif * b.signif : Nat) := by
        exact_mod_cast Nat.pos_of_ne_zero hzero
      rw [← hexact] at hp
      exact (div_pos_iff_of_pos_right (zpow_pos two_pos _)).mp hp
    refine correct_of_rounded hpos (u128NormalizeRound_rounded hc hin hup _ hzero hlt ?_)
    rw [hexact]
    exact sameSide_refl _ _

theorem clz_le {k : Nat} (hlt : n < 2 ^ 128) (hk : k ≤ 127) (hge : 2 ^ (127 - k) ≤ n) :
    u128Clz n ≤ k := by
  have hn : n ≠ 0 := (Nat.two_pow_pos _).trans_le hge |>.ne'
  have hspec := u128Clz_spec hn hlt
  by_contra hgt
  -- One more zero would make the significand too small.
  have hpow : 2 ^ 128 ≤ n * 2 ^ u128Clz n := by
    calc 2 ^ 128 = 2 ^ (127 - k) * 2 ^ (k + 1) := by
          rw [← Nat.pow_add]
          congr 1
          omega
      _ ≤ n * 2 ^ u128Clz n :=
          Nat.mul_le_mul hge (Nat.pow_le_pow_right (by decide) (by omega))
  omega

/-- A significand with a sticky last bit and few leading zeros is good enough. -/
theorem sticky_fine {y : ℝ} {k : Nat} (hlt : n < 2 ^ 128) (hk : k ≤ 62) (hge : 2 ^ (127 - k) ≤ n)
    (h : SameSide (2 : ℝ) y n) : SameSide ((2 : ℝ) ^ (63 - (u128Clz n : ℤ))) y n := by
  have hclz := clz_le hlt (by omega) hge
  rw [← zpow_one (2 : ℝ)] at h
  exact sameSide_coarser h (by omega)

/-- Glueing a low word to a high one. -/
theorem lor_word (q r : Nat) (hr : r < 2 ^ 64) : q * 2 ^ 64 ||| r = q * 2 ^ 64 + r := by
  rw [Nat.mul_comm, Nat.two_pow_add_eq_or_of_lt hr]

theorem divSignif_spec {m : Nat} (hm : 2 ^ 63 ≤ m) (hm' : m < 2 ^ 64) (hn : 2 ^ 63 ≤ n)
    (hn' : n < 2 ^ 64) :
    2 ^ 126 ≤ divSignif m n ∧ divSignif m n < 2 ^ 128 ∧
      SameSide (2 : ℝ) (m * 2 ^ 127 / n) (divSignif m n) := by
  have hpos : 0 < n := by omega
  have hposR : (0 : ℝ) < n := by exact_mod_cast hpos
  have hr1 : m * 2 ^ 63 % n < n := Nat.mod_lt _ hpos
  have hr2 : m * 2 ^ 63 % n * 2 ^ 64 % n < n := Nat.mod_lt _ hpos
  have hq2 : m * 2 ^ 63 % n * 2 ^ 64 / n < 2 ^ 64 := by
    rw [Nat.div_lt_iff_lt_mul hpos, Nat.mul_comm]
    exact Nat.mul_lt_mul_of_pos_left hr1 (Nat.two_pow_pos 64)
  have hone : m * 2 ^ 63 / n * n + m * 2 ^ 63 % n = m * 2 ^ 63 := Nat.div_add_mod' _ n
  have htwo : m * 2 ^ 63 % n * 2 ^ 64 / n * n + m * 2 ^ 63 % n * 2 ^ 64 % n =
      m * 2 ^ 63 % n * 2 ^ 64 := Nat.div_add_mod' _ n
  have hside : SameSide (2 : ℝ) (m * 2 ^ 127 / n) (divSignif m n) := by
    unfold divSignif
    rw [lor_word _ _ hq2]
    -- The two divisions are one division with the remainder of the second.
    have hs := sticky_sameSide (m * 2 ^ 63 / n * 2 ^ 64 + m * 2 ^ 63 % n * 2 ^ 64 / n)
      (m * 2 ^ 63 % n * 2 ^ 64 % n) n hr2
    have hall : (m * 2 ^ 63 / n * 2 ^ 64 + m * 2 ^ 63 % n * 2 ^ 64 / n) * n +
        m * 2 ^ 63 % n * 2 ^ 64 % n = m * 2 ^ 127 := by
      rw [Nat.add_mul, Nat.add_assoc, htwo, Nat.mul_right_comm, ← Nat.add_mul, hone,
        Nat.mul_assoc, ← Nat.pow_add]
    rw [hall, Nat.cast_mul, Nat.cast_pow, Nat.cast_ofNat] at hs
    exact hs
  have hgrid : SameSide ((2 : ℝ) ^ 1) (m * 2 ^ 127 / n) (divSignif m n) := by
    rw [pow_one]
    exact hside
  have hlow := (sameSide_pow hgrid 125).not
  have hhigh := sameSide_pow hgrid 127
  rw [div_lt_iff₀ hposR] at hlow hhigh
  refine ⟨?_, ?_, hside⟩
  · refine not_lt.mp (hlow.mp (not_lt.mpr ?_))
    have hle : 2 ^ (1 + 125) * n ≤ m * 2 ^ 127 := by omega
    exact_mod_cast hle
  · refine hhigh.mp ?_
    have hlt : m * 2 ^ 127 < 2 ^ (1 + 127) * n := by omega
    exact_mod_cast hlt

/-- A significand moved up to its top bit, with its exponent lowered. -/
theorem mag_normalized (f : Float80) : mag f = (f.signif * 2 ^ clzl f.signif : Nat) *
      2 ^ (unbiasDenormal f.exp - clzl f.signif - 63) := by
  rw [mag, Nat.cast_mul, Nat.cast_pow, Nat.cast_ofNat, mul_assoc, ← zpow_natCast, two_zpow_add]
  congr 2
  ring

include hc hin hup in
theorem f80Div_correct (ha : FiniteNumber a) (hb : FiniteNumber b) (hne : toReal b ≠ 0) :
    CorrectlyRounded c (toReal a / toReal b) (f80Div c fl a b) := by
  have hnb : b.signif ≠ 0 := fun h => hne (toReal_eq_zero.mpr h)
  have hzb : f80IsZero b = false := by
    rw [Bool.eq_false_iff]
    exact fun h => hnb ((f80IsZero_iff hb.supported).mp h)
  unfold f80Div
  rw [handleNans_finite fl ha hb]
  simp only [(not_special ha.exp_le).2, (not_special hb.exp_le).2, hzb, Bool.false_eq_true,
    if_false]
  rw [toReal, toReal, signed_div]
  by_cases hza : f80IsZero a = true
  · have hmag : mag a = 0 := by
      rw [mag, (zero_of_f80IsZero hza).2, Nat.cast_zero, zero_mul]
    rw [if_pos hza, hmag, zero_div, signed_eq_zero.mpr rfl]
    exact correct_zero hin hup rfl rfl
  · have hna : a.signif ≠ 0 := fun h => hza ((f80IsZero_iff ha.supported).mpr h)
    have hca := clzl_spec hna a.signif_lt
    have hcb := clzl_spec hnb b.signif_lt
    have hspec := divSignif_spec hca.1 hca.2.1 hcb.1 hcb.2.1
    rw [if_neg hza, mag_normalized a, mag_normalized b]
    generalize unbiasDenormal a.exp - clzl a.signif = ea at *
    generalize unbiasDenormal b.exp - clzl b.signif = eb at *
    generalize a.signif * 2 ^ clzl a.signif = m at *
    generalize b.signif * 2 ^ clzl b.signif = n at *
    have hm : (0 : ℝ) < m := by exact_mod_cast (by omega : 0 < m)
    have hn : (0 : ℝ) < n := by exact_mod_cast (by omega : 0 < n)
    have hexact : (m : ℝ) * 2 ^ (ea - 63) / (n * 2 ^ (eb - 63)) / 2 ^ (ea - eb - 127) =
        m * 2 ^ 127 / n := by
      have hpow : (2 : ℝ) ^ (ea - 63) = 2 ^ 127 * 2 ^ (eb - 63) * 2 ^ (ea - eb - 127) := by
        rw [← zpow_natCast, two_zpow_add, two_zpow_add]
        congr 1
        ring
      rw [hpow]
      have h1 : (2 : ℝ) ^ (eb - 63) ≠ 0 := zpow_ne_zero _ two_ne_zero
      have h2 : (2 : ℝ) ^ (ea - eb - 127) ≠ 0 := zpow_ne_zero _ two_ne_zero
      field_simp
    refine correct_of_rounded (by positivity) ?_
    refine u128NormalizeRound_rounded hc hin hup _ (by omega) hspec.2.1 ?_
    rw [hexact]
    exact sticky_fine (k := 1) hspec.2.1 (by decide) hspec.1 hspec.2.2

theorem isqrtLower_spec (n r : Nat) :
    isqrtLower n r ≤ r ∧ isqrtLower n r * isqrtLower n r ≤ n := by
  induction r with
  | zero => exact ⟨le_rfl, Nat.zero_le n⟩
  | succ r ih =>
    rw [isqrtLower]
    by_cases h : (r + 1) * (r + 1) > n
    · rw [if_pos h]
      exact ⟨ih.1.trans (Nat.le_succ r), ih.2⟩
    rw [if_neg h]
    exact ⟨le_rfl, not_lt.mp h⟩

/-- With a turn for every number up to the largest one, the loop ends because
    its condition fails. -/
theorem isqrtRaise_spec (n fuel r : Nat) (hr : r * r ≤ n) (hfuel : 2 ^ 64 - 1 ≤ r + fuel)
    (hlt : n < 2 ^ 128) :
    isqrtRaise n fuel r * isqrtRaise n fuel r ≤ n ∧
      n < (isqrtRaise n fuel r + 1) * (isqrtRaise n fuel r + 1) := by
  induction fuel generalizing r with
  | zero =>
    -- The largest number was reached, and its successor is too large.
    have hge : 2 ^ 64 ≤ r + 1 := by omega
    refine ⟨hr, hlt.trans_le ?_⟩
    calc 2 ^ 128 = 2 ^ 64 * 2 ^ 64 := by norm_num
      _ ≤ (r + 1) * (r + 1) := Nat.mul_le_mul hge hge
  | succ fuel ih =>
    rw [isqrtRaise]
    by_cases h : r ≠ 2 ^ 64 - 1 ∧ (r + 1) * (r + 1) ≤ n
    · rw [if_pos h]
      exact ih (r + 1) h.2 (by omega)
    rw [if_neg h]
    refine ⟨hr, ?_⟩
    by_contra hle
    have htop : r = 2 ^ 64 - 1 := by
      by_contra hne
      exact h ⟨hne, not_lt.mp hle⟩
    rw [htop] at hle
    omega

theorem u128Isqrt_eq (estimate : Nat) (hn : n ≠ 0) (hlt : n < 2 ^ 128) :
    u128Isqrt estimate n = (Nat.sqrt n, n - Nat.sqrt n * Nat.sqrt n) := by
  have hlower := isqrtLower_spec n (estimate % 2 ^ 64)
  have hspec := isqrtRaise_spec n (2 ^ 64) _ hlower.2 (by omega) hlt
  have hroot : isqrtRaise n (2 ^ 64) (isqrtLower n (estimate % 2 ^ 64)) = Nat.sqrt n :=
    Nat.eq_sqrt.mpr hspec
  rw [u128Isqrt, if_neg hn, hroot]

/-- The half bit and the sticky bit of a root. -/
theorem sqrtSignif_spec (hn : 2 ^ 126 ≤ n) (hlt : n < 2 ^ 128) :
    2 ^ 127 ≤ sqrtSignif (Nat.sqrt n) (n - Nat.sqrt n * Nat.sqrt n) ∧
      sqrtSignif (Nat.sqrt n) (n - Nat.sqrt n * Nat.sqrt n) < 2 ^ 128 ∧
      SameSide ((2 : ℝ) ^ (63 : ℕ)) (Real.sqrt n * 2 ^ 64)
        (sqrtSignif (Nat.sqrt n) (n - Nat.sqrt n * Nat.sqrt n)) := by
  have hlo : Nat.sqrt n * Nat.sqrt n ≤ n := Nat.sqrt_le n
  have hhi : n < (Nat.sqrt n + 1) * (Nat.sqrt n + 1) := Nat.lt_succ_sqrt n
  have hge : 2 ^ 63 ≤ Nat.sqrt n := by
    rw [Nat.le_sqrt]
    exact hn
  have hle : Nat.sqrt n < 2 ^ 64 := by
    rw [Nat.sqrt_lt]
    exact hlt
  generalize Nat.sqrt n = r at *
  obtain ⟨rem, hrem⟩ : ∃ rem, n = r * r + rem := ⟨n - r * r, by omega⟩
  have hsub : n - r * r = rem := by omega
  have hsquare : (n : ℝ) = r * r + rem := by exact_mod_cast hrem
  rw [hsub]
  unfold sqrtSignif
  by_cases hzero : rem = 0
  · have hroot : Real.sqrt n = r := by
      rw [hsquare, hzero, Nat.cast_zero, add_zero, Real.sqrt_mul_self (Nat.cast_nonneg r)]
    rw [if_pos hzero, hroot]
    refine ⟨by omega, by omega, ?_⟩
    rw [Nat.cast_mul, Nat.cast_pow, Nat.cast_ofNat]
    exact sameSide_refl _ ((r : ℝ) * 2 ^ 64)
  rw [if_neg hzero]
  have hr0 : (0 : ℝ) ≤ r := Nat.cast_nonneg r
  by_cases hhalf : rem > r
  · -- Past the half: between it and the next root.
    have hreal : (r : ℝ) + 1 ≤ rem := by exact_mod_cast hhalf
    have hup : (n : ℝ) < (r + 1) ^ 2 := by
      have hcast : (n : ℝ) < (r + 1) * (r + 1) := by exact_mod_cast hhi
      rw [sq]
      exact hcast
    have hl : (r : ℝ) + 1 / 2 < Real.sqrt n := by
      rw [Real.lt_sqrt (by positivity), hsquare]
      nlinarith
    have hu : Real.sqrt n < r + 1 := (Real.sqrt_lt' (by positivity)).mpr hup
    rw [if_pos hhalf, lor_word _ _ (by norm_num)]
    refine ⟨by omega, by omega, ?_⟩
    refine sameSide_of_between (by positivity) (2 * (r : ℤ) + 1) ?_ ?_ ?_ ?_
    all_goals
      push_cast
      linarith
  · -- Something, but less than half.
    have hreal : (rem : ℝ) ≤ r := by exact_mod_cast not_lt.mp hhalf
    have hpos : (0 : ℝ) < rem := by exact_mod_cast Nat.pos_of_ne_zero hzero
    have hl : (r : ℝ) < Real.sqrt n := by
      rw [Real.lt_sqrt hr0, hsquare]
      nlinarith
    have hu : Real.sqrt n < r + 1 / 2 := by
      rw [Real.sqrt_lt' (by positivity), hsquare]
      nlinarith
    rw [if_neg hhalf, lor_word _ _ (by norm_num)]
    refine ⟨by omega, by omega, ?_⟩
    refine sameSide_of_between (by positivity) (2 * (r : ℤ)) ?_ ?_ ?_ ?_
    all_goals
      push_cast
      linarith

include hc hin hup in
/-- The root of a number that is normalized with an even exponent outside. -/
theorem sqrt_rounded (hn : 2 ^ 126 ≤ n) (hlt : n < 2 ^ 128) (e : ℤ) :
    CorrectlyRounded c (Real.sqrt (n * 2 ^ (2 * e)))
      (u128NormalizeRound c fl (sqrtSignif (Nat.sqrt n) (n - Nat.sqrt n * Nat.sqrt n))
        (e + 63) false) := by
  have hspec := sqrtSignif_spec hn hlt
  have hroot : Real.sqrt (n * 2 ^ (2 * e)) = Real.sqrt n * 2 ^ e := by
    have hsq : (2 : ℝ) ^ (2 * e) = (2 ^ e) ^ 2 := by
      rw [← zpow_natCast, ← zpow_mul, mul_comm e]
      rfl
    rw [hsq, Real.sqrt_mul' _ (sq_nonneg _), Real.sqrt_sq (zpow_pos two_pos e).le]
  have hpos : 0 < Real.sqrt n * 2 ^ e := by
    have hcast : (0 : ℝ) < n := by exact_mod_cast (by omega : 0 < n)
    positivity
  have hexact : Real.sqrt n * 2 ^ e / 2 ^ (e + 63 - 127) = Real.sqrt n * 2 ^ 64 := by
    rw [div_eq_iff (zpow_ne_zero _ two_ne_zero), mul_assoc, ← zpow_natCast, two_zpow_add]
    congr 2
    ring
  rw [hroot]
  change CorrectlyRounded c (signed false (Real.sqrt n * 2 ^ e)) _
  refine correct_of_rounded hpos ?_
  refine u128NormalizeRound_rounded hc hin hup _ (by omega) hspec.2.1 ?_
  have hclz := clz_le (k := 0) hspec.2.1 (by decide) hspec.1
  rw [hexact, Nat.le_zero.mp hclz]
  exact hspec.2.2

include hc hin hup in
theorem sqrtNormalized_correct (estimate : Nat → Nat) (e : ℤ) {m : Nat} (hm : 2 ^ 63 ≤ m)
    (hm' : m < 2 ^ 64) :
    CorrectlyRounded c (Real.sqrt (m * 2 ^ e)) (sqrtNormalized estimate c fl e m) := by
  have hscale : ∀ k : Nat, (m : ℝ) * 2 ^ e = (m * 2 ^ k : Nat) * 2 ^ (e - k) := by
    intro k
    rw [Nat.cast_mul, Nat.cast_pow, Nat.cast_ofNat, mul_assoc, ← zpow_natCast, two_zpow_add,
      add_sub_cancel]
  unfold sqrtNormalized
  by_cases hodd : e % 2 = 1
  · have heven : e - (63 : ℕ) = 2 * ((e - 63) / 2) := by
      omega
    rw [if_pos hodd, u128Isqrt_eq _ (by omega) (by omega), hscale 63, heven]
    exact sqrt_rounded hc hin hup (by omega) (by omega) _
  · have heven : e - (64 : ℕ) = 2 * ((e - 64) / 2) := by
      omega
    rw [if_neg hodd, u128Isqrt_eq _ (by omega) (by omega), hscale 64, heven]
    exact sqrt_rounded hc hin hup (by omega) (by omega) _

include hc hin hup in
theorem f80Sqrt_correct (estimate : Nat → Nat) (ha : FiniteNumber a)
    (hpos : 0 ≤ toReal a) :
    CorrectlyRounded c (Real.sqrt (toReal a)) (f80Sqrt estimate c fl a) := by
  have hspecial := not_special ha.exp_le
  unfold f80Sqrt
  rw [ha.supported, Bool.not_true, if_neg Bool.false_ne_true]
  by_cases hzero : f80IsZero a = true
  · have hreal : toReal a = 0 := toReal_eq_zero.mpr (zero_of_f80IsZero hzero).2
    rw [if_pos hzero, hreal, Real.sqrt_zero]
    exact correct_zero hin hup (zero_of_f80IsZero hzero).1 (zero_of_f80IsZero hzero).2
  have hna : a.signif ≠ 0 := fun h => hzero ((f80IsZero_iff ha.supported).mpr h)
  have hsign : a.sign = false := by
    by_contra hne
    have hmag : mag a ≤ 0 := by
      rw [toReal, Bool.eq_true_of_not_eq_false hne] at hpos
      exact neg_nonneg.mp hpos
    exact hna (toReal_eq_zero.mp (signed_eq_zero.mpr (le_antisymm hmag (mag_nonneg a))))
  have hspec := clzl_spec hna a.signif_lt
  have hreal : toReal a = mag a := by
    rw [toReal, hsign]
    rfl
  have hcomm : unbiasDenormal a.exp - clzl a.signif - 63 =
      unbiasDenormal a.exp - 63 - clzl a.signif := by ring
  rw [if_neg hzero, hspecial.1, if_neg Bool.false_ne_true, hsign, if_neg Bool.false_ne_true,
    hspecial.2, if_neg Bool.false_ne_true, hreal, mag_normalized a, hcomm]
  -- Whether a denormal operand is reported or not, the other flags are clear.
  refine sqrtNormalized_correct hc ?_ ?_ estimate _ hspec.1 hspec.2.1
  · cases f80IsDenormal a <;> exact hin
  · cases f80IsDenormal a <;> exact hup

theorem sticky_ne_zero {i : Nat} (hi : i ≠ 0) (shift : Int) : u128ShiftRightSticky i shift ≠ 0 := by
  unfold u128ShiftRightSticky
  by_cases hzero : shift ≤ 0
  · rw [if_pos hzero]
    exact hi
  rw [if_neg hzero]
  by_cases hbig : shift > 127
  · rw [if_pos hbig, if_pos hi]
    exact one_ne_zero
  rw [if_neg hbig]
  by_cases hrem : i % 2 ^ shift.toNat = 0
  · -- Nothing is lost, and the quotient is not zero.
    rw [if_neg (fun h => h hrem), Nat.or_zero]
    intro hquot
    have hdm := Nat.div_add_mod i (2 ^ shift.toNat)
    rw [hquot, hrem] at hdm
    exact hi hdm.symm
  · rw [if_pos hrem, lor_one]
    omega

/-- A shift by at most 64 bits loses nothing of a significand in the high
    word. -/
theorem sticky_exact (signif : Nat) {gap : ℤ} (hlo : 0 ≤ gap) (hhi : gap ≤ 64) :
    (u128ShiftRightSticky (signif * 2 ^ 64) gap : ℝ) = (signif * 2 ^ 64 : Nat) / 2 ^ gap := by
  unfold u128ShiftRightSticky
  by_cases hzero : gap ≤ 0
  · have heq : gap = 0 := by omega
    rw [if_pos hzero, heq, zpow_zero, div_one]
  have hsplit : signif * 2 ^ 64 = signif * 2 ^ (64 - gap.toNat) * 2 ^ gap.toNat := by
    rw [Nat.mul_assoc, ← Nat.pow_add]
    congr 2
    omega
  have hpow : (2 : ℝ) ^ gap = ((2 ^ gap.toNat : Nat) : ℝ) := by
    rw [Nat.cast_pow, Nat.cast_ofNat, ← zpow_natCast, Int.toNat_of_nonneg hlo]
  have hne : ((2 ^ gap.toNat : Nat) : ℝ) ≠ 0 := by
    exact_mod_cast (Nat.two_pow_pos _).ne'
  rw [if_neg hzero, if_neg (by omega), hpow, hsplit, Nat.mul_mod_left, if_neg (fun h => h rfl),
    Nat.or_zero, Nat.mul_div_cancel _ (Nat.two_pow_pos _), Nat.cast_mul _ (2 ^ gap.toNat),
    mul_div_assoc, div_self hne, mul_one]

/-- The smaller operand of a sum at the exponent of the larger. It loses bits
    only when the larger one is normal and much larger. -/
theorem align_spec (ha : FiniteNumber a) (hle : b.exp ≤ a.exp) {s : Nat}
    (hs : u128ShiftRightSticky (b.signif * 2 ^ 64)
      (unbiasDenormal a.exp - unbiasDenormal b.exp) = s) :
    s < 2 ^ 128 ∧ SameSide (2 : ℝ) (mag b / 2 ^ (unbiasDenormal a.exp - 127)) s ∧
      ((s : ℝ) = mag b / 2 ^ (unbiasDenormal a.exp - 127) ∨
        2 ^ 127 ≤ a.signif * 2 ^ 64 ∧ s < 2 ^ 63) := by
  have hlt : b.signif * 2 ^ 64 < 2 ^ 128 := by
    have hb := b.signif_lt
    omega
  have hgap : 0 ≤ unbiasDenormal a.exp - unbiasDenormal b.exp := by
    unfold unbiasDenormal unbias bias80 expMin expDenormal
    split_ifs <;> omega
  have hmag : mag b / 2 ^ (unbiasDenormal a.exp - 127) =
      (b.signif * 2 ^ 64 : Nat) / 2 ^ (unbiasDenormal a.exp - unbiasDenormal b.exp) := by
    rw [mag, div_eq_div_iff (zpow_ne_zero _ two_ne_zero) (zpow_ne_zero _ two_ne_zero),
      Nat.cast_mul, Nat.cast_pow, Nat.cast_ofNat, ← zpow_natCast, mul_assoc, mul_assoc,
      two_zpow_add, two_zpow_add]
    congr 2
    ring
  have hside := u128ShiftRightSticky_sameSide _ hlt _ hgap
  rw [hs, ← hmag] at hside
  have hgrid : SameSide ((2 : ℝ) ^ 1) (mag b / 2 ^ (unbiasDenormal a.exp - 127)) s := by
    rw [pow_one]
    exact hside
  have hpos : (0 : ℝ) < 2 ^ (unbiasDenormal a.exp - unbiasDenormal b.exp) := zpow_pos two_pos _
  have hltR : ((b.signif * 2 ^ 64 : Nat) : ℝ) < 2 ^ (128 : ℤ) := by exact_mod_cast hlt
  refine ⟨(sameSide_pow hgrid 127).mp ?_, hside, ?_⟩
  · have hone : (1 : ℝ) ≤ 2 ^ (unbiasDenormal a.exp - unbiasDenormal b.exp) :=
      one_le_zpow₀ one_le_two hgap
    rw [hmag, div_lt_iff₀ hpos]
    calc ((b.signif * 2 ^ 64 : Nat) : ℝ) < 2 ^ (128 : ℤ) := hltR
      _ = 2 ^ (1 + 127) * 1 := by norm_num
      _ ≤ 2 ^ (1 + 127) * 2 ^ (unbiasDenormal a.exp - unbiasDenormal b.exp) := by gcongr
  by_cases hfar : unbiasDenormal a.exp - unbiasDenormal b.exp ≤ 64
  · left
    rw [← hs, hmag]
    exact sticky_exact b.signif hgap hfar
  · -- A number that far above another is normal.
    right
    have hexp : a.exp ≠ expDenormal := by
      intro h
      apply hfar
      unfold unbiasDenormal unbias bias80 expMin expDenormal at *
      split_ifs <;> omega
    have hsup := ha.supported
    rw [f80IsSupported, if_neg hexp, beq_iff_eq] at hsup
    refine ⟨by omega, (sameSide_pow hgrid 62).mp ?_⟩
    rw [hmag, div_lt_iff₀ hpos]
    calc ((b.signif * 2 ^ 64 : Nat) : ℝ) < 2 ^ (128 : ℤ) := hltR
      _ = 2 ^ (1 + 62) * 2 ^ (65 : ℤ) := by norm_num
      _ ≤ 2 ^ (1 + 62) * 2 ^ (unbiasDenormal a.exp - unbiasDenormal b.exp) := by
          gcongr
          · exact one_le_two
          · omega

/-- The halved sum after a carry, with the lost bit remembered. -/
theorem carried_eq {t : Nat} (hlo : 2 ^ 128 ≤ t) (hhi : t < 2 ^ 129) :
    u128ShiftRightSticky (t % 2 ^ 128) 1 ||| 2 ^ 127 =
      if t % 2 ≠ 0 then t / 2 ||| 1 else t / 2 := by
  have hquot : t % 2 ^ 128 / 2 ^ 1 ||| 2 ^ 127 = t / 2 := by
    have hlt : t % 2 ^ 128 / 2 ^ 1 < 2 ^ 127 := by omega
    have hor := Nat.two_pow_add_eq_or_of_lt hlt 1
    rw [Nat.mul_one] at hor
    rw [Nat.or_comm, ← hor]
    omega
  have hbit : t % 2 ^ 128 % 2 ^ 1 = t % 2 := by omega
  have hshift : u128ShiftRightSticky (t % 2 ^ 128) 1 =
      t % 2 ^ 128 / 2 ^ 1 ||| if t % 2 ^ 128 % 2 ^ 1 ≠ 0 then 1 else 0 := rfl
  rw [hshift, Nat.or_assoc, Nat.or_comm (ite _ _ _), ← Nat.or_assoc, hquot, hbit]
  by_cases hodd : t % 2 = 0
  · rw [if_neg (fun h => h hodd), if_neg (fun h => h hodd), Nat.or_zero]
  · rw [if_pos hodd, if_pos hodd]

/-- The sum of two aligned significands stands in for the exact sum. -/
theorem addSignif_spec {u s : Nat} {y : ℝ} (e : ℤ) (hu : u < 2 ^ 64)
    (hs : s < 2 ^ 128) (hside : SameSide (2 : ℝ) y s)
    (hfar : (s : ℝ) = y ∨ 2 ^ 127 ≤ u * 2 ^ 64 ∧ s < 2 ^ 63) :
    (addSignif (u * 2 ^ 64) s e).1 < 2 ^ 128 ∧
      SameSide ((2 : ℝ) ^ (63 - (u128Clz (addSignif (u * 2 ^ 64) s e).1 : ℤ)))
        (((u * 2 ^ 64 : Nat) + y) * 2 ^ (e - (addSignif (u * 2 ^ 64) s e).2))
        (addSignif (u * 2 ^ 64) s e).1 := by
  have hsum : SameSide (2 : ℝ) ((u * 2 ^ 64 : Nat) + y) (u * 2 ^ 64 + s : Nat) := by
    have hadd := sameSide_add (u * 2 ^ 63) hside
    have hcast : ((u * 2 ^ 63 : ℤ) : ℝ) * 2 = (u * 2 ^ 64 : Nat) := by
      push_cast
      ring
    rw [hcast] at hadd
    rw [Nat.cast_add]
    exact hadd
  unfold addSignif
  by_cases hcarry : u * 2 ^ 64 + s ≥ 2 ^ 128
  · rw [if_pos hcarry, carried_eq hcarry (by omega)]
    have hsticky := sticky_sameSide ((u * 2 ^ 64 + s) / 2) ((u * 2 ^ 64 + s) % 2) 2
      (Nat.mod_lt _ two_pos)
    rw [Nat.div_add_mod', Nat.cast_ofNat] at hsticky
    -- Halving halves the grid, and the sticky bit doubles it again.
    have hhalf : SameSide (2 : ℝ) (((u * 2 ^ 64 : Nat) + y) / 2) ((u * 2 ^ 64 + s : Nat) / 2) := by
      have hscaled := sameSide_scale (inv_pos.mpr two_pos) hsum
      rw [inv_mul_eq_div, inv_mul_eq_div, inv_mul_eq_div, div_self two_ne_zero] at hscaled
      have hcoarse := sameSide_coarse hscaled 2
      rw [mul_one] at hcoarse
      exact hcoarse
    have hboth := sameSide_trans hhalf hsticky
    generalize (if (u * 2 ^ 64 + s) % 2 ≠ 0 then (u * 2 ^ 64 + s) / 2 ||| 1
      else (u * 2 ^ 64 + s) / 2) = r at *
    have hgrid : SameSide ((2 : ℝ) ^ 1) ((u * 2 ^ 64 + s : Nat) / 2) r := by
      rw [pow_one]
      exact hsticky
    have hlow := (sameSide_pow hgrid 126).not
    have hhigh := sameSide_pow hgrid 127
    rw [div_lt_iff₀ two_pos] at hlow hhigh
    have hr : r < 2 ^ 128 := by
      refine hhigh.mp ?_
      have hlt : u * 2 ^ 64 + s < 2 ^ (1 + 127) * 2 := by omega
      exact_mod_cast hlt
    have hr' : 2 ^ 127 ≤ r := by
      refine not_lt.mp (hlow.mp (not_lt.mpr ?_))
      have hge : 2 ^ (1 + 126) * 2 ≤ u * 2 ^ 64 + s := by omega
      exact_mod_cast hge
    refine ⟨hr, ?_⟩
    rw [sub_add_cancel_left, zpow_neg_one, ← div_eq_mul_inv]
    exact sticky_fine (k := 0) hr (by decide) hr' hboth
  · rw [if_neg hcarry, sub_self, zpow_zero, mul_one]
    refine ⟨by omega, ?_⟩
    rcases hfar with heq | hfar
    · rw [← heq, ← Nat.cast_add]
      exact sameSide_refl _ _
    · exact sticky_fine (k := 0) (by omega) (by decide) (by omega) hsum

theorem ne_zero_of_sameSide {g x : ℝ} (h : SameSide g x n) (hpos : 0 < x) : n ≠ 0 := by
  have habove := h.above 0
  rw [Int.cast_zero, zero_mul] at habove
  exact_mod_cast (habove.mp hpos).ne'

/-- The difference of two aligned significands stands in for the exact
    difference. -/
theorem subSignif_spec {u s : Nat} {y : ℝ} (hu : u < 2 ^ 64) (hside : SameSide (2 : ℝ) y s)
    (hfar : (s : ℝ) = y ∨ 2 ^ 127 ≤ u * 2 ^ 64 ∧ s < 2 ^ 63) (hlt : s < u * 2 ^ 64) :
    0 < (u * 2 ^ 64 : Nat) - y ∧
      SameSide ((2 : ℝ) ^ (63 - (u128Clz (u * 2 ^ 64 - s) : ℤ))) ((u * 2 ^ 64 : Nat) - y)
        (u * 2 ^ 64 - s : Nat) := by
  have hcast : ((u * 2 ^ 64 - s : Nat) : ℝ) = (u * 2 ^ 64 : Nat) - s := Nat.cast_sub hlt.le
  rcases hfar with heq | ⟨hbig, hsmall⟩
  · rw [← heq, ← hcast]
    refine ⟨?_, sameSide_refl _ _⟩
    exact_mod_cast Nat.sub_pos_of_lt hlt
  · have hdiff : SameSide (2 : ℝ) ((u * 2 ^ 64 : Nat) - y) (u * 2 ^ 64 - s : Nat) := by
      have hsub := sameSide_sub (u * 2 ^ 63) hside
      have hgrid : ((u * 2 ^ 63 : ℤ) : ℝ) * 2 = (u * 2 ^ 64 : Nat) := by
        push_cast
        ring
      rw [hgrid] at hsub
      rw [hcast]
      exact hsub
    have hfine := sticky_fine (k := 1) (by omega) (by decide) (by omega) hdiff
    refine ⟨?_, hfine⟩
    have habove := hdiff.above 0
    rw [Int.cast_zero, zero_mul] at habove
    refine habove.mpr ?_
    exact_mod_cast Nat.sub_pos_of_lt hlt

include hc hin hup in
theorem addOrdered_correct (ha : FiniteNumber a) (hle : b.exp ≤ a.exp)
    (hne : a.signif ≠ 0 ∨ b.signif ≠ 0) :
    CorrectlyRounded c (toReal a + toReal b) (addOrdered c fl a b) := by
  unfold addOrdered
  generalize hs : u128ShiftRightSticky (b.signif * 2 ^ 64)
    (unbiasDenormal a.exp - unbiasDenormal b.exp) = s
  have hnot : ¬ (c.mode = .roundChop ∧ s = 0 ∧ b.signif ≠ 0) := by
    intro h
    have hnz : b.signif * 2 ^ 64 ≠ 0 := by omega
    exact sticky_ne_zero hnz _ (hs.trans h.2.1)
  obtain ⟨hslt, hside, hfar⟩ := align_spec ha hle hs
  have hscale : (0 : ℝ) < 2 ^ (unbiasDenormal a.exp - 127) := zpow_pos two_pos _
  -- Both operands at the exponent of the larger one.
  have hmaga : mag a = (a.signif * 2 ^ 64 : Nat) * 2 ^ (unbiasDenormal a.exp - 127) := by
    rw [mag, Nat.cast_mul, Nat.cast_pow, Nat.cast_ofNat, mul_assoc, ← zpow_natCast, two_zpow_add]
    congr 2
    ring
  have hmagb : mag b = mag b / 2 ^ (unbiasDenormal a.exp - 127) *
      2 ^ (unbiasDenormal a.exp - 127) := (div_mul_cancel₀ _ hscale.ne').symm
  simp only [if_neg hnot]
  by_cases hsign : a.sign = b.sign
  · obtain ⟨hlt, hsum⟩ := addSignif_spec (unbiasDenormal a.exp) a.signif_lt hslt hside hfar
    have hpos : 0 < mag a + mag b := by
      rcases hne with h | h
      · have hp : mag a ≠ 0 := fun h0 => h (toReal_eq_zero.mp (signed_eq_zero.mpr h0))
        exact add_pos_of_pos_of_nonneg (lt_of_le_of_ne (mag_nonneg a) hp.symm) (mag_nonneg b)
      have hp : mag b ≠ 0 := fun h0 => h (toReal_eq_zero.mp (signed_eq_zero.mpr h0))
      exact add_pos_of_nonneg_of_pos (mag_nonneg a) (lt_of_le_of_ne (mag_nonneg b) hp.symm)
    have hreal : toReal a + toReal b = signed a.sign (mag a + mag b) := by
      rw [toReal, toReal, ← hsign, signed_add]
    rw [if_pos hsign, hreal]
    generalize addSignif (a.signif * 2 ^ 64) s (unbiasDenormal a.exp) = r at *
    have hexact : (mag a + mag b) / 2 ^ (r.2 - 127) = ((a.signif * 2 ^ 64 : Nat) +
        mag b / 2 ^ (unbiasDenormal a.exp - 127)) * 2 ^ (unbiasDenormal a.exp - r.2) := by
      rw [div_eq_iff (zpow_ne_zero _ two_ne_zero), mul_assoc, two_zpow_add, sub_add_sub_cancel,
        add_mul, ← hmaga, ← hmagb]
    rw [← hexact] at hsum
    have hnz := ne_zero_of_sameSide hsum (div_pos hpos (zpow_pos two_pos _))
    exact correct_of_rounded hpos (u128NormalizeRound_rounded hc hin hup _ hnz hlt hsum)
  · have hopp : b.sign = !a.sign :=
      (by decide : ∀ s t : Bool, ¬ s = t → t = !s) _ _ hsign
    have hreal : toReal a + toReal b = signed a.sign (mag a - mag b) := by
      rw [toReal, toReal, hopp, signed_sub]
    have hdiff : (mag a - mag b) / 2 ^ (unbiasDenormal a.exp - 127) = (a.signif * 2 ^ 64 : Nat) -
        mag b / 2 ^ (unbiasDenormal a.exp - 127) := by
      rw [sub_div, hmaga, mul_div_assoc, div_self hscale.ne', mul_one]
    rw [if_neg hsign, hreal]
    have hult := a.signif_lt
    rcases Nat.lt_trichotomy (a.signif * 2 ^ 64) s with hlt | heq | hgt
    · -- The smaller exponent has the larger magnitude: nothing was lost.
      have hexact : (s : ℝ) = mag b / 2 ^ (unbiasDenormal a.exp - 127) := by
        rcases hfar with h | h
        · exact h
        · omega
      have hval : (mag b - mag a) / 2 ^ (unbiasDenormal a.exp - 127) =
          (s - a.signif * 2 ^ 64 : Nat) := by
        rw [← neg_sub, neg_div, hdiff, ← hexact, neg_sub, Nat.cast_sub hlt.le]
      have hposn : (0 : ℝ) < (s - a.signif * 2 ^ 64 : Nat) := by
        exact_mod_cast Nat.sub_pos_of_lt hlt
      have hpos : 0 < mag b - mag a := by
        rw [← hval] at hposn
        exact (div_pos_iff_of_pos_right hscale).mp hposn
      rw [if_neg (by omega), if_neg (by omega), ← neg_sub, ← signed_neg]
      refine correct_of_rounded hpos (u128NormalizeRound_rounded hc hin hup _ (by omega)
        (by omega) ?_)
      rw [hval]
      exact sameSide_refl _ _
    · -- Equal magnitudes cancel.
      have hexact : (s : ℝ) = mag b / 2 ^ (unbiasDenormal a.exp - 127) := by
        rcases hfar with h | h
        · exact h
        · omega
      have hzero : mag a - mag b = 0 := by
        rw [hmagb, ← hexact, hmaga, heq, sub_self]
      rw [if_pos heq, hzero, signed_eq_zero.mpr rfl]
      split_ifs
      · exact correct_zero hin hup rfl rfl
      · exact correct_zero hin hup rfl rfl
    · obtain ⟨hposn, hsub⟩ := subSignif_spec a.signif_lt hside hfar hgt
      have hpos : 0 < mag a - mag b := by
        rw [← hdiff] at hposn
        exact (div_pos_iff_of_pos_right hscale).mp hposn
      rw [if_neg (by omega), if_pos (by omega)]
      refine correct_of_rounded hpos (u128NormalizeRound_rounded hc hin hup _ (by omega)
        (by omega) ?_)
      rw [hdiff]
      exact hsub

include hc hin hup in
theorem f80Add_correct (ha : FiniteNumber a) (hb : FiniteNumber b) :
    CorrectlyRounded c (toReal a + toReal b) (f80Add c fl a b) := by
  unfold f80Add
  rw [handleNans_finite fl ha hb]
  simp only [(not_special ha.exp_le).2, (not_special hb.exp_le).2, Bool.or_self,
    Bool.false_eq_true, if_false]
  by_cases hzero : (f80IsZero a && f80IsZero b) = true
  · rw [if_pos hzero]
    rw [Bool.and_eq_true] at hzero
    rw [toReal_eq_zero.mpr (zero_of_f80IsZero hzero.1).2,
      toReal_eq_zero.mpr (zero_of_f80IsZero hzero.2).2, add_zero]
    exact correct_zero hin hup rfl rfl
  · rw [if_neg hzero]
    have hne : a.signif ≠ 0 ∨ b.signif ≠ 0 := by
      rw [Bool.and_eq_true, f80IsZero_iff ha.supported, f80IsZero_iff hb.supported] at hzero
      omega
    by_cases hlt : a.exp < b.exp
    · rw [if_pos hlt, add_comm]
      exact addOrdered_correct hc hin hup hb hlt.le hne.symm
    rw [if_neg hlt]
    exact addOrdered_correct hc hin hup ha (not_lt.mp hlt) hne

include hc hin hup in
theorem f80Sub_correct (ha : FiniteNumber a) (hb : FiniteNumber b) :
    CorrectlyRounded c (toReal a - toReal b) (f80Sub c fl a b) := by
  have hneg : toReal (f80Neg b) = -toReal b := by
    simp only [toReal, f80Neg, mag]
    cases b.sign <;> simp [signed]
  have hfin : FiniteNumber (f80Neg b) := ⟨hb.supported, hb.exp_le⟩
  rw [sub_eq_add_neg, ← hneg]
  exact f80Add_correct hc hin hup ha hfin

/-- Every operation on finite numbers gives the exact result rounded once to the
    selected precision, and reports how the two differ. -/
theorem arithmetic_rounds_once (c : Control) (hc : ValidPrecision c) (fl : Flags)
    (hin : fl.inexact = false) (hup : fl.roundedUp = false) (a b : Float80) (ha : FiniteNumber a)
    (hb : FiniteNumber b) :
    CorrectlyRounded c (toReal a + toReal b) (f80Add c fl a b) ∧
      CorrectlyRounded c (toReal a - toReal b) (f80Sub c fl a b) ∧
      CorrectlyRounded c (toReal a * toReal b) (f80Mul c fl a b) ∧
      (toReal b ≠ 0 → CorrectlyRounded c (toReal a / toReal b) (f80Div c fl a b)) ∧
      (0 ≤ toReal a → ∀ estimate : Nat → Nat,
        CorrectlyRounded c (Real.sqrt (toReal a)) (f80Sqrt estimate c fl a)) :=
  ⟨f80Add_correct hc hin hup ha hb, f80Sub_correct hc hin hup ha hb,
    f80Mul_correct hc hin hup ha hb, fun hne => f80Div_correct hc hin hup ha hb hne,
    fun hpos estimate => f80Sqrt_correct hc hin hup estimate ha hpos⟩

/-- One and three, rounding up to 24 bits. -/
theorem arithmetic_rounds_once_third : CorrectlyRounded ⟨.roundUp, 24⟩
        (toReal (float80 (2 ^ 63) 0x3fff false) / toReal (float80 (3 * 2 ^ 62) 0x4000 false))
        (f80Div ⟨.roundUp, 24⟩ ⟨false, false, 0⟩ (float80 (2 ^ 63) 0x3fff false)
          (float80 (3 * 2 ^ 62) 0x4000 false)) ∧
      f80Div ⟨.roundUp, 24⟩ ⟨false, false, 0⟩ (float80 (2 ^ 63) 0x3fff false)
          (float80 (3 * 2 ^ 62) 0x4000 false) =
        (float80 (0xaaaaab * 2 ^ 40) 0x3ffd false, ⟨true, true, 0⟩) :=
  ⟨(arithmetic_rounds_once ⟨.roundUp, 24⟩ (.inr (.inr rfl)) ⟨false, false, 0⟩ rfl rfl
      (float80 (2 ^ 63) 0x3fff false) (float80 (3 * 2 ^ 62) 0x4000 false)
      ⟨by decide, by decide⟩ ⟨by decide, by decide⟩).2.2.2.1
      (fun h => absurd (toReal_eq_zero.mp h) (by decide)),
    by decide⟩

end IshAok.F80
