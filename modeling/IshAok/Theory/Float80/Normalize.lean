import IshAok.Theory.Float80.Round

/-!
# Normalizing and Rounding

`u128NormalizeRound` is given a significand with an exponent, moves the
significand to where the exponent wants it and rounds. There are three ways
through it: a normal number, a number below the smallest normal one, and an
overflow, which can also come late, from the carry of the rounding.

What it should give is stated for a positive real number: the number rounded to
the format with no bound on its exponent, and then the largest finite number or
infinity if that is too large.

## Main definitions

* `magnitude`: The magnitude of a number that is not a NaN.
* `roundedTo`: What a positive real number is rounded to.
* `Rounded`: A number and flags are what rounding gives.
* `keptBits`: A significand once its low bits are dropped.

## Theorems

* `rounded_of_finite`, `rounded_overflow`: The two outcomes.
* `roundPlaced_normal`, `roundPlaced_tiny`: Rounding a placed significand.
* `u128NormalizeRound_rounded`: The result is the exact value rounded once.
-/

namespace IshAok.F80

open Base Nat

/-- The magnitude of a number that is not a NaN. -/
noncomputable def magnitude (f : Float80) : EReal := if f80IsInf f then ⊤ else (mag f : ℝ)

/-- What a positive real number is rounded to, as the magnitude of a number with
    this sign. -/
noncomputable def roundedTo (c : Control) (sign : Bool) (x : ℝ) : EReal :=
  if roundMag (format c) (direction c.mode sign) x < 2 ^ (unbias expMax + 1) then
    (roundMag (format c) (direction c.mode sign) x : ℝ)
  else if direction c.mode sign = .zero then (maxFinite c : ℝ)
  else ⊤

/-- A number and flags are what rounding a magnitude gives. -/
structure Rounded (c : Control) (sign : Bool) (x : ℝ) (res : Float80 × Flags) : Prop where
  supported : f80IsSupported res.1 = true
  notNan : f80IsNan res.1 = false
  signed : res.1.sign = sign
  value : magnitude res.1 = roundedTo c sign x
  inexact : res.2.inexact = true ↔ magnitude res.1 ≠ x
  roundedUp : res.2.roundedUp = true ↔ (x : EReal) < magnitude res.1

/-- A significand once its low bits are dropped. -/
def keptBits (c : Control) (sign : Bool) (n : Nat) : Nat :=
  n / 2 ^ (64 + f80PrecisionExtra c) +
    carry (direction c.mode sign) (n / 2 ^ (64 + f80PrecisionExtra c))
      (n % 2 ^ (64 + f80PrecisionExtra c)) (2 ^ (64 + f80PrecisionExtra c))

/-- The flags once its low bits are dropped. -/
def keptFlags (c : Control) (fl : Flags) (sign : Bool) (n : Nat) : Flags :=
  { fl with
    inexact := fl.inexact || decide (n % 2 ^ (64 + f80PrecisionExtra c) ≠ 0)
    roundedUp := fl.roundedUp ||
      decide (carry (direction c.mode sign) (n / 2 ^ (64 + f80PrecisionExtra c))
        (n % 2 ^ (64 + f80PrecisionExtra c)) (2 ^ (64 + f80PrecisionExtra c)) = 1) }

theorem two_zpow_add (a b : ℤ) : (2 : ℝ) ^ a * 2 ^ b = 2 ^ (a + b) :=
  (zpow_add₀ two_ne_zero a b).symm

variable {c : Control} {f : Float80} {sign : Bool} {x : ℝ} {fl : Flags} {n : Nat} {e : ℤ}

/-- The scale of the last bit that is kept. -/
theorem extra_scale (hc : ValidPrecision c) (e : ℤ) :
    (2 : ℝ) ^ f80PrecisionExtra c * 2 ^ (e - 63) = 2 ^ (e - (((format c).prec : ℤ) - 1)) := by
  have hadd := extra_add hc
  have hprec : ((format c).prec : ℤ) = 64 - f80PrecisionExtra c := by
    simp only [format]
    omega
  rw [← zpow_natCast, two_zpow_add, hprec]
  congr 1
  ring

theorem mag_lt (hexp : f.exp ≤ expMax) : mag f < 2 ^ (unbias expMax + 1) := by
  have hs : (f.signif : ℝ) < 2 ^ (64 : ℤ) := by exact_mod_cast f.signif_lt
  have he : unbiasDenormal f.exp - 63 ≤ unbias expMax - 63 := by
    unfold unbiasDenormal unbias expMax expMin expDenormal bias80 at *
    split_ifs <;> omega
  have hpow : (2 : ℝ) ^ (unbiasDenormal f.exp - 63) ≤ 2 ^ (unbias expMax - 63) :=
    zpow_le_zpow_right₀ one_le_two he
  calc mag f < 2 ^ (64 : ℤ) * 2 ^ (unbiasDenormal f.exp - 63) :=
        mul_lt_mul_of_pos_right hs (zpow_pos two_pos _)
    _ ≤ 2 ^ (64 : ℤ) * 2 ^ (unbias expMax - 63) := by gcongr
    _ = 2 ^ (unbias expMax + 1) := by rw [two_zpow_add]; rfl

theorem not_special (hexp : f.exp ≤ expMax) : f80IsNan f = false ∧ f80IsInf f = false := by
  have hne : f.exp ≠ expSpecial := by
    unfold expMax at hexp
    unfold expSpecial
    omega
  simp [f80IsNan, f80IsInf, hne]

theorem rounded_of_finite (hsup : f80IsSupported f = true) (hexp : f.exp ≤ expMax)
    (hsign : f.sign = sign) (hmag : mag f = roundMag (format c) (direction c.mode sign) x)
    (hinexact : fl.inexact = true ↔ roundMag (format c) (direction c.mode sign) x ≠ x)
    (hup : fl.roundedUp = true ↔ x < roundMag (format c) (direction c.mode sign) x) :
    Rounded c sign x (f, fl) := by
  have hspecial := not_special hexp
  have hval : magnitude f = (mag f : ℝ) := by
    rw [magnitude, hspecial.2]
    exact if_neg Bool.false_ne_true
  have hlt := mag_lt hexp
  rw [hmag] at hlt
  refine ⟨hsup, hspecial.1, hsign, ?_, ?_, ?_⟩
  · rw [roundedTo, if_pos hlt, hval, hmag]
  · rw [hinexact, hval, hmag, Ne, Ne, EReal.coe_eq_coe_iff]
  · rw [hup, hval, hmag, EReal.coe_lt_coe_iff]

theorem roundMag_zero_le (fmt : Format) (x : ℝ) : roundMag fmt .zero x ≤ x := by
  have hpos := ulp_pos fmt x
  calc roundMag fmt .zero x ≤ x / ulp fmt x * ulp fmt x :=
        mul_le_mul_of_nonneg_right (Int.floor_le _) hpos.le
    _ = x := div_mul_cancel₀ x hpos.ne'

theorem overflow_direction (mode : RoundingMode) (sign : Bool) :
    ((mode = .roundUp ∧ sign = true) ∨ (mode = .roundDown ∧ sign = false) ∨ mode = .roundChop) ↔
      direction mode sign = .zero := by
  cases mode <;> cases sign <;> simp [direction]

section

variable (hc : ValidPrecision c)

include hc

theorem overflow_signif : (2 ^ 64 - 1) * 2 ^ f80PrecisionExtra c % 2 ^ 64 =
      (2 ^ c.precision.toNat - 1) * 2 ^ f80PrecisionExtra c := by
  unfold f80PrecisionExtra
  rcases hc with h | h | h <;> rw [h] <;> decide

/-- What an overflow stores when the rounding mode points back to zero. -/
theorem overflow_finite (sign : Bool) :
    f80IsSupported (float80 ((2 ^ 64 - 1) * 2 ^ f80PrecisionExtra c) expMax sign) = true ∧
      mag (float80 ((2 ^ 64 - 1) * 2 ^ f80PrecisionExtra c) expMax sign) = maxFinite c := by
  constructor
  · unfold f80PrecisionExtra
    rcases hc with h | h | h <;> rw [h] <;> cases sign <;> decide
  · have hscale := extra_scale hc (unbias expMax)
    have hprec : ((format c).prec : ℤ) = c.precision := (extra_add hc).2.2
    have hone : 1 ≤ 2 ^ c.precision.toNat := Nat.one_le_two_pow
    have hexp : unbiasDenormal (float80 ((2 ^ 64 - 1) * 2 ^ f80PrecisionExtra c) expMax sign).exp =
        unbias expMax := rfl
    rw [hprec] at hscale
    rw [mag, hexp, float80_signif, overflow_signif hc, maxFinite, ← hscale]
    push_cast [hone]
    ring

theorem rounded_overflow (fl : Flags)
    (hle : 2 ^ (unbias expMax + 1) ≤ roundMag (format c) (direction c.mode sign) x) :
    Rounded c sign x (f80Overflow c fl sign) := by
  have hfinite := overflow_finite hc sign
  have hto : roundedTo c sign x =
      if direction c.mode sign = .zero then ((maxFinite c : ℝ) : EReal) else ⊤ := by
    rw [roundedTo, if_neg (not_lt.mpr hle)]
  unfold f80Overflow
  simp only [overflow_direction c.mode sign]
  by_cases hzero : direction c.mode sign = .zero
  · have hexp : (float80 ((2 ^ 64 - 1) * 2 ^ f80PrecisionExtra c) expMax sign).exp ≤ expMax :=
      le_rfl
    have hspecial := not_special hexp
    have hval : magnitude (float80 ((2 ^ 64 - 1) * 2 ^ f80PrecisionExtra c) expMax sign) =
        (maxFinite c : ℝ) := by
      rw [magnitude, hspecial.2, hfinite.2]
      exact if_neg Bool.false_ne_true
    -- The exact value is past every finite number.
    have hlt : maxFinite c < x := by
      rw [← hfinite.2]
      rw [hzero] at hle
      exact (mag_lt hexp).trans_le (hle.trans (roundMag_zero_le _ x))
    rw [if_pos hzero]
    refine ⟨hfinite.1, hspecial.1, rfl, ?_, ?_, ?_⟩
    · rw [hto, if_pos hzero, hval]
    · rw [hval, Ne, EReal.coe_eq_coe_iff]
      exact ⟨fun _ => hlt.ne, fun _ => rfl⟩
    · rw [hval, EReal.coe_lt_coe_iff]
      exact ⟨fun h => absurd h Bool.false_ne_true, fun h => absurd h hlt.not_gt⟩
  · have hinf : f80IsSupported (f80Inf sign) = true ∧ f80IsNan (f80Inf sign) = false ∧
        f80IsInf (f80Inf sign) = true := by
      cases sign <;> decide
    have hval : magnitude (f80Inf sign) = ⊤ := by
      rw [magnitude, if_pos hinf.2.2]
    rw [if_neg hzero]
    refine ⟨hinf.1, hinf.2.1, rfl, ?_, ?_, ?_⟩
    · rw [hto, if_neg hzero, hval]
    · rw [hval]
      exact ⟨fun _ => (EReal.coe_ne_top x).symm, fun _ => rfl⟩
    · rw [hval]
      exact ⟨fun _ => EReal.coe_lt_top x, fun _ => rfl⟩

theorem roundPlaced_eq (fl : Flags) (callerInexact : Bool) (n : Nat)
    (exp : Int) (tiny sign : Bool) :
    roundPlaced c fl callerInexact n exp tiny sign =
      if keptBits c sign n / 2 ^ (64 - f80PrecisionExtra c) ≠ 0 then
        if bias exp + 1 > expMax then f80Overflow c (keptFlags c fl sign n) sign
        else
          finishRound c (keptFlags c fl sign n) callerInexact (keptBits c sign n / 2) (bias exp + 1)
            tiny sign
      else
        finishRound c (keptFlags c fl sign n) callerInexact (keptBits c sign n) (bias exp) tiny
          sign := by
  have hextra := (extra_add hc).2.1
  unfold roundPlaced
  rw [u128ShiftRightRound_eq c fl n _ sign (by omega) (by omega)]
  rfl

end

variable (hc : ValidPrecision c) (hin : fl.inexact = false) (hup : fl.roundedUp = false)

variable {y : ℝ} {exp : ℤ}

include hc hin hup in
/-- What is kept is the rounded value, and what is reported is true of it. -/
theorem kept_value (sign : Bool) (hx : x = y * 2 ^ (e - 127))
    (hulp : ulp (format c) x = 2 ^ (e - (((format c).prec : ℤ) - 1)))
    (h : SameSide ((2 : ℝ) ^ (63 : ℕ)) y n) :
    roundMag (format c) (direction c.mode sign) x =
        keptBits c sign n * 2 ^ (e - (((format c).prec : ℤ) - 1)) ∧
      ((keptFlags c fl sign n).inexact = true ↔
        roundMag (format c) (direction c.mode sign) x ≠ x) ∧
      ((keptFlags c fl sign n).roundedUp = true ↔
        x < roundMag (format c) (direction c.mode sign) x) := by
  have hadd := extra_add hc
  have hprec : ((format c).prec : ℤ) = 64 - f80PrecisionExtra c := by
    simp only [format]
    omega
  have hquot : x / ulp (format c) x = y / 2 ^ (64 + f80PrecisionExtra c) := by
    rw [hulp, hx, hprec, div_eq_div_iff (zpow_ne_zero _ two_ne_zero) (pow_ne_zero _ two_ne_zero),
      mul_assoc, ← zpow_natCast, two_zpow_add]
    congr 2
    push_cast
    ring
  have hcoarse : SameSide ((2 : ℝ) ^ (64 + f80PrecisionExtra c - 1)) y n := by
    have hs := sameSide_coarse h (2 ^ f80PrecisionExtra c)
    rw [Int.cast_pow, Int.cast_ofNat, ← pow_add] at hs
    rw [show 64 + f80PrecisionExtra c - 1 = f80PrecisionExtra c + 63 by omega]
    exact hs
  have hplaced := placed_round (direction c.mode sign) (by omega) hcoarse
  have hmag : roundMag (format c) (direction c.mode sign) x =
      roundInt (direction c.mode sign) (x / ulp (format c) x) * ulp (format c) x := rfl
  have hpos := ulp_pos (format c) x
  refine ⟨?_, ?_, ?_⟩
  · rw [hmag, hquot, hplaced.1, hulp, keptBits]
    rfl
  · simp only [keptFlags, hin, Bool.false_or, decide_eq_true_eq]
    rw [hplaced.2.1, ← hquot, hmag, Ne, Ne, eq_div_iff hpos.ne']
  · simp only [keptFlags, hup, Bool.false_or, decide_eq_true_eq]
    rw [hplaced.2.2, ← hquot, hmag, div_lt_iff₀ hpos]

/-- The end of the rounding stores what was kept. -/
theorem finishRound_rounded (hc : ValidPrecision c) {kept exp : Nat} {tiny : Bool}
    (hkept : kept < 2 ^ (64 - f80PrecisionExtra c)) (hexp : exp ≤ expMax)
    (hnormal : exp ≠ expDenormal → 2 ^ (63 - f80PrecisionExtra c) ≤ kept)
    (hvalue : roundMag (format c) (direction c.mode sign) x =
      kept * 2 ^ (unbiasDenormal exp - (((format c).prec : ℤ) - 1)))
    (hin : fl.inexact = true ↔ roundMag (format c) (direction c.mode sign) x ≠ x)
    (hup : fl.roundedUp = true ↔ x < roundMag (format c) (direction c.mode sign) x) :
    Rounded c sign x (finishRound c fl false kept exp tiny sign) := by
  have hextra := (extra_add hc).2.1
  have hscale := extra_scale hc (unbiasDenormal exp)
  -- The significand fits in its 64 bits.
  have hlt : kept * 2 ^ f80PrecisionExtra c < 2 ^ 64 := by
    have hpow : 2 ^ 64 = 2 ^ (64 - f80PrecisionExtra c) * 2 ^ f80PrecisionExtra c := by
      rw [← Nat.pow_add]
      congr 1
      omega
    rw [hpow]
    exact Nat.mul_lt_mul_of_pos_right hkept (Nat.two_pow_pos _)
  have hshift : u128ShiftLeft kept (f80PrecisionExtra c) = kept * 2 ^ f80PrecisionExtra c :=
    mod_eq_of_lt (by omega)
  have hsignif : kept * 2 ^ f80PrecisionExtra c % 2 ^ 64 = kept * 2 ^ f80PrecisionExtra c :=
    mod_eq_of_lt hlt
  have hint : exp ≠ expDenormal → 2 ^ 63 ≤ kept * 2 ^ f80PrecisionExtra c := by
    intro hne
    have hpow : 2 ^ 63 = 2 ^ (63 - f80PrecisionExtra c) * 2 ^ f80PrecisionExtra c := by
      rw [← Nat.pow_add]
      congr 1
      omega
    rw [hpow]
    exact Nat.mul_le_mul_right _ (hnormal hne)
  have hreal : ((kept * 2 ^ f80PrecisionExtra c : Nat) : ℝ) * 2 ^ (unbiasDenormal exp - 63) =
      roundMag (format c) (direction c.mode sign) x := by
    rw [hvalue, ← hscale]
    push_cast
    ring
  unfold finishRound
  rw [hshift]
  generalize kept * 2 ^ f80PrecisionExtra c = signif at *
  by_cases hden : exp = expDenormal ∧ signif / 2 ^ 63 ≠ 0
  · -- The integer bit was reached from below.
    have hone : signif / 2 ^ 63 = 1 := by omega
    rw [if_pos hden]
    refine rounded_of_finite ?_ (show expMin % 2 ^ 15 ≤ expMax by decide) rfl ?_ ?_ ?_
    · simp only [f80IsSupported, float80_exp, float80_signif, hsignif, hone]
      rfl
    · rw [mag, float80_signif, hsignif, ← hreal, hden.1]
      rfl
    · simpa using hin
    · exact hup
  · have hbits : exp % 2 ^ 15 = exp := by
      unfold expMax at hexp
      exact mod_eq_of_lt (by omega)
    rw [if_neg hden]
    refine rounded_of_finite ?_ (by rw [float80_exp, hbits]; exact hexp) rfl ?_ ?_ ?_
    · simp only [f80IsSupported, float80_exp, float80_signif, hsignif, hbits]
      by_cases hzero : exp = expDenormal
      · have hnot : signif / 2 ^ 63 = 0 := by
          by_contra hne
          exact hden ⟨hzero, hne⟩
        rw [if_pos hzero, hnot]
        rfl
      · have hone : signif / 2 ^ 63 = 1 := by
          have hge := hint hzero
          omega
        rw [if_neg hzero, hone]
        rfl
    · rw [mag, float80_signif, float80_exp, hsignif, hbits, ← hreal]
    · simpa using hin
    · exact hup

theorem bias_of_range (hlo : unbias expMin ≤ e) (hhi : e ≤ unbias expMax) :
    (bias e : ℤ) = e + 0x3fff ∧ bias e ≠ expDenormal ∧ bias e ≤ expMax ∧ unbias (bias e) = e := by
  unfold bias unbias bias80 expMin expMax expDenormal at *
  omega

theorem keptBits_le (hc : ValidPrecision c) (sign : Bool) {m : Nat} (hm : 63 ≤ m)
    (hn : n < 2 ^ (64 + m)) : keptBits c sign n ≤ 2 ^ (m - f80PrecisionExtra c) := by
  have hextra := (extra_add hc).2.1
  have hquot : n / 2 ^ (64 + f80PrecisionExtra c) < 2 ^ (m - f80PrecisionExtra c) := by
    rw [Nat.div_lt_iff_lt_mul (Nat.two_pow_pos _), ← Nat.pow_add]
    rw [show m - f80PrecisionExtra c + (64 + f80PrecisionExtra c) = 64 + m by omega]
    exact hn
  have hcarry := carry_le_one (direction c.mode sign) (n / 2 ^ (64 + f80PrecisionExtra c))
    (n % 2 ^ (64 + f80PrecisionExtra c)) (2 ^ (64 + f80PrecisionExtra c))
  unfold keptBits
  omega

theorem le_keptBits (hc : ValidPrecision c) (sign : Bool) {m : Nat} (hm : 63 ≤ m)
    (hn : 2 ^ (64 + m) ≤ n) : 2 ^ (m - f80PrecisionExtra c) ≤ keptBits c sign n := by
  have hextra := (extra_add hc).2.1
  refine Nat.le_trans ?_ (Nat.le_add_right _ _)
  rw [Nat.le_div_iff_mul_le (Nat.two_pow_pos _), ← Nat.pow_add]
  rw [show m - f80PrecisionExtra c + (64 + f80PrecisionExtra c) = 64 + m by omega]
  exact hn

include hc hin hup in
/-- A significand with its top bit set, at the exponent of a normal number. -/
theorem roundPlaced_normal (tiny sign : Bool) (hlo : 2 ^ 127 ≤ n)
    (hhi : n < 2 ^ 128) (he : unbias expMin ≤ e) (he' : e ≤ unbias expMax)
    (hx : x = y * 2 ^ (e - 127)) (h : SameSide ((2 : ℝ) ^ (63 : ℕ)) y n)
    (hulp : ulp (format c) x = 2 ^ (e - (((format c).prec : ℤ) - 1))) :
    Rounded c sign x (roundPlaced c fl false n e tiny sign) := by
  have hadd := extra_add hc
  have hprec : (format c).prec = 64 - f80PrecisionExtra c := by
    simp only [format]
    omega
  have hbias := bias_of_range he he'
  obtain ⟨hvalue, hinexact, hrounded⟩ := kept_value hc hin hup sign hx hulp h
  have hle : keptBits c sign n ≤ 2 ^ (64 - f80PrecisionExtra c) :=
    keptBits_le hc sign (by decide) hhi
  have hge : 2 ^ (63 - f80PrecisionExtra c) ≤ keptBits c sign n := le_keptBits hc sign le_rfl hlo
  have hdouble : 2 ^ (64 - f80PrecisionExtra c) = 2 * 2 ^ (63 - f80PrecisionExtra c) := by
    rw [← Nat.pow_succ']
    congr 1
    omega
  rw [roundPlaced_eq hc]
  by_cases hcarry : keptBits c sign n / 2 ^ (64 - f80PrecisionExtra c) = 0
  · -- No carry: what is kept is the significand.
    have hlt : keptBits c sign n < 2 ^ (64 - f80PrecisionExtra c) :=
      (div_eq_zero_iff_lt (Nat.two_pow_pos _)).mp hcarry
    rw [if_neg (fun hne => hne hcarry)]
    refine finishRound_rounded hc hlt hbias.2.2.1 (fun _ => hge) ?_ hinexact hrounded
    rw [hvalue, unbiasDenormal, if_neg hbias.2.1, hbias.2.2.2]
  · have hfull : keptBits c sign n = 2 ^ (64 - f80PrecisionExtra c) := by
      by_contra hne
      exact hcarry (div_eq_of_lt (by omega))
    have htop : roundMag (format c) (direction c.mode sign) x = 2 ^ (e + 1) := by
      rw [hvalue, hfull, cast_pow, cast_ofNat, ← zpow_natCast, two_zpow_add, hprec]
      congr 1
      ring
    rw [if_pos hcarry]
    by_cases hover : bias e + 1 > expMax
    · have hetop : e = unbias expMax := by
        unfold unbias bias80 expMax at *
        omega
      rw [if_pos hover]
      exact rounded_overflow hc _ (by rw [htop, hetop])
    · rw [if_neg hover]
      have hhalf : keptBits c sign n / 2 = 2 ^ (63 - f80PrecisionExtra c) := by omega
      refine finishRound_rounded hc ?_ (by omega) (fun _ => hhalf.ge) ?_ hinexact hrounded
      · rw [hhalf]
        exact Nat.pow_lt_pow_right (by decide) (by omega)
      · have hunbias : unbiasDenormal (bias e + 1) = e + 1 := by
          unfold unbiasDenormal unbias bias80 expDenormal at *
          omega
        rw [htop, hhalf, hunbias, cast_pow, cast_ofNat, ← zpow_natCast, two_zpow_add,
          hprec]
        congr 1
        omega

include hc hin hup in
/-- A significand below the top bit, at the exponent of the denormals. -/
theorem roundPlaced_tiny (tiny sign : Bool) (hhi : n < 2 ^ 127)
    (hx : x = y * 2 ^ (unbias expMin - 127)) (h : SameSide ((2 : ℝ) ^ (63 : ℕ)) y n)
    (hulp : ulp (format c) x = 2 ^ (unbias expMin - (((format c).prec : ℤ) - 1))) :
    Rounded c sign x (roundPlaced c fl false n (unbias expDenormal) tiny sign) := by
  have hextra := (extra_add hc).2.1
  obtain ⟨hvalue, hinexact, hrounded⟩ := kept_value hc hin hup sign hx hulp h
  have hle : keptBits c sign n ≤ 2 ^ (63 - f80PrecisionExtra c) := keptBits_le hc sign le_rfl hhi
  have hlt : keptBits c sign n < 2 ^ (64 - f80PrecisionExtra c) :=
    hle.trans_lt (Nat.pow_lt_pow_right (by decide) (by omega))
  have hbias : bias (unbias expDenormal) = expDenormal := rfl
  rw [roundPlaced_eq hc, if_neg (fun hne => hne (div_eq_of_lt hlt)), hbias]
  refine finishRound_rounded hc hlt (by decide) (fun hne => absurd rfl hne) ?_ hinexact hrounded
  rw [hvalue]
  rfl

/-- Every power of two from the grid up bounds both or neither. -/
theorem sameSide_pow {k : Nat} (h : SameSide ((2 : ℝ) ^ k) y n) (m : Nat) :
    y < 2 ^ (k + m) ↔ n < 2 ^ (k + m) := by
  have hb := h.below (2 ^ m)
  have hpow : ((2 ^ m : ℤ) : ℝ) * 2 ^ k = ((2 ^ (k + m) : Nat) : ℝ) := by
    push_cast
    rw [← pow_add, Nat.add_comm]
  rw [hpow, cast_lt] at hb
  rw [← hb, cast_pow, cast_ofNat]

/-- Rounding does not take a number below the power of two under it. -/
theorem roundMag_ge {fmt : Format} (d : Toward) (hprec : 1 ≤ fmt.prec) (he : fmt.emin ≤ e)
    (hlo : 2 ^ e ≤ x) (hhi : x < 2 ^ (e + 1)) : 2 ^ e ≤ roundMag fmt d x := by
  have hulp := ulp_of_normal he hlo hhi
  have hpos := ulp_pos fmt x
  -- The lower bound is a multiple of the unit.
  have hone : (2 : ℝ) ^ e = ((2 ^ (fmt.prec - 1) : ℤ) : ℝ) * ulp fmt x := by
    rw [hulp]
    push_cast
    rw [← zpow_natCast, two_zpow_add]
    congr 1
    omega
  have hge : ((2 ^ (fmt.prec - 1) : ℤ) : ℝ) ≤ x / ulp fmt x := by
    rw [le_div_iff₀ hpos, ← hone]
    exact hlo
  rw [hone, roundMag]
  refine mul_le_mul_of_nonneg_right ?_ hpos.le
  exact_mod_cast le_roundInt d hge

theorem zpow_mul_div (x : ℝ) {a b c : ℤ} (h : a - b + c = 0) :
    (2 : ℝ) ^ a * (x / 2 ^ b) = x / 2 ^ c := by
  rw [mul_div_left_comm, ← zpow_sub₀ two_ne_zero, eq_div_iff (zpow_ne_zero _ two_ne_zero),
    mul_assoc, two_zpow_add, h, zpow_zero, mul_one]

/-- What `u128NormalizeRound` is given, moved to the top bit. -/
theorem placed_top (hn : n ≠ 0) (hlt : n < 2 ^ 128)
    (h : SameSide ((2 : ℝ) ^ (63 - (u128Clz n : ℤ))) (x / 2 ^ (exp - 127)) n) :
    u128ShiftLeft n (u128Clz n) = n * 2 ^ u128Clz n ∧
      SameSide ((2 : ℝ) ^ (63 : ℕ)) (x / 2 ^ (exp - u128Clz n - 127)) (n * 2 ^ u128Clz n : Nat) ∧
      2 ^ (exp - u128Clz n) ≤ x ∧ x < 2 ^ (exp - u128Clz n + 1) := by
  have hspec := u128Clz_spec hn hlt
  generalize u128Clz n = z at *
  have hside : SameSide ((2 : ℝ) ^ (63 : ℕ)) (x / 2 ^ (exp - z - 127)) (n * 2 ^ z : Nat) := by
    have hs := sameSide_scale (zpow_pos two_pos (z : ℤ)) h
    have hgrid : (2 : ℝ) ^ (z : ℤ) * 2 ^ (63 - (z : ℤ)) = 2 ^ (63 : ℕ) := by
      rw [two_zpow_add, add_sub_cancel]
      rfl
    have hleft : (2 : ℝ) ^ (z : ℤ) * (x / 2 ^ (exp - 127)) = x / 2 ^ (exp - z - 127) :=
      zpow_mul_div x (by ring)
    have hright : (2 : ℝ) ^ (z : ℤ) * n = (n * 2 ^ z : Nat) := by
      push_cast
      rw [zpow_natCast, mul_comm]
    rw [hgrid, hleft, hright] at hs
    exact hs
  have hpos : (0 : ℝ) < 2 ^ (exp - z - 127) := zpow_pos two_pos _
  have hlow := (sameSide_pow hside 64).not.mpr (by omega)
  have hhigh := (sameSide_pow hside 65).mpr hspec.2.1
  rw [div_lt_iff₀ hpos] at hlow hhigh
  have hscale : ∀ m : ℕ, (2 : ℝ) ^ m * 2 ^ (exp - z - 127) = 2 ^ ((m : ℤ) + (exp - z - 127)) :=
    fun m => by rw [← zpow_natCast, two_zpow_add]
  rw [hscale] at hlow hhigh
  refine ⟨mod_eq_of_lt hspec.2.1, hside, ?_, ?_⟩
  · rw [show (((63 + 64 : ℕ) : ℤ)) + (exp - z - 127) = exp - z by push_cast; ring] at hlow
    exact not_lt.mp hlow
  · rw [show (((63 + 65 : ℕ) : ℤ)) + (exp - z - 127) = exp - z + 1 by push_cast; ring] at hhigh
    exact hhigh

theorem sameSide_coarser {a b : ℤ} {z : ℝ} (h : SameSide ((2 : ℝ) ^ a) y z) (hab : a ≤ b) :
    SameSide ((2 : ℝ) ^ b) y z := by
  have hs := sameSide_coarse h (2 ^ (b - a).toNat)
  have hpow : ((2 ^ (b - a).toNat : ℤ) : ℝ) * 2 ^ a = 2 ^ b := by
    push_cast
    rw [← zpow_natCast, two_zpow_add]
    congr 1
    omega
  rw [hpow] at hs
  exact hs

/-- What `u128NormalizeRound` is given, moved to the exponent of the
    denormals. -/
theorem placed_denormal (hn : n ≠ 0) (hlt : n < 2 ^ 128)
    (h : SameSide ((2 : ℝ) ^ (63 - (u128Clz n : ℤ))) (x / 2 ^ (exp - 127)) n)
    (htiny : exp - u128Clz n < unbias expMin) :
    denormalSignif n exp < 2 ^ 127 ∧
      SameSide ((2 : ℝ) ^ (63 : ℕ)) (x / 2 ^ (unbias expMin - 127)) (denormalSignif n exp) := by
  have hspec := u128Clz_spec hn hlt
  have hhi := (placed_top hn hlt h).2.2.2
  generalize u128Clz n = z at *
  generalize hemin : unbias expMin = emin at *
  have hmoved : SameSide ((2 : ℝ) ^ (63 : ℤ)) (x / 2 ^ (emin - 127)) (n * 2 ^ (exp - emin)) := by
    have hs := sameSide_scale (zpow_pos two_pos (exp - emin)) h
    have hleft : (2 : ℝ) ^ (exp - emin) * (x / 2 ^ (exp - 127)) = x / 2 ^ (emin - 127) :=
      zpow_mul_div x (by ring)
    rw [two_zpow_add, hleft, mul_comm] at hs
    exact sameSide_coarser hs (by omega)
  unfold denormalSignif
  rw [hemin]
  by_cases hleft : exp > emin
  · -- There is room to the left: nothing is lost.
    have hstep : n * 2 ^ (exp - emin).toNat * 2 ≤ n * 2 ^ z := by
      rw [Nat.mul_assoc, ← Nat.pow_succ]
      exact Nat.mul_le_mul_left _ (Nat.pow_le_pow_right (by decide) (by omega))
    have hmod : u128ShiftLeft n (exp - emin).toNat = n * 2 ^ (exp - emin).toNat :=
      mod_eq_of_lt (by omega)
    have hcast : (n : ℝ) * 2 ^ (exp - emin) = (n * 2 ^ (exp - emin).toNat : Nat) := by
      push_cast
      rw [← zpow_natCast, Int.toNat_of_nonneg (by omega)]
    rw [if_pos hleft, hmod]
    rw [hcast] at hmoved
    exact ⟨by omega, hmoved⟩
  · -- The bits that are lost are remembered in the last one.
    have hsticky := u128ShiftRightSticky_sameSide n hlt (emin - exp) (by omega)
    have hcast : (n : ℝ) / 2 ^ (emin - exp) = n * 2 ^ (exp - emin) := by
      rw [div_eq_mul_inv, ← zpow_neg, neg_sub]
    rw [hcast] at hsticky
    have htwo : (2 : ℝ) = 2 ^ (1 : ℤ) := (zpow_one 2).symm
    nth_rewrite 1 [htwo] at hsticky
    have hside := sameSide_trans hmoved (sameSide_coarser hsticky (by decide))
    rw [if_neg hleft]
    refine ⟨?_, hside⟩
    have hsmall : x / 2 ^ (emin - 127) < 2 ^ (63 + 64) := by
      rw [div_lt_iff₀ (zpow_pos two_pos _), ← zpow_natCast, two_zpow_add]
      refine hhi.trans_le (zpow_le_zpow_right₀ one_le_two ?_)
      omega
    exact (sameSide_pow hside 64).mp hsmall

include hc hin hup in
theorem u128NormalizeRound_rounded (sign : Bool) (hn : n ≠ 0) (hlt : n < 2 ^ 128)
    (h : SameSide ((2 : ℝ) ^ (63 - (u128Clz n : ℤ))) (x / 2 ^ (exp - 127)) n) :
    Rounded c sign x (u128NormalizeRound c fl n exp sign) := by
  have hspec := u128Clz_spec hn hlt
  obtain ⟨hleft, hside, hlo, hhi⟩ := placed_top hn hlt h
  have hprec : 1 ≤ (format c).prec := by
    have hadd := extra_add hc
    simp only [format]
    omega
  have hback : ∀ e : ℤ, x = x / 2 ^ (e - 127) * 2 ^ (e - 127) := fun e =>
    (div_mul_cancel₀ x (zpow_ne_zero _ two_ne_zero)).symm
  have hup' : { fl with inexact := false }.roundedUp = false := hup
  unfold u128NormalizeRound
  rw [if_neg hn, hin]
  by_cases htiny : exp - u128Clz n < unbias expMin
  · -- Below the smallest normal number.
    have hpos : 0 < x := (zpow_pos two_pos _).trans_le hlo
    have hbelow : x < 2 ^ (format c).emin :=
      hhi.trans_le (zpow_le_zpow_right₀ one_le_two htiny)
    have hplaced := placed_denormal hn hlt h htiny
    rw [if_pos htiny]
    exact roundPlaced_tiny hc rfl hup' _ sign hplaced.1 (hback _) hplaced.2
      (ulp_of_tiny hpos hbelow)
  rw [if_neg htiny]
  have hemin : (format c).emin ≤ exp - u128Clz n := not_lt.mp htiny
  by_cases hover : exp - u128Clz n > unbias expMax
  · -- The exponent alone is too large.
    rw [if_pos hover]
    refine rounded_overflow hc _ ?_
    exact (zpow_le_zpow_right₀ one_le_two hover).trans (roundMag_ge _ hprec hemin hlo hhi)
  · rw [if_neg hover, hleft]
    exact roundPlaced_normal hc rfl hup' _ sign hspec.1 hspec.2.1 hemin (not_lt.mp hover) (hback _)
      hside (ulp_of_normal hemin hlo hhi)

end IshAok.F80
