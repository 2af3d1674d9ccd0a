import IshAok.Core.Fpu
import IshAok.Theory.Float80.Arith

/-!
# Comparisons

`f80Lt` subtracts and looks at the sign of the difference. The difference is
rounded to the current precision, and a result of zero counts as not less. So a
comparison is exact as long as a negative difference does not round to zero.

At 64 bits that never happens, because a difference of two numbers is a multiple
of the smallest denormal. At 53 and 24 bits the smallest denormal is larger, and
two different numbers can be closer together than it is. Rounding down they are
still told apart.

## Main definitions

* `Comparable`: A supported number that is not a NaN.
* `smallest`: The smallest positive number at the current precision.
* `Resolves`: A difference is not rounded to zero when it is negative.
* `CompareExact`: The comparisons and the condition codes are exact.

## Theorems

* `f80Eq_iff`: Equality is equality of values.
* `f80Lt_iff`: What `f80Lt` tests.
* `compare_exact_iff`: When the comparisons are exact.
-/

namespace IshAok.F80

open Base

/-- A supported number that is not a NaN. -/
structure Comparable (f : Float80) : Prop where
  supported : f80IsSupported f = true
  notNan : f80IsNan f = false

/-- The smallest positive number at the current precision. -/
noncomputable def smallest (c : Control) : ℝ := 2 ^ (unbias expMin - (c.precision - 1))

/-- A negative difference of this magnitude is not rounded to zero. -/
def Resolves (c : Control) (d : ℝ) : Prop :=
  match c.mode with
  | .roundToNearest => smallest c / 2 < d
  | .roundDown => True
  | .roundUp => smallest c ≤ d
  | .roundChop => smallest c ≤ d

/-- The comparisons of two numbers, either way round, and the condition codes
    and flags that they set are those of the exact order. -/
structure CompareExact (c : Control) (a b : Float80) : Prop where
  lt : ∀ fl, (f80Lt c fl a b).1 = true ↔ value a < value b
  eq : f80Eq a b = true ↔ value a = value b
  gt : ∀ fl, (f80Lt c fl b a).1 = true ↔ value b < value a
  codes : ∀ (fl : Flags) (cpu : Cpu), fpuSyncControl cpu = c → cpu.st 0 = a →
    ((fpuCompare fl cpu b).c0 = true ↔ value a < value b) ∧
      ((fpuCompare fl cpu b).c3 = true ↔ value a = value b) ∧ (fpuCompare fl cpu b).c2 = false
  flags : ∀ (fl : Flags) (cpu : Cpu), fpuSyncControl cpu = c → cpu.st 0 = a →
    ((fpuComparei fl cpu b).cf = true ↔ value a < value b) ∧
      ((fpuComparei fl cpu b).zf = true ↔ value a = value b) ∧ (fpuComparei fl cpu b).pf = false

variable {f a b : Float80} {c : Control}

theorem comparable_cases (h : Comparable f) :
    FiniteNumber f ∨ (f80IsInf f = true ∧ f.exp = expSpecial ∧ f.signif = 2 ^ 63) := by
  have hexp := f.exp_lt
  have hlt := f.signif_lt
  by_cases hspecial : f.exp = expSpecial
  · right
    have hsup := h.supported
    have hnan := h.notNan
    have hne : f.exp ≠ expDenormal := by
      rw [hspecial]
      decide
    rw [f80IsSupported, if_neg hne, beq_iff_eq] at hsup
    simp only [f80IsNan, hspecial, BEq.rfl, Bool.true_and, bne_eq_false_iff_eq] at hnan
    refine ⟨?_, hspecial, by omega⟩
    simp only [f80IsInf, hspecial, hnan, BEq.rfl, Bool.and_self]
  · left
    refine ⟨h.supported, ?_⟩
    unfold expSpecial at hspecial
    unfold expMax
    omega

theorem value_finite (h : FiniteNumber f) : value f = (toReal f : ℝ) := by
  rw [value, magnitude, (not_special h.exp_le).2, if_neg Bool.false_ne_true, toReal]
  cases f.sign <;> simp [signed]

theorem value_inf (h : f80IsInf f = true) : value f = if f.sign then ⊥ else ⊤ := by
  rw [value, magnitude, if_pos h, EReal.neg_top]

/-- A larger exponent is a larger magnitude. -/
theorem mag_lt_of_exp {g : Float80} (hf : FiniteNumber f) (hg : FiniteNumber g)
    (hexp : f.exp < g.exp) : mag f < mag g := by
  have hflt : (f.signif : ℝ) < 2 ^ (64 : ℤ) := by exact_mod_cast f.signif_lt
  have hne : g.exp ≠ expDenormal := by
    unfold expDenormal
    omega
  have hsup := hg.supported
  rw [f80IsSupported, if_neg hne, beq_iff_eq] at hsup
  have hge : (2 : ℝ) ^ (63 : ℤ) ≤ g.signif := by
    have hnat : 2 ^ 63 ≤ g.signif := by omega
    exact_mod_cast hnat
  by_cases hden : f.exp = expDenormal ∧ g.exp = 1
  · -- The two share their scale, and only one has the integer bit.
    have hfsup := hf.supported
    rw [f80IsSupported, if_pos hden.1, beq_iff_eq] at hfsup
    have hlt : (f.signif : ℝ) < g.signif := by
      have hnat : f.signif < g.signif := by omega
      exact_mod_cast hnat
    have hscale : unbiasDenormal f.exp = unbiasDenormal g.exp := by
      rw [hden.1, hden.2]
      rfl
    rw [mag, mag, hscale]
    exact mul_lt_mul_of_pos_right hlt (zpow_pos two_pos _)
  · have hscale : unbiasDenormal f.exp + 1 ≤ unbiasDenormal g.exp := by
      unfold unbiasDenormal unbias bias80 expMin expDenormal at *
      split_ifs <;> omega
    calc mag f < 2 ^ (64 : ℤ) * 2 ^ (unbiasDenormal f.exp - 63) :=
          mul_lt_mul_of_pos_right hflt (zpow_pos two_pos _)
      _ = 2 ^ (unbiasDenormal f.exp + 1) := by
          rw [two_zpow_add]
          congr 1
          ring
      _ ≤ 2 ^ unbiasDenormal g.exp := zpow_le_zpow_right₀ one_le_two hscale
      _ = 2 ^ (63 : ℤ) * 2 ^ (unbiasDenormal g.exp - 63) := by
          rw [two_zpow_add]
          congr 1
          ring
      _ ≤ mag g := mul_le_mul_of_nonneg_right hge (zpow_pos two_pos _).le

/-- A magnitude has one representation. -/
theorem mag_inj {g : Float80} (hf : FiniteNumber f) (hg : FiniteNumber g) (h : mag f = mag g) :
    f.exp = g.exp ∧ f.signif = g.signif := by
  rcases Nat.lt_trichotomy f.exp g.exp with hlt | heq | hgt
  · exact absurd h (mag_lt_of_exp hf hg hlt).ne
  · refine ⟨heq, ?_⟩
    rw [mag, mag, heq, mul_left_inj' (zpow_ne_zero _ two_ne_zero)] at h
    exact_mod_cast h
  · exact absurd h (mag_lt_of_exp hg hf hgt).ne'

theorem not_uncomparable (ha : Comparable a) (hb : Comparable b) : f80Uncomparable a b = false := by
  simp [f80Uncomparable, ha.supported, hb.supported, ha.notNan, hb.notNan]

theorem signed_abs {s : Bool} {m : ℝ} (hm : 0 ≤ m) : |signed s m| = m := by
  cases s <;> simp [signed, abs_of_nonneg hm]

theorem signed_inj {s t : Bool} {m : ℝ} (hm : 0 < m) (h : signed s m = signed t m) : s = t := by
  cases s <;> cases t <;> simp [signed] at h ⊢ <;> linarith

theorem f80Eq_finite (ha : FiniteNumber a) (hb : FiniteNumber b)
    (hu : f80Uncomparable a b = false) : f80Eq a b = true ↔ toReal a = toReal b := by
  rw [f80Eq, hu, if_neg Bool.false_ne_true, Bool.and_eq_true, Bool.and_eq_true, beq_iff_eq,
    beq_iff_eq, beq_iff_eq]
  constructor
  · rintro ⟨⟨hsign, hexp⟩, hsignif⟩
    have hmag : mag a = mag b := by rw [mag, mag, hexp, hsignif]
    by_cases hzero : a.signif = 0
    · rw [toReal_eq_zero.mpr hzero, toReal_eq_zero.mpr (hsignif ▸ hzero)]
    have hza : ¬ f80IsZero a = true := fun h => hzero ((f80IsZero_iff ha.supported).mp h)
    have hzb : ¬ f80IsZero b = true := fun h =>
      hzero (hsignif.trans ((f80IsZero_iff hb.supported).mp h))
    rw [if_neg hza, if_neg hzb] at hsign
    rw [toReal, toReal, hsign, hmag]
  · intro h
    have hmag : mag a = mag b := by
      have habs := congrArg abs h
      rw [toReal, toReal, signed_abs (mag_nonneg a), signed_abs (mag_nonneg b)] at habs
      exact habs
    obtain ⟨hexp, hsignif⟩ := mag_inj ha hb hmag
    refine ⟨⟨?_, hexp⟩, hsignif⟩
    by_cases hzero : a.signif = 0
    · rw [if_pos ((f80IsZero_iff ha.supported).mpr hzero),
        if_pos ((f80IsZero_iff hb.supported).mpr (hsignif ▸ hzero))]
    have hza : ¬ f80IsZero a = true := fun h => hzero ((f80IsZero_iff ha.supported).mp h)
    have hzb : ¬ f80IsZero b = true := fun h =>
      hzero (hsignif.trans ((f80IsZero_iff hb.supported).mp h))
    have hpos : 0 < mag b := by
      refine lt_of_le_of_ne (mag_nonneg b) fun h0 => hzero ?_
      exact hsignif.trans (toReal_eq_zero.mp (signed_eq_zero.mpr h0.symm))
    rw [if_neg hza, if_neg hzb]
    rw [toReal, toReal, hmag] at h
    exact signed_inj hpos h

theorem inf_not_zero (h : f.exp = expSpecial) : f80IsZero f = false := by
  simp only [f80IsZero, h]
  rfl

theorem finite_ne_special (h : FiniteNumber f) : f.exp ≠ expSpecial := by
  have hle := h.exp_le
  unfold expMax at hle
  unfold expSpecial
  omega

/-- Equality is equality of values. -/
theorem f80Eq_iff (ha : Comparable a) (hb : Comparable b) :
    f80Eq a b = true ↔ value a = value b := by
  have hu := not_uncomparable ha hb
  rcases comparable_cases ha with hfa | ⟨hia, hea, hsa⟩
  · rcases comparable_cases hb with hfb | ⟨hib, heb, hsb⟩
    · rw [f80Eq_finite hfa hfb hu, value_finite hfa, value_finite hfb, EReal.coe_eq_coe_iff]
    have hne : f80Eq a b = false := by
      simp [f80Eq, hu, heb, finite_ne_special hfa]
    rw [hne, value_finite hfa, value_inf hib]
    cases b.sign <;> simp
  · rcases comparable_cases hb with hfb | ⟨hib, heb, hsb⟩
    · have hne : f80Eq a b = false := by
        simp [f80Eq, hu, hea, (finite_ne_special hfb).symm]
      rw [hne, value_finite hfb, value_inf hia]
      cases a.sign <;> simp
    · simp only [f80Eq, hu, Bool.false_eq_true, if_false, inf_not_zero hea, inf_not_zero heb, hea,
        heb, hsa, hsb, BEq.rfl, Bool.and_true, beq_iff_eq]
      rw [value_inf hia, value_inf hib]
      cases a.sign <;> cases b.sign <;> simp

section Independent

variable {c : Control}

section

variable (hc : ValidPrecision c)

include hc

/-- The number that comes out does not depend on the record of what was done
    before. -/
theorem roundPlaced_fst (fl fl' : Flags) (i i' : Bool) (n : Nat) (exp : Int) (t t' sign : Bool) :
    (roundPlaced c fl i n exp t sign).1 = (roundPlaced c fl' i' n exp t' sign).1 := by
  rw [roundPlaced_eq hc, roundPlaced_eq hc]
  split_ifs
  · unfold f80Overflow
    split_ifs <;> rfl
  · rfl
  · rfl

theorem u128NormalizeRound_fst (fl fl' : Flags) (n : Nat) (exp : Int) (sign : Bool) :
    (u128NormalizeRound c fl n exp sign).1 = (u128NormalizeRound c fl' n exp sign).1 := by
  unfold u128NormalizeRound
  split_ifs
  · rfl
  · exact roundPlaced_fst hc _ _ _ _ _ _ _ _ _
  · unfold f80Overflow
    split_ifs <;> rfl
  · exact roundPlaced_fst hc _ _ _ _ _ _ _ _ _

theorem addOrdered_fst (fl fl' : Flags) (a b : Float80) :
    (addOrdered c fl a b).1 = (addOrdered c fl' a b).1 := by
  unfold addOrdered
  dsimp only
  split_ifs
  all_goals first | rfl | exact u128NormalizeRound_fst hc _ _ _ _ _

theorem f80Sub_fst (fl fl' : Flags) {a b : Float80}
    (ha : FiniteNumber a) (hb : FiniteNumber b) : (f80Sub c fl a b).1 = (f80Sub c fl' a b).1 := by
  have hfin : FiniteNumber (f80Neg b) := ⟨hb.supported, hb.exp_le⟩
  unfold f80Sub f80Add
  rw [handleNans_finite fl ha hfin, handleNans_finite fl' ha hfin]
  simp only [(not_special ha.exp_le).2, (not_special hfin.exp_le).2, Bool.or_self,
    Bool.false_eq_true, if_false]
  split_ifs
  · rfl
  · rfl
  · exact addOrdered_fst hc _ _ _ _
  · exact addOrdered_fst hc _ _ _ _

end

end Independent

theorem smallest_pos (c : Control) : 0 < smallest c := zpow_pos two_pos _

/-- What is rounded to zero as a negative number. -/
theorem roundMag_ne_zero_iff (hc : ValidPrecision c) {d : ℝ} (hd : 0 < d) :
    roundMag (format c) (direction c.mode true) d ≠ 0 ↔ Resolves c d := by
  have hprec : ((format c).prec : ℤ) = c.precision := (extra_add hc).2.2
  have hone : 1 ≤ (format c).prec := by
    have hadd := extra_add hc
    omega
  have hpos := smallest_pos c
  by_cases hnormal : (2 : ℝ) ^ (format c).emin ≤ d
  · -- A normal number stays away from zero.
    have hlog : (format c).emin ≤ Int.log 2 d := by
      rw [← Int.zpow_le_iff_le_log (b := 2) one_lt_two hd]
      exact_mod_cast hnormal
    have hlo : (2 : ℝ) ^ Int.log 2 d ≤ d := by
      exact_mod_cast Int.zpow_log_le_self (b := 2) one_lt_two hd
    have hhi : d < (2 : ℝ) ^ (Int.log 2 d + 1) := by
      exact_mod_cast Int.lt_zpow_succ_log_self (b := 2) one_lt_two d
    have hge := roundMag_ge (direction c.mode true) hone hlog hlo hhi
    have hsmall : smallest c ≤ d := by
      refine le_trans ?_ hnormal
      refine zpow_le_zpow_right₀ one_le_two ?_
      simp only [format]
      omega
    refine ⟨fun _ => ?_, fun _ => ((zpow_pos two_pos _).trans_le hge).ne'⟩
    unfold Resolves
    cases c.mode
    · exact lt_of_lt_of_le (half_lt_self hpos) hsmall
    · trivial
    · exact hsmall
    · exact hsmall
  · have hulp : ulp (format c) d = smallest c := by
      rw [ulp_of_tiny hd (not_le.mp hnormal), smallest, hprec]
      rfl
    have hquot : 0 < d / smallest c := div_pos hd hpos
    rw [roundMag, hulp, Ne, mul_eq_zero, or_iff_left hpos.ne', Int.cast_eq_zero,
      roundInt_eq_zero_iff _ hquot]
    unfold Resolves
    cases c.mode <;> simp only [direction]
    · rw [div_le_iff₀ hpos, not_le, one_div, inv_mul_eq_div]
    · exact not_false_iff
    · rw [div_lt_one hpos, not_lt]
    · rw [div_lt_one hpos, not_lt]

theorem roundedTo_eq_zero (hc : ValidPrecision c) (sign : Bool) {x : ℝ} :
    roundedTo c sign x = 0 ↔ roundMag (format c) (direction c.mode sign) x = 0 := by
  have hmax : 0 < maxFinite c := by
    have hone : (1 : ℝ) < 2 ^ c.precision.toNat := by
      refine one_lt_pow₀ one_lt_two ?_
      have hadd := extra_add hc
      omega
    exact mul_pos (sub_pos.mpr hone) (zpow_pos two_pos _)
  unfold roundedTo
  by_cases hlt : roundMag (format c) (direction c.mode sign) x < 2 ^ (unbias expMax + 1)
  · rw [if_pos hlt, EReal.coe_eq_zero]
  have hne : roundMag (format c) (direction c.mode sign) x ≠ 0 := by
    intro h0
    rw [h0] at hlt
    exact hlt (zpow_pos two_pos _)
  refine ⟨fun h => ?_, fun h => absurd h hne⟩
  split_ifs at h
  · rw [EReal.coe_eq_zero] at h
    exact absurd h hmax.ne'
  · cases h

theorem f80IsZero_magnitude (hsup : f80IsSupported f = true) :
    f80IsZero f = true ↔ magnitude f = 0 := by
  rw [f80IsZero_iff hsup, magnitude]
  by_cases hinf : f80IsInf f = true
  · rw [if_pos hinf]
    refine ⟨fun h => ?_, fun h => absurd h (by simp)⟩
    rw [(f80IsZero_iff hsup).symm, f80IsZero, Bool.and_eq_true, beq_iff_eq] at h
    rw [f80IsInf, Bool.and_eq_true, beq_iff_eq, h.1] at hinf
    exact absurd hinf.1 (by decide)
  · rw [if_neg hinf, EReal.coe_eq_zero, ← signed_eq_zero (s := f.sign), ← toReal, toReal_eq_zero]

/-- What `f80Lt` tests, for finite numbers. -/
theorem f80Lt_iff (hc : ValidPrecision c) (fl : Flags) (ha : FiniteNumber a) (hb : FiniteNumber b)
    (hu : f80Uncomparable a b = false) :
    (f80Lt c fl a b).1 = true ↔ toReal a < toReal b ∧ Resolves c (toReal b - toReal a) := by
  unfold f80Lt
  rw [hu, (not_special ha.exp_le).2]
  simp only [Bool.false_eq_true, if_false, Bool.false_and]
  by_cases hzero : (f80IsZero a && f80IsZero b) = true
  · rw [if_pos hzero]
    rw [Bool.and_eq_true] at hzero
    rw [toReal_eq_zero.mpr (zero_of_f80IsZero hzero.1).2,
      toReal_eq_zero.mpr (zero_of_f80IsZero hzero.2).2]
    exact ⟨fun h => absurd h Bool.false_ne_true, fun h => absurd h.1 (lt_irrefl 0)⟩
  rw [if_neg hzero]
  -- The difference is the exact one, rounded.
  have hcorrect : CorrectlyRounded c (toReal a - toReal b) (f80Sub c fpuBegin a b) :=
    f80Sub_correct hc rfl rfl ha hb
  rw [f80Sub_fst hc fl fpuBegin ha hb, Bool.and_eq_true, Bool.not_eq_true', ← Bool.not_eq_true,
    f80IsZero_magnitude hcorrect.supported]
  by_cases hlt : toReal a < toReal b
  · have hneg : toReal a - toReal b < 0 := sub_neg.mpr hlt
    have hsign := hcorrect.signed hneg.ne
    rw [decide_eq_true hneg] at hsign
    have hval := hcorrect.rounded
    rw [value, hsign, if_pos rfl, roundF80, if_neg hneg.ne, if_pos hneg, neg_inj, neg_sub] at hval
    rw [hsign, hval, roundedTo_eq_zero hc, ← Ne, roundMag_ne_zero_iff hc (sub_pos.mpr hlt)]
    exact ⟨fun h => ⟨hlt, h.2⟩, fun h => ⟨rfl, h.2⟩⟩
  · refine ⟨fun h => ?_, fun h => absurd h.1 hlt⟩
    by_cases heq : toReal a - toReal b = 0
    · -- An exact zero is reported as zero.
      have hval := hcorrect.rounded
      rw [roundF80, if_pos heq, value] at hval
      refine absurd ?_ h.2
      split_ifs at hval
      · exact EReal.neg_eq_zero_iff.mp hval
      · exact hval
    · have hsign := hcorrect.signed heq
      have hnot : ¬ toReal a - toReal b < 0 := by
        rw [sub_neg]
        exact hlt
      rw [h.1, decide_eq_false hnot] at hsign
      cases hsign

/-- An infinity is compared exactly in every mode. -/
theorem f80Lt_inf (c : Control) (fl : Flags) (ha : Comparable a) (hb : Comparable b)
    (hinf : f80IsInf a = true ∨ f80IsInf b = true) :
    (f80Lt c fl a b).1 = true ↔ value a < value b := by
  have hu := not_uncomparable ha hb
  have hnans : handleNans fl a (f80Neg b) = none := by
    have hsup : f80IsSupported (f80Neg b) = true := hb.supported
    have hnan : f80IsNan (f80Neg b) = false := hb.notNan
    simp [handleNans, ha.supported, hsup, f80IsSnan, ha.notNan, hnan]
  have hneg : f80IsInf (f80Neg b) = f80IsInf b := rfl
  have hsign : (f80Neg b).sign = !b.sign := rfl
  unfold f80Lt f80Sub f80Add
  rw [hu, hnans, hneg, hsign]
  rcases comparable_cases ha with hfa | ⟨hia, hea, -⟩
  · have hna := (not_special hfa.exp_le).2
    rcases comparable_cases hb with hfb | ⟨hib, heb, -⟩
    · rw [hna, (not_special hfb.exp_le).2] at hinf
      exact absurd hinf (by decide)
    have hzb := inf_not_zero heb
    have hzneg : f80IsZero (f80Neg b) = false := hzb
    rw [value_finite hfa, value_inf hib]
    cases hs : b.sign <;> simp [hna, hib, hzb, hzneg, hsign, hs]
  · have hza := inf_not_zero hea
    rcases comparable_cases hb with hfb | ⟨hib, heb, -⟩
    · have hnb := (not_special hfb.exp_le).2
      rw [value_finite hfb, value_inf hia]
      cases hs : a.sign <;> simp [hia, hnb, hza, hs]
    · rw [value_inf hia, value_inf hib]
      cases hs : a.sign <;> cases ht : b.sign <;> simp [hia, hib, hza, hs]

theorem finite_of_not_inf (h : Comparable f) (hinf : f80IsInf f = false) : FiniteNumber f := by
  rcases comparable_cases h with hfin | hsome
  · exact hfin
  rw [hinf] at hsome
  exact absurd hsome.1 Bool.false_ne_true

section Exact

variable {c : Control} {a b : Float80}

theorem resolves_of_exact (hc : ValidPrecision c) (ha : FiniteNumber a) (hb : FiniteNumber b)
    (hu : f80Uncomparable a b = false) (hu' : f80Uncomparable b a = false)
    (h : CompareExact c a b) (hne : toReal a ≠ toReal b) : Resolves c |toReal a - toReal b| := by
  -- The smaller of the two is found to be smaller.
  rcases lt_or_gt_of_ne hne with hlt | hgt
  · have hval : value a < value b := by
      rw [value_finite ha, value_finite hb, EReal.coe_lt_coe_iff]
      exact hlt
    have htest := (f80Lt_iff hc fpuBegin ha hb hu).mp ((h.lt fpuBegin).mpr hval)
    rw [abs_sub_comm, abs_of_pos (sub_pos.mpr hlt)]
    exact htest.2
  · have hval : value b < value a := by
      rw [value_finite ha, value_finite hb, EReal.coe_lt_coe_iff]
      exact hgt
    have htest := (f80Lt_iff hc fpuBegin hb ha hu').mp ((h.gt fpuBegin).mpr hval)
    rw [abs_of_pos (sub_pos.mpr hgt)]
    exact htest.2

/-- One comparison, when the difference is not lost. -/
theorem lt_of_resolves (hc : ValidPrecision c) (ha : Comparable a) (hb : Comparable b)
    (h : f80IsInf a = false → f80IsInf b = false → toReal a ≠ toReal b →
      Resolves c |toReal a - toReal b|) (fl : Flags) :
    (f80Lt c fl a b).1 = true ↔ value a < value b := by
  by_cases hinf : f80IsInf a = true ∨ f80IsInf b = true
  · exact f80Lt_inf c fl ha hb hinf
  rw [not_or, Bool.not_eq_true, Bool.not_eq_true] at hinf
  have hfa := finite_of_not_inf ha hinf.1
  have hfb := finite_of_not_inf hb hinf.2
  rw [value_finite hfa, value_finite hfb, f80Lt_iff hc fl hfa hfb (not_uncomparable ha hb),
    EReal.coe_lt_coe_iff]
  refine ⟨fun hlt => hlt.1, fun hlt => ⟨hlt, ?_⟩⟩
  have hres := h hinf.1 hinf.2 hlt.ne
  rw [abs_sub_comm, abs_of_pos (sub_pos.mpr hlt)] at hres
  exact hres

theorem exact_of_resolves (hc : ValidPrecision c) (ha : Comparable a) (hb : Comparable b)
    (h : f80IsInf a = false → f80IsInf b = false → toReal a ≠ toReal b →
      Resolves c |toReal a - toReal b|) : CompareExact c a b := by
  have hu := not_uncomparable ha hb
  have hlt := lt_of_resolves hc ha hb h
  have hgt := lt_of_resolves hc hb ha (fun hib hia hne => by
    rw [abs_sub_comm]
    exact h hia hib hne.symm)
  -- The instructions store what the comparisons say.
  refine ⟨hlt, f80Eq_iff ha hb, hgt, ?_, ?_⟩
  · intro fl cpu hsync hst
    simp only [fpuCompare, hst, hu, Bool.false_eq_true, if_false, hsync]
    exact ⟨hlt fl, f80Eq_iff ha hb, trivial⟩
  · intro fl cpu hsync hst
    simp only [fpuComparei, hst, hu, Bool.false_eq_true, if_false, hsync]
    exact ⟨hlt fl, f80Eq_iff ha hb, trivial⟩

end Exact

/-- The comparisons of two numbers are exact if and only if they are equal, one
    of them is infinite, or their difference is not lost. -/
theorem compare_exact_iff (c : Control) (hc : ValidPrecision c) (a b : Float80)
    (ha : Comparable a) (hb : Comparable b) :
    CompareExact c a b ↔ (f80IsInf a = false → f80IsInf b = false → toReal a ≠ toReal b →
        Resolves c |toReal a - toReal b|) := by
  constructor
  · intro h hia hib hne
    exact resolves_of_exact hc (finite_of_not_inf ha hia) (finite_of_not_inf hb hib)
      (not_uncomparable ha hb) (not_uncomparable hb ha) h hne
  · exact exact_of_resolves hc ha hb

/-- Rounding down tells zero and the smallest denormal apart at 24 bits too. -/
theorem compare_exact_iff_down :
    CompareExact ⟨.roundDown, 24⟩ (float80 0 0 false) (float80 1 0 false) :=
  (compare_exact_iff ⟨.roundDown, 24⟩ (.inr (.inr rfl)) (float80 0 0 false)
    (float80 1 0 false) ⟨by decide, by decide⟩ ⟨by decide, by decide⟩).mpr
    (fun _ _ _ => trivial)

/-- Zero and the smallest denormal at 24 bits in round to nearest: neither is
    less, they are not equal, and the condition codes say greater both ways. -/
theorem compare_loses_difference : value (float80 0 0 false) < value (float80 1 0 false) ∧
      (f80Lt ⟨.roundToNearest, 24⟩ fpuBegin (float80 0 0 false) (float80 1 0 false)).1 = false ∧
      f80Eq (float80 0 0 false) (float80 1 0 false) = false ∧
      (f80Lt ⟨.roundToNearest, 24⟩ fpuBegin (float80 1 0 false) (float80 0 0 false)).1 = false := by
  refine ⟨?_, by decide, by decide, by decide⟩
  rw [value_finite ⟨by decide, by decide⟩, value_finite ⟨by decide, by decide⟩,
    EReal.coe_lt_coe_iff, toReal_eq_zero.mpr (by decide)]
  have hmag : 0 < mag (float80 1 0 false) := by
    exact mul_pos (by norm_num) (zpow_pos two_pos _)
  exact hmag

end IshAok.F80
