import Mathlib.Data.Int.Log
import Mathlib.Algebra.Order.Floor.Ring
import Mathlib.Algebra.Order.Field.Power
import Mathlib.Algebra.Ring.Int.Parity
import Mathlib.Tactic.FieldSimp
import Mathlib.Tactic.Linarith
import Mathlib.Tactic.Positivity
import Mathlib.Tactic.Ring

/-!
# Rounding to a Floating Point Format

A format is a number of significant bits and the exponent of its smallest
normal number. Rounding a positive number scales it by the unit of its last
place, rounds the quotient to an integer and scales back. Below the smallest
normal number the unit stays what it is there, which is gradual underflow.

Arithmetic units do not have the exact number at hand when they round. They
keep a few more bits than the format has and fold what is left over into a
sticky bit. `SameSide` says why that is enough: rounding to an integer only
asks on which side of each multiple of a half a number lies, so any two
numbers that agree on that are rounded alike, are both exact or both not, and
are rounded the same way.

## Main definitions

* `Toward`: Which way a magnitude is rounded.
* `roundInt`: Rounding to an integer.
* `SameSide`: Two numbers lie on the same side of every multiple of a grid.
* `Format`, `ulp`: A format, and the unit of the last place in it.
* `roundMag`: Rounding a magnitude to a format.

## Theorems

* `sameSide_of_between`: Numbers in one gap of the grid are on the same side.
* `roundInt_congr`: Numbers on the same side are rounded alike.
* `roundInt_div`: Rounding a quotient by looking at its remainder.
* `ulp_of_normal`, `ulp_of_tiny`: The unit of the last place.
-/

namespace IshAok.Base

open Int

/-- The radix is written as a numeral. -/
instance atLeastTwo_radix : Nat.AtLeastTwo 2 := ⟨Nat.le_refl 2⟩

/-- Which way a magnitude is rounded; to nearest, ties go to even. -/
inductive Toward
  | zero
  | away
  | even
deriving DecidableEq

section Side

variable {K : Type*} [Field K] [LinearOrder K]

/-- The numbers lie on the same side of every multiple of the grid. -/
structure SameSide (g x y : K) : Prop where
  below : ∀ n : ℤ, x < n * g ↔ y < n * g
  above : ∀ n : ℤ, n * g < x ↔ n * g < y

theorem sameSide_refl (g x : K) : SameSide g x x :=
  ⟨fun _ => Iff.rfl, fun _ => Iff.rfl⟩

variable {x y g : K}

theorem sameSide_trans {z : K} (h : SameSide g x y) (h' : SameSide g y z) : SameSide g x z :=
  ⟨fun n => (h.below n).trans (h'.below n), fun n => (h.above n).trans (h'.above n)⟩

/-- A coarser grid asks less. -/
theorem sameSide_coarse (h : SameSide g x y) (m : ℤ) : SameSide (m * g) x y := by
  have heq : ∀ n : ℤ, (n : K) * (m * g) = ((n * m : ℤ) : K) * g := by
    intro n
    push_cast
    ring
  refine ⟨fun n => ?_, fun n => ?_⟩
  · rw [heq n]
    exact h.below (n * m)
  · rw [heq n]
    exact h.above (n * m)

variable [IsStrictOrderedRing K]

theorem sameSide_of_between (hg : 0 < g) (n : ℤ) (hx : n * g < x)
    (hx' : x < (n + 1) * g) (hy : n * g < y) (hy' : y < (n + 1) * g) : SameSide g x y := by
  have hcases : ∀ m : ℤ, (m : K) * g ≤ n * g ∨ ((n : K) + 1) * g ≤ m * g := by
    intro m
    rcases le_or_gt m n with hle | hlt
    · left
      have hcast : (m : K) ≤ n := by exact_mod_cast hle
      exact mul_le_mul_of_nonneg_right hcast hg.le
    · right
      have hcast : (n : K) + 1 ≤ m := by exact_mod_cast hlt
      exact mul_le_mul_of_nonneg_right hcast hg.le
  refine ⟨fun m => ?_, fun m => ?_⟩
  · rcases hcases m with hle | hge
    · exact iff_of_false (not_lt.mpr (hle.trans hx.le)) (not_lt.mpr (hle.trans hy.le))
    · exact iff_of_true (hx'.trans_le hge) (hy'.trans_le hge)
  · rcases hcases m with hle | hge
    · exact iff_of_true (hle.trans_lt hx) (hle.trans_lt hy)
    · exact iff_of_false (not_lt.mpr (hx'.le.trans hge)) (not_lt.mpr (hy'.le.trans hge))

theorem sameSide_scale {k : K} (hk : 0 < k) (h : SameSide g x y) :
    SameSide (k * g) (k * x) (k * y) := by
  have heq : ∀ n : ℤ, (n : K) * (k * g) = k * (n * g) := fun n => by ring
  refine ⟨fun n => ?_, fun n => ?_⟩
  · rw [heq n, mul_lt_mul_iff_right₀ hk, mul_lt_mul_iff_right₀ hk]
    exact h.below n
  · rw [heq n, mul_lt_mul_iff_right₀ hk, mul_lt_mul_iff_right₀ hk]
    exact h.above n

/-- Both numbers may be moved by a multiple of the grid. -/
theorem sameSide_add (m : ℤ) (h : SameSide g x y) : SameSide g (m * g + x) (m * g + y) := by
  have heq : ∀ n : ℤ, (n : K) * g = m * g + ((n - m : ℤ) : K) * g := by
    intro n
    push_cast
    ring
  refine ⟨fun n => ?_, fun n => ?_⟩
  · rw [heq n, add_lt_add_iff_left, add_lt_add_iff_left]
    exact h.below (n - m)
  · rw [heq n, add_lt_add_iff_left, add_lt_add_iff_left]
    exact h.above (n - m)

/-- Both numbers may be taken away from a multiple of the grid. -/
theorem sameSide_sub (m : ℤ) (h : SameSide g x y) : SameSide g (m * g - x) (m * g - y) := by
  have heq : ∀ n : ℤ, (n : K) * g = m * g - ((m - n : ℤ) : K) * g := by
    intro n
    push_cast
    ring
  refine ⟨fun n => ?_, fun n => ?_⟩
  · rw [heq n, sub_lt_sub_iff_left, sub_lt_sub_iff_left]
    exact h.above (m - n)
  · rw [heq n, sub_lt_sub_iff_left, sub_lt_sub_iff_left]
    exact h.below (m - n)

/-- The same side of every half is the same side of every integer. -/
theorem sameSide_int (h : SameSide (1 / 2) x y) (n : ℤ) :
    (x < n ↔ y < n) ∧ ((n : K) < x ↔ (n : K) < y) := by
  have heq : ((2 * n : ℤ) : K) * (1 / 2) = n := by
    push_cast
    ring
  have hb := h.below (2 * n)
  have ha := h.above (2 * n)
  rw [heq] at hb ha
  exact ⟨hb, ha⟩

end Side

section Field

variable {K : Type*} [Field K] [LinearOrder K] [IsStrictOrderedRing K] [FloorRing K] (d : Toward)

/-- Round to an integer. -/
def roundInt : Toward → K → ℤ
  | .zero, x => ⌊x⌋
  | .away, x => ⌈x⌉
  | .even, x =>
    if x < ⌊x⌋ + 1 / 2 then ⌊x⌋
    else if ⌊x⌋ + 1 / 2 < x then ⌊x⌋ + 1
    else if Even ⌊x⌋ then ⌊x⌋ else ⌊x⌋ + 1

variable {x y : K}

theorem le_roundInt {m : ℤ} (d : Toward) (h : (m : K) ≤ x) : m ≤ roundInt d x := by
  have hfloor : m ≤ ⌊x⌋ := le_floor.mpr h
  cases d with
  | zero => exact hfloor
  | away => exact hfloor.trans (floor_le_ceil x)
  | even =>
    simp only [roundInt]
    split_ifs <;> omega

theorem floor_congr (h : SameSide (1 / 2) x y) : ⌊x⌋ = ⌊y⌋ := by
  rw [floor_eq_iff]
  have hlow := (sameSide_int h ⌊y⌋).1
  have hhigh := (sameSide_int h (⌊y⌋ + 1)).1
  push_cast at hhigh
  constructor
  · rw [← not_lt, hlow, not_lt]
    exact floor_le y
  · rw [hhigh]
    exact lt_floor_add_one y

theorem ceil_congr (h : SameSide (1 / 2) x y) : ⌈x⌉ = ⌈y⌉ := by
  rw [ceil_eq_iff]
  have hlow := (sameSide_int h (⌈y⌉ - 1)).2
  have hhigh := (sameSide_int h ⌈y⌉).2
  push_cast at hlow
  constructor
  · rw [hlow]
    have hlt := ceil_lt_add_one y
    linarith
  · rw [← not_lt, hhigh, not_lt]
    exact le_ceil y

theorem roundInt_congr (d : Toward) (h : SameSide (1 / 2) x y) : roundInt d x = roundInt d y := by
  cases d with
  | zero => exact floor_congr h
  | away => exact ceil_congr h
  | even =>
    have hfloor := floor_congr h
    have heq : ((2 * ⌊y⌋ + 1 : ℤ) : K) * (1 / 2) = ⌊y⌋ + 1 / 2 := by
      push_cast
      ring
    have hb := h.below (2 * ⌊y⌋ + 1)
    have ha := h.above (2 * ⌊y⌋ + 1)
    rw [heq] at hb ha
    simp only [roundInt, hfloor, hb, ha]

/-- Up to where a positive number is rounded to zero. -/
theorem roundInt_eq_zero_iff (hx : 0 < x) :
    roundInt d x = 0 ↔ match d with
      | .zero => x < 1
      | .away => False
      | .even => x ≤ 1 / 2 := by
  cases d with
  | zero =>
    rw [roundInt, floor_eq_zero_iff, Set.mem_Ico]
    exact ⟨fun h => h.2, fun h => ⟨hx.le, h⟩⟩
  | away =>
    exact ⟨fun h => absurd h (ceil_pos.mpr hx).ne', fun h => h.elim⟩
  | even =>
    by_cases hone : x < 1
    · have hfloor : ⌊x⌋ = 0 := floor_eq_zero_iff.mpr ⟨hx.le, hone⟩
      simp only [roundInt, hfloor, cast_zero, zero_add]
      rcases lt_trichotomy x (1 / 2) with hlt | heq | hgt
      · rw [if_pos hlt]
        exact ⟨fun _ => hlt.le, fun _ => rfl⟩
      · rw [heq, if_neg (lt_irrefl _), if_neg (lt_irrefl _), if_pos (by decide)]
        exact ⟨fun _ => le_rfl, fun _ => rfl⟩
      · rw [if_neg hgt.not_gt, if_pos hgt]
        exact ⟨fun h => absurd h one_ne_zero, fun h => absurd h hgt.not_ge⟩
    · have hge : (1 : ℤ) ≤ roundInt .even x :=
        le_roundInt .even (by rw [cast_one]; exact not_lt.mp hone)
      refine ⟨fun h => ?_, fun h => ?_⟩
      · omega
      · linarith [not_lt.mp hone]

/-- What is added to the quotient when it is rounded with a remainder of `r`
    out of `m`. -/
def carry (q r m : ℕ) : ℕ :=
  match d with
  | .zero => 0
  | .away => if r = 0 then 0 else 1
  | .even => if 2 * r < m then 0 else if m < 2 * r then 1 else if q % 2 = 0 then 0 else 1

theorem carry_le_one (q r m : ℕ) : carry d q r m ≤ 1 := by
  cases d <;> simp only [carry]
  case zero => exact Nat.zero_le 1
  all_goals split_ifs <;> omega

theorem carry_zero (q : ℕ) {m : ℕ} (hm : 0 < m) : carry d q 0 m = 0 := by
  cases d <;> simp [carry, hm]

theorem roundInt_div (q r m : ℕ) (hr : r < m) :
    roundInt d (((q * m + r : ℕ) : K) / m) = q + carry d q r m := by
  have hm : (0 : K) < m := by
    have hpos : 0 < m := by omega
    exact_mod_cast hpos
  have hsplit : ((q * m + r : ℕ) : K) / m = q + r / m := by
    push_cast
    field_simp
  have hlo : (0 : K) ≤ r / m := by positivity
  have hhi : (r : K) / m < 1 := by
    rw [div_lt_one hm]
    exact_mod_cast hr
  have hfloor : ⌊(q : K) + r / m⌋ = q := by
    rw [floor_eq_iff]
    push_cast
    constructor <;> linarith
  have hhalf : ∀ a b : ℕ, (a : K) < b ↔ a < b := fun a b => Nat.cast_lt
  rw [hsplit]
  cases d with
  | zero =>
    rw [roundInt, hfloor, carry]
    ring
  | away =>
    rw [roundInt, carry]
    by_cases hzero : r = 0
    · rw [if_pos hzero, hzero]
      simp
    · have hpos : (0 : K) < r / m := by
        have hr0 : (0 : K) < r := by exact_mod_cast Nat.pos_of_ne_zero hzero
        positivity
      rw [if_neg hzero, ceil_eq_iff]
      push_cast
      constructor <;> linarith
  | even =>
    -- The halves are compared by cross multiplication.
    have hlow : (q : K) + r / m < q + 1 / 2 ↔ 2 * r < m := by
      rw [add_lt_add_iff_left, div_lt_div_iff₀ hm two_pos, ← hhalf]
      push_cast
      constructor <;> intro h <;> linarith
    have hhigh : (q : K) + 1 / 2 < q + r / m ↔ m < 2 * r := by
      rw [add_lt_add_iff_left, div_lt_div_iff₀ two_pos hm, ← hhalf]
      push_cast
      constructor <;> intro h <;> linarith
    have heven : Even (q : ℤ) ↔ q % 2 = 0 := by
      rw [even_coe_nat, Nat.even_iff]
    rw [roundInt, hfloor, carry]
    simp only [cast_natCast, hlow, hhigh, heven]
    split_ifs <;> simp

end Field

/-- A number of significant bits and the exponent of the smallest normal
    number. -/
structure Format where
  prec : ℕ
  emin : ℤ

section Magnitude

variable {K : Type*} [Field K] [LinearOrder K] [IsStrictOrderedRing K] [FloorRing K]

/-- The unit of the last place of a positive number. -/
def ulp (fmt : Format) (x : K) : K := 2 ^ (max (Int.log 2 x) fmt.emin - ((fmt.prec : ℤ) - 1))

/-- A positive number rounded to the format, with no upper bound to its
    exponent. -/
def roundMag (fmt : Format) (d : Toward) (x : K) : K := roundInt d (x / ulp fmt x) * ulp fmt x

theorem ulp_pos (fmt : Format) (x : K) : 0 < ulp fmt x := zpow_pos two_pos _

theorem log_eq {x : K} {e : ℤ} (hlo : 2 ^ e ≤ x) (hhi : x < 2 ^ (e + 1)) : Int.log 2 x = e := by
  have hpos : 0 < x := (zpow_pos two_pos e).trans_le hlo
  have hge : e ≤ Int.log 2 x := by
    rw [← zpow_le_iff_le_log (b := 2) one_lt_two hpos]
    exact_mod_cast hlo
  have hlt : Int.log 2 x < e + 1 := by
    rw [← lt_zpow_iff_log_lt (b := 2) one_lt_two hpos]
    exact_mod_cast hhi
  omega

theorem ulp_of_normal {fmt : Format} {x : K} {e : ℤ} (he : fmt.emin ≤ e) (hlo : 2 ^ e ≤ x)
    (hhi : x < 2 ^ (e + 1)) : ulp fmt x = 2 ^ (e - ((fmt.prec : ℤ) - 1)) := by
  rw [ulp, log_eq hlo hhi, max_eq_left he]

theorem ulp_of_tiny {fmt : Format} {x : K} (hpos : 0 < x) (hhi : x < 2 ^ fmt.emin) :
    ulp fmt x = 2 ^ (fmt.emin - ((fmt.prec : ℤ) - 1)) := by
  have hlt : Int.log 2 x < fmt.emin := by
    rw [← lt_zpow_iff_log_lt (b := 2) one_lt_two hpos]
    exact_mod_cast hhi
  rw [ulp, max_eq_right hlt.le]

end Magnitude

end IshAok.Base
