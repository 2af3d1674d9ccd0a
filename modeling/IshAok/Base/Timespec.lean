import Mathlib.Tactic.Ring

/-!
# Times in Seconds and Nanoseconds

A time as a pair of 64-bit numbers, seconds and nanoseconds, with the
nanoseconds below a second. Sums carry and differences borrow. The seconds
wrap, and the lemmas say for which totals they do not.

## Main definitions

* `Timespec`, `Timespec.total`: A pair, and the nanoseconds it stands for.
* `Timespec.add`, `Timespec.subtract`: Sum and difference.
* `Timespec.Within`: A pair far from the ends of its range.

## Theorems

* `Timespec.add_total`, `Timespec.subtract_total`: Totals add and subtract.
* `Timespec.positive_iff`: The sign test reads the total.
-/

namespace IshAok

namespace Base

/-- A value brought back into a signed 64-bit integer. -/
def wrap64 (x : Int) : Int :=
  (x + 2 ^ 63) % 2 ^ 64 - 2 ^ 63

theorem wrap64_eq {x : Int} (h1 : -2 ^ 63 ≤ x) (h2 : x < 2 ^ 63) : wrap64 x = x := by
  unfold wrap64
  omega

/-- Seconds and nanoseconds. -/
structure Timespec where
  sec : Int
  nsec : Int
  deriving DecidableEq, Repr

namespace Timespec

variable (t : Timespec)

/-- The nanoseconds a pair stands for. -/
def total : Int :=
  t.sec * 1000000000 + t.nsec

/-- A sum, with the carry. -/
def add (x y : Timespec) : Timespec :=
  if 1000000000 ≤ x.nsec + y.nsec then
    ⟨wrap64 (wrap64 (x.sec + y.sec) + 1), x.nsec + y.nsec - 1000000000⟩
  else ⟨wrap64 (x.sec + y.sec), x.nsec + y.nsec⟩

/-- A difference, with the borrow. -/
def subtract (x y : Timespec) : Timespec :=
  if x.nsec < y.nsec then
    ⟨wrap64 (wrap64 (x.sec - 1) - y.sec), x.nsec + 1000000000 - y.nsec⟩
  else ⟨wrap64 (x.sec - y.sec), x.nsec - y.nsec⟩

/-- Whether a time is zero. -/
def isZero : Bool :=
  t.sec = 0 && t.nsec = 0

/-- Whether a time is positive. -/
def positive : Bool :=
  t.sec > 0 || (t.sec = 0 && t.nsec > 0)

/-- The nanoseconds are below a second. -/
def Normal : Prop :=
  0 ≤ t.nsec ∧ t.nsec < 1000000000

instance (t : Timespec) : Decidable t.Normal :=
  inferInstanceAs (Decidable (_ ∧ _))

/-- A normal pair whose seconds are far from wrapping. -/
def Within : Prop :=
  t.Normal ∧ -2 ^ 80 < t.total ∧ t.total < 2 ^ 80

theorem positive_iff {t : Timespec} (h : t.Normal) : t.positive = true ↔ 0 < t.total := by
  unfold Normal at h
  simp only [positive, total, Bool.or_eq_true, decide_eq_true_eq, Bool.and_eq_true, gt_iff_lt]
  omega

theorem isZero_iff {t : Timespec} (h : t.Normal) : t.isZero = true ↔ t.total = 0 := by
  unfold Normal at h
  simp only [isZero, total, decide_eq_true_eq, Bool.and_eq_true]
  omega

variable {y x : Timespec}

/-- Totals add. -/
theorem add_total (hx : x.Within) (hy : y.Within) :
    (x.add y).Normal ∧ (x.add y).total = x.total + y.total := by
  rcases hx with ⟨⟨hx1, hx2⟩, hx3, hx4⟩
  rcases hy with ⟨⟨hy1, hy2⟩, hy3, hy4⟩
  unfold total at hx3 hx4 hy3 hy4
  have hsum : wrap64 (x.sec + y.sec) = x.sec + y.sec := wrap64_eq (by omega) (by omega)
  have hcarry : wrap64 (x.sec + y.sec + 1) = x.sec + y.sec + 1 :=
    wrap64_eq (by omega) (by omega)
  unfold add Normal total
  split
  · dsimp only
    rw [hsum, hcarry]
    omega
  · dsimp only
    omega

/-- Totals subtract where the seconds do not wrap. -/
theorem subtract_total_of_sec (hx : x.Normal) (hy : y.Normal) (hlow : -2 ^ 63 < x.sec)
    (hhigh : x.sec < 2 ^ 63) (hmin : -2 ^ 63 ≤ x.sec - 1 - y.sec) (hmax : x.sec - y.sec < 2 ^ 63) :
    (x.subtract y).Normal ∧ (x.subtract y).total = x.total - y.total := by
  unfold Normal at hx hy
  have hborrow : wrap64 (x.sec - 1) = x.sec - 1 := wrap64_eq (by omega) (by omega)
  have hless : wrap64 (x.sec - 1 - y.sec) = x.sec - 1 - y.sec := wrap64_eq hmin (by omega)
  have hdiff : wrap64 (x.sec - y.sec) = x.sec - y.sec := wrap64_eq (by omega) hmax
  unfold subtract Normal total
  split
  · dsimp only
    rw [hborrow, hless]
    omega
  · dsimp only
    omega

/-- Totals subtract. -/
theorem subtract_total (hx : x.Within) (hy : y.Within) :
    (x.subtract y).Normal ∧ (x.subtract y).total = x.total - y.total := by
  rcases hx with ⟨hx, hx3, hx4⟩
  rcases hy with ⟨hy, hy3, hy4⟩
  have hx' := hx
  have hy' := hy
  unfold Normal at hx' hy'
  unfold total at hx3 hx4 hy3 hy4
  exact subtract_total_of_sec hx hy (by omega) (by omega) (by omega) (by omega)

/-- Whether one time is after another. -/
theorem subtract_positive_iff (hx : x.Within) (hy : y.Within) :
    (x.subtract y).positive = true ↔ y.total < x.total := by
  rcases subtract_total hx hy with ⟨hnormal, htotal⟩
  rw [positive_iff hnormal, htotal]
  omega

end Timespec

end Base

end IshAok
