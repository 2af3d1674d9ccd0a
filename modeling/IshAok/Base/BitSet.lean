import Mathlib.Data.List.Basic

/-!
# Sets in a Word

A set of numbers below the width of a word is a word: the number is in the set if its bit is on.
Intersection, union and complement are the operations on words, and a set is empty exactly if
the word is zero.

## Main definitions

* `has`: A number is in the set.
* `single`: The set of one number.
* `Within`: One set is part of another.

## Theorems

* `has_and`, `has_or`, `has_not`, `has_single`: What the operations hold.
* `ne_zero_iff`: A set is not empty exactly if it has a member.
* `within_iff`: Inclusion as it is tested with words.
-/

namespace IshAok.Base

open BitVec Bool

variable {w : Nat}

/-- A number is in the set. -/
def has (s : BitVec w) (i : Fin w) : Bool :=
  s.getLsbD i

/-- The set of one number. -/
def single (i : Fin w) : BitVec w :=
  1#w <<< i.val

/-- One set is part of another. -/
def Within (s t : BitVec w) : Prop :=
  ∀ i, has s i = true → has t i = true

@[simp] theorem has_and (s t : BitVec w) (i : Fin w) : has (s &&& t) i = (has s i && has t i) :=
  getLsbD_and

@[simp] theorem has_or (s t : BitVec w) (i : Fin w) : has (s ||| t) i = (has s i || has t i) :=
  getLsbD_or

@[simp] theorem has_not (s : BitVec w) (i : Fin w) : has (~~~s) i = !has s i := by
  rw [has, getLsbD_not, has, decide_eq_true i.isLt, Bool.true_and]

@[simp] theorem has_zero (i : Fin w) : has 0#w i = false :=
  getLsbD_zero

@[simp] theorem has_single (i j : Fin w) : has (single i) j = decide (j = i) := by
  rw [has, single, ← twoPow_eq, getLsbD_twoPow, decide_eq_true i.isLt, Bool.true_and]
  rw [decide_eq_decide]
  exact ⟨fun h => Fin.ext h.symm, fun h => by rw [h]⟩

variable {s t u : BitVec w}

theorem bitSet_ext (h : ∀ i, has s i = has t i) : s = t :=
  eq_of_getLsbD_eq fun i hi => h ⟨i, hi⟩

/-- A set is not empty exactly if it has a member. -/
theorem ne_zero_iff : s ≠ 0#w ↔ ∃ i, has s i = true := by
  constructor
  · intro hne
    by_contra hnone
    refine hne (bitSet_ext fun i => ?_)
    rw [has_zero]
    exact eq_false_iff.mpr fun h => hnone ⟨i, h⟩
  · rintro ⟨i, hi⟩ hzero
    rw [hzero, has_zero] at hi
    cases hi

theorem Within.refl (s : BitVec w) : Within s s :=
  fun _ h => h

theorem Within.trans (h : Within s t) (h' : Within t u) : Within s u :=
  fun i hi => h' i (h i hi)

theorem within_and_left (s t : BitVec w) : Within (s &&& t) s := by
  intro i hi
  rw [has_and, and_eq_true] at hi
  exact hi.1

theorem within_and_right (s t : BitVec w) : Within (s &&& t) t :=
  BitVec.and_comm s t ▸ within_and_left t s

theorem Within.and (h : Within s t) (h' : Within s u) : Within s (t &&& u) := by
  intro i hi
  rw [has_and, h i hi, h' i hi, Bool.true_and]

theorem within_of_eq_zero (h : s = 0) : Within s t :=
  fun i hi => absurd hi (by simp [h])

theorem within_or_left (s t : BitVec w) : Within s (s ||| t) := by
  intro i hi
  rw [has_or, hi, Bool.true_or]

theorem within_or_right (s t : BitVec w) : Within t (s ||| t) :=
  BitVec.or_comm t s ▸ within_or_left t s

theorem Within.or (h : Within s u) (h' : Within t u) : Within (s ||| t) u := by
  intro i hi
  rw [has_or, or_eq_true] at hi
  exact hi.elim (h i) (h' i)

/-- Inclusion as it is tested with words: nothing is left when the larger set is taken out. -/
theorem within_iff : Within s t ↔ s &&& ~~~t = 0#w := by
  constructor
  · intro h
    by_contra hne
    rcases ne_zero_iff.mp hne with ⟨i, hi⟩
    rw [has_and, has_not, and_eq_true, not_eq_true'] at hi
    rw [h i hi.1] at hi
    exact absurd hi.2 (by simp)
  · intro hzero i hi
    by_contra hnot
    rw [not_eq_true] at hnot
    refine ne_zero_iff.mpr ⟨i, ?_⟩ hzero
    rw [has_and, has_not, hi, hnot]
    rfl

end IshAok.Base
