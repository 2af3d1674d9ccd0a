import Mathlib

/-!
# Lanes of a Queue

A queue whose elements have a class, such as a priority or a type. The elements of one
class, in their order, are a `lane`. Where elements of one class are served in the order
they came, the lanes are what a queue is: an element comes in at the end of its lane and
leaves at the front of it, and the other lanes do not change.

Two disciplines are covered. `insertBehind` keeps the whole queue sorted, an element
going behind all elements of its own class or a higher one. The other discipline keeps
the order of arrival, and takes an element from the middle, as long as it is the first
of its class. `lane_first_out` is that case, and the head of a queue is a special case of
it.

## Main definitions

* `lane`: The elements of one class.
* `insertBehind`: Insertion behind all elements of the same class or a higher one.
* `Descending`: Highest class first.

## Theorems

* `lane_insertBehind`: Insertion appends to a lane.
* `sorted_insertBehind`: Insertion keeps the queue sorted.
* `lane_first_out`: The first of a class leaves at the front of its lane.
-/

namespace IshAok.Base

open List

variable {α κ : Type*}

/-- The elements of one class, in order. -/
def lane [DecidableEq κ] (cls : α → κ) (k : κ) (l : List α) : List α :=
  l.filter fun x => cls x = k

section Lanes

variable [DecidableEq κ] (cls : α → κ) (k : κ)

theorem lane_nil : lane cls k [] = [] := rfl

theorem lane_append (l l' : List α) : lane cls k (l ++ l') = lane cls k l ++ lane cls k l' :=
  filter_append l l'

theorem lane_cons (x : α) (l : List α) :
    lane cls k (x :: l) = if cls x = k then x :: lane cls k l else lane cls k l := by
  unfold lane
  rw [filter_cons]
  by_cases hx : cls x = k
  · rw [if_pos hx, if_pos (decide_eq_true hx)]
  · rw [if_neg hx, if_neg (by rw [decide_eq_true_eq]; exact hx)]

theorem lane_singleton (x : α) : lane cls k [x] = if cls x = k then [x] else [] := by
  rw [lane_cons]
  rfl

/-- An element that is the first of its class leaves at the front of its lane. -/
theorem lane_first_out {l l' : List α} {x : α} (hfirst : ∀ y ∈ l, cls y ≠ cls x) :
    lane cls k (l ++ x :: l') = (if cls x = k then [x] else []) ++ lane cls k (l ++ l') := by
  rw [lane_append, lane_cons, lane_append]
  by_cases hx : cls x = k
  · -- Nothing of the class stands before it.
    have hnone : lane cls k l = [] := by
      refine filter_eq_nil_iff.mpr fun y hy => ?_
      rw [decide_eq_true_eq, ← hx]
      exact hfirst y hy
    rw [if_pos hx, if_pos hx, hnone, nil_append, nil_append, singleton_append]
  · rw [if_neg hx, if_neg hx, nil_append]

end Lanes

section Sorted

variable [LinearOrder κ] (cls : α → κ) (x : α)

/-- Insert behind all elements of the same class or a higher one, up to the first lower
    one. -/
def insertBehind (x : α) : List α → List α
  | [] => [x]
  | y :: l => if cls y < cls x then x :: y :: l else y :: insertBehind x l

/-- Highest class first. -/
def Descending (l : List α) : Prop := l.Pairwise (fun x y => cls y ≤ cls x)

theorem mem_insertBehind (l : List α) (z : α) :
    z ∈ insertBehind cls x l ↔ z = x ∨ z ∈ l := by
  induction l with
  | nil => simp [insertBehind]
  | cons y l ih =>
    unfold insertBehind
    split
    · exact mem_cons
    · rw [mem_cons, mem_cons, ih]
      exact or_left_comm

theorem sorted_insertBehind {l : List α} (h : Descending cls l) :
    Descending cls (insertBehind cls x l) := by
  induction l with
  | nil => exact pairwise_singleton _ _
  | cons y l ih =>
    rcases pairwise_cons.mp h with ⟨hy, hl⟩
    unfold insertBehind
    split
    · next hlt =>
      refine pairwise_cons.mpr ⟨fun z hz => ?_, h⟩
      rcases mem_cons.mp hz with rfl | hz
      · exact hlt.le
      · exact (hy z hz).trans hlt.le
    · next hlt =>
      refine pairwise_cons.mpr ⟨fun z hz => ?_, ih hl⟩
      rcases (mem_insertBehind cls x l z).mp hz with rfl | hz
      · exact not_lt.mp hlt
      · exact hy z hz

/-- Insertion into a sorted queue appends to the lane of the element. -/
theorem lane_insertBehind {l : List α} (h : Descending cls l) (k : κ) :
    lane cls k (insertBehind cls x l) = lane cls k l ++ if cls x = k then [x] else [] := by
  induction l with
  | nil =>
    unfold insertBehind
    rw [lane_singleton]
    rfl
  | cons y l ih =>
    rcases pairwise_cons.mp h with ⟨hy, hl⟩
    unfold insertBehind
    split
    · next hlt =>
      rw [lane_cons]
      by_cases hx : cls x = k
      · -- All that follows is lower.
        have hnone : lane cls k (y :: l) = [] := by
          refine filter_eq_nil_iff.mpr fun z hz => ?_
          rw [decide_eq_true_eq, ← hx]
          rcases mem_cons.mp hz with rfl | hz
          · exact hlt.ne
          · exact ((hy z hz).trans_lt hlt).ne
        rw [if_pos hx, if_pos hx, hnone, nil_append]
      · rw [if_neg hx, if_neg hx, append_nil]
    · rw [lane_cons, lane_cons, ih hl]
      split
      · rw [cons_append]
      · rfl

theorem insertBehind_length (l : List α) :
    (insertBehind cls x l).length = l.length + 1 := by
  induction l with
  | nil => rfl
  | cons y l ih =>
    unfold insertBehind
    split
    · rfl
    · rw [length_cons, length_cons, ih]

theorem insertBehind_sum (l : List α) (f : α → ℕ) :
    ((insertBehind cls x l).map f).sum = (l.map f).sum + f x := by
  induction l with
  | nil => simp [insertBehind]
  | cons y l ih =>
    unfold insertBehind
    split
    · rw [map_cons, sum_cons, Nat.add_comm]
    · rw [map_cons, sum_cons, ih, map_cons, sum_cons, Nat.add_assoc]

end Sorted

end IshAok.Base
