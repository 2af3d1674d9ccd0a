import IshAok.Base.Lanes
import IshAok.Base.Run
import Mathlib.Logic.Function.Basic

/-!
# Abstract Queues with Lanes

What a queue is whose elements are served in the order of their arrival inside each
class: for each class the elements that wait, oldest first. An element is put at the end
of its class, and what is taken is the oldest of its class. There is no list over all
classes here, and so nothing about how one is kept.

Which class is served is a parameter. In a priority queue it is the highest that has an
element, and `QueueStep` is that case. A list sorted with the highest class first is one
way to keep a priority queue, with insertion behind equals and removal at the head. A list
in the order of arrival is a way to keep a queue that serves any class.

## Main definitions

* `QueueOp`, `LaneStep`: The abstract queue.
* `QueueStep`: The abstract priority queue.
* `lanes`: A list, read as such a queue.
* `puts`, `takes`: What was put and taken.

## Theorems

* `queueStep_insertBehind`, `queueStep_head`: A sorted list is a priority queue.
* `laneStep_first`: In the order of arrival the first of a class is taken.
* `lanes_conserve`: In every class, what was put is what was taken followed by what waits.
-/

namespace IshAok.Base

open List Function

variable {α κ : Type*}

/-- What is done to a queue. -/
inductive QueueOp (α : Type*)
  | put (x : α)
  | take (x : α)

/-- A list read as the elements of each class. -/
def lanes [DecidableEq κ] (cls : α → κ) (l : List α) (k : κ) : List α := lane cls k l

/-- The steps of a queue that serves what it may. -/
inductive LaneStep [DecidableEq κ] (cls : α → κ) (may : (κ → List α) → α → Prop) :
    (κ → List α) → QueueOp α → (κ → List α) → Prop
  | put (L x) : LaneStep cls may L (.put x) (Function.update L (cls x) (L (cls x) ++ [x]))
  | take (L x rest) (hfront : L (cls x) = x :: rest) (hmay : may L x) :
      LaneStep cls may L (.take x) (Function.update L (cls x) rest)

/-- The steps of a priority queue: no class above the one that is served has an element. -/
def QueueStep [LinearOrder κ] (cls : α → κ) : (κ → List α) → QueueOp α → (κ → List α) → Prop :=
  LaneStep cls fun L x => ∀ k, cls x < k → L k = []

def QueueOp.putOf : QueueOp α → Option α
  | .put x => some x
  | .take _ => none

def QueueOp.takeOf : QueueOp α → Option α
  | .put _ => none
  | .take x => some x

/-- What was put, in order. -/
def puts (ops : List (QueueOp α)) : List α := ops.filterMap QueueOp.putOf

/-- What was taken, in order. -/
def takes (ops : List (QueueOp α)) : List α := ops.filterMap QueueOp.takeOf

section Lanes

variable [DecidableEq κ] (cls : α → κ) {may : (κ → List α) → α → Prop}

/-- What changes in the lanes when one of them gets an element at its end. -/
theorem lanes_put (x : α) {l l' : List α}
    (h : ∀ k, lane cls k l' = lane cls k l ++ if cls x = k then [x] else []) :
    LaneStep cls may (lanes cls l) (.put x) (lanes cls l') := by
  have hupdate : lanes cls l' =
      Function.update (lanes cls l) (cls x) (lanes cls l (cls x) ++ [x]) := by
    funext k
    unfold lanes
    rw [h k]
    by_cases hk : k = cls x
    · rw [hk, if_pos rfl, update_self]
    · rw [if_neg (Ne.symm hk), append_nil, update_of_ne hk]
  rw [hupdate]
  exact LaneStep.put (lanes cls l) x

/-- What changes in the lanes when one of them loses the element at its front. -/
theorem lanes_take {x : α} {l l' : List α}
    (h : ∀ k, lane cls k l = (if cls x = k then [x] else []) ++ lane cls k l')
    (hmay : may (lanes cls l) x) :
    LaneStep cls may (lanes cls l) (.take x) (lanes cls l') := by
  have hupdate : lanes cls l' =
      Function.update (lanes cls l) (cls x) (lanes cls l' (cls x)) := by
    funext k
    by_cases hk : k = cls x
    · rw [hk, update_self]
    · rw [update_of_ne hk]
      unfold lanes
      rw [h k, if_neg (Ne.symm hk), nil_append]
  rw [hupdate]
  refine LaneStep.take (lanes cls l) x (lanes cls l' (cls x)) ?_ hmay
  unfold lanes
  rw [h (cls x), if_pos rfl, singleton_append]

/-- In the order of arrival the first of a class is taken. -/
theorem laneStep_first {x : α} {l l' : List α} (hfirst : ∀ y ∈ l, cls y ≠ cls x)
    (hmay : may (lanes cls (l ++ x :: l')) x) :
    LaneStep cls may (lanes cls (l ++ x :: l')) (.take x) (lanes cls (l ++ l')) :=
  lanes_take cls (fun k => lane_first_out cls k hfirst) hmay

/-- In every class, what was put is what was taken followed by what waits. -/
theorem lanes_conserve {tr : List ((κ → List α) × QueueOp α)} {L : κ → List α}
    (hrun : Run (LaneStep cls may) (fun _ => []) tr L) (k : κ) :
    lane cls k (puts (tr.map Prod.snd)) = lane cls k (takes (tr.map Prod.snd)) ++ L k := by
  induction hrun with
  | nil => rfl
  | snoc M N op tr hrun hstep ih =>
    unfold puts takes at ih ⊢
    rw [map_append, filterMap_append, filterMap_append, lane_append, lane_append, ih]
    cases hstep with
    | put x =>
      simp only [map_cons, map_nil, filterMap_cons, QueueOp.putOf,
        QueueOp.takeOf, filterMap_nil]
      rw [lane_nil, append_nil, append_assoc, lane_singleton]
      by_cases hk : k = cls x
      · rw [if_pos hk.symm, hk, update_self]
      · rw [if_neg (Ne.symm hk), update_of_ne hk, append_nil]
    | take x rest hfront hmay =>
      simp only [map_cons, map_nil, filterMap_cons, QueueOp.putOf,
        QueueOp.takeOf, filterMap_nil]
      rw [lane_nil, append_nil, append_assoc, lane_singleton]
      by_cases hk : k = cls x
      · rw [if_pos hk.symm, hk, update_self, hfront, singleton_append]
      · rw [if_neg (Ne.symm hk), update_of_ne hk, nil_append]

end Lanes

section Priority

variable [LinearOrder κ] (cls : α → κ)

/-- Insertion behind equals puts an element. -/
theorem queueStep_insertBehind (x : α) {l : List α} (h : Descending cls l) :
    QueueStep cls (lanes cls l) (.put x) (lanes cls (insertBehind cls x l)) :=
  lanes_put cls x (lane_insertBehind cls x h)

/-- The head of a sorted list is what is taken. -/
theorem queueStep_head {x : α} {l : List α} (h : Descending cls (x :: l)) :
    QueueStep cls (lanes cls (x :: l)) (.take x) (lanes cls l) := by
  rcases pairwise_cons.mp h with ⟨hle, _⟩
  refine laneStep_first cls (l := []) (fun y hy => absurd hy not_mem_nil) fun k hk => ?_
  -- A higher class would stand before the head.
  refine filter_eq_nil_iff.mpr fun y hy => ?_
  rw [decide_eq_true_eq]
  rcases mem_cons.mp hy with rfl | hy
  · exact hk.ne
  · exact ((hle y hy).trans_lt hk).ne

end Priority

end IshAok.Base
