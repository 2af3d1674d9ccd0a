import Mathlib.Algebra.BigOperators.Group.Finset.Basic
import Mathlib.Algebra.Order.BigOperators.Group.Finset

/-!
# Counting Over Tasks

A counter in shared state often stands for a sum over the parties: how many of them
sleep here, how many hold this. `tally` is that sum, with a weight for what each party
is doing. A step moves one party, and `tally_update` says what that does to the sum
without subtraction.

## Main definitions

* `tally`: The sum of the weights.

## Theorems

* `tally_update`: One party moves.
* `tally_eq_zero`: Nobody counts.
-/

namespace IshAok.Base

open Finset

variable {τ χ : Type*} [Fintype τ]

/-- The weights of all parties together. -/
def tally (weight : χ → ℕ) (parties : τ → χ) : ℕ := ∑ t, weight (parties t)

theorem tally_eq_zero (weight : χ → ℕ) {parties : τ → χ} (h : ∀ t, weight (parties t) = 0) :
    tally weight parties = 0 :=
  sum_eq_zero fun t _ => h t

/-- One party moves: its old weight goes and its new one comes. -/
theorem tally_update [DecidableEq τ] (weight : χ → ℕ) (parties : τ → χ) (t : τ) (x : χ) :
    tally weight (Function.update parties t x) + weight (parties t) =
      tally weight parties + weight x := by
  have hsum : ∀ g : τ → χ, tally weight g =
      weight (g t) + ∑ u ∈ Finset.univ.erase t, weight (g u) := fun g =>
    (add_sum_erase _ (fun u => weight (g u)) (mem_univ t)).symm
  have hrest : ∑ u ∈ Finset.univ.erase t, weight (Function.update parties t x u) =
      ∑ u ∈ Finset.univ.erase t, weight (parties u) :=
    sum_congr rfl (fun u hu => by
      rw [Function.update_of_ne (ne_of_mem_erase hu)])
  rw [hsum, hsum parties, hrest, Function.update_self]
  omega

end IshAok.Base
