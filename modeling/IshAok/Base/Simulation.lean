import IshAok.Base.Run

/-!
# Forward Simulation of Runs

A system is related to an abstract one by a relation between their states. Each step of
the system is either silent, and the abstract state stays, or it is one step of the
abstract system. Then a whole run of the system is a run of the abstract one, with the
operations in the order in which their steps were taken.

## Theorems

* `run_simulation`: A run is a run of the abstract system.
-/

namespace IshAok.Base

open List

variable {σ τ α β : Type*} {step : σ → α → σ → Prop} {step' : τ → β → τ → Prop}

/-- The operations of a run, in order. -/
def operations (op : α → Option β) (tr : List (σ × α)) : List β := tr.filterMap (fun x => op x.2)

theorem operations_snoc (op : α → Option β) (tr : List (σ × α)) (x : σ) (a : α) :
    operations op (tr ++ [(x, a)]) = operations op tr ++ (op a).toList := by
  unfold operations
  cases h : op a with
  | none => simp [h]
  | some b => simp [h]

/-- A run of the system is a run of the abstract system. -/
theorem run_simulation (R : σ → τ → Prop) (op : α → Option β) {s u : σ} {L : τ}
    {tr : List (σ × α)} (hrun : Run step s tr u) (h0 : R s L)
    (hsilent : ∀ x a y M, (x, a) ∈ tr → R x M → step x a y → op a = none → R y M)
    (hstep : ∀ x a y M b, (x, a) ∈ tr → R x M → step x a y → op a = some b →
      ∃ N, step' M b N ∧ R y N) :
    ∃ tr' M, Run step' L tr' M ∧ tr'.map Prod.snd = operations op tr ∧ R u M := by
  induction hrun with
  | nil => exact ⟨[], L, Run.nil, rfl, h0⟩
  | snoc x y a tr hrun hxy ih =>
    have hold : ∀ z b, (z, b) ∈ tr → (z, b) ∈ tr ++ [(x, a)] :=
      fun z b hz => mem_append_left _ hz
    have hlast : (x, a) ∈ tr ++ [(x, a)] :=
      mem_append_right _ (mem_singleton_self _)
    rcases ih (fun z b w M hz => hsilent z b w M (hold z b hz))
      (fun z b w M c hz => hstep z b w M c (hold z b hz)) with ⟨tr', M, hrun', hops, hM⟩
    rw [operations_snoc, ← hops]
    cases hop : op a with
    | none =>
      refine ⟨tr', M, hrun', ?_, hsilent x a y M hlast hM hxy hop⟩
      rw [Option.toList_none, append_nil]
    | some b =>
      rcases hstep x a y M b hlast hM hxy hop with ⟨N, hMN, hN⟩
      refine ⟨tr' ++ [(M, b)], N, Run.snoc M N b tr' hrun' hMN, ?_, hN⟩
      rw [map_append, Option.toList_some]
      rfl

end IshAok.Base
