import Mathlib.Data.List.Basic

/-!
# Runs of a Labelled Transition System

A system is a step relation on a state type, with a label naming what each
step does. `Run` is the finite runs of such a system, and it keeps the whole
history: every step is recorded as the state it was taken from together with
its label. Claims about "every state on the way" or "every step that was
taken" are then statements about membership in that record.

The record grows at its end, so the last step of a run is the one an
induction peels off. `run_invariant` is the induction everything else uses:
a predicate that holds at the start and survives each step of the run holds
at the end. The step hypothesis is allowed to know that the step meets a side
condition, which is how a result about well-behaved runs is proved without
restricting the relation itself.

`run_cut` goes the other way and cuts a run at a recorded step, so an
invariant of reachable states transfers to each state the record mentions.

## Main definitions

* `Run`: The finite runs of a step relation, with their history.
* `runList`, `runActions`: The run of a list of labels, computed.

## Theorems

* `run_invariant`: An invariant kept by every recorded step holds at the end.
* `run_cut`, `run_split`: A run can be cut at any step it records.
* `run_mem_invariant`: The invariant holds wherever a step was taken.
* `Run.next`, `run_append`: Runs compose.
* `run_of_runList`, `run_of_runActions`: A list of labels whose steps can be computed makes a run.
-/

namespace IshAok.Base

open List

variable {σ α : Type*} {step : σ → α → σ → Prop}

/-- The runs of a step relation. The list records, in order, the state each
    step was taken from and the label of the step. -/
inductive Run (step : σ → α → σ → Prop) (s : σ) : List (σ × α) → σ → Prop
  | nil : Run step s [] s
  | snoc (t u : σ) (a : α) (tr : List (σ × α)) :
      Run step s tr t → step t a u → Run step s (tr ++ [(t, a)]) u

variable {tr : List (σ × α)}

/-- The run without a step. -/
theorem Run.start (step : σ → α → σ → Prop) (s : σ) : Run step s [] s :=
  .nil

variable {s u t : σ}

/-- A run that goes on with one more step. -/
theorem Run.next (h : Run step s tr t) (a : α) (hs : step t a u) : Run step s (tr ++ [(t, a)]) u :=
  .snoc t u a tr h hs

/-- An invariant that each recorded step keeps holds at the end of the run. -/
theorem run_invariant (Inv : σ → Prop) (hr : Run step s tr t) (h0 : Inv s)
    (hstep : ∀ u a v, (u, a) ∈ tr → Inv u → step u a v → Inv v) : Inv t := by
  induction hr with
  | nil => exact h0
  | snoc u v a tr _ hs ih =>
    have hu : Inv u := ih fun x b y hx => hstep x b y (mem_append_left _ hx)
    exact hstep u a v (mem_append_right _ (mem_singleton_self _)) hu hs

theorem run_append {tr' : List (σ × α)} (h : Run step s tr t) (h' : Run step t tr' u) :
    Run step s (tr ++ tr') u := by
  induction h' with
  | nil => rw [append_nil]; exact h
  | snoc v w a tr' _ hs ih =>
    rw [← append_assoc]
    exact Run.snoc v w a (tr ++ tr') ih hs

/-- A run can be cut anywhere in its record. -/
theorem run_of_append {l : List (σ × α)} (hr : Run step s l t) :
    ∀ tr tr', l = tr ++ tr' → ∃ u, Run step s tr u ∧ Run step u tr' t := by
  induction hr with
  | nil =>
    intro tr tr' heq
    rcases append_eq_nil_iff.mp heq.symm with ⟨rfl, rfl⟩
    exact ⟨s, Run.nil, Run.nil⟩
  | snoc v w b l hrun hs ih =>
    intro tr tr' heq
    -- The last step is in the second part, unless that part is empty.
    rcases eq_nil_or_concat tr' with rfl | ⟨tr'', x, rfl⟩
    · rw [append_nil] at heq
      rw [← heq]
      exact ⟨w, Run.snoc v w b l hrun hs, Run.nil⟩
    · rw [concat_eq_append, ← append_assoc] at heq
      rcases append_inj' heq rfl with ⟨hl, hx⟩
      rcases ih tr tr'' hl with ⟨u, h₁, h₂⟩
      rw [concat_eq_append, ← hx]
      exact ⟨u, h₁, Run.snoc v w b tr'' h₂ hs⟩

/-- A run can be cut at a step of its record: what came before is a run up to
    the recorded state, and what came after is a run from the step's result. -/
theorem run_cut {a : α} {tr₁ tr₂ : List (σ × α)} (hr : Run step s (tr₁ ++ (u, a) :: tr₂) t) :
    ∃ v, Run step s tr₁ u ∧ step u a v ∧ Run step v tr₂ t := by
  rw [append_cons] at hr
  rcases run_of_append hr (tr₁ ++ [(u, a)]) tr₂ rfl with ⟨v, h₁, h₂⟩
  generalize hl : tr₁ ++ [(u, a)] = l at h₁
  cases h₁ with
  | nil => exact absurd hl (by simp)
  | snoc x w b l hrun hs =>
    rcases append_inj' hl rfl with ⟨rfl, hx⟩
    cases hx
    exact ⟨v, hrun, hs, h₂⟩

/-- The same for a step that is only known to be on the record. -/
theorem run_split (hr : Run step s tr t) (u : σ) (a : α) (hmem : (u, a) ∈ tr) :
    ∃ tr₁ tr₂ v, tr = tr₁ ++ (u, a) :: tr₂ ∧ Run step s tr₁ u ∧ step u a v ∧ Run step v tr₂ t := by
  rcases append_of_mem hmem with ⟨tr₁, tr₂, rfl⟩
  rcases run_cut hr with ⟨v, h₁, hs, h₂⟩
  exact ⟨tr₁, tr₂, v, rfl, h₁, hs, h₂⟩

/-- The invariant holds wherever a step of the run was taken. -/
theorem run_mem_invariant {a : α} (Inv : σ → Prop) (hr : Run step s tr t) (h0 : Inv s)
    (hstep : ∀ u a v, (u, a) ∈ tr → Inv u → step u a v → Inv v) (hmem : (u, a) ∈ tr) : Inv u := by
  rcases run_split hr u a hmem with ⟨tr₁, tr₂, v, rfl, h₁, _, _⟩
  exact run_invariant Inv h₁ h0 fun x b y hx => hstep x b y (mem_append_left _ hx)

/-! ## Runs that are computed -/

variable {β : Type*}

/-- The run that a list of labels makes, where a step is computed. -/
def runList (f : σ → α → Option (σ × β)) : σ → List α → Option (List (σ × α × β) × σ)
  | s, [] => some ([], s)
  | s, a :: as =>
    match f s a with
    | none => none
    | some (u, b) => (runList f u as).map (fun r => ((s, a, b) :: r.1, r.2))

/-- A computed run is a run. -/
theorem run_of_runList {f : σ → α → Option (σ × β)} :
    ∀ (as : List α) (s : σ) (tr : List (σ × α × β)) (u : σ), runList f s as = some (tr, u) →
      Run (fun x a y => f x a.1 = some (y, a.2)) s tr u := by
  intro as
  induction as with
  | nil =>
    intro s tr u h
    cases h
    exact Run.nil
  | cons a as ih =>
    intro s tr u h
    rw [runList] at h
    split at h
    · cases h
    · next v b hf =>
      rcases Option.map_eq_some_iff.mp h with ⟨⟨tr', w⟩, htail, heq⟩
      cases heq
      exact run_append (Run.snoc s v (a, b) [] Run.nil hf) (ih v tr' w htail)

/-- The same for steps without an answer. -/
def runActions (f : σ → α → Option σ) : σ → List α → Option (List (σ × α) × σ)
  | s, [] => some ([], s)
  | s, a :: as =>
    match f s a with
    | none => none
    | some u => (runActions f u as).map (fun r => ((s, a) :: r.1, r.2))

theorem run_of_runActions {f : σ → α → Option σ} :
    ∀ (as : List α) (s : σ) (tr : List (σ × α)) (u : σ), runActions f s as = some (tr, u) →
      Run (fun x a y => f x a = some y) s tr u := by
  intro as
  induction as with
  | nil =>
    intro s tr u h
    cases h
    exact Run.nil
  | cons a as ih =>
    intro s tr u h
    rw [runActions] at h
    split at h
    · cases h
    · next v hf =>
      rcases Option.map_eq_some_iff.mp h with ⟨⟨tr', w⟩, htail, heq⟩
      cases heq
      exact run_append (Run.snoc s v a [] Run.nil hf) (ih v tr' w htail)

end IshAok.Base
