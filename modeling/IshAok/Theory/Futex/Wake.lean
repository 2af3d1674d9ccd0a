import IshAok.Theory.Futex.Consistent
import IshAok.Theory.Futex.Frame

/-!
# A Wake and a Signal

What becomes of a wait after a wake has taken it off its queue. Nothing puts it
back before its task runs again, so the outcome is decided by that one step, and
there a signal is looked for before the queue is: a wait that slept and has a
signal ends as interrupted although it was woken.

The wake is then lost. The park that an interrupted wait leaves behind is of no
help, because it records the wake counter after the wake has advanced it.

## Main definitions

* `Signalled`: A wait that slept and finds a signal.

## Theorems

* `waiting_step`: A wait goes on until its task runs again.
* `waitResume_unlinked`: A wait that is off its queue runs again.
* `dequeued_wait_returns_zero_iff`: A dequeued wait returns zero unless it finds a
  signal.
* `counted_wake_interrupted`: A wake that is counted and lost.
-/

namespace IshAok.Futex

open Base

variable {K T : Type}

theorem putAndReturn_result {s v : State K T} {id : Nat} {r r' : Option Result}
    (h : putAndReturn s id r = some (v, r')) : r' = r := by
  unfold putAndReturn at h
  split at h
  · cases h
  · simp only [Option.some.injEq, Prod.mk.injEq] at h
    exact h.2.symm

variable [DecidableEq K] [DecidableEq T] [Fintype T]

/-- A wait that slept and finds a signal when it runs again. -/
def Signalled (task : Task K) : Prop :=
  ∃ w, task.phase = .waiting w ∧ w.sleeping = true ∧ (w.interrupted = true ∨ task.pending = true)

omit [DecidableEq K] in
theorem not_signalled {task : Task K} {w : Wait K} (hw : task.phase = .waiting w)
    (hint : w.interrupted = false) (hpending : task.pending = false) : ¬ Signalled task := by
  rintro ⟨w', hw', _, hsig⟩
  rw [hw, Phase.waiting.injEq] at hw'
  rw [← hw', hint, hpending] at hsig
  rcases hsig with hsig | hsig
  · cases hsig
  · cases hsig

/-- A wait goes on until its task runs again, and stays off its queue. -/
theorem waiting_step (ids : Tids T) {s u : State K T} {e : Action K T × Option Result}
    (hstep : Step ids s e u) {t : T} (hnot : ∀ b, e.1 ≠ .waitResume t b)
    (hw : ∃ w, (s.tasks t).phase = .waiting w ∧ w.linked = false) :
    ∃ w, (u.tasks t).phase = .waiting w ∧ w.linked = false := by
  rcases hw with ⟨w, hw, hl⟩
  by_cases ht : actor e.1 = some t
  · -- The task cannot do anything itself, but a signal can reach it.
    rcases e with ⟨a, r⟩
    rcases hstep with ⟨hen, hexec⟩
    rcases waiting_action ids hen ht hw with ⟨b, ha⟩ | ⟨b, rfl⟩ | rfl | ⟨key, access, rfl⟩
    · exact absurd ha (hnot b)
    · simp only [exec, Option.some.injEq, Prod.mk.injEq] at hexec
      rw [← hexec.1]
      refine ⟨w, ?_, hl⟩
      simp [State.modifyTask, hw]
    · simp only [exec, Option.some.injEq, Prod.mk.injEq] at hexec
      rw [← hexec.1]
      refine ⟨{ w with interrupted := w.interrupted || w.sleeping }, ?_, hl⟩
      simp [State.modifyTask, interruptTask, hw]
    · simp only [exec, Option.some.injEq, Prod.mk.injEq] at hexec
      rw [← hexec.1]
      exact ⟨w, hw, hl⟩
  · have hkept := (untouched_exec ids hstep.2 ht).phase
    rw [hw] at hkept
    rcases hkept with ⟨w', hw', _, _, _, _, hl'⟩
    exact ⟨w', hw', hl' hl⟩

/-- The same over a run in which the task does not run again. -/
theorem waiting_run (ids : Tids T) {s u : State K T}
    {tr : List (State K T × (Action K T × Option Result))} (hrun : Run (Step ids) s tr u)
    {t : T} (hnot : ∀ x ∈ tr, ∀ b, x.2.1 ≠ .waitResume t b)
    (hw : ∃ w, (s.tasks t).phase = .waiting w ∧ w.linked = false) :
    ∃ w, (u.tasks t).phase = .waiting w ∧ w.linked = false :=
  run_invariant (fun s => ∃ w, (s.tasks t).phase = .waiting w ∧ w.linked = false) hrun hw
    (fun x e _ hx hwait hstep => waiting_step ids hstep (hnot (x, e) hx) hwait)

/-- A wait that is off its queue runs again: a signal is looked for first. -/
theorem waitResume_unlinked (ids : Tids T) {s v : State K T} {t : T} {w : Wait K}
    (hw : (s.tasks t).phase = .waiting w) (hl : w.linked = false) {timedOut : Bool}
    {r : Option Result} (hstep : Step ids s (.waitResume t timedOut, r) v) :
    r = some (.value 0) ↔ ¬ Signalled (s.tasks t) := by
  have hsig : Signalled (s.tasks t) ↔
      (w.sleeping && (w.interrupted || (s.tasks t).pending)) = true := by
    simp only [Bool.and_eq_true, Bool.or_eq_true]
    constructor
    · rintro ⟨w', hw', h⟩
      rw [hw, Phase.waiting.injEq] at hw'
      rw [hw']
      exact h
    · intro h
      exact ⟨w, hw, h⟩
  have hexec := hstep.2
  simp only [exec, futexWaitResume, hw, hl, Bool.not_false, if_true] at hexec
  rw [hsig]
  split at hexec
  · next hyes =>
    -- Interrupted, whatever the queue says.
    unfold futexWaitPark at hexec
    split at hexec
    · cases hexec
    · simp only [Option.some.injEq, Prod.mk.injEq] at hexec
      rw [← hexec.2]
      simp [hyes]
  · next hno =>
    rw [putAndReturn_result hexec]
    exact ⟨fun _ => hno, fun _ => rfl⟩

/-- A wait that was taken off its queue is still waiting when its task runs again,
    and then returns zero exactly if it does not find a signal after a sleep. -/
theorem dequeued_wait_returns_zero_iff (ids : Tids T) {s₀ s u : State K T}
    {tr tr' : List (State K T × (Action K T × Option Result))} (hinit : Initial s₀)
    (hrun : Run (Step ids) s₀ tr s) {t : T} {w : Wait K}
    (hw : (s.tasks t).phase = .waiting w) (hl : w.linked = false)
    (hrest : Run (Step ids) s tr' u) (hnot : ∀ x ∈ tr', ∀ b, x.2.1 ≠ .waitResume t b)
    (timedOut : Bool) :
    (∃ r v, Step ids u (.waitResume t timedOut, r) v) ∧
    ∀ r v, Step ids u (.waitResume t timedOut, r) v →
      (r = some (.value 0) ↔ ¬ Signalled (u.tasks t)) := by
  rcases waiting_run ids hrest hnot ⟨w, hw, hl⟩ with ⟨w₁, hw₁, hl₁⟩
  refine ⟨?_, fun r v hres => waitResume_unlinked ids hw₁ hl₁ hres⟩
  rcases safe_exec ids (inv_run ids hinit (run_append hrun hrest)) (.waitResume t timedOut)
    ⟨w₁, hw₁⟩ with ⟨v, r, hexec, _⟩
  exact ⟨r, v, ⟨w₁, hw₁⟩, hexec⟩

/-- A wait that sleeps and is woken without a signal. -/
theorem dequeued_wait_returns_zero_iff_woken :
    ∃ u v : State Bool Bool, ¬ Signalled (u.tasks false) ∧
      Step pairTids u (.waitResume false false, some (.value 0)) v := by
  have h0 := Run.start (Step pairTids) pairStart
  have h1 := h0.next (.wait false false 0 1 true, none) ⟨⟨rfl, rfl⟩, rfl⟩
  have h2 := h1.next (.waitResume false false, none) ⟨⟨_, rfl⟩, rfl⟩
  have h3 := h2.next (.wakelike true false 1 1 none true true, some (.value 1)) ⟨rfl, rfl⟩
  have hiff := dequeued_wait_returns_zero_iff pairTids pairStart_initial h3 (t := false) rfl rfl
    Run.nil (fun x hx => absurd hx List.not_mem_nil) false
  rcases hiff.1 with ⟨r, v, hres⟩
  rw [(hiff.2 r v hres).mpr (not_signalled rfl rfl rfl)] at hres
  refine ⟨_, v, ?_, hres⟩
  exact not_signalled rfl rfl rfl

/-- A wake that is counted and lost: the wait it took off its queue ends as
    interrupted, and goes to sleep again when it restarts. -/
theorem counted_wake_interrupted :
    ∃ (tr : List (State Bool Bool × (Action Bool Bool × Option Result))) (u : State Bool Bool),
      Run (Step pairTids) pairStart tr u ∧
      tr.map Prod.snd = [(.wait false false 0 1 true, none), (.waitResume false false, none),
          (.signal false true, none), (.wakelike true false 1 1 none true true, some (.value 1)),
          (.waitResume false false, some (.error .eintr)), (.signal false false, none),
          (.wait false false 0 1 true, none), (.waitResume false false, none)] ∧
      linked (u.tasks false).phase = true := by
  have h0 := Run.start (Step pairTids) pairStart
  have h1 := h0.next (.wait false false 0 1 true, none) ⟨⟨rfl, rfl⟩, rfl⟩
  have h2 := h1.next (.waitResume false false, none) ⟨⟨_, rfl⟩, rfl⟩
  have h3 := h2.next (.signal false true, none) ⟨trivial, rfl⟩
  have h4 := h3.next (.wakelike true false 1 1 none true true, some (.value 1)) ⟨rfl, rfl⟩
  have h5 := h4.next (.waitResume false false, some (.error .eintr)) ⟨⟨_, rfl⟩, rfl⟩
  have h6 := h5.next (.signal false false, none) ⟨trivial, rfl⟩
  have h7 := h6.next (.wait false false 0 1 true, none) ⟨⟨rfl, rfl⟩, rfl⟩
  have h8 := h7.next (.waitResume false false, none) ⟨⟨_, rfl⟩, rfl⟩
  exact ⟨_, _, h8, rfl, rfl⟩

end IshAok.Futex
