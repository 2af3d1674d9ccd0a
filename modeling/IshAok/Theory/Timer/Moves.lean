import IshAok.Core.Timer

/-!
# Moves of a Timer's Thread

What a step of the thread can do, one constructor for each way through the
code. Invariants of timers are proved by cases on `Move`, and `threadStep` is
not unfolded again.

`Coherent` is what holds of every timer: the thread runs exactly while it has
a phase, and what it copied at the head of its loop is not newer than the
timer.

## Main definitions

* `Move`: A step of the thread.
* `Coherent`: The thread's copy is not newer than the timer.

## Theorems

* `threadStep_move`, `move_threadStep`: The steps are the moves.
* `move_same`, `move_decides`: What moves leave alone, and when one decides to fire.
* `coherent_step`, `coherent_run`: Every timer is coherent.
-/

namespace IshAok.Timers

open Base Bool

variable (timer : Timer)

/-- The copy the thread makes at the head of its loop. -/
def Timer.copied : Arming :=
  ⟨timer.generation, timer.deadline, timer.interval⟩

/-- The timer when the thread has decided to fire. -/
def Timer.fire : Timer :=
  { timer with firing := true }

/-- The timer when a callback has returned. -/
def Timer.calledBack : Timer :=
  { timer with firing := false, fired := timer.fired + 1 }

/-- The timer after a callback of a periodic arming. -/
def Timer.advance (a : Arming) (expirations : Nat) : Timer :=
  let start := a.deadline.add (timerPeriods (expirations - 1) a.interval)
  { timer.calledBack with start := start, deadline := start.add a.interval }

/-- Whether the clock has not reached the deadline. -/
def Timer.early (now : Timespec) : Bool :=
  (timer.deadline.subtract now).positive

/-- A step of the thread. -/
inductive Move (now : Timespec) : State → State → Prop
  | enter (timer : Timer) : Move now ⟨timer, .begun⟩ ⟨timer, .head⟩
  | nap (timer : Timer) (hactive : timer.active = true) (hearly : timer.early now = true) :
      Move now ⟨timer, .head⟩ ⟨timer, .napping timer.copied⟩
  | look (timer : Timer) (hdue : timer.active = true → timer.early now = false) :
      Move now ⟨timer, .head⟩ ⟨timer, .check timer.copied⟩
  | quitNap (timer a) (hactive : timer.active = false) :
      Move now ⟨timer, .napping a⟩ ⟨{ timer with threadRunning := false }, .none⟩
  | napAgain (timer a) (hactive : timer.active = true) (hsame : timer.generation = a.generation)
      (hearly : timer.early now = true) : Move now ⟨timer, .napping a⟩ ⟨timer, .napping a⟩
  | wake (timer a) (hactive : timer.active = true)
      (hdue : timer.generation = a.generation → timer.early now = false) :
      Move now ⟨timer, .napping a⟩ ⟨timer, .check a⟩
  | quit (timer a) (hactive : timer.active = false) :
      Move now ⟨timer, .check a⟩ ⟨{ timer with threadRunning := false }, .none⟩
  | stale (timer a) (hactive : timer.active = true) (hother : timer.generation ≠ a.generation) :
      Move now ⟨timer, .check a⟩ ⟨timer, .head⟩
  | tooEarly (timer a) (hactive : timer.active = true) (hsame : timer.generation = a.generation)
      (hearly : timer.early now = true) : Move now ⟨timer, .check a⟩ ⟨timer, .head⟩
  | fire (timer a) (hactive : timer.active = true) (hsame : timer.generation = a.generation)
      (hdue : timer.early now = false) : Move now ⟨timer, .check a⟩
        ⟨timer.fire, .firing a (1 + timerPeriodsPast a.deadline now a.interval)⟩
  | call (timer a expirations) :
      Move now ⟨timer, .firing a expirations⟩ ⟨timer, .returned a expirations⟩
  | returnStale (timer a expirations) (hother : timer.generation ≠ a.generation) :
      Move now ⟨timer, .returned a expirations⟩ ⟨timer.calledBack, .head⟩
  | advance (timer a expirations) (hsame : timer.generation = a.generation)
      (hactive : timer.active = true) (hperiodic : a.interval.positive = true) :
      Move now ⟨timer, .returned a expirations⟩ ⟨timer.advance a expirations, .head⟩
  | done (timer a expirations) (hsame : timer.generation = a.generation)
      (hlast : timer.active = true → a.interval.positive = false) :
      Move now ⟨timer, .returned a expirations⟩
        ⟨{ timer.calledBack with threadRunning := false }, .none⟩

variable {s s' : State} {now : Timespec}

/-- Every step is a move. -/
theorem threadStep_move (h : threadStep s now = some s') : Move now s s' := by
  rcases s with ⟨timer, phase⟩
  unfold threadStep at h
  cases phase with
  | none => cases h
  | begun =>
    cases h
    exact .enter timer
  | head =>
    dsimp only at h
    split at h
    · next hnap =>
      cases h
      rw [and_eq_true] at hnap
      exact .nap timer hnap.1 hnap.2
    · next hlook =>
      cases h
      refine .look timer fun hactive => ?_
      rw [hactive, Bool.true_and, not_eq_true] at hlook
      exact hlook
  | napping a =>
    dsimp only at h
    split_ifs at h with hquit hearly
    · cases h
      exact .quitNap timer a (not_eq_true' _ ▸ hquit)
    · cases h
      exact .napAgain timer a (by simpa using hquit) hearly.1 hearly.2
    · cases h
      refine .wake timer a (by simpa using hquit) fun hsame => ?_
      exact not_eq_true _ ▸ fun h => hearly ⟨hsame, h⟩
  | check a =>
    dsimp only at h
    split_ifs at h with hquit hother hearly
    · cases h
      exact .quit timer a (not_eq_true' _ ▸ hquit)
    · cases h
      exact .stale timer a (by simpa using hquit) hother
    · cases h
      exact .tooEarly timer a (by simpa using hquit) (not_not.mp hother) hearly
    · cases h
      exact .fire timer a (by simpa using hquit) (not_not.mp hother)
        (not_eq_true _ ▸ hearly)
  | firing a n =>
    cases h
    exact .call timer a n
  | returned a n =>
    dsimp only at h
    split_ifs at h with hother hperiodic
    · cases h
      exact .returnStale timer a n hother
    · cases h
      rw [and_eq_true] at hperiodic
      exact .advance timer a n (not_not.mp hother) hperiodic.1 hperiodic.2
    · cases h
      refine .done timer a n (not_not.mp hother) fun hactive => ?_
      rw [hactive, Bool.true_and, not_eq_true] at hperiodic
      exact hperiodic

/-- Every move is a step. -/
theorem move_threadStep (h : Move now s s') : threadStep s now = some s' := by
  cases h with
  | enter | call => rfl
  | nap timer hactive hearly =>
    exact if_pos (and_eq_true_iff.mpr ⟨hactive, hearly⟩)
  | look timer hdue =>
    refine if_neg fun hnap => ?_
    rcases and_eq_true_iff.mp hnap with ⟨hactive, hearly⟩
    exact absurd (hearly.symm.trans (hdue hactive)) (by decide)
  | quitNap _ _ hactive | quit _ _ hactive => exact if_pos (by rw [hactive]; rfl)
  | napAgain timer a hactive hsame hearly =>
    exact (if_neg (by rw [hactive]; decide)).trans (if_pos ⟨hsame, hearly⟩)
  | wake timer a hactive hdue =>
    refine (if_neg (by rw [hactive]; decide)).trans (if_neg ?_)
    rintro ⟨hsame, hearly⟩
    exact absurd (hearly.symm.trans (hdue hsame)) (by decide)
  | stale timer a hactive hother =>
    exact (if_neg (by rw [hactive]; decide)).trans (if_pos hother)
  | tooEarly timer a hactive hsame hearly =>
    exact (if_neg (by rw [hactive]; decide)).trans
      ((if_neg (not_not.mpr hsame)).trans (if_pos hearly))
  | fire timer a hactive hsame hdue =>
    exact (if_neg (by rw [hactive]; decide)).trans ((if_neg (not_not.mpr hsame)).trans
        (if_neg fun hearly => absurd (hearly.symm.trans hdue) (by decide)))
  | returnStale timer a n hother => exact if_pos hother
  | advance timer a n hsame hactive hperiodic =>
    exact (if_neg (not_not.mpr hsame)).trans
      (if_pos (and_eq_true_iff.mpr ⟨hactive, hperiodic⟩))
  | done timer a n hsame hlast =>
    refine (if_neg (not_not.mpr hsame)).trans (if_neg fun hmore => ?_)
    rcases and_eq_true_iff.mp hmore with ⟨hactive, hperiodic⟩
    exact absurd (hperiodic.symm.trans (hlast hactive)) (by decide)

/-- The thread neither arms nor disarms. -/
theorem move_same (h : Move now s s') :
    s'.timer.generation = s.timer.generation ∧ s'.timer.active = s.timer.active ∧
      s'.timer.interval = s.timer.interval := by
  cases h <;> exact ⟨rfl, rfl, rfl⟩

/-- A decision to fire is made for the arming the timer has. -/
theorem move_decides {a : Arming} {n : Nat} (h : Move now s s') (hfiring : s'.phase = .firing a n) :
    s.phase = .check a ∧ s.timer.active = true ∧ s.timer.generation = a.generation ∧
      s.timer.early now = false ∧ n = 1 + timerPeriodsPast a.deadline now a.interval := by
  cases h with
  | fire timer b hactive hsame hdue =>
    cases hfiring
    exact ⟨rfl, hactive, hsame, hdue, rfl⟩
  | _ => cases hfiring

/-! ### Coherence -/

/-- The copy the thread has. -/
def Phase.arming : Phase → Option Arming
  | .napping a => some a
  | .check a => some a
  | .firing a _ => some a
  | .returned a _ => some a
  | _ => Option.none

/-- There is a phase exactly while the thread runs, and its copy is not newer
    than the timer. -/
structure Coherent (s : State) : Prop where
  running : s.phase = .none ↔ s.timer.threadRunning = false
  older : ∀ a, s.phase.arming = some a → a.generation ≤ s.timer.generation

theorem coherent_move (hc : Coherent s) (h : Move now s s') : Coherent s' := by
  rcases hc with ⟨hrun, hold⟩
  cases h with
  | enter | stale | tooEarly | returnStale | advance =>
    exact ⟨by simpa [Timer.calledBack, Timer.advance] using hrun, nofun⟩
  | nap | look => exact ⟨by simpa using hrun, fun a ha => by cases ha; exact Nat.le_refl _⟩
  | quitNap | quit | done => exact ⟨by simp only, nofun⟩
  | napAgain => exact ⟨hrun, hold⟩
  | wake | fire | call => exact ⟨by simpa [Timer.fire] using hrun, hold⟩

/-- An arming makes a thread or leaves it where it is. -/
theorem timerSet_cases (s : State) (spec : TimerSpec) (now : Timespec) (created : Bool) :
    (timerSet s spec now created).1.timer.generation = s.timer.generation + 1 ∧
    ((s.timer.threadRunning = false ∧ (timerSet s spec now created).1.phase = .begun ∧
        (timerSet s spec now created).1.timer.threadRunning = true ∧
        (timerSet s spec now created).2 = .ok ()) ∨
      ((timerSet s spec now created).1.phase = s.phase ∧
        (timerSet s spec now created).1.timer.threadRunning = s.timer.threadRunning)) := by
  unfold timerSet
  dsimp only
  split_ifs with hrun hactive hcreated
  · exact ⟨rfl, Or.inr ⟨rfl, rfl⟩⟩
  · exact ⟨rfl, Or.inl ⟨not_eq_true _ ▸ hrun, rfl, rfl, rfl⟩⟩
  · exact ⟨rfl, Or.inr ⟨rfl, rfl⟩⟩
  · exact ⟨rfl, Or.inr ⟨rfl, rfl⟩⟩

theorem coherent_set (hc : Coherent s) (spec : TimerSpec) (now : Timespec) (created : Bool) :
    Coherent (timerSet s spec now created).1 := by
  rcases timerSet_cases s spec now created with ⟨hgen, ⟨-, hphase, hrun, -⟩ | ⟨hphase, hrun⟩⟩
  · refine ⟨?_, fun a ha => ?_⟩
    · rw [hphase, hrun]
      simp
    · rw [hphase] at ha
      cases ha
  · refine ⟨?_, fun a ha => ?_⟩
    · rw [hphase, hrun]
      exact hc.running
    · rw [hphase] at ha
      rw [hgen]
      exact Nat.le_succ_of_le (hc.older a ha)

theorem coherent_step {a : Action} (hc : Coherent s) (h : Step s a s') : Coherent s' := by
  cases a with
  | set spec now created =>
    rcases Option.ite_none_left_eq_some.mp h with ⟨-, h⟩
    cases h
    exact coherent_set hc spec now created
  | thread now => exact coherent_move hc (threadStep_move h)

theorem coherent_run {tr : List (State × Action)} (hrun : Run Step timerNew tr s) : Coherent s :=
  run_invariant Coherent hrun ⟨by simp only [timerNew], nofun⟩
    fun _ _ _ _ hc hstep => coherent_step hc hstep

end IshAok.Timers
