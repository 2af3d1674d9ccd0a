import IshAok.Core.Timerfd
import IshAok.Theory.Timer.Moves

/-!
# What a Timerfd Counts

After `timerfd_settime` has returned, the counter should hold expiries of the
new arming only. The call bumps the timer's generation and clears the counter,
and a thread that has not decided yet finds the new generation and gives the
old expiry up. A thread that has already decided does not look again before it
makes its callback, so its count lands in the new counter.

`timerfd_current` says that this is the only way: what is counted after the
call is of its arming or a later one, whatever happens next, exactly if the
thread was not between its decision and its callback when the call was made.

## Main definitions

* `Fresh`: What holds of the counter and the thread after an arming.
* `Off`: What holds after a disarm, until the next arming.

## Theorems

* `exec_cases`: What an action does.
* `fresh_step`, `off_step`: Kept by every action.
* `timerfd_current`: What is counted after `timerfd_settime`.
* `timerfd_readable_disarmed`: A descriptor readable after a disarm.
-/

namespace IshAok.Timerfd

open Base Option List
open Timers (TimerSpec Arming)

/-- The thread has decided to fire and not made its callback. -/
def Deciding (s : State) : Prop :=
  ∃ a n, s.timer.phase = .firing a n

/-- An action arms nothing. -/
def Disarms : Action → Prop
  | .settime spec _ _ => spec.value.isZero = true
  | _ => True

/-- Counted and decided is only what belongs to generation `g` or a later one. -/
structure Fresh (g : Nat) (s : State) : Prop where
  generation : g ≤ s.timer.timer.generation
  parts : ∀ part ∈ s.parts, g ≤ part.generation
  deciding : ∀ a n, s.timer.phase = .firing a n → g ≤ a.generation

/-- Nothing is armed, counted or decided. -/
structure Off (s : State) : Prop where
  inactive : s.timer.timer.active = false
  parts : s.parts = []
  deciding : ∀ a n, s.timer.phase ≠ .firing a n

section

variable {s s' : State} {g : Nat} {a : Action} {ans : Answer}

/-- What an action does: the timer is set, nothing happens to it, or its thread takes
    a step. Only the thread adds to the counter. -/
theorem exec_cases (h : exec s a = some (s', ans)) :
    (∃ spec now created res, a = .settime spec now created ∧
      Timers.timerSet s.timer spec now created = (s'.timer, res) ∧ s'.parts ⊆ s.parts) ∨
    (s'.timer = s.timer ∧ s'.parts ⊆ s.parts) ∨
    ∃ now, Timers.threadStep s.timer now = some s'.timer ∧
      s'.parts = s.parts ++ callback s.timer := by
  cases a with
  | settime spec now created =>
    rcases ite_none_left_eq_some.mp h with ⟨-, h⟩
    rcases hset : Timers.timerSet s.timer spec now created with ⟨timer, res⟩
    rw [hset] at h
    cases res with
    | ok u =>
      cases h
      exact .inl ⟨spec, now, created, _, rfl, hset, nil_subset _⟩
    | error e =>
      cases h
      exact .inl ⟨spec, now, created, _, rfl, hset, List.Subset.refl _⟩
  | read bufsize nonblock =>
    have hread : (timerfdRead s bufsize nonblock).1.timer = s.timer ∧
        (timerfdRead s bufsize nonblock).1.parts ⊆ s.parts := by
      unfold timerfdRead
      split_ifs
      all_goals simp
    rw [some.inj h] at hread
    exact .inr (.inl hread)
  | poll =>
    cases h
    exact .inr (.inl ⟨rfl, List.Subset.refl _⟩)
  | thread now =>
    rcases bind_eq_some_iff.mp h with ⟨timer, hstep, h⟩
    cases h
    exact .inr (.inr ⟨now, hstep, rfl⟩)

variable {t : Timers.State} {spec : TimerSpec} {now : Timespec} {created : Bool}
  {res : Except Errno Unit}

variable {t' : Timers.State}

section

variable (h : Timers.timerSet t spec now created = (t', res))

include h

/-- The timer after `timer_set`: the thread is where it was, or it is new. -/
theorem set_phase :
    t'.timer.generation = t.timer.generation + 1 ∧ (t'.phase = t.phase ∨ t'.phase = .begun) := by
  rcases Timers.timerSet_cases t spec now created with ⟨hgen, ⟨-, hphase, -, -⟩ | ⟨hphase, -⟩⟩
  · rw [h] at hgen hphase
    exact ⟨hgen, .inr hphase⟩
  · rw [h] at hgen hphase
    exact ⟨hgen, .inl hphase⟩

theorem set_firing
    {b : Arming} {n : Nat} (hfiring : t'.phase = .firing b n) : t.phase = .firing b n := by
  rcases (set_phase h).2 with hphase | hphase
  · rw [← hphase, hfiring]
  · rw [hphase] at hfiring
    cases hfiring

theorem set_disarms (hzero : spec.value.isZero = true) : t'.timer.active = false := by
  have hactive : (t.timer.set spec now).active = false := by
    simp [Timers.Timer.set, hzero]
  unfold Timers.timerSet at h
  simp only [hactive, Bool.false_eq_true, if_false, ite_self, Prod.mk.injEq] at h
  rw [← h.1]
  exact hactive

end

theorem mem_callback {part : Part} (h : part ∈ callback t) :
    ∃ a n, t.phase = .firing a n ∧ part.generation = a.generation := by
  unfold callback at h
  split at h
  · next a n hphase =>
    rw [mem_singleton.mp h]
    exact ⟨a, n, hphase, rfl⟩
  · cases h

theorem callback_nil (h : ∀ a n, t.phase ≠ .firing a n) : callback t = [] := by
  unfold callback
  split
  · next a n hphase => exact absurd hphase (h a n)
  · rfl

theorem fresh_step (hf : Fresh g s) (h : exec s a = some (s', ans)) : Fresh g s' := by
  rcases exec_cases h with ⟨spec, now, created, res, -, hset, hparts⟩ | ⟨htimer, hparts⟩ |
    ⟨now, hstep, hparts⟩
  · refine ⟨?_, fun part hpart => hf.parts part (hparts hpart),
      fun b n hphase => hf.deciding b n (set_firing hset hphase)⟩
    rw [(set_phase hset).1]
    exact Nat.le_succ_of_le hf.generation
  · exact ⟨htimer ▸ hf.generation, fun part hpart => hf.parts part (hparts hpart),
      htimer ▸ hf.deciding⟩
  · have hmove := Timers.threadStep_move hstep
    -- The thread decides only for the generation it finds, and counts what it decided.
    refine ⟨?_, fun part hpart => ?_, fun b n hphase => ?_⟩
    · rw [(Timers.move_same hmove).1]
      exact hf.generation
    · rw [hparts] at hpart
      rcases mem_append.mp hpart with hold | hnew
      · exact hf.parts part hold
      · rcases mem_callback hnew with ⟨b, n, hphase, hgen⟩
        rw [hgen]
        exact hf.deciding b n hphase
    · rw [← (Timers.move_decides hmove hphase).2.2.1]
      exact hf.generation

theorem off_step (ho : Off s) (hdisarms : Disarms a) (h : exec s a = some (s', ans)) : Off s' := by
  rcases exec_cases h with ⟨spec, now, created, res, rfl, hset, hparts⟩ | ⟨htimer, hparts⟩ |
    ⟨now, hstep, hparts⟩
  · exact ⟨set_disarms hset hdisarms, subset_nil.mp (ho.parts ▸ hparts),
      fun b n hphase => ho.deciding b n (set_firing hset hphase)⟩
  · exact ⟨htimer ▸ ho.inactive, subset_nil.mp (ho.parts ▸ hparts), htimer ▸ ho.deciding⟩
  · have hmove := Timers.threadStep_move hstep
    refine ⟨(Timers.move_same hmove).2.1.trans ho.inactive, ?_, fun b n hphase => ?_⟩
    · rw [hparts, ho.parts, callback_nil ho.deciding, append_nil]
    · have hactive := (Timers.move_decides hmove hphase).2.1
      rw [ho.inactive] at hactive
      cases hactive

end

theorem coherent_timer {s : State} {tr : List (State × (Action × Answer))}
    (hrun : Run Step initial tr s) : Timers.Coherent s.timer := by
  refine run_invariant (fun s => Timers.Coherent s.timer) hrun
    (Timers.coherent_run Run.nil) fun u a v _ hc hstep => ?_
  rcases exec_cases hstep with ⟨spec, now, created, res, -, hset, -⟩ | ⟨htimer, -⟩ |
    ⟨now, hthread, -⟩
  · have hnew := Timers.coherent_set hc spec now created
    rw [hset] at hnew
    exact hnew
  · exact htimer ▸ hc
  · exact Timers.coherent_move hc (Timers.threadStep_move hthread)

/-- After `timerfd_settime` has returned 0, every part of the counter is of its
    arming or a later one in whatever follows, and after a disarm the counter
    stays empty until the next arming, exactly if the thread was not between its
    decision and its callback. -/
theorem timerfd_current {tr₀ : List (State × (Action × Answer))} {s₀ s₁ : State}
    {spec : TimerSpec} {now : Timespec} {created : Bool} (hbefore : Run Step initial tr₀ s₀)
    (hset : Step s₀ (.settime spec now created, .done) s₁) :
    (∀ tr s, Run Step s₁ tr s →
      (∀ part ∈ s.parts, s₁.timer.timer.generation ≤ part.generation) ∧
      (spec.value.isZero = true → (∀ p ∈ tr, Disarms p.2.1) →
        s.expirations = 0 ∧ exec s .poll = some (s, .ready false))) ↔
    ¬Deciding s₀ := by
  have hcoherent := coherent_timer hbefore
  have h : exec s₀ (.settime spec now created) = some (s₁, .done) := hset
  rcases ite_none_left_eq_some.mp h with ⟨hlock, h'⟩
  rcases hres : Timers.timerSet s₀.timer spec now created with ⟨timer, res⟩
  rw [hres] at h'
  cases res with
  | error e => cases h'
  | ok u =>
  cases h'
  rcases set_phase hres with ⟨hgen, hphase⟩
  constructor
  · rintro hall ⟨a, n, hfiring⟩
    -- The callback that was decided before the call is the next step.
    have hsame : timer.phase = .firing a n := by
      rcases Timers.timerSet_cases s₀.timer spec now created with ⟨-, ⟨hstopped, -⟩ | ⟨hkept, -⟩⟩
      · have hnone := hcoherent.running.mpr hstopped
        rw [hfiring] at hnone
        cases hnone
      · rw [hres] at hkept
        exact hkept.trans hfiring
    have hstep : Step ⟨timer, []⟩ (.thread now, .done)
        ⟨{ timer with phase := .returned a n }, [⟨a.generation, n⟩]⟩ := by
      unfold Step exec Timers.threadStep callback
      rw [hsame]
      rfl
    have hpart := (hall _ _ (Run.snoc _ _ _ [] Run.nil hstep)).1 ⟨a.generation, n⟩
      (mem_singleton.mpr rfl)
    have hold := hcoherent.older a (by rw [hfiring]; rfl)
    dsimp only at hpart
    omega
  · intro hnot tr s hrun
    have hdeciding : ∀ a n, timer.phase ≠ .firing a n :=
      fun a n hfiring => hnot ⟨a, n, set_firing hres hfiring⟩
    have hfresh : Fresh timer.timer.generation ⟨timer, []⟩ :=
      ⟨Nat.le_refl _, fun part hpart => (by cases hpart),
        fun a n hfiring => absurd hfiring (hdeciding a n)⟩
    refine ⟨(run_invariant (Fresh timer.timer.generation) hrun hfresh
      fun _ _ _ _ hf hstep => fresh_step hf hstep).parts, fun hzero hdisarms => ?_⟩
    have hoff : Off ⟨timer, []⟩ := ⟨set_disarms hres hzero, rfl, hdeciding⟩
    have hend : Off s := run_invariant Off hrun hoff
      fun u a v hmem ho hstep => off_step ho (hdisarms (u, a) hmem) hstep
    have hzero : s.expirations = 0 := by
      unfold State.expirations
      rw [hend.parts]
      rfl
    refine ⟨hzero, ?_⟩
    unfold exec
    rw [hzero]
    rfl

/-- Whether the thread is between its decision and its callback. -/
def deciding (s : State) : Bool :=
  match s.timer.phase with
  | .firing _ _ => true
  | _ => false

theorem not_deciding {s : State} (h : deciding s = false) : ¬Deciding s := by
  rintro ⟨a, n, hphase⟩
  rw [deciding, hphase] at h
  cases h

/-- A timerfd is armed for one second and disarmed while its thread naps. -/
theorem timerfd_current_napping : ∃ tr₀ s₀ s₁, Run Step initial tr₀ s₀ ∧
      Step s₀ (.settime ⟨⟨0, 0⟩, ⟨0, 0⟩⟩ ⟨6, 0⟩ true, .done) s₁ ∧
      ∀ tr s, Run Step s₁ tr s → (∀ p ∈ tr, Disarms p.2.1) → s.expirations = 0 := by
  have hcomputed : (runList exec initial
      [.settime ⟨⟨1, 0⟩, ⟨0, 0⟩⟩ ⟨5, 0⟩ true, .thread ⟨5, 0⟩, .thread ⟨5, 0⟩]).bind (fun r =>
      (exec r.2 (.settime ⟨⟨0, 0⟩, ⟨0, 0⟩⟩ ⟨6, 0⟩ true)).map fun q => (deciding r.2, q.2)) =
      some (false, .done) := by
    decide +kernel
  rcases bind_eq_some_iff.mp hcomputed with ⟨⟨tr₀, s₀⟩, htr, h⟩
  rcases map_eq_some_iff.mp h with ⟨⟨s₁, ans⟩, hset, hval⟩
  simp only [Prod.mk.injEq] at hval
  rcases hval with ⟨hnot, rfl⟩
  have hrun : Run Step initial tr₀ s₀ := run_of_runList _ _ _ _ htr
  refine ⟨tr₀, s₀, s₁, hrun, hset, fun tr s hafter hdisarms => ?_⟩
  exact (((timerfd_current hrun hset).mpr (not_deciding hnot) tr s hafter).2 rfl hdisarms).1

/-- The thread decides to fire, the descriptor is disarmed, and the callback
    makes it readable. -/
theorem timerfd_readable_disarmed :
    ∃ tr₀ s₀ s₁ s₂, Run Step initial tr₀ s₀ ∧
      Step s₀ (.settime ⟨⟨0, 0⟩, ⟨0, 0⟩⟩ ⟨7, 0⟩ true, .done) s₁ ∧
      Step s₁ (.thread ⟨7, 0⟩, .done) s₂ ∧ s₂.timer.timer.active = false ∧
      Step s₂ (.poll, .ready true) s₂ ∧
      Step s₂ (.read 8 true, .value 1) { s₂ with parts := [] } := by
  have hcomputed : (runList exec initial [.settime ⟨⟨1, 0⟩, ⟨0, 0⟩⟩ ⟨5, 0⟩ true,
      .thread ⟨5, 0⟩, .thread ⟨6, 0⟩, .thread ⟨6, 0⟩]).bind (fun r =>
      (exec r.2 (.settime ⟨⟨0, 0⟩, ⟨0, 0⟩⟩ ⟨7, 0⟩ true)).bind fun q =>
      (exec q.1 (.thread ⟨7, 0⟩)).map fun w =>
        (q.2, w.2, w.1.timer.timer.active, decide (w.1.expirations = 1))) =
      some (.done, .done, false, true) := by
    decide +kernel
  rcases bind_eq_some_iff.mp hcomputed with ⟨⟨tr₀, s₀⟩, htr, h⟩
  rcases bind_eq_some_iff.mp h with ⟨⟨s₁, a₁⟩, h₁, h⟩
  rcases map_eq_some_iff.mp h with ⟨⟨s₂, a₂⟩, h₂, hval⟩
  simp only [Prod.mk.injEq, decide_eq_true_eq] at hval
  rcases hval with ⟨rfl, rfl, hinactive, hcount⟩
  refine ⟨tr₀, s₀, s₁, s₂, run_of_runList _ _ _ _ htr, h₁, h₂, hinactive, ?_, ?_⟩
  · unfold Step exec
    rw [hcount]
    rfl
  · unfold Step exec timerfdRead
    rw [hcount]
    rfl

end IshAok.Timerfd
