import IshAok.Core.PosixTimer
import IshAok.Theory.Timer.Grid

/-!
# Timers of a Dead Thread

A timer on the CPU clock of a thread that no longer exists should not fire.
The clock of such a thread reads far in the future, and a timer fires when its
clock is past the deadline, so it fires at once. It is quiet only where the
deadline is farther still.

`dead_thread_timer` has both: no callback for an arming whose deadline is
behind that reading, whatever the thread does, and for any other a schedule
that makes one as soon as the thread is gone.

## Main definitions

* `Far`: The deadline is behind the reading for a thread that is gone.
* `Quiet`: No callback of the arming has been decided.
* `Waiting`: The thread is on its way to the deadline.

## Theorems

* `quiet_step`: A far deadline is never decided.
* `waiting_fires`: Another one is, when the thread is gone.
* `dead_thread_timer`: Both, for every arming.
-/

namespace IshAok.PosixTimers

open Base Option List
open Timers (TimerSpec Move Coherent callsBack)

/-- The deadline is behind the reading for a thread that is gone. -/
def Far (deadline : Timespec) : Prop :=
  Timers.int64Max / 2 < deadline.sec ∨ (deadline.sec = Timers.int64Max / 2 ∧ 0 < deadline.nsec)

instance (deadline : Timespec) : Decidable (Far deadline) :=
  inferInstanceAs (Decidable (_ ∨ _))

/-- A deadline as sums leave it. -/
def Ordinary (t : Timespec) : Prop :=
  t.Normal ∧ t.sec < 2 ^ 63

theorem forever_sec : forever.sec = 4611686018427387903 := by
  decide

/-- Every reading is a small number of seconds, or that of a thread that is gone. -/
theorem reading_bounds {task : Option Nat} (h : ∀ ns, task = some ns → ns < 2 ^ 64) :
    (posixTimerThreadCpuNow task).Normal ∧ 0 ≤ (posixTimerThreadCpuNow task).sec ∧
      (posixTimerThreadCpuNow task).total ≤ forever.total := by
  cases task with
  | none => exact ⟨by decide, by decide, Int.le_refl _⟩
  | some ns =>
    have hlt := h ns rfl
    have hforever : forever.total = 4611686018427387903 * 1000000000 := by decide
    rw [hforever]
    unfold posixTimerThreadCpuNow Timespec.Normal Timespec.total
    dsimp only
    omega

/-- A far deadline is after every reading. -/
theorem far_early {timer : Timers.Timer} (task : Option Nat)
    (h : ∀ ns, task = some ns → ns < 2 ^ 64) (ho : Ordinary timer.deadline)
    (hfar : Far timer.deadline) : timer.early (posixTimerThreadCpuNow task) = true := by
  rcases reading_bounds h with ⟨hnormal, hpos, hle⟩
  have hsec := forever_sec
  have hforever : forever.total = 4611686018427387903 * 1000000000 := by decide
  have hmax : Timers.int64Max / 2 = 4611686018427387903 := by decide
  unfold Far at hfar
  have hd := ho.1
  have hn := hnormal
  unfold Timespec.Normal at hd hn
  have hhigh := ho.2
  rw [hforever] at hle
  have hbound : (posixTimerThreadCpuNow task).sec ≤ 4611686018427387903 := by
    unfold Timespec.total at hle
    omega
  rcases Timespec.subtract_total_of_sec ho.1 hnormal (by omega) hhigh (by omega) (by omega)
    with ⟨hsn, hst⟩
  show (timer.deadline.subtract _).positive = true
  rw [Timespec.positive_iff hsn, hst]
  have hdt : timer.deadline.total = timer.deadline.sec * 1000000000 + timer.deadline.nsec := rfl
  omega

/-- Any other deadline is not after the reading for a thread that is gone. -/
theorem near_due {timer : Timers.Timer} (ho : Ordinary timer.deadline)
    (hpos : 0 ≤ timer.deadline.sec) (hnear : ¬Far timer.deadline) :
    timer.early forever = false := by
  have hsec := forever_sec
  have hmax : Timers.int64Max / 2 = 4611686018427387903 := by decide
  have hforever : forever.total = 4611686018427387903 * 1000000000 := by decide
  unfold Far at hnear
  have hd := ho.1
  unfold Timespec.Normal at hd
  rcases Timespec.subtract_total_of_sec ho.1 (show forever.Normal by decide) (by omega) ho.2
    (by omega) (by omega) with ⟨hsn, hst⟩
  show (timer.deadline.subtract forever).positive = false
  rw [← Bool.not_eq_true, Timespec.positive_iff hsn, hst]
  have hdt : timer.deadline.total = timer.deadline.sec * 1000000000 + timer.deadline.nsec := rfl
  omega

/-! ### Far deadlines -/

/-- No callback of the arming `g` has been decided, and its deadline is where
    it was set. -/
structure Quiet (g : Nat) (deadline : Timespec) (s : Timers.State) : Prop where
  later : g ≤ s.timer.generation
  deadline : s.timer.generation = g → s.timer.deadline = deadline
  undecided : ∀ a n, s.phase = .firing a n ∨ s.phase = .returned a n → a.generation ≠ g

section

variable {s s' : Timers.State} {g : Nat} {d : Timespec}

theorem quiet_callsBack (h : Quiet g d s) : callsBack g s = false := by
  unfold callsBack
  split
  · next a n hphase => exact decide_eq_false (h.undecided a n (.inl hphase))
  · rfl

/-- A thread that does not decide for the arming leaves it as it is. -/
theorem quiet_move {now : Timespec} (h : Quiet g d s) (hmove : Move now s s')
    (hnot : callsBack g s' = false) : Quiet g d s' := by
  have hgen := (Timers.move_same hmove).1
  refine ⟨hgen ▸ h.later, fun hg => ?_, fun a n hphase => ?_⟩
  · have hbefore := h.deadline (hgen ▸ hg)
    cases hmove with
    | advance timer a n hsame hactive hperiodic =>
      exact absurd (hsame.symm.trans (hgen ▸ hg)) (h.undecided a n (.inr rfl))
    | _ => exact hbefore
  · rcases hphase with hphase | hphase
    · rw [callsBack, hphase] at hnot
      exact of_decide_eq_false hnot
    cases hmove with
    | call timer b m =>
      cases hphase
      exact h.undecided a n (.inl rfl)
    | _ => cases hphase

theorem quiet_step {a : ThreadCpuAction} (h : Quiet g d s) (ho : Ordinary d) (hfar : Far d)
    (htask : ∀ ns, a.task = some ns → ns < 2 ^ 64) (hstep : ThreadCpuStep s a s') :
    Quiet g d s' := by
  cases a with
  | set spec task created =>
    rcases ite_none_left_eq_some.mp hstep with ⟨-, hset⟩
    have hres := some.inj hset
    rcases Timers.timerSet_cases s spec (posixTimerThreadCpuNow task) created
      with ⟨hgen, hphase⟩
    rw [hres] at hgen hphase
    have hlater := h.later
    refine ⟨by omega, fun hg => absurd hg (by omega), fun b n hb => ?_⟩
    rcases hphase with ⟨-, hphase, -⟩ | ⟨hphase, -⟩
    · rw [hphase] at hb
      rcases hb with hb | hb <;> cases hb
    rw [hphase] at hb
    exact h.undecided b n hb
  | thread task =>
    have hmove := Timers.threadStep_move hstep
    refine quiet_move h hmove ?_
    -- A decision for the arming would have found its deadline in the past.
    unfold callsBack
    split
    · next a n hphase =>
      rcases Timers.move_decides hmove hphase with ⟨-, -, hsame, hdue, -⟩
      refine decide_eq_false fun hg => ?_
      have hd := h.deadline (hsame.trans hg)
      rw [far_early task htask (hd ▸ ho) (hd ▸ hfar)] at hdue
      cases hdue
    · rfl

end

/-! ### Other deadlines -/

/-- The thread is on its way to the deadline of the arming `g`. -/
structure Waiting (g : Nat) (deadline : Timespec) (s : Timers.State) : Prop
    extends Quiet g deadline s where
  current : s.timer.generation = g
  active : s.timer.active = true
  running : s.phase ≠ .none

/-- From here on a thread that is gone makes the arming fire. -/
def Fires (g : Nat) (s : Timers.State) : Prop :=
  ∃ tr s', Run ThreadCpuStep s tr s' ∧ (∀ p ∈ tr, p.2 = .thread none) ∧ callsBack g s' = true

section

variable {s s' : Timers.State} {g : Nat} {d : Timespec}

theorem waiting_move {now : Timespec} (h : Waiting g d s) (hmove : Move now s s')
    (hnot : callsBack g s' = false) : Waiting g d s' := by
  have hquiet := quiet_move h.toQuiet hmove hnot
  rcases Timers.move_same hmove with ⟨hgen, hactive, -⟩
  refine ⟨hquiet, hgen.trans h.current, hactive.trans h.active, fun hnone => ?_⟩
  cases hmove with
  | quitNap _ _ hoff | quit _ _ hoff => exact absurd (h.active.symm.trans hoff) (by decide)
  | done timer a n hsame hlast =>
    exact h.undecided a n (.inr rfl) (hsame.symm.trans h.current)
  | _ => cases hnone

theorem fires_move (hmove : Move forever s s') (h : Fires g s') : Fires g s := by
  rcases h with ⟨tr, u, hrun, hnone, hcalls⟩
  have hfirst : ThreadCpuStep s (.thread none) s' := Timers.move_threadStep hmove
  refine ⟨_, u, run_append (Run.snoc s s' (.thread none) [] Run.nil hfirst) hrun,
    fun p hp => ?_, hcalls⟩
  rcases mem_append.mp hp with hp | hp
  · rw [mem_singleton.mp hp]
  · exact hnone p hp

theorem fires_check {timer : Timers.Timer} {a : Timers.Arming} (hactive : timer.active = true)
    (hgen : timer.generation = g) (hsame : a.generation = g)
    (hdue : timer.early forever = false) : Fires g ⟨timer, .check a⟩ :=
  fires_move (.fire timer a hactive (hgen.trans hsame.symm) hdue)
    ⟨[], _, Run.nil, fun p hp => (by cases hp), decide_eq_true hsame⟩

theorem fires_head {timer : Timers.Timer} (hactive : timer.active = true)
    (hgen : timer.generation = g) (hdue : timer.early forever = false) :
    Fires g ⟨timer, .head⟩ :=
  fires_move (.look timer fun _ => hdue) (fires_check hactive hgen hgen hdue)

/-- Wherever the thread is, it goes on to fire. -/
theorem waiting_fires (h : Waiting g d s) (hdue : s.timer.early forever = false) : Fires g s := by
  rcases s with ⟨timer, phase⟩
  have hactive : timer.active = true := h.active
  have hgen : timer.generation = g := h.current
  have hhead : Fires g ⟨timer, .head⟩ := fires_head hactive hgen hdue
  -- A thread at work for an older arming comes back to the head of its loop.
  have hcheck : ∀ a, Fires g ⟨timer, .check a⟩ := by
    intro a
    by_cases hsame : a.generation = g
    · exact fires_check hactive hgen hsame hdue
    · exact fires_move (.stale timer a hactive fun h => hsame (h.symm.trans hgen)) hhead
  have hreturned : ∀ a n, a.generation ≠ g → Fires g ⟨timer, .returned a n⟩ := by
    intro a n hother
    exact fires_move (.returnStale timer a n fun h => hother (h.symm.trans hgen))
      (fires_head hactive hgen hdue)
  cases phase with
  | none => exact absurd rfl h.running
  | begun => exact fires_move (.enter timer) hhead
  | head => exact hhead
  | napping a => exact fires_move (.wake timer a hactive fun _ => hdue) (hcheck a)
  | check a => exact hcheck a
  | firing a n =>
    exact fires_move (.call timer a n) (hreturned a n (h.undecided a n (.inl rfl)))
  | returned a n => exact hreturned a n (h.undecided a n (.inr rfl))

/-- The thread stays on its way until it decides. -/
theorem waiting_run {tr : List (Timers.State × ThreadCpuAction)}
    (hrun : Run ThreadCpuStep s tr s') (h : Waiting g d s)
    (hthread : ∀ p ∈ tr, ∃ lookup, p.2 = .thread lookup)
    (hcalls : ∀ p ∈ tr, callsBack g p.1 = false) (hlast : callsBack g s' = false) :
    Waiting g d s' := by
  induction hrun with
  | nil => exact h
  | snoc u v a tr hrun hstep ih =>
    have hmem : (u, a) ∈ tr ++ [(u, a)] := mem_append_right _ (mem_singleton.mpr rfl)
    have hu := ih (fun p hp => hthread p (mem_append_left _ hp))
      (fun p hp => hcalls p (mem_append_left _ hp)) (hcalls (u, a) hmem)
    rcases hthread (u, a) hmem with ⟨lookup, rfl⟩
    exact waiting_move hu (Timers.threadStep_move hstep) hlast

/-- An arming is quiet at first, and the thread of an active one is on its way. -/
theorem set_quiet {spec : TimerSpec} {task : Option Nat} {created : Bool} (hc : Coherent s)
    (hset : ThreadCpuStep s (.set spec task created) s') :
    Quiet s'.timer.generation s'.timer.deadline s' ∧
      (s'.timer.active = true → Waiting s'.timer.generation s'.timer.deadline s') := by
  rcases ite_none_left_eq_some.mp hset with ⟨-, h⟩
  have hres := some.inj h
  rcases Timers.timerSet_cases s spec (posixTimerThreadCpuNow task) created with ⟨hgen, hphase⟩
  rw [hres] at hgen hphase
  have hquiet : Quiet s'.timer.generation s'.timer.deadline s' := by
    refine ⟨Nat.le_refl _, fun _ => rfl, fun b n hb hg => ?_⟩
    rcases hphase with ⟨-, hphase, -⟩ | ⟨hphase, -⟩
    · rw [hphase] at hb
      rcases hb with hb | hb <;> cases hb
    rw [hphase] at hb
    have hold := hc.older b (by rcases hb with hb | hb <;> · rw [hb]; rfl)
    omega
  refine ⟨hquiet, fun hactive => ⟨hquiet, rfl, hactive, fun hnone => ?_⟩⟩
  rcases hphase with ⟨-, hphase, -⟩ | ⟨hphase, hrunning⟩
  · rw [hphase] at hnone
    cases hnone
  -- Without a thread an arming that could not make one is not active.
  have hstopped := hc.running.mp (hphase.symm.trans hnone)
  unfold Timers.timerSet at hres
  rw [if_neg (show ¬(s.timer.set spec (posixTimerThreadCpuNow task)).threadRunning = true by
    rw [show (s.timer.set spec (posixTimerThreadCpuNow task)).threadRunning = false
      from hstopped]
    exact Bool.false_ne_true)] at hres
  split_ifs at hres with hvalue hcreated
  · rw [← hres] at hnone
    cases hnone
  · rw [← hres] at hactive
    cases hactive
  · rw [← hres] at hactive
    exact hvalue hactive

/-- The deadline of an arming is an ordinary time. -/
theorem set_ordinary {spec : TimerSpec} {task : Option Nat} {created : Bool}
    (htask : ∀ ns, task = some ns → ns < 2 ^ 64) (hv : spec.value.Normal)
    (hset : ThreadCpuStep s (.set spec task created) s') : Ordinary s'.timer.deadline := by
  rcases ite_none_left_eq_some.mp hset with ⟨-, h⟩
  have hres := some.inj h
  have hdeadline : s'.timer.deadline =
      (s.timer.set spec (posixTimerThreadCpuNow task)).deadline := by
    rw [← hres]
    unfold Timers.timerSet
    dsimp only
    split_ifs <;> rfl
  rw [hdeadline]
  unfold Timers.Timer.set
  dsimp only
  have hn := (reading_bounds htask).1
  unfold Timespec.Normal at hn hv
  split
  · exact ⟨by show (0 : Int) ≤ 0 ∧ (0 : Int) < 1000000000; decide, by decide⟩
  unfold Timespec.add Ordinary Timespec.Normal wrap64
  split
  · dsimp only
    omega
  dsimp only
  omega

end

/-- For every arming of a timer on the CPU clock of one thread: if its deadline
    is farther than the reading for a thread that is gone, no callback is ever made
    for it. If not, and the thread is gone before the first callback, the timer
    fires. `Small` is not used: it only keeps out intervals with which the source
    has undefined behaviour. -/
theorem dead_thread_timer {tr₀ : List (Timers.State × Timers.Action)} {s₀ s₁ : Timers.State}
    {spec : TimerSpec} {task : Option Nat} {created : Bool}
    (hbefore : Run Timers.Step Timers.timerNew tr₀ s₀)
    (htask : ∀ ns, task = some ns → ns < 2 ^ 64) (hv : spec.value.Normal)
    (hset : ThreadCpuStep s₀ (.set spec task created) s₁) :
    (Far s₁.timer.deadline → ∀ tr s, Run ThreadCpuStep s₁ tr s →
      (∀ p ∈ tr, ∀ ns, p.2.task = some ns → ns < 2 ^ 64) →
      callsBack s₁.timer.generation s = false) ∧
    (¬Far s₁.timer.deadline → 0 ≤ s₁.timer.deadline.sec → s₁.timer.active = true →
      Timers.Small s₁.timer.interval → ∀ tr s, Run ThreadCpuStep s₁ tr s →
      (∀ p ∈ tr, ∃ lookup, p.2 = .thread lookup) →
      (∀ p ∈ tr, callsBack s₁.timer.generation p.1 = false) →
      callsBack s₁.timer.generation s = false →
      ∃ tr' s', Run ThreadCpuStep s tr' s' ∧ (∀ p ∈ tr', p.2 = .thread none) ∧
        callsBack s₁.timer.generation s' = true) := by
  rcases set_quiet (Timers.coherent_run hbefore) hset with ⟨hquiet, hwaiting⟩
  have hord := set_ordinary htask hv hset
  constructor
  · intro hfar tr s hrun htasks
    have hend : Quiet s₁.timer.generation s₁.timer.deadline s :=
      run_invariant _ hrun hquiet fun u a v hmem hq hstep =>
        quiet_step hq hord hfar (htasks (u, a) hmem) hstep
    exact quiet_callsBack hend
  · intro hnear hpos hactive _ tr s hrun hthread hcalls hlast
    have hend := waiting_run hrun (hwaiting hactive) hthread hcalls hlast
    have hdeadline := hend.deadline hend.current
    exact waiting_fires hend (near_due (hdeadline ▸ hord) (hdeadline ▸ hpos) (hdeadline ▸ hnear))

/-- A timer armed for `INT64_MAX` seconds at 5 seconds of CPU time. -/
theorem dead_thread_timer_far : ∃ s₁, ThreadCpuStep Timers.timerNew
        (.set ⟨⟨9223372036854775807, 0⟩, ⟨0, 0⟩⟩ (some 5000000000) true) s₁ ∧
      Far s₁.timer.deadline ∧
      ∀ tr s, Run ThreadCpuStep s₁ tr s →
        (∀ p ∈ tr, ∀ ns, p.2.task = some ns → ns < 2 ^ 64) → callsBack 1 s = false := by
  have htask : ∀ ns, some 5000000000 = some ns → ns < 2 ^ 64 := by
    intro ns hns
    cases hns
    decide
  refine ⟨_, rfl, by decide, fun tr s hrun htasks => ?_⟩
  exact (dead_thread_timer Run.nil htask (by decide) rfl).1 (by decide) tr s hrun htasks

/-- A timer armed for one second at 5 seconds of CPU time fires as soon as its
    thread is gone. -/
theorem dead_thread_timer_fires : ∃ tr s, Run ThreadCpuStep Timers.timerNew tr s ∧
      tr.map (fun p => p.2) = [.set ⟨⟨1, 0⟩, ⟨0, 0⟩⟩ (some 5000000000) true,
        .thread (some 5000000000), .thread (some 5100000000), .thread none, .thread none] ∧
      (5100000000 : Int) < s.timer.deadline.total ∧ callsBack 1 s = true := by
  have hcomputed : (runActions (fun s (a : ThreadCpuAction) => Timers.exec s a.reading)
      Timers.timerNew [.set ⟨⟨1, 0⟩, ⟨0, 0⟩⟩ (some 5000000000) true,
        .thread (some 5000000000), .thread (some 5100000000), .thread none, .thread none]).map
      (fun r => (r.1.map fun p => p.2, decide ((5100000000 : Int) < r.2.timer.deadline.total),
        callsBack 1 r.2)) =
      some ([.set ⟨⟨1, 0⟩, ⟨0, 0⟩⟩ (some 5000000000) true, .thread (some 5000000000),
        .thread (some 5100000000), .thread none, .thread none], true, true) := by
    decide +kernel
  rcases map_eq_some_iff.mp hcomputed with ⟨⟨tr, s⟩, htr, hval⟩
  simp only [Prod.mk.injEq, decide_eq_true_eq] at hval
  exact ⟨tr, s, run_of_runActions _ _ _ _ htr, hval.1, hval.2.1, hval.2.2⟩

end IshAok.PosixTimers
