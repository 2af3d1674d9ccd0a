import IshAok.Base.Run
import IshAok.Base.Timespec
import IshAok.Core.Errno

/-!
# Timers

The timers of `util/timer.c`, which itimers, POSIX timers and timerfds are
made of. Each timer has a thread that sleeps until its deadline (`end` in the
source, which is a word of Lean) and then makes a callback.

The thread works under the timer's lock and gives it up in two places: while
it naps, and while it makes its callback. What it keeps in locals across
those is an `Arming`, and `Phase` is where it stands. In the phases `head` and
`check` the lock is held, so no other thread's call comes between them and the
next step. `threadStep` takes the thread to its next phase. It reads the clock
at most once, and the reading is its argument: a nap ends whenever the reading
after it is taken, early or late.

The callback is the step out of `firing`. What it does belongs to the timer's
user.

Nanoseconds are not bounded here, since every pair the source makes has them
below a second. Seconds and totals wrap in 64 bits as they do on the hosts the
program runs on. A divisor that has wrapped to zero answers 0.

## Main definitions

* `timerPeriodsPast`, `timerPeriods`: Periods missed, and their length.
* `Timer`, `Phase`, `State`: A timer and its thread.
* `threadStep`: `timer_thread`.
* `timerSet`: `timer_set`.
* `Action`, `exec`: Armings and steps of the thread.
-/

namespace IshAok.Timers

open Base

/-- `TIMER_NS`. -/
def timerNs : Int := 1000000000

/-- `INT64_MAX`. -/
def int64Max : Int := 2 ^ 63 - 1

/-- `timer_periods_past`. -/
def timerPeriodsPast (deadline now interval : Timespec) : Nat :=
  if !interval.positive then 0
  else
    let behind := now.subtract deadline
    if !behind.positive || interval.sec > behind.sec then 0
    else
      let behind : Timespec :=
        if behind.sec ≥ int64Max / timerNs - 1 then ⟨int64Max / timerNs - 1, 0⟩ else behind
      let behindNs := wrap64 (behind.sec * timerNs + behind.nsec)
      let intervalNs := wrap64 (interval.sec * timerNs + interval.nsec)
      (behindNs.tdiv intervalNs % 2 ^ 64).toNat

/-- `timer_periods`. -/
def timerPeriods (periods : Nat) (interval : Timespec) : Timespec :=
  if periods = 0 then ⟨0, 0⟩
  else
    let ns := wrap64 (wrap64 periods * wrap64 (interval.sec * timerNs + interval.nsec))
    ⟨ns.tdiv timerNs, ns.tmod timerNs⟩

/-- `struct timer_spec`. -/
structure TimerSpec where
  value : Timespec
  interval : Timespec
  deriving DecidableEq, Repr

/-- `struct timer`. -/
structure Timer where
  start : Timespec
  deadline : Timespec
  interval : Timespec
  active : Bool
  threadRunning : Bool
  firing : Bool
  fired : Nat
  generation : Nat
  deriving DecidableEq, Repr

/-- What the thread has copied at the head of its loop. -/
structure Arming where
  generation : Nat
  deadline : Timespec
  interval : Timespec
  deriving DecidableEq, Repr

/-- Where the thread is. -/
inductive Phase
  /-- There is none. -/
  | none
  /-- It has been made and waits for the lock. -/
  | begun
  /-- At the head of the loop, with the lock. -/
  | head
  /-- In `timer_wake_wait`, without the lock. -/
  | napping (a : Arming)
  /-- Behind the inner loop, with the lock. -/
  | check (a : Arming)
  /-- It has decided to fire and given the lock up. -/
  | firing (a : Arming) (expirations : Nat)
  /-- The callback has been made. -/
  | returned (a : Arming) (expirations : Nat)
  deriving DecidableEq, Repr

/-- Whether the thread has the timer's lock. -/
def Phase.locked : Phase → Bool
  | .head => true
  | .check _ => true
  | _ => false

/-- A timer and its thread. -/
structure State where
  timer : Timer
  phase : Phase
  deriving DecidableEq, Repr

variable (s : State)

/-- The end of `timer_thread`. -/
def State.exit : State :=
  { timer := { s.timer with threadRunning := false }, phase := .none }

/-- `timer_thread`, from one phase to the next, with a reading of the clock. -/
def threadStep (now : Timespec) : Option State :=
  match s.phase with
  | .none => none
  | .begun => some { s with phase := .head }
  | .head =>
    let a : Arming := ⟨s.timer.generation, s.timer.deadline, s.timer.interval⟩
    if s.timer.active && (s.timer.deadline.subtract now).positive then
      some { s with phase := .napping a }
    else some { s with phase := .check a }
  | .napping a =>
    if !s.timer.active then some s.exit
    else if s.timer.generation = a.generation ∧ (s.timer.deadline.subtract now).positive then
      some s
    else some { s with phase := .check a }
  | .check a =>
    if !s.timer.active then some s.exit
    else if s.timer.generation ≠ a.generation then some { s with phase := .head }
    else if (s.timer.deadline.subtract now).positive then some { s with phase := .head }
    else
      some { timer := { s.timer with firing := true }
             phase := .firing a (1 + timerPeriodsPast a.deadline now a.interval) }
  | .firing a expirations => some { s with phase := .returned a expirations }
  | .returned a expirations =>
    let timer := { s.timer with firing := false, fired := s.timer.fired + 1 }
    if timer.generation ≠ a.generation then some { timer := timer, phase := .head }
    else if timer.active && a.interval.positive then
      let start := a.deadline.add (timerPeriods (expirations - 1) a.interval)
      some { timer := { timer with start := start, deadline := start.add a.interval }
             phase := .head }
    else some (State.exit { s with timer := timer })

/-- The fields `timer_set` writes. A sum that wraps is pinned to the far future. -/
def Timer.set (timer : Timer) (spec : TimerSpec) (now : Timespec) : Timer :=
  let deadline := now.add spec.value
  let deadline := if spec.value.sec ≥ 0 ∧ deadline.sec < now.sec then ⟨int64Max, 0⟩ else deadline
  { timer with
    generation := timer.generation + 1
    start := now
    deadline := deadline
    interval := spec.interval
    active := !spec.value.isZero }

/-- `timer_set`, by a caller that has the lock. `created` is whether a thread
    could be made, if one is needed. -/
def timerSet (spec : TimerSpec) (now : Timespec) (created : Bool) :
    State × Except Errno Unit :=
  let timer := s.timer.set spec now
  if timer.threadRunning then ({ s with timer := timer }, .ok ())
  else if timer.active then
    if created then ({ timer := { timer with threadRunning := true }, phase := .begun }, .ok ())
    else ({ s with timer := { timer with active := false } }, .error .eagain)
  else ({ s with timer := timer }, .ok ())

/-- `timer_new`. -/
def timerNew : State :=
  { timer := ⟨⟨0, 0⟩, ⟨0, 0⟩, ⟨0, 0⟩, false, false, false, 0, 0⟩, phase := .none }

/-- Armings and steps of the thread. -/
inductive Action
  | set (spec : TimerSpec) (now : Timespec) (created : Bool)
  | thread (now : Timespec)
  deriving DecidableEq, Repr

/-- What an action does. An arming waits while the thread has the lock. -/
def exec : Action → Option State
  | .set spec now created => if s.phase.locked then none else some (timerSet s spec now created).1
  | .thread now => threadStep s now

/-- An action as a step. -/
def Step (a : Action) (s' : State) : Prop :=
  exec s a = some s'

/-- A step of the thread alone. -/
def ThreadStep (now : Timespec) (s' : State) : Prop :=
  threadStep s now = some s'

end IshAok.Timers
