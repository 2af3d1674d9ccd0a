import IshAok.Core.Timer

/-!
# Timer Descriptors

`timerfd_settime`, `timerfd_read` and the callback of a timerfd, from
`kernel/time.c`, over the timer of `Core.Timer`. The counter `expirations` is
guarded by the descriptor's lock and the timer by its own. `timerfd_settime`
takes the first and then the second. The thread has neither when it makes its
callback, which takes the first.

The counter is kept as the list of what has been added to it since it was last
zero, each with the arming it was decided for. Its value is their sum, in 64
bits.

`timerfd_settime` holds the descriptor's lock throughout, so no callback and
no read comes between the arming and the reset of the counter, and a step of
the timer's thread in between touches nothing it reads. It is one step here.
Flags and times it refuses are not modelled, nor is the copy of the old value.

## Main definitions

* `Part`, `State`: The counter and the timer.
* `expirations`: The value of the counter.
* `Action`, `Answer`, `exec`: The calls and the thread.
-/

namespace IshAok.Timerfd

open Base
open Timers (TimerSpec)

/-- What one callback added, and the arming it was decided for. -/
structure Part where
  generation : Nat
  count : Nat
  deriving DecidableEq, Repr

/-- A timerfd and its timer. -/
structure State where
  timer : Timers.State
  parts : List Part
  deriving DecidableEq, Repr

/-- `fd->timerfd.expirations`. -/
def State.expirations (s : State) : Nat :=
  (s.parts.map (·.count)).sum % 2 ^ 64

/-- Calls on the descriptor, and steps of the timer's thread. -/
inductive Action
  | settime (spec : TimerSpec) (now : Timespec) (created : Bool)
  | read (bufsize : Nat) (nonblock : Bool)
  | poll
  | thread (now : Timespec)
  deriving DecidableEq, Repr

/-- What an action answers. -/
inductive Answer
  | done
  | error (e : Errno)
  /-- `timerfd_read` has put this into the buffer. -/
  | value (expirations : Nat)
  /-- `timerfd_read` waits. It looks again when it wakes, which is another read. -/
  | sleeps
  | ready (readable : Bool)
  deriving DecidableEq, Repr

/-- What the next step of the thread adds to the counter. -/
def callback (s : Timers.State) : List Part :=
  match s.phase with
  | .firing a expirations => [⟨a.generation, expirations⟩]
  | _ => []

/-- `timerfd_read`, up to where it waits. -/
def timerfdRead (s : State) (bufsize : Nat) (nonblock : Bool) : State × Answer :=
  if bufsize < 8 then (s, .error .einval)
  else if s.expirations = 0 then
    if nonblock then (s, .error .eagain) else (s, .sleeps)
  else ({ s with parts := [] }, .value s.expirations)

/-- What an action does and answers. An arming waits while the thread has the
    timer's lock. -/
def exec (s : State) : Action → Option (State × Answer)
  | .settime spec now created =>
    if s.timer.phase.locked then none
    else
      match Timers.timerSet s.timer spec now created with
      | (timer, .ok ()) => some ({ timer := timer, parts := [] }, .done)
      | (timer, .error e) => some ({ s with timer := timer }, .error e)
  | .read bufsize nonblock => some (timerfdRead s bufsize nonblock)
  | .poll => some (s, .ready (s.expirations ≠ 0))
  | .thread now => do
      let timer ← Timers.threadStep s.timer now
      return ({ timer := timer, parts := s.parts ++ callback s.timer }, .done)

/-- `timerfd_create`. -/
def initial : State :=
  { timer := Timers.timerNew, parts := [] }

/-- An action as a step, with its answer in the label. -/
def Step (s : State) (a : Action × Answer) (s' : State) : Prop :=
  exec s a.1 = some (s', a.2)

end IshAok.Timerfd
