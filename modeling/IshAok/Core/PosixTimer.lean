import IshAok.Base.Limits
import IshAok.Core.Timer

/-!
# POSIX Timers

The timers of `timer_create`, from `kernel/time.c` and `kernel/signal.c`, over
the timers of `Core.Timer`.

A timer on the CPU clock of one thread reads that clock by the thread's
number. `ThreadCpuAction` is an action on such a timer, with what the lookup
finds in place of a reading: the thread's CPU time in nanoseconds, or nothing
once there is no thread of that number.

A process has `TIMERS_MAX` slots. A timer's callback is given its slot, which
it reads without a lock: it looks for a queued signal of the slot to count its
expirations on and, if there is none, queues one. These are two sections under
the lock of the signal queues, with nothing held in between. `timer_delete`
does not wait for a callback. It empties the slot in one section and takes the
mark off the slot's queued signals in another.

All queues of the process are one list here, and each entry says whose queue
it is in. Signals are never ignored or flushed and the targets of timers do
not exit. What the model leaves of a siginfo is what the timers read: the
signal, the slot and the count of overruns. Taking a signal also latches
`last_overrun`, which no decision here reads.

## Main definitions

* `posixTimerThreadCpuNow`: The clock of one thread.
* `Entry`, `Slot`, `Object`, `State`: Queued signals, slots, timers and all of them.
* `signalTimerCountOverrun`, `signalTimerDisown`: The two passes over the queues.
* `Action`, `exec`: The calls, the callbacks and the takes.
-/

namespace IshAok.PosixTimers

open Base
open Timers (TimerSpec)

/-! ### The CPU clock of a thread -/

/-- What the clock of a thread that is gone reads. -/
def forever : Timespec :=
  ⟨Timers.int64Max / 2, 0⟩

/-- `posix_timer_thread_cpu_now`, for what the lookup of the thread found. -/
def posixTimerThreadCpuNow : Option Nat → Timespec
  | none => forever
  | some ns => ⟨ns / 1000000000, ns % 1000000000⟩

/-- An action on a timer of the CPU clock of one thread. -/
inductive ThreadCpuAction
  | set (spec : TimerSpec) (task : Option Nat) (created : Bool)
  | thread (task : Option Nat)
  deriving DecidableEq, Repr

/-- What the lookup of an action found. -/
def ThreadCpuAction.task : ThreadCpuAction → Option Nat
  | .set _ task _ => task
  | .thread task => task

/-- The action with the reading its lookup gives. -/
def ThreadCpuAction.reading : ThreadCpuAction → Timers.Action
  | .set spec task created => .set spec (posixTimerThreadCpuNow task) created
  | .thread task => .thread (posixTimerThreadCpuNow task)

/-- A step of a timer of the CPU clock of one thread. -/
def ThreadCpuStep (s : Timers.State) (a : ThreadCpuAction) (s' : Timers.State) : Prop :=
  Timers.Step s a.reading s'

/-! ### Slots and queues -/

/-- `TIMERS_MAX`. -/
def timersMax : Nat := 128

/-- The method of a sigevent: `SIGEV_NONE_`, `SIGEV_SIGNAL_` and
    `SIGEV_THREAD_ID_`. -/
inductive Method
  | silent
  | process
  | thread (tid : Nat)
  deriving DecidableEq, Repr

/-- `struct sigqueue`. `place` is the thread whose queue it is in, and none for
    the queue of the process. -/
structure Entry where
  place : Option Nat
  sig : Nat
  timer : Nat
  overrun : Nat
  fromTimer : Bool
  deriving DecidableEq, Repr

/-- `struct posix_timer`. `tgroup` is whether the pointer is set, and a
    `threadPid` of none is the number 0. -/
structure Slot where
  timer : Option Nat
  signal : Nat
  tgroup : Bool
  threadPid : Option Nat
  deriving DecidableEq, Repr, Inhabited

/-- A `struct timer` with the slot its callback is given. A callback that has
    found no signal to count on keeps the thread it looked up in `looked`. -/
structure Object where
  slot : Nat
  st : Timers.State
  looked : Option Nat
  deriving DecidableEq, Repr

/-- A process. `disowning` has the slots whose `timer_delete` has not come to
    the queues yet. -/
structure State where
  slots : List Slot
  objects : List Object
  queue : List Entry
  disowning : List Nat
  deriving DecidableEq, Repr

/-- A process without timers. -/
def initial : State :=
  { slots := List.replicate timersMax ⟨none, 0, false, none⟩
    objects := []
    queue := []
    disowning := [] }

/-- The leader of the process, which stands for it in the callback. -/
def leader : Nat := 0

/-- The thread a callback looks up. -/
def Slot.task (slot : Slot) : Nat :=
  slot.threadPid.getD leader

/-- What `timer_create` writes for a method. One without a signal leaves the
    number of the thread as it was. -/
def Slot.setMethod (slot : Slot) : Method → Slot
  | .silent => { slot with tgroup := false }
  | .process => { slot with tgroup := true, threadPid := none }
  | .thread tid => { slot with tgroup := true, threadPid := some tid }

/-- `timer_overrun_add`. -/
def timerOverrunAdd (overrun expirations : Nat) : Nat :=
  let sum := overrun + expirations
  if sum > intMax then intMax else sum

/-- Whether an entry is the signal of a timer. -/
def Entry.isFor (e : Entry) (sig timer : Nat) : Bool :=
  e.fromTimer && e.sig = sig && e.timer = timer

/-- One pass of `signal_timer_count_overrun`, over the queue at `place`. -/
def countIn (place : Option Nat) (sig timer expirations : Nat) : List Entry → Option (List Entry)
  | [] => none
  | e :: rest =>
    if e.place = place ∧ e.isFor sig timer then
      some ({ e with overrun := timerOverrunAdd e.overrun expirations } :: rest)
    else (countIn place sig timer expirations rest).map (e :: ·)

/-- `signal_timer_count_overrun`: the queues with the expirations counted, if
    there is an entry to count them on. -/
def signalTimerCountOverrun (queue : List Entry) (task sig timer expirations : Nat) :
    Option (List Entry) :=
  match countIn (some task) sig timer expirations queue with
  | some queue' => some queue'
  | none => countIn none sig timer expirations queue

/-- What `signal_timer_disown` leaves of an entry. -/
def Entry.disown (timer : Nat) (e : Entry) : Entry :=
  if e.fromTimer ∧ e.timer = timer then { e with fromTimer := false } else e

/-- `signal_timer_disown`. -/
def signalTimerDisown (queue : List Entry) (timer : Nat) : List Entry :=
  queue.map (Entry.disown timer)

/-- The overrun a signal of so many expirations starts with. -/
def firstOverrun (expirations : Nat) : Nat :=
  let missed := expirations - 1
  if missed > intMax then intMax else missed

variable (s : State)

/-- The timers of the process with one of them changed. -/
def State.setObject (j : Nat) (o : Object) : State :=
  { s with objects := s.objects.set j o }

/-- `timer_free`, for a timer whose lock is free. -/
def timerFree (st : Timers.State) : Timers.State :=
  { st with timer := { st.timer with active := false } }

/-- What happens in a process with POSIX timers. -/
inductive Action
  /-- `timer_create` -/
  | create (signal : Nat) (method : Method)
  /-- `timer_settime` -/
  | settime (timer : Nat) (spec : TimerSpec) (now : Timespec) (created : Bool)
  /-- `timer_delete`, up to its unlock -/
  | delete (timer : Nat)
  /-- The rest of a `timer_delete` -/
  | disown (timer : Nat)
  /-- A step of a timer's thread outside its callback -/
  | thread (object : Nat) (now : Timespec)
  /-- The callback, up to the unlock in `signal_timer_count_overrun` -/
  | count (object : Nat)
  /-- The rest of a callback that found nothing to count on -/
  | send (object : Nat)
  /-- A thread takes a signal -/
  | take (entry : Nat)
  /-- A signal from elsewhere -/
  | post (e : Entry)
  deriving DecidableEq, Repr

/-- The answers. -/
inductive Answer
  | ok
  | error (e : Errno)
  | created (timer object : Nat)
  | took (e : Entry)
  | delivered (expirations : Nat)
  deriving DecidableEq, Repr

/-- `timer_create`, for a sigevent that has been read and checked. -/
def timerCreate (signal : Nat) (method : Method) : State × Answer :=
  match s.slots.findIdx? (fun slot => slot.timer = none) with
  | none => (s, .error .eagain)
  | some k =>
    let j := s.objects.length
    ({ s with
        slots := s.slots.modify k fun slot =>
          ({ slot with timer := some j, signal := signal } : Slot).setMethod method
        objects := s.objects ++ [⟨k, Timers.timerNew, none⟩] },
      .created k j)

/-- `timer_settime`, which waits for the lock of the timer. -/
def timerSettime (k : Nat) (spec : TimerSpec) (now : Timespec) (created : Bool) :
    Option (State × Answer) :=
  match (s.slots[k]?).bind Slot.timer with
  | none => some (s, .error .einval)
  | some j =>
    match s.objects[j]? with
    | none => none
    | some o =>
      if o.st.phase.locked then none
      else
        let r := Timers.timerSet o.st spec now created
        some (s.setObject j { o with st := r.1 }, match r.2 with
          | .ok _ => .ok
          | .error e => .error e)

/-- `timer_delete`, up to its unlock. -/
def timerDelete (k : Nat) : Option (State × Answer) :=
  match s.slots[k]? with
  | none => some (s, .error .einval)
  | some slot =>
    match slot.timer with
    | none => some (s, .error .einval)
    | some j =>
      match s.objects[j]? with
      | none => none
      | some o =>
        if o.st.phase.locked then none
        else
          some ({ s.setObject j { o with st := timerFree o.st } with
              slots := s.slots.set k { slot with timer := none }
              disowning := k :: s.disowning }, .ok)

/-- A step of a timer's thread outside its callback. -/
def runThread (j : Nat) (now : Timespec) : Option (State × Answer) :=
  match s.objects[j]? with
  | none => none
  | some o =>
    match o.st.phase with
    | .firing _ _ => none
    | _ => (Timers.threadStep o.st now).map fun st => (s.setObject j { o with st := st }, .ok)

/-- The object when its callback has returned. -/
def Object.callbackDone (o : Object) (a : Timers.Arming) (expirations : Nat) : Object :=
  { o with st := { o.st with phase := .returned a expirations }, looked := none }

/-- The first section of `posix_timer_callback`. -/
def callbackCount (j : Nat) : Option (State × Answer) :=
  match s.objects[j]? with
  | none => none
  | some o =>
    match o.st.phase, s.slots[o.slot]?, o.looked with
    | .firing a expirations, some slot, none =>
      if !slot.tgroup then some (s.setObject j (o.callbackDone a expirations), .ok)
      else
        match signalTimerCountOverrun s.queue slot.task slot.signal o.slot expirations with
        | some queue =>
          some ({ s.setObject j (o.callbackDone a expirations) with queue := queue },
            .delivered expirations)
        | none => some (s.setObject j { o with looked := some slot.task }, .ok)
    | _, _, _ => none

/-- The second section of `posix_timer_callback`, which queues a signal. -/
def callbackSend (j : Nat) : Option (State × Answer) :=
  match s.objects[j]? with
  | none => none
  | some o =>
    match o.st.phase, s.slots[o.slot]?, o.looked with
    | .firing a expirations, some slot, some task =>
      let place := if slot.threadPid.isSome then some task else none
      let e : Entry := ⟨place, slot.signal, o.slot, firstOverrun expirations, true⟩
      some ({ s.setObject j (o.callbackDone a expirations) with queue := s.queue ++ [e] },
        .delivered expirations)
    | _, _, _ => none

/-- What an action does. -/
def exec : Action → Option (State × Answer)
  | .create signal method => some (timerCreate s signal method)
  | .settime k spec now created => timerSettime s k spec now created
  | .delete k => timerDelete s k
  | .disown k =>
    if k ∈ s.disowning then
      some ({ s with
        queue := signalTimerDisown s.queue k
        disowning := s.disowning.erase k }, .ok)
    else none
  | .thread j now => runThread s j now
  | .count j => callbackCount s j
  | .send j => callbackSend s j
  | .take i =>
    match s.queue[i]? with
    | none => none
    | some e => some ({ s with queue := s.queue.eraseIdx i }, .took e)
  | .post e => some ({ s with queue := s.queue ++ [{ e with fromTimer := false }] }, .ok)

/-- An action with its answer, as a step. -/
def Step (l : Action × Answer) (s' : State) : Prop :=
  exec s l.1 = some (s', l.2)

end IshAok.PosixTimers
