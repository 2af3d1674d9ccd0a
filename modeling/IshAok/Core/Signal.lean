import IshAok.Base.BitSet
import Mathlib.Logic.Function.Basic

/-!
# Signals of a Process

The model of `kernel/signal.c` for one process with a fixed number of threads: the queue of the
process and that of each thread, the masks, which thread is told about a signal sent to the
process, and how a thread that was told hands the signal on when it blocks it or exits.

The queues, the masks and the flags are under `sighand->lock`. A critical section is one step,
with three exceptions. `receive_signals` holds the lock over a loop, and lets go of it where a
tracer stops the thread, so each turn of the loop is a step and the state says who has the lock.
So is each turn of the loop that hands signals on, which lets go of the lock to wake a thread. And
a fatal signal tells one thread after another, each time with the lock taken anew.

`tkill` and its kin cancel a pending stop or continue signal on every thread in one critical
section and queue the signal in another. Between the two the signal is on its way.

A `siginfo` has the fields the functions here read. A snapshot of the threads may fail for want
of memory, and a frame may not be writable: both are given with the step. What a tracer does to a
thread is a step of its own.

## Main definitions

* `Sig`, `SigQueue`, `Queue`, `Thread`, `Proc`: The state.
* `takes`, `groupSignalPick`, `deliverToGroup`: A signal sent to the process.
* `maskChanged`, `handOn`: What a thread can not take any more goes to a sibling.
* `takeNext`, `receiveTurn`: The ways a signal leaves its queue.
* `Action`, `exec`: The system.
-/

namespace IshAok.Signal

open Base

/-! ## Signals and sets of signals -/

/-- A signal. The signal with number `n` is bit `n - 1` of a set. -/
abbrev Sig : Type :=
  Fin 64

/-- `sigset_t_`. -/
abbrev SigSet : Type :=
  BitVec 64

/-- The number of a signal. -/
def Sig.num (sig : Sig) : Nat :=
  sig.val + 1

/-- The signal with a number. -/
def ofNum (n : Nat) (h : 0 < n ∧ n < 65) : Sig :=
  ⟨n - 1, by omega⟩

def sigill : Sig := ofNum 4 (by decide)

def sigtrap : Sig := ofNum 5 (by decide)

def sigbus : Sig := ofNum 7 (by decide)

def sigfpe : Sig := ofNum 8 (by decide)

def sigkill : Sig := ofNum 9 (by decide)

def sigsegv : Sig := ofNum 11 (by decide)

def sigchld : Sig := ofNum 17 (by decide)

def sigcont : Sig := ofNum 18 (by decide)

def sigstop : Sig := ofNum 19 (by decide)

def sigtstp : Sig := ofNum 20 (by decide)

def sigttin : Sig := ofNum 21 (by decide)

def sigttou : Sig := ofNum 22 (by decide)

def sigurg : Sig := ofNum 23 (by decide)

def sigwinch : Sig := ofNum 28 (by decide)

def sigsys : Sig := ofNum 31 (by decide)

/-- `signal_is_blockable`. -/
def isBlockable (sig : Sig) : Bool :=
  sig ≠ sigkill && sig ≠ sigstop

/-- `signal_is_realtime`. -/
def isRealtime (sig : Sig) : Bool :=
  sigsys.num < sig.num

/-- `signal_is_synchronous_trap`. -/
def isSynchronousTrap (sig : Sig) : Bool :=
  [sigill, sigtrap, sigbus, sigfpe, sigsegv, sigsys].contains sig

/-- `UNBLOCKABLE_MASK`. -/
def unblockableMask : SigSet :=
  single sigkill ||| single sigstop

/-- `SIGNAL_STOP_MASK`. -/
def stopMask : SigSet :=
  single sigstop ||| single sigtstp ||| single sigttin ||| single sigttou

/-- `signal_stop_cont_cancels`. -/
def stopContCancels (sig : Sig) : SigSet :=
  if sig = sigcont then stopMask
  else if has stopMask sig then single sigcont
  else 0#64

/-! ## The state -/

/-- `struct sigqueue`: the signal, the code of its `siginfo`, and whether it is a timer's own. -/
structure SigQueue where
  sig : Sig
  code : Int
  fromTimer : Bool
deriving DecidableEq

/-- A queue and the set of what is pending on it. -/
structure Queue where
  entries : List SigQueue
  pending : SigSet
deriving DecidableEq

/-- `struct sigaction_`. -/
inductive Handler
  | dfl
  | ign
  | handler (mask : SigSet) (nodefer resethand : Bool)
deriving DecidableEq

/-- What `signal_action` answers. -/
inductive Disposition
  | ignore
  | kill
  | callHandler
  | stop
deriving DecidableEq

/-- Where a thread is: in a program or a call that does nothing here, in the wait of
    `sigtimedwait`, in `receive_signals` with the mask it came with, on its way to `do_exit`, in
    `do_exit` before the hand-off, in `group_signal_retarget` before and in its loop, or gone. -/
inductive Place (n : Nat)
  | running
  | waiting
  | receiving (entry : SigSet)
  | ending
  | leaving
  | retargeting (set : SigSet)
  | handing (set : SigSet) (rest : List (Fin n))
  | gone
deriving DecidableEq

/-- `struct task`. -/
structure Thread (n : Nat) where
  own : Queue
  blocked : SigSet
  waiting : SigSet
  nativeHeld : SigSet
  savedMask : Option SigSet
  groupSigpending : Bool
  groupHandoff : SigSet
  exiting : Bool
  traced : Bool
  stopped : Bool
  deliverSig : Option Sig
  place : Place n

/-- A process: `struct sighand`, the threads, who holds the lock between two steps, the fatal
    signals that threads are still to be told of, and the signals on their way to one thread. -/
structure Proc (n : Nat) where
  shared : Queue
  action : Sig → Handler
  threads : Fin n → Thread n
  lock : Option (Fin n)
  telling : List (Sig × List (Fin n))
  sending : List (Fin n × SigQueue)

variable {n : Nat} (s : Proc n) (t : Fin n)

/-- A thread is changed. -/
def Proc.modify (f : Thread n → Thread n) : Proc n :=
  { s with threads := Function.update s.threads t (f (s.threads t)) }

/-- A thread is somewhere else. -/
def Proc.setPlace (p : Place n) : Proc n :=
  s.modify t (fun th => { th with place := p })

/-- `task_wake_blocked`. -/
def Thread.wakeBlocked (th : Thread n) : SigSet :=
  th.blocked &&& ~~~th.nativeHeld

/-- The threads a snapshot has. -/
def Proc.members : List (Fin n) :=
  (List.finRange n).filter (fun t => !(s.threads t).exiting)

/-! ## Queues -/

/-- The answer of `signal_action` for a signal without a handler. -/
def defaultAction (sig : Sig) : Disposition :=
  if [sigcont, sigchld, sigurg, sigwinch].contains sig then .ignore
  else if [sigstop, sigtstp, sigttin, sigttou].contains sig then .stop
  else .kill

/-- `signal_action`. -/
def signalAction (action : Sig → Handler) (sig : Sig) : Disposition :=
  if isBlockable sig then
    if 63 < sig.num then .ignore
    else
      match action sig with
      | .ign => .ignore
      | .handler _ _ _ => .callHandler
      | .dfl => defaultAction sig
  else defaultAction sig

/-- `signal_flush_queue_locked`. -/
def Queue.flush (q : Queue) (mask : SigSet) : Queue :=
  { entries := q.entries.filter (fun e => !has mask e.sig)
    pending := q.pending &&& ~~~mask }

/-- `signal_enqueue_locked`. -/
def Queue.enqueue (q : Queue) (e : SigQueue) : Queue :=
  { entries := q.entries ++ [e]
    pending := q.pending ||| single e.sig }

/-- An entry is taken off a queue. The signal stays pending if another entry has it. -/
def Queue.removeAt (q : Queue) (i : Nat) (sig : Sig) : Queue :=
  { entries := q.entries.eraseIdx i
    pending :=
      if (q.entries.eraseIdx i).any (fun e => e.sig = sig) then q.pending
      else q.pending &&& ~~~single sig }

/-- `signal_prepare_stop_cont`, with the threads whose own queues are looked at. -/
def prepareStopCont (sig : Sig) (threads : List (Fin n)) : Proc n :=
  let cancels := stopContCancels sig
  if cancels = 0#64 then s
  else
    { s with
      shared := s.shared.flush cancels
      threads := fun t =>
        if t ∈ threads then { s.threads t with own := (s.threads t).own.flush cancels }
        else s.threads t }

/-! ## A signal to the process -/

/-- `group_signal_takes_locked`. -/
def takes (th : Thread n) (sig : Sig) : Bool :=
  !th.exiting &&
    !(has (th.wakeBlocked &&& ~~~th.waiting) sig && isBlockable sig && !isSynchronousTrap sig)

/-- A pass of `group_signal_pick_locked`. -/
def pickPass (target : Fin n) (sig : Sig) (members : List (Fin n))
    (stoppedToo : Bool) : Option (Fin n) :=
  if takes (s.threads target) sig && (stoppedToo || !(s.threads target).stopped) then some target
  else
    members.find? (fun t =>
      t ≠ target && takes (s.threads t) sig && (stoppedToo || !(s.threads t).stopped))

/-- `group_signal_pick_locked`. -/
def groupSignalPick (target : Fin n) (sig : Sig) (members : List (Fin n)) :
    Option (Fin n) :=
  match pickPass s target sig members false with
  | some t => some t
  | none => pickPass s target sig members true

/-- `group_signal_told_locked`. -/
def groupSignalTold (sig : Sig) (members : List (Fin n)) : Option (Fin n) :=
  members.find? (fun t => (s.threads t).groupSigpending && takes (s.threads t) sig)

/-- `group_signal_fatal_locked`. -/
def groupSignalFatal (sig : Sig) : Bool :=
  signalAction s.action sig = .kill && !has (s.threads t).blocked sig && !(s.threads t).traced

/-- `group_signal_tell_locked`. -/
def groupSignalTell : Proc n :=
  s.modify t (fun th => { th with groupSigpending := true })

/-- `signal_traced_not_ignored`. -/
def tracedNotIgnored (th : Thread n) (sig : Sig) : Bool :=
  th.traced && sig ≠ sigkill

/-- The signal is dropped as it is sent to the thread. -/
def dropped (th : Thread n) (sig : Sig) : Bool :=
  signalAction s.action sig = .ignore && !tracedNotIgnored th sig &&
    !has (th.blocked ||| th.waiting) sig

/-- The loop of a fatal signal up to the first thread that is told. The lock is let go there. -/
def tellFirst (s : Proc n) (sig : Sig) : List (Fin n) → Proc n
  | [] => s
  | t :: rest =>
    if takes (s.threads t) sig then
      { groupSignalTell s t with telling := (sig, rest) :: s.telling }
    else tellFirst s sig rest

/-- `deliver_signal_to_group_locked`. -/
def deliverToGroup (target : Fin n) (e : SigQueue) (members : List (Fin n)) : Proc n :=
  if dropped s (s.threads target) e.sig then s
  else
    let alreadyPending := !isRealtime e.sig && has s.shared.pending e.sig
    let s := if !alreadyPending || e.fromTimer then { s with shared := s.shared.enqueue e } else s
    let told := if alreadyPending then groupSignalTold s e.sig members else none
    match told.or (groupSignalPick s target e.sig members) with
    | none => s
    | some taker =>
      if groupSignalFatal s taker e.sig then tellFirst s e.sig members
      else groupSignalTell s taker

/-- `send_process_signal`, with whether the snapshot was taken. -/
def sendProcessSignal (target : Fin n) (e : SigQueue) (taken : Bool) : Proc n :=
  if taken && !s.members.isEmpty then
    deliverToGroup (prepareStopCont s e.sig s.members) target e s.members
  else s

/-- A turn of the loop of a fatal signal. -/
def tellTurn (i : Nat) : Option (Proc n) :=
  match s.telling[i]? with
  | none => none
  | some (_, []) => some { s with telling := s.telling.eraseIdx i }
  | some (sig, t :: rest) =>
    let s := { s with telling := s.telling.set i (sig, rest) }
    some (if takes (s.threads t) sig then groupSignalTell s t else s)

/-! ## A signal to a thread -/

/-- `signal_prepare_stop_cont_threads`, after which the signal is on its way. -/
def prepareThreads (e : SigQueue) (taken : Bool) : Proc n :=
  let s := if taken && !s.members.isEmpty then prepareStopCont s e.sig s.members else s
  { s with sending := s.sending ++ [(t, e)] }

/-- `deliver_signal_unlocked_locked`. -/
def deliverToThread (e : SigQueue) : Proc n :=
  let alreadyPending := !isRealtime e.sig && has (s.threads t).own.pending e.sig
  if !alreadyPending || e.fromTimer then
    s.modify t (fun th => { th with own := th.own.enqueue e })
  else s

/-- `send_signal_with_sighand`. -/
def sendSignal (e : SigQueue) : Proc n :=
  if (s.threads t).exiting then s
  else
    let s := prepareStopCont s e.sig [t]
    if dropped s (s.threads t) e.sig then s else deliverToThread s t e

/-! ## Masks and hand-offs -/

/-- `group_pending_recalc_locked`. -/
def pendingRecalc : Proc n :=
  s.modify t (fun th =>
    { th with groupSigpending := decide (s.shared.pending &&& ~~~th.wakeBlocked ≠ 0#64) })

/-- `group_pending_mask_changed_locked`. -/
def maskChanged (old : SigSet) : Proc n :=
  let s := s.modify t (fun th =>
    if th.groupSigpending then
      { th with
        groupHandoff := th.groupHandoff ||| (s.shared.pending &&& th.wakeBlocked &&& ~~~old) }
    else th)
  pendingRecalc s t

/-- The calls that change a mask: `sigprocmask`, `sigreturn`, the temporary mask of a call like
    `sigsuspend`, and its end. -/
inductive How
  | block (set : SigSet)
  | unblock (set : SigSet)
  | setmask (set : SigSet)
  | setTemp (set : SigSet)
  | clearTemp
deriving DecidableEq

/-- The masks after a call. -/
def How.apply (how : How) (th : Thread n) : Thread n :=
  match how with
  | .block set => { th with blocked := (th.blocked ||| set) &&& ~~~unblockableMask }
  | .unblock set => { th with blocked := (th.blocked &&& ~~~set) &&& ~~~unblockableMask }
  | .setmask set => { th with blocked := set &&& ~~~unblockableMask }
  | .setTemp set =>
    { th with savedMask := some th.blocked, blocked := set &&& ~~~unblockableMask }
  | .clearTemp =>
    match th.savedMask with
    | some mask => { th with blocked := mask, savedMask := none }
    | none => th

/-- `sigmask_set`, `sigmask_set_temp` and `sigmask_clear_temp`. -/
def sigmaskSet (how : How) : Proc n :=
  if how = .clearTemp ∧ (s.threads t).savedMask = none then s
  else maskChanged (s.modify t how.apply) t (s.threads t).wakeBlocked

/-- The start of `group_signal_retarget`, with whether the snapshot was taken. The lock is taken
    for the loop. -/
def retargetBegin (set : SigSet) (taken : Bool) : Proc n :=
  let away : Place n := if (s.threads t).exiting then .gone else .running
  if taken && !s.members.isEmpty then
    { s.setPlace t (.handing (set &&& s.shared.pending) s.members) with lock := some t }
  else s.setPlace t away

/-- A turn of the loop of `group_signal_retarget` for a thread that stays. The lock is let go to
    wake it. -/
def handTo (set : SigSet) (m : Fin n) (rest : List (Fin n)) : Proc n :=
  let given := set &&& ~~~((s.threads m).wakeBlocked &&& ~~~(s.threads m).waiting)
  if given = 0#64 then s.setPlace t (.handing set rest)
  else
    let s := s.setPlace t (.handing (set &&& ~~~given) rest)
    if (s.threads m).groupSigpending then s else { groupSignalTell s m with lock := none }

/-- A turn of the loop of `group_signal_retarget`. -/
def handOn (set : SigSet) (rest : List (Fin n)) : Proc n :=
  match rest with
  | [] =>
    let away : Place n := if (s.threads t).exiting then .gone else .running
    { s.setPlace t away with lock := none }
  | m :: rest =>
    if set = 0#64 then
      let away : Place n := if (s.threads t).exiting then .gone else .running
      { s.setPlace t away with lock := none }
    else if m = t || (s.threads m).exiting then s.setPlace t (.handing set rest)
    else handTo s t set m rest

/-- `signal_exit_handoff`, up to the call of `group_signal_retarget`. -/
def exitHandoff : Proc n :=
  let th := s.threads t
  let told : SigSet :=
    if th.groupSigpending then s.shared.pending &&& ~~~th.wakeBlocked else 0#64
  let set := th.groupHandoff ||| told
  s.modify t (fun th =>
    { th with
      groupHandoff := 0#64
      groupSigpending := false
      place := if set = 0#64 then .gone else .retargeting set })

/-! ## Taking signals -/

/-- `signal_take_rank`. -/
def takeRank (sig : Sig) : Nat :=
  if isSynchronousTrap sig then sig.num else 65 + sig.num

/-- The loop of `signal_next_in_locked`, with the best entry so far and its place. -/
def nextFrom (set : SigSet) : Nat → Option (Nat × SigQueue) → List SigQueue →
    Option (Nat × SigQueue)
  | _, best, [] => best
  | i, best, e :: es =>
    let best :=
      if has set e.sig && best.all (fun b => decide (takeRank e.sig < takeRank b.2.sig)) then
        some (i, e)
      else best
    nextFrom set (i + 1) best es

/-- `signal_next_in_locked`. -/
def nextIn (q : Queue) (set : SigSet) : Option (Nat × SigQueue) :=
  nextFrom set 0 none q.entries

/-- The loop of `signal_next_fault_locked`. -/
def nextFaultFrom (set : SigSet) : Nat → List SigQueue → Option (Nat × SigQueue)
  | _, [] => none
  | i, e :: es =>
    if has set e.sig && isSynchronousTrap e.sig && decide (0 < e.code) then some (i, e)
    else nextFaultFrom set (i + 1) es

/-- `signal_next_fault_locked`. -/
def nextFault (q : Queue) (set : SigSet) : Option (Nat × SigQueue) :=
  nextFaultFrom set 0 q.entries

/-- An entry and whether it is on the queue of the process. -/
abbrev Found : Type :=
  Option (Bool × Nat × SigQueue)

/-- The own queue first, then that of the process. -/
def nextOfBoth (own shared : Queue) (set : SigSet) : Found :=
  match nextIn own set with
  | some (i, e) => some (false, i, e)
  | none => (nextIn shared set).map (fun r => (true, r.1, r.2))

/-- `signal_next_deliverable_locked` for `receive_signals`. -/
def nextDeliverable (own shared : Queue) (deliverable : SigSet) : Found :=
  match nextOfBoth own shared (deliverable &&& single sigkill) with
  | some r => some r
  | none =>
    match nextFault own deliverable with
    | some (i, e) => some (false, i, e)
    | none => nextOfBoth own shared deliverable

/-- An entry is taken off its queue. -/
def takeOff (r : Bool × Nat × SigQueue) : Proc n :=
  match r with
  | (true, i, e) => { s with shared := s.shared.removeAt i e.sig }
  | (false, i, e) => s.modify t (fun th => { th with own := th.own.removeAt i e.sig })

/-- `signal_take_next_locked` for the running thread, with the entry that was taken. -/
def takeNext (mask : SigSet) : Proc n × Option SigQueue :=
  match nextOfBoth (s.threads t).own s.shared mask with
  | none => (s, none)
  | some (true, i, e) => (pendingRecalc (takeOff s t (true, i, e)) t, some e)
  | some (false, i, e) => (takeOff s t (false, i, e), some e)

/-- The start of `sigtimedwait`: it takes a signal, or waits. -/
def sigtimedwaitBegin (set : SigSet) : Proc n :=
  match takeNext s t set with
  | (s, some _) => s
  | (s, none) => s.modify t (fun th => { th with waiting := set, place := .waiting })

/-- `sigtimedwait` after its wait. -/
def sigtimedwaitEnd : Proc n :=
  let set := (s.threads t).waiting
  let s := s.modify t (fun th => { th with waiting := 0#64, place := .running })
  let s := (takeNext s t set).1
  maskChanged s t ((s.threads t).wakeBlocked &&& ~~~set)

/-- The loop of `signalfd_read` over the records there is room for. -/
def signalfdRead (s : Proc n) (t : Fin n) (mask : SigSet) : Nat → Proc n
  | 0 => s
  | room + 1 =>
    match takeNext s t mask with
    | (s, some _) => signalfdRead s t mask room
    | (s, none) => s

/-! ## Delivery -/

/-- How the frame of a handler goes: it is written, the descriptor of the critical section is not
    valid, or the stack can not be written. -/
inductive Frame
  | written
  | badRseq
  | unwritable
deriving DecidableEq

/-- The process is to end. The lock is let go. -/
def ends : Proc n :=
  { s.setPlace t .ending with lock := none }

/-- `signal_handler_mask_set`. -/
def handlerMaskSet (th : Thread n) (mask : SigSet) (nodefer : Bool) (sig : Sig) : Thread n :=
  let blocked := th.blocked ||| mask
  let blocked := if nodefer then blocked else blocked ||| single sig
  { th with savedMask := none, blocked := blocked &&& ~~~unblockableMask }

/-- `receive_signal`. -/
def receiveSignal (sig : Sig) (frame : Frame) : Proc n :=
  match signalAction s.action sig, s.action sig with
  | .kill, _ => ends s t
  | .callHandler, .handler mask nodefer resethand =>
    if frame = .badRseq then ends s t
    else
      let s := s.modify t (fun th => handlerMaskSet th mask nodefer sig)
      if frame = .unwritable then ends s t
      else if resethand then { s with action := Function.update s.action sig .dfl }
      else s
  | _, _ => s

/-- A turn of the loop of `receive_signals`, with the mask it came with. A signal that a tracer
    is shown first is not delivered in this turn, and the lock is let go. -/
def receiveTurn (entry : SigSet) (frame : Frame) : Proc n :=
  match nextDeliverable (s.threads t).own s.shared (~~~(s.threads t).blocked) with
  | none =>
    match (s.threads t).savedMask with
    | some mask => s.modify t (fun th => { th with savedMask := none, blocked := mask })
    | none => { (maskChanged s t entry).setPlace t .running with lock := none }
  | some r =>
    let s := takeOff s t r
    let sig := r.2.2.sig
    if (s.threads t).traced && sig ≠ sigkill && (s.threads t).deliverSig ≠ some sig then
      { s with lock := none }
    else
      let s := if (s.threads t).deliverSig = some sig then
        s.modify t (fun th => { th with deliverSig := none }) else s
      receiveSignal s t sig frame

/-! ## The system -/

/-- What can happen. -/
inductive Action (n : Nat)
  | kill (target : Fin n) (e : SigQueue) (taken : Bool)
  | tell (i : Nat)
  | tkill (t : Fin n) (e : SigQueue) (taken : Bool)
  | send (i : Nat)
  | mask (t : Fin n) (how : How)
  | wait (t : Fin n) (set : SigSet)
  | waitEnd (t : Fin n)
  | signalfd (t : Fin n) (mask : SigSet) (room : Nat)
  | receive (t : Fin n)
  | receiveTurn (t : Fin n) (frame : Frame)
  | trapStop (t : Fin n)
  | relock (t : Fin n)
  | handoff (t : Fin n)
  | retarget (t : Fin n) (taken : Bool)
  | handOn (t : Fin n)
  | exit (t : Fin n)
  | exitHandoff (t : Fin n)
  | ptrace (t : Fin n) (traced stopped : Bool) (deliverSig : Option Sig)
  | sigaction (sig : Sig) (handler : Handler)

/-- `do_sigaction` on the mask of a handler. -/
def Handler.blockable : Handler → Handler
  | .handler mask nodefer resethand => .handler (mask &&& ~~~unblockableMask) nodefer resethand
  | h => h

/-- A thread can leave for `do_exit`: it runs, it was told to end, or a tracer holds it inside
    `receive_signals`. -/
def mayExit : Bool :=
  match (s.threads t).place with
  | .running => true
  | .ending => true
  | .receiving _ => s.lock ≠ some t
  | _ => false

/-- A step of the thread that runs and takes the lock for a critical section. -/
def critical (p : Place n) (s' : Proc n) : Option (Proc n) :=
  if s.lock = none ∧ (s.threads t).place = p then some s' else none

/-- The steps of the loops that keep the lock. -/
def execLoop : Action n → Option (Proc n)
  | .receiveTurn _ frame =>
    match (s.threads t).place with
    | .receiving entry =>
      if s.lock = some t then some (receiveTurn s t entry frame) else none
    | _ => none
  | .trapStop _ =>
    match (s.threads t).place with
    | .receiving _ =>
      if s.lock = some t ∧ (s.threads t).traced then some { s with lock := none } else none
    | _ => none
  | .relock _ =>
    match (s.threads t).place with
    | .receiving _ => if s.lock = none then some { s with lock := some t } else none
    | .handing _ _ => if s.lock = none then some { s with lock := some t } else none
    | _ => none
  | .retarget _ taken =>
    match (s.threads t).place with
    | .retargeting set => if s.lock = none then some (retargetBegin s t set taken) else none
    | _ => none
  | .handOn _ =>
    match (s.threads t).place with
    | .handing set rest => if s.lock = some t then some (handOn s t set rest) else none
    | _ => none
  | _ => none

/-- The state after an action, if it can happen. -/
def exec : Action n → Option (Proc n)
  | .kill target e taken =>
    if s.lock = none then some (sendProcessSignal s target e taken) else none
  | .tell i => if s.lock = none then tellTurn s i else none
  | .tkill t e taken => if s.lock = none then some (prepareThreads s t e taken) else none
  | .send i =>
    match s.sending[i]? with
    | some (t, e) =>
      if s.lock = none then
        some { sendSignal s t e with sending := s.sending.eraseIdx i }
      else none
    | none => none
  | .mask t how => critical s t .running (sigmaskSet s t how)
  | .wait t set => critical s t .running (sigtimedwaitBegin s t set)
  | .waitEnd t => critical s t .waiting (sigtimedwaitEnd s t)
  | .signalfd t mask room => critical s t .running (signalfdRead s t mask room)
  | .receive t =>
    critical s t .running
      { s.setPlace t (.receiving (s.threads t).wakeBlocked) with lock := some t }
  | .handoff t =>
    if (s.threads t).place = .running ∧ (s.threads t).groupHandoff ≠ 0#64 then
      some (s.modify t (fun th =>
        { th with groupHandoff := 0#64, place := .retargeting th.groupHandoff }))
    else none
  | .exit t =>
    if mayExit s t then
      some (s.modify t (fun th => { th with exiting := true, place := .leaving }))
    else none
  | .exitHandoff t => critical s t .leaving (exitHandoff s t)
  | .ptrace t traced stopped deliverSig =>
    some (s.modify t (fun th =>
      { th with traced := traced, stopped := stopped, deliverSig := deliverSig }))
  | .sigaction sig handler =>
    if s.lock = none ∧ isBlockable sig then
      some { s with action := Function.update s.action sig handler.blockable }
    else none
  | .receiveTurn t frame => execLoop s t (.receiveTurn t frame)
  | .trapStop t => execLoop s t (.trapStop t)
  | .relock t => execLoop s t (.relock t)
  | .retarget t taken => execLoop s t (.retarget t taken)
  | .handOn t => execLoop s t (.handOn t)

/-- A step of the process. -/
def Step (a : Action n) (s' : Proc n) : Prop :=
  exec s a = some s'

/-! ## A process to start from -/

/-- A process whose threads run and have their masks, with a handler for every signal. -/
def idle (blocked : Fin n → SigSet) : Proc n where
  shared := ⟨[], 0#64⟩
  action := fun _ => .handler 0#64 false false
  threads := fun t =>
    { own := ⟨[], 0#64⟩
      blocked := blocked t
      waiting := 0#64
      nativeHeld := 0#64
      savedMask := none
      groupSigpending := false
      groupHandoff := 0#64
      exiting := false
      traced := false
      stopped := false
      deliverSig := none
      place := .running }
  lock := none
  telling := []
  sending := []

/-- A signal from another process. -/
def plain (sig : Sig) : SigQueue where
  sig := sig
  code := 0
  fromTimer := false

end IshAok.Signal
