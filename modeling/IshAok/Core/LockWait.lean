import Mathlib.Logic.Function.Basic
import IshAok.Base.Graph
import IshAok.Core.FileLock

/-!
# Waiting for a Record Lock

`F_SETLKW` as an interleaving of threads. The code holds the lock of the
inode through one turn of its loop and gives it up only to sleep, but the
list of waiters is shared by all inodes and has a lock of its own. That lock
is taken separately for the deadlock check, for adding the waiter and for
removing it, so each of these is a step, and steps of threads on other
inodes may come between any two of them.

A thread's place in the loop is its `Phase`. What `fcntl_setlk` keeps on its
stack meanwhile (the request, the blocker, the `struct lock_waiter`) is data
of the phase. A call that is refused before it reaches the loop touches
nothing that is shared, so it takes no step here.

`notify` wakes every sleeper of the inode, and a sleeper may also wake for no
reason or for a signal. It then has to get the lock of the inode back, and
until it has run on from there its waiter is still in the list. The flag of
`asleep` records a wake that was sent and has not been taken.

## Main definitions

* `Waiter`: An entry of `lock_waiters`.
* `posixLockWouldDeadlock`: The deadlock check.
* `Phase`, `WaitState`: The state of the system.
* `WaitEvent`, `WaitStep`: What threads do.
* `resolveCall`: The request of a call that reaches the loop.
-/

namespace IshAok.FileLock

/-- `struct lock_waiter`. It lives on the stack of the waiting thread, so the
    thread identifies the entry. -/
structure Waiter (Tid Owner : Type) where
  tid : Tid
  owner : Owner
  blockedOn : Option Owner
  deriving DecidableEq, Repr

/-- Where a thread is in `fcntl_setlk`. -/
inductive Phase (Ino Owner : Type)
  /-- Not in the call. -/
  | idle
  /-- At the head of the loop. -/
  | trying (ino : Ino) (request : Lock Owner) (blocking : Bool)
  /-- The attempt failed, and the blocker is known. -/
  | conflicted (ino : Ino) (request : Lock Owner) (blocker : Option Owner)
  /-- The deadlock check found nothing. -/
  | checked (ino : Ino) (request : Lock Owner) (blocker : Option Owner)
  /-- The waiter is in the list, and the thread is about to sleep. -/
  | registered (ino : Ino) (request : Lock Owner) (blocker : Option Owner)
  /-- Asleep, with or without a wake on its way. -/
  | asleep (ino : Ino) (request : Lock Owner) (blocker : Option Owner) (notified : Bool)
  /-- Awake with the inode locked, and the waiter still in the list. -/
  | awake (ino : Ino) (request : Lock Owner) (blocker : Option Owner) (notified : Bool)
      (interrupted : Bool)
  deriving DecidableEq, Repr

/-- All inodes and threads, and the list of waiters. `holder` is the thread
    that has an inode's lock. -/
structure WaitState (Tid Ino Owner : Type) where
  locks : Ino → List (Lock Owner)
  holder : Ino → Option Tid
  waiters : List (Waiter Tid Owner)
  phase : Tid → Phase Ino Owner

variable {Tid Ino Owner : Type}

/-- The state before any call. -/
def WaitState.initial : WaitState Tid Ino Owner :=
  { locks := fun _ => [], holder := fun _ => none, waiters := [], phase := fun _ => .idle }

variable [DecidableEq Tid] [DecidableEq Ino] [DecidableEq Owner]

/-- The owner the first waiter of an owner is blocked on. -/
def nextOwner (waiters : List (Waiter Tid Owner)) (cur : Owner) : Option Owner :=
  (waiters.find? (fun w => decide (w.owner = cur))).bind Waiter.blockedOn

/-- The bound on the walk of `posix_lock_would_deadlock`. -/
def walkDepth : Nat := 1024

/-- `posix_lock_would_deadlock`. -/
def posixLockWouldDeadlock (waiters : List (Waiter Tid Owner)) (self : Owner)
    (blocker : Option Owner) : Bool :=
  match blocker with
  | none => false
  | some b =>
    if self = b then false
    else Base.seek (nextOwner waiters) self walkDepth (some b)

/-- `notify`, as a thread sees it. -/
def Phase.notify (ino : Ino) : Phase Ino Owner → Phase Ino Owner
  | .asleep i request blocker notified => .asleep i request blocker (notified || decide (i = ino))
  | p => p

/-- A thread moves on without changing anything else. -/
def WaitState.setPhase (s : WaitState Tid Ino Owner) (t : Tid) (p : Phase Ino Owner) :
    WaitState Tid Ino Owner :=
  { s with phase := Function.update s.phase t p }

/-- A thread takes the lock of an inode and moves on. -/
def WaitState.enter (s : WaitState Tid Ino Owner) (t : Tid) (ino : Ino) (p : Phase Ino Owner) :
    WaitState Tid Ino Owner :=
  { s with holder := Function.update s.holder ino (some t), phase := Function.update s.phase t p }

/-- A thread gives up the lock of an inode and moves on. -/
def WaitState.leave (s : WaitState Tid Ino Owner) (t : Tid) (ino : Ino) (p : Phase Ino Owner) :
    WaitState Tid Ino Owner :=
  { s with holder := Function.update s.holder ino none, phase := Function.update s.phase t p }

/-- The locks of an inode change, and its sleepers are notified if asked for. -/
def WaitState.setLocks (s : WaitState Tid Ino Owner) (ino : Ino)
    (change : List (Lock Owner) × Bool) : WaitState Tid Ino Owner :=
  { s with
    locks := Function.update s.locks ino change.1
    phase := fun t => if change.2 then (s.phase t).notify ino else s.phase t }

/-- The request of a call that gets as far as the loop. -/
def resolveCall (call : SetlkCall Owner) : Option (Lock Owner) :=
  match lockTypeOf call.flock.type with
  | none => none
  | some type =>
    if ¬ modeAllows call.fd.accMode type ∨ call.fd.hasInode = false then none
    else match fileLockFromFlock call.fd call.flock type call.owner with
      | .error _ => none
      | .ok request => some request

/-- What a step does, and who does it. -/
inductive WaitEvent (Tid Ino Owner : Type)
  | start (t : Tid) (ino : Ino) (call : SetlkCall Owner)
  | attempt (t : Tid)
  | check (t : Tid)
  | register (t : Tid)
  | sleep (t : Tid)
  | wake (t : Tid) (interrupted : Bool)
  | remove (t : Tid)
  | removeOwnedBy (ino : Ino) (owner : Owner)

/-- One step of the system. -/
inductive WaitStep : WaitState Tid Ino Owner → WaitEvent Tid Ino Owner → WaitState Tid Ino Owner →
    Prop
  | start (s : WaitState Tid Ino Owner) (t ino call request) :
      s.phase t = .idle → s.holder ino = none → resolveCall call = some request →
      WaitStep s (.start t ino call) (s.enter t ino (.trying ino request call.blocking))
  | granted (s : WaitState Tid Ino Owner) (t ino request blocking change) :
      s.phase t = .trying ino request blocking →
      fileLockAcquire (s.locks ino) request = .ok change →
      WaitStep s (.attempt t) ((s.setLocks ino change).leave t ino .idle)
  | refused (s : WaitState Tid Ino Owner) (t ino request e) :
      s.phase t = .trying ino request false → fileLockAcquire (s.locks ino) request = .error e →
      WaitStep s (.attempt t) (s.leave t ino .idle)
  | conflicted (s : WaitState Tid Ino Owner) (t ino request e) :
      s.phase t = .trying ino request true → fileLockAcquire (s.locks ino) request = .error e →
      WaitStep s (.attempt t) (s.setPhase t (.conflicted ino request
        ((fileLockTest (s.locks ino) request).map Lock.owner)))
  /-- The call returns `EDEADLK`. -/
  | deadlock (s : WaitState Tid Ino Owner) (t ino request blocker) :
      s.phase t = .conflicted ino request blocker →
      posixLockWouldDeadlock s.waiters request.owner blocker = true →
      WaitStep s (.check t) (s.leave t ino .idle)
  | clear (s : WaitState Tid Ino Owner) (t ino request blocker) :
      s.phase t = .conflicted ino request blocker →
      posixLockWouldDeadlock s.waiters request.owner blocker = false →
      WaitStep s (.check t) (s.setPhase t (.checked ino request blocker))
  /-- `posix_lock_waiter_add`. -/
  | register (s : WaitState Tid Ino Owner) (t ino request blocker) :
      s.phase t = .checked ino request blocker → WaitStep s (.register t)
        ({ s with waiters := ⟨t, request.owner, blocker⟩ :: s.waiters }.setPhase t
          (.registered ino request blocker))
  | sleep (s : WaitState Tid Ino Owner) (t ino request blocker) :
      s.phase t = .registered ino request blocker →
      WaitStep s (.sleep t) (s.leave t ino (.asleep ino request blocker false))
  | wake (s : WaitState Tid Ino Owner) (t ino request blocker notified interrupted) :
      s.phase t = .asleep ino request blocker notified → s.holder ino = none →
      WaitStep s (.wake t interrupted)
        (s.enter t ino (.awake ino request blocker notified interrupted))
  /-- `posix_lock_waiter_remove`, and round the loop. -/
  | retry (s : WaitState Tid Ino Owner) (t ino request blocker notified) :
      s.phase t = .awake ino request blocker notified false → WaitStep s (.remove t)
        ({ s with waiters := s.waiters.filter (fun w => decide (w.tid ≠ t)) }.setPhase t
          (.trying ino request true))
  /-- `posix_lock_waiter_remove`, and the call returns `EINTR`. -/
  | interrupted (s : WaitState Tid Ino Owner) (t ino request blocker notified) :
      s.phase t = .awake ino request blocker notified true → WaitStep s (.remove t)
        ({ s with waiters := s.waiters.filter (fun w => decide (w.tid ≠ t)) }.leave t ino .idle)
  | removeOwnedBy (s : WaitState Tid Ino Owner) (ino owner) : s.holder ino = none →
      WaitStep s (.removeOwnedBy ino owner)
        (s.setLocks ino (fileLockRemoveOwnedBy (s.locks ino) owner))

end IshAok.FileLock
