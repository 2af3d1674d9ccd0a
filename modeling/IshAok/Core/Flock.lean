import IshAok.Base.Run
import IshAok.Core.FileLock

/-!
# BSD Locks

`flock` of `fs/lock.c`: the list `flock_locks` of one inode, and the calls of
any number of threads on any number of open descriptions of it. The owner of
an entry is the description, so threads that share a description share its
lock.

`flock_lock` first drops the entries its description has. It then waits until
no entry of another description is in the way, and adds its own. The lock of
the inode is held through all of this except while the thread sleeps in
`wait_for_blocked`, so a call is one step up to where it returns or goes to
sleep, and each wake is another. A sleeper may wake at any time: for a
`notify`, for a signal, or for no reason.

`sys_flock` keeps a reference to the description for as long as the call
lasts, so `flock_remove_owned_by`, which runs at the last reference, does not
run under a sleeper.

## Main definitions

* `flockLocksConflict`: `flock_locks_conflict`.
* `flockLock`: `flock_lock`, up to where it returns or sleeps.
* `State`, `Action`, `exec`: The calls of many threads.
-/

namespace IshAok.Flock

open FileLock (LockType Lock offTMax)

/-- `LOCK_SH_`. -/
def lockSh : Nat := 1

/-- `LOCK_EX_`. -/
def lockEx : Nat := 2

/-- `LOCK_NB_`. -/
def lockNb : Nat := 4

/-- `LOCK_UN_`. -/
def lockUn : Nat := 8

/-- What of an operation says which kind it is. -/
def opOf (operation : Nat) : Nat :=
  operation &&& (lockSh ||| lockEx ||| lockUn)

variable {Owner : Type} [DecidableEq Owner]

/-- `flock_locks_conflict`. -/
def flockLocksConflict (a b : Lock Owner) : Prop :=
  a.owner ≠ b.owner ∧ (a.type = .wrlck ∨ b.type = .wrlck)

instance (a b : Lock Owner) : Decidable (flockLocksConflict a b) :=
  inferInstanceAs (Decidable (_ ∧ _))

/-- `flock_remove_owned_by`, and the first loop of `flock_lock`. -/
def flockRemoveOwnedBy (locks : List (Lock Owner)) (fd : Owner) : List (Lock Owner) :=
  locks.filter fun lock => lock.owner ≠ fd

/-- The request of `flock_lock`. -/
def request (fd : Owner) (op : Nat) : Lock Owner :=
  { start := 0, last := offTMax, type := if op = lockEx then .wrlck else .rdlck, owner := fd }

/-- One turn of the loop of `flock_lock`, and what follows it. Without an
    answer the thread sleeps. -/
def attempt (locks : List (Lock Owner)) (request : Lock Owner) (nonblock : Bool) :
    List (Lock Owner) × Option (Except Errno Unit) :=
  if locks.any fun lock => flockLocksConflict lock request then
    if nonblock then (locks, some (.error .eagain)) else (locks, none)
  else (locks ++ [request], some (.ok ()))

/-- `flock_lock`, up to where it returns or sleeps. -/
def flockLock (locks : List (Lock Owner)) (fd : Owner) (operation : Nat) :
    List (Lock Owner) × Option (Except Errno Unit) :=
  let op := opOf operation
  if op ≠ lockSh ∧ op ≠ lockEx ∧ op ≠ lockUn then (locks, some (.error .einval))
  else
    let locks := flockRemoveOwnedBy locks fd
    if op = lockUn then (locks, some (.ok ()))
    else attempt locks (request fd op) (operation &&& lockNb ≠ 0)

/-- A thread asleep in `flock_lock`, with its request. -/
structure Sleeper (Owner : Type) where
  thread : Nat
  request : Lock Owner
  deriving DecidableEq, Repr

/-- `inode->flock_locks` and the threads asleep. -/
structure State (Owner : Type) where
  locks : List (Lock Owner)
  sleepers : List (Sleeper Owner)
  deriving DecidableEq, Repr

/-- What threads do. -/
inductive Action (Owner : Type)
  /-- `flock_lock`, by a thread that is not in it. -/
  | call (thread : Nat) (fd : Owner) (operation : Nat)
  /-- `wait_for_blocked` returns, for a signal or not. -/
  | wake (thread : Nat) (interrupted : Bool)
  /-- The last reference to a description goes. -/
  | close (fd : Owner)
  deriving DecidableEq, Repr

/-- The threads asleep without one of them. -/
def wakeUp (sleepers : List (Sleeper Owner)) (thread : Nat) : List (Sleeper Owner) :=
  sleepers.filter fun w => w.thread ≠ thread

/-- What an action does and, for a call that ends, its answer. -/
def exec (s : State Owner) : Action Owner → Option (State Owner × Option (Except Errno Unit))
  | .call thread fd operation =>
    if s.sleepers.any fun w => w.thread = thread then none
    else
      match flockLock s.locks fd operation with
      | (locks, some ans) => some ({ s with locks := locks }, some ans)
      | (locks, none) =>
        some (⟨locks, s.sleepers ++ [⟨thread, request fd (opOf operation)⟩]⟩, none)
  | .wake thread interrupted =>
    match s.sleepers.find? fun w => w.thread = thread with
    | none => none
    | some w =>
      if interrupted then
        some ({ s with sleepers := wakeUp s.sleepers thread }, some (.error .eintr))
      else
        match attempt s.locks w.request false with
        | (locks, some ans) => some (⟨locks, wakeUp s.sleepers thread⟩, some ans)
        | (locks, none) => some ({ s with locks := locks }, none)
  | .close fd =>
    if s.sleepers.any fun w => w.request.owner = fd then none
    else some ({ s with locks := flockRemoveOwnedBy s.locks fd }, none)

/-- No locks and nobody asleep. -/
def initial : State Owner :=
  ⟨[], []⟩

/-- An action as a step, with its answer in the label. -/
def Step (s : State Owner) (a : Action Owner × Option (Except Errno Unit)) (s' : State Owner) :
    Prop :=
  exec s a.1 = some (s', a.2)

end IshAok.Flock
