import IshAok.Core.Errno
import Mathlib

/-!
# POSIX Record Locks

The record locks of `fs/lock.c`: the list of locks an inode keeps, and the
one pass over it that places a request.

An owner is an opaque pointer in the source (an open file table for a process
lock, an open file for an OFD lock), so it is a type parameter here. Of
`struct file_lock` the process id and name are left out: they are copied
along and shown by `F_GETLK`, and no decision reads them.

Offsets are integers, and a sum the source makes in `off_t_` is wrapped with
`offT` wherever it could leave 64 bits. The last byte of a lock is `last`;
the source calls it `end`, which is a word of Lean.

`file_lock_acquire` walks the list with a cursor and edits it in place. Its
loop is `placeLock`, one turn of it on a lock of the request's owner is
`meetLock`, and the list that comes out is the list the source has left when
it returns. The walk stops at the first lock of another owner after one of
its own, which is only right because an owner's locks are kept together.

## Main definitions

* `FileLock`: A lock on a range of bytes.
* `fileLocksConflict`: Whether two locks exclude each other.
* `fileLockTest`: The first lock in the way of a request.
* `meetLock`, `placeLock`: One turn, and the whole pass, of placing a lock.
* `fileLockAcquire`: Place a request, or refuse it.
* `flockRange`: The bytes a `struct flock` names.
* `setlkAttempt`, `fcntlSetlk`: One attempt at `F_SETLK` or `F_SETLKW`.
* `fileLockRemoveOwnedBy`: Drop everything an owner has.
-/

namespace IshAok.FileLock

/-- `F_RDLCK_`, `F_WRLCK_` and `F_UNLCK_`. -/
inductive LockType
  | rdlck
  | wrlck
  | unlck
  deriving DecidableEq, Repr

/-- `struct file_lock`: the bytes from `start` to `last`, both included. -/
structure Lock (Owner : Type) where
  start : Int
  last : Int
  type : LockType
  owner : Owner
  deriving DecidableEq, Repr

/-- `OFF_T_MAX`. -/
def offTMax : Int := 2 ^ 63 - 1

/-- There is an offset. -/
instance neZero_offsets : NeZero (2 ^ 63) := ⟨by decide⟩

/-- A value brought back into a signed 64-bit integer. -/
def offT (x : Int) : Int :=
  (x + 2 ^ 63) % 2 ^ 64 - 2 ^ 63

variable {Owner : Type} [DecidableEq Owner] (locks : List (Lock Owner))

/-- `file_locks_overlap`. -/
def fileLocksOverlap (a b : Lock Owner) : Prop :=
  b.start ≤ a.last ∧ a.start ≤ b.last

instance (a b : Lock Owner) : Decidable (fileLocksOverlap a b) :=
  inferInstanceAs (Decidable (_ ∧ _))

/-- `file_locks_conflict`: different owners, a byte in common, and one of the
    two a write lock. -/
def fileLocksConflict (a b : Lock Owner) : Prop :=
  a.owner ≠ b.owner ∧ fileLocksOverlap a b ∧ (a.type = .wrlck ∨ b.type = .wrlck)

instance (a b : Lock Owner) : Decidable (fileLocksConflict a b) :=
  inferInstanceAs (Decidable (_ ∧ _))

/-- `file_locks_adjacent`. -/
def fileLocksAdjacent (a b : Lock Owner) : Prop :=
  a.last = offT (b.start - 1) ∨ b.last = offT (a.start - 1)

instance (a b : Lock Owner) : Decidable (fileLocksAdjacent a b) :=
  inferInstanceAs (Decidable (_ ∨ _))

/-- `file_lock_test`. -/
def fileLockTest (request : Lock Owner) : Option (Lock Owner) :=
  locks.find? (fun lock => decide (fileLocksConflict lock request))

/-- One turn of the loop on a lock of the request's owner: what is left of
    the lock, the request after it, and whether waiters are notified. -/
def meetLock (request lock : Lock Owner) : List (Lock Owner) × Lock Owner × Bool :=
  if request.type = lock.type then
    if ¬ fileLocksOverlap lock request ∧ ¬ fileLocksAdjacent request lock then
      ([lock], request, false)
    else
      -- Extend the request until it covers the lock, and delete the lock.
      ([], { request with
        start := if lock.start < request.start then lock.start else request.start
        last := if lock.last > request.last then lock.last else request.last }, false)
  else if ¬ fileLocksOverlap lock request then ([lock], request, false)
  else if request.start > lock.start ∧ request.last < lock.last then
    -- The lock sticks out on both ends, so it is split.
    ([{ lock with last := offT (request.start - 1) },
      { lock with start := offT (request.last + 1) }], request, true)
  else if request.start ≤ lock.start ∧ request.last ≥ lock.last then ([], request, true)
  else if lock.start < request.start then
    ([{ lock with last := offT (request.start - 1) }], request, true)
  else if lock.last > request.last then
    ([{ lock with start := offT (request.last + 1) }], request, true)
  else ([lock], request, true)

/-- The new lock, in front of whatever the cursor stopped at. -/
def addRequest (request : Lock Owner) (rest : List (Lock Owner)) : List (Lock Owner) :=
  if request.type = .unlck then rest else request :: rest

/-- The second loop of `file_lock_acquire`. `found` is `found_our_locks`, and
    the result is the list and whether waiters were notified. -/
def placeLock : Bool → Lock Owner → List (Lock Owner) → List (Lock Owner) × Bool
  | _, request, [] => (addRequest request [], false)
  | found, request, lock :: rest =>
    if lock.owner ≠ request.owner then
      if found then (addRequest request (lock :: rest), false)
      else
        let (out, notified) := placeLock false request rest
        (lock :: out, notified)
    else
      let (kept, request, notified) := meetLock request lock
      let (out, notified') := placeLock true request rest
      (kept ++ out, notified || notified')

/-- `file_lock_acquire`: the list and whether waiters were notified, or
    `EAGAIN`. -/
def fileLockAcquire (request : Lock Owner) :
    Except Errno (List (Lock Owner) × Bool) :=
  if request.type ≠ .unlck ∧ (∃ lock ∈ locks, fileLocksConflict lock request) then .error .eagain
  else .ok (placeLock false request locks)

/-- The access modes of an open file. -/
inductive AccMode
  | rdonly
  | wronly
  | rdwr
  deriving DecidableEq, Repr

/-- What these calls read of a `struct fd`. `lseek` is what a seek to the
    current position answers, and `fstat` the size of the file; either may be
    missing. Both are offsets, so they are not negative. -/
structure Fd where
  accMode : AccMode
  hasInode : Bool
  lseek : Option (Except Errno (Fin (2 ^ 63)))
  fstat : Option (Except Errno (Fin (2 ^ 63)))

/-- `struct flock_`, as the guest wrote it. -/
structure Flock where
  type : UInt16
  whence : UInt16
  start : Int64
  len : Int64

/-- The lock types `fcntl_setlk` accepts. -/
def lockTypeOf (type : UInt16) : Option LockType :=
  if type = 0 then some .rdlck
  else if type = 1 then some .wrlck
  else if type = 2 then some .unlck
  else none

/-- The offset `l_start` counts from. -/
def flockBase (fd : Fd) (whence : UInt16) : Except Errno (Fin (2 ^ 63)) :=
  if whence = 0 then .ok 0
  else if whence = 1 then
    match fd.lseek with
    | none => .error .espipe
    | some offset => offset
  else if whence = 2 then
    match fd.fstat with
    | none => .error .espipe
    | some size => size
  else .error .einval

/-- The range checks of `file_lock_from_flock`: first and last byte. -/
def flockRange (offset start len : Int) : Except Errno (Int × Int) :=
  if start > offTMax - offset then .error .eoverflow
  else
    let start := offT (offset + start)
    if start < 0 then .error .einval
    else if len > 0 then
      if offT (len - 1) > offTMax - start then .error .eoverflow
      else .ok (start, offT (offT (start + len) - 1))
    else if len < 0 then
      if offT (start + len) < 0 then .error .einval
      else .ok (offT (start + len), offT (start - 1))
    else .ok (start, offTMax)

/-- `file_lock_from_flock`, for a type that has already been checked. -/
def fileLockFromFlock (fd : Fd) (flock : Flock) (type : LockType) (owner : Owner) :
    Except Errno (Lock Owner) :=
  match flockBase fd flock.whence with
  | .error e => .error e
  | .ok offset => match flockRange offset flock.start.toInt flock.len.toInt with
    | .error e => .error e
    | .ok (start, last) => .ok { start := start, last := last, type := type, owner := owner }

/-- The arguments of `fcntl_setlk`. The owner is the open file table of the
    caller, or the open file itself for an OFD lock. -/
structure SetlkCall (Owner : Type) where
  fd : Fd
  flock : Flock
  blocking : Bool
  owner : Owner

/-- How an attempt at a lock ends. -/
inductive Outcome
  | granted
  | refused (e : Errno)
  | waits
  deriving DecidableEq, Repr

/-- Whether the access mode of the file allows the lock. -/
def modeAllows (mode : AccMode) (type : LockType) : Prop :=
  ¬ (type = .rdlck ∧ mode = .wronly) ∧ ¬ (type = .wrlck ∧ mode = .rdonly)

instance (mode : AccMode) (type : LockType) : Decidable (modeAllows mode type) :=
  inferInstanceAs (Decidable (_ ∧ _))

/-- One turn of the loop in `fcntl_setlk`, as far as it can go without
    waiting. -/
def setlkAttempt (request : Lock Owner) (blocking : Bool) :
    Outcome × List (Lock Owner) × Bool :=
  match fileLockAcquire locks request with
  | .error e => (if blocking then .waits else .refused e, locks, false)
  | .ok (locks', notified) => (.granted, locks', notified)

/-- `fcntl_setlk` up to the point where it has the lock, has failed, or has
    to wait: the outcome, the inode's locks, and whether waiters were
    notified. A blocked call that is woken makes a further attempt with the
    range it resolved at first. -/
def fcntlSetlk (call : SetlkCall Owner) :
    Outcome × List (Lock Owner) × Bool :=
  match lockTypeOf call.flock.type with
  | none => (.refused .einval, locks, false)
  | some type =>
    if ¬ modeAllows call.fd.accMode type then (.refused .ebadf, locks, false)
    -- No inode means no place to record the lock, and nothing to contend over.
    else if call.fd.hasInode = false then (.granted, locks, false)
    else match fileLockFromFlock call.fd call.flock type call.owner with
      | .error e => (.refused e, locks, false)
      | .ok request => setlkAttempt locks request call.blocking

/-- `file_lock_remove_owned_by`: the locks left, and whether waiters were
    notified. -/
def fileLockRemoveOwnedBy (owner : Owner) : List (Lock Owner) × Bool :=
  (locks.filter (fun lock => decide (lock.owner ≠ owner)),
    decide (∃ lock ∈ locks, lock.owner = owner))

/-- What is done to the locks of one inode. -/
inductive LockOp (Owner : Type)
  | setlk (call : SetlkCall Owner)
  | removeOwnedBy (owner : Owner)

/-- One operation on an inode's locks, by any caller. -/
def lockStep : LockOp Owner → List (Lock Owner) → Prop
  | .setlk call, locks' => locks' = (fcntlSetlk locks call).2.1
  | .removeOwnedBy owner, locks' => locks' = (fileLockRemoveOwnedBy locks owner).1

end IshAok.FileLock
