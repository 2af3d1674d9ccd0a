import IshAok.Base.Limits
import IshAok.Base.PathText
import IshAok.Base.Run
import IshAok.Core.Errno
import Mathlib

/-!
# Inotify

One inotify descriptor, from `kernel/inotify.c`: its watches and the records
queued for its reader.

A watch is kept by the mount that holds the file and the path on that mount.
Events come with their path resolved the same way, so both are given here. A
rename of a watched file, or of a directory above one, rewrites the paths of
the watches in place.

Everything is done under the lock of the descriptor, so each call is one step.
`inotify_notify_delete` visits the descriptors four times and gives the lock
up in between: these are four steps. The functions that notify answer with the
records they have passed to `inotify_queue_event_locked`, in place of the flag
that says whether there was one. Memory is never refused.

The counter of descriptors is a signed 32-bit number, and wraps as one.

## Main definitions

* `Record`, `Queue`, `queueEvent`: Records, and how they are queued.
* `readRecords`: `inotify_read`.
* `Watch`, `State`: Watches, and a descriptor.
* `deliver`, `notifyExact`, `notifyParent`, `emitMove`: Notifications.
* `addWatch`, `rmWatch`: The two calls.
* `Action`, `exec`: All of them.
-/

namespace IshAok.Inotify

open Base

/-- A C string, without its terminator. -/
abbrev Text := List Char

/-- `INOTIFY_MAX_QUEUED_EVENTS`. -/
def maxQueuedEvents : Nat := 16384

/-- A value brought back into a signed 32-bit integer. -/
def wrap32 (x : Int) : Int :=
  (x + 2 ^ 31) % 2 ^ 32 - 2 ^ 31

/-! ### Masks -/

def inAccess : UInt32 := 0x00000001
def inModify : UInt32 := 0x00000002
def inAttrib : UInt32 := 0x00000004
def inCloseWrite : UInt32 := 0x00000008
def inCloseNowrite : UInt32 := 0x00000010
def inOpen : UInt32 := 0x00000020
def inMovedFrom : UInt32 := 0x00000040
def inMovedTo : UInt32 := 0x00000080
def inCreate : UInt32 := 0x00000100
def inDelete : UInt32 := 0x00000200
def inDeleteSelf : UInt32 := 0x00000400
def inMoveSelf : UInt32 := 0x00000800
def inQOverflow : UInt32 := 0x00004000
def inIgnored : UInt32 := 0x00008000
def inMaskAdd : UInt32 := 0x20000000
def inIsdir : UInt32 := 0x40000000
def inOneshot : UInt32 := 0x80000000

/-- `IN_ISDIR_` for a directory. -/
def dirMask (isDir : Bool) : UInt32 :=
  if isDir then inIsdir else 0

/-! ### The queue -/

/-- `struct inotify_event_node`. No name is the empty one. -/
structure Record where
  wd : Int
  mask : UInt32
  cookie : UInt32
  name : Text
  deriving DecidableEq, Repr

/-- `sizeof(struct inotify_event_)`. -/
def headerSize : Nat := 16

/-- `inotify_name_len`. -/
def nameLen (name : Text) : Nat :=
  if name = [] then 0
  else (name.length + 1 + headerSize - 1) / headerSize * headerSize

/-- The bytes of a record in a reader's buffer. -/
def Record.size (r : Record) : Nat :=
  headerSize + nameLen r.name

/-- The record that stands for what was lost. -/
def overflowRecord : Record :=
  ⟨-1, inQOverflow, 0, []⟩

/-- Whether a record tells of a loss. -/
def Record.isOverflow (r : Record) : Bool :=
  r.mask = inQOverflow

/-- The fields of `struct inotify_state` about queued records. -/
structure Queue where
  events : List Record
  queued : Nat
  overflowed : Bool
  deriving DecidableEq, Repr

/-- The end of `inotify_queue_event_locked`. -/
def Queue.append (q : Queue) (r : Record) : Queue :=
  { q with events := q.events ++ [r], queued := q.queued + 1 }

/-- `inotify_queue_event_locked`. -/
def queueEvent (q : Queue) (r : Record) : Queue :=
  if q.queued ≥ maxQueuedEvents then
    if q.overflowed then q
    else ({ q with overflowed := true } : Queue).append overflowRecord
  else q.append r

/-- The loop of `inotify_read`, over a buffer with `room` bytes left: the
    records it writes, and those it leaves. -/
def takeRecords : Nat → List Record → List Record × List Record
  | _, [] => ([], [])
  | room, r :: rest =>
    if room ≥ headerSize ∧ room ≥ r.size then
      let t := takeRecords (room - r.size) rest
      (r :: t.1, t.2)
    else ([], r :: rest)

/-- `inotify_read`, once there is a record. -/
def readRecords (q : Queue) (bufsize : Nat) : Queue × List Record :=
  let t := takeRecords bufsize q.events
  ({ events := t.2
     queued := q.queued - t.1.length
     overflowed := if t.2 = [] then false else q.overflowed }, t.1)

/-! ### Watches -/

/-- `struct inotify_watch`. -/
structure Watch where
  wd : Int
  mask : UInt32
  mnt : Nat
  path : Text
  deriving DecidableEq, Repr

/-- What a watch is kept by. -/
def Watch.key (w : Watch) : Nat × Text :=
  (w.mnt, w.path)

/-- `struct inotify_state`. -/
structure State where
  nextWd : Int
  watches : List Watch
  queue : Queue
  deriving DecidableEq, Repr

/-- What `inotify_init1` makes. -/
def initial : State :=
  { nextWd := 1, watches := [], queue := ⟨[], 0, false⟩ }

variable (s : State) (mnt : Nat) (path : Text)

/-- `inotify_find_watch`. -/
def findWatch : Option Watch :=
  s.watches.find? fun w => w.mnt = mnt && w.path = path

/-- `inotify_find_watch_by_wd`. -/
def findWatchByWd (wd : Int) : Option Watch :=
  s.watches.find? fun w => w.wd = wd

/-- `inotify_parent_and_name`. -/
def parentAndName (path : Text) : Option (Text × Text) :=
  if '/' ∈ path then some (dropLastName path, (path.reverse.takeWhile (· ≠ '/')).reverse)
  else none

/-- The descriptor after `inotify_queue_event_locked`. -/
def State.post (r : Record) : State :=
  { s with queue := queueEvent s.queue r }

/-- The record that retires a watch. -/
def ignoredRecord (wd : Int) : Record :=
  ⟨wd, inIgnored, 0, []⟩

/-- `inotify_deliver_locked`. -/
def deliver (watch : Watch) (mask cookie : UInt32) (name : Text) :
    State × List Record :=
  let r : Record := ⟨watch.wd, mask, cookie, name⟩
  if watch.mask &&& inOneshot ≠ 0 then
    ((({ s with watches := s.watches.erase watch } : State).post r).post
      (ignoredRecord watch.wd), [r, ignoredRecord watch.wd])
  else (s.post r, [r])

/-- `inotify_notify_exact_locked`. -/
def notifyExact (mask cookie : UInt32) :
    State × List Record :=
  match findWatch s mnt path with
  | none => (s, [])
  | some watch => if watch.mask &&& mask = 0 then (s, []) else deliver s watch mask cookie []

/-- `inotify_notify_parent_locked`. -/
def notifyParent (mask cookie : UInt32) :
    State × List Record :=
  match parentAndName path with
  | none => (s, [])
  | some (parent, name) =>
    match findWatch s mnt parent with
    | none => (s, [])
    | some watch => if watch.mask &&& mask = 0 then (s, []) else deliver s watch mask cookie name

/-- `inotify_emit_exact_and_parent_cb`. -/
def emitExactAndParent (mask : UInt32) :
    State × List Record :=
  let x := notifyExact s mnt path mask 0
  let y := notifyParent x.1 mnt path mask 0
  (y.1, x.2 ++ y.2)

/-- `inotify_emit_ignored_cb`. -/
def emitIgnored : State × List Record :=
  match findWatch s mnt path with
  | none => (s, [])
  | some watch =>
    (({ s with watches := s.watches.erase watch } : State).post (ignoredRecord watch.wd),
      [ignoredRecord watch.wd])

/-- The body of the loop of `inotify_move_subtree_locked`. -/
def moveWatch (mnt : Nat) (oldPath newPath : Text) (watch : Watch) : Watch :=
  if watch.mnt ≠ mnt then watch
  else if ¬(oldPath ++ ['/']) <+: watch.path then watch
  else
    let rebuilt := newPath ++ watch.path.drop oldPath.length
    if rebuilt.length ≥ maxPath then watch
    else { watch with path := rebuilt }

/-- `inotify_move_subtree_locked`. -/
def moveSubtree (oldPath newPath : Text) : State :=
  if oldPath.length = 0 then s
  else { s with watches := s.watches.map (moveWatch mnt oldPath newPath) }

/-- `inotify_emit_move_cb`. -/
def emitMove (oldPath newPath : Text) (isDir : Bool) (cookie : UInt32) :
    State × List Record :=
  let x := notifyParent s mnt oldPath (inMovedFrom ||| dirMask isDir) cookie
  let y := notifyParent x.1 mnt newPath (inMovedTo ||| dirMask isDir) cookie
  let s := moveSubtree y.1 mnt oldPath newPath
  match findWatch s mnt oldPath with
  | none => (s, x.2 ++ y.2)
  | some watch =>
    let s := { s with watches := s.watches.replace watch { watch with path := newPath } }
    if watch.mask &&& inMoveSelf = 0 then (s, x.2 ++ y.2)
    else
      let r : Record := ⟨watch.wd, inMoveSelf, 0, []⟩
      (s.post r, x.2 ++ y.2 ++ [r])

/-- `inotify_add_watch`, for a file that was found and may be read. -/
def addWatch (mask : UInt32) : State × Int :=
  match findWatch s mnt path with
  | some watch =>
    let mask :=
      if mask &&& inMaskAdd ≠ 0 then watch.mask ||| (mask &&& ~~~inMaskAdd) else mask
    ({ s with watches := s.watches.replace watch { watch with mask := mask } }, watch.wd)
  | none =>
    ({ s with
        nextWd := wrap32 (s.nextWd + 1)
        watches := s.watches ++ [⟨s.nextWd, mask, mnt, path⟩] }, s.nextWd)

/-- `inotify_rm_watch`. -/
def rmWatch (wd : Int) : Option (State × List Record) :=
  match findWatchByWd s wd with
  | none => none
  | some watch =>
    some (({ s with watches := s.watches.erase watch } : State).post (ignoredRecord wd),
      [ignoredRecord wd])

/-! ### Runs -/

/-- What is reported to a file and the directory it is in. -/
inductive Touch
  | access
  | modify
  | attrib
  | closeWrite
  | closeNowrite
  | opened
  deriving DecidableEq, Repr

def Touch.mask : Touch → UInt32
  | .access => inAccess
  | .modify => inModify
  | .attrib => inAttrib
  | .closeWrite => inCloseWrite
  | .closeNowrite => inCloseNowrite
  | .opened => inOpen

/-- The visits of `inotify_notify_delete`. -/
inductive DeletePass
  | parent (isDir : Bool)
  | attrib
  | self
  | ignored
  deriving DecidableEq, Repr

/-- What happens to a descriptor. -/
inductive Action
  | add (mnt : Nat) (path : Text) (mask : UInt32)
  | remove (wd : Int)
  | touch (t : Touch) (mnt : Nat) (path : Text)
  | create (isDir : Bool) (mnt : Nat) (path : Text)
  | delete (pass : DeletePass) (mnt : Nat) (path : Text)
  | move (mnt : Nat) (oldPath newPath : Text) (isDir : Bool) (cookie : UInt32)
  | read (bufsize : Nat)
  deriving DecidableEq, Repr

/-- The answers. `told` has the records passed to the queue. -/
inductive Answer
  | wd (wd : Int)
  | told (calls : List Record)
  | records (l : List Record)
  | error (e : Errno)
  deriving DecidableEq, Repr

/-- The answer of a notification. -/
def answered (r : State × List Record) : State × Answer :=
  (r.1, .told r.2)

/-- What an action does. A read of an empty queue waits, or answers `EAGAIN`. -/
def exec : Action → State × Answer
  | .add mnt path mask =>
    let r := addWatch s mnt path mask
    (r.1, .wd r.2)
  | .remove wd =>
    match rmWatch s wd with
    | none => (s, .error .einval)
    | some r => answered r
  | .touch t mnt path => answered (emitExactAndParent s mnt path t.mask)
  | .create isDir mnt path => answered (notifyParent s mnt path (inCreate ||| dirMask isDir) 0)
  | .delete (.parent isDir) mnt path =>
    answered (notifyParent s mnt path (inDelete ||| dirMask isDir) 0)
  | .delete .attrib mnt path => answered (notifyExact s mnt path inAttrib 0)
  | .delete .self mnt path => answered (notifyExact s mnt path inDeleteSelf 0)
  | .delete .ignored mnt path => answered (emitIgnored s mnt path)
  | .move mnt oldPath newPath isDir cookie => answered (emitMove s mnt oldPath newPath isDir cookie)
  | .read bufsize =>
    if bufsize < headerSize then (s, .error .einval)
    else if s.queue.events = [] then (s, .error .eagain)
    else
      let r := readRecords s.queue bufsize
      ({ s with queue := r.1 }, .records r.2)

/-- An action with its answer, as a step. -/
def Step (l : Action × Answer) (s' : State) : Prop :=
  exec s l.1 = (s', l.2)

end IshAok.Inotify
