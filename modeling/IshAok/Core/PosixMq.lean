import IshAok.Base.Lanes
import IshAok.Core.Errno
import Mathlib.Data.Nat.Basic
import Mathlib.Logic.Function.Basic

/-!
# POSIX Message Queues

The model of `kernel/mqueue.c`, for one queue from its creation to its release. A call
runs under the lock of the queue, so it is one step up to where it returns or sleeps,
and each time a sleeper has the lock again is a step of its own.

A queue is found by its name and used through open descriptions. It stays until it has
lost its name and the last description is closed. A description that a call is using is
held by the call, so its last reference does not go while a task sleeps in it.

Memory that a call reads is given with the call, and a read or a write that fails is a
flag. Whether a deadline has passed, and how a sleep ended, is given with the step.

## Main definitions

* `MqMsg`, `MqNote`, `Mqueue`, `MqFile`: The records of the source.
* `mqCreateLocked`: A new queue.
* `insertMsg`: Where a message goes.
* `mqNotifyTakeLocked`: A registration is used up.
* `sendRound`, `receiveRound`: The loops of `mq_send_fd` and `mq_receive_fd`.
* `Action`, `exec`, `Step`: The system.
-/

namespace IshAok.PosixMq

def mqPrioMax : Nat := 32768

def hardMsgmax : Int := 65536

def hardMsgsizemax : Int := 16777216

/-- `NUM_SIGS`: one past the highest signal. -/
def numSigs : Int := 65

def notifyCookieLen : Nat := 32

def notifyWokenup : BitVec 8 := 1

def notifyRemoved : BitVec 8 := 2

/-- `struct mq_msg`. -/
structure MqMsg where
  prio : Nat
  data : List (BitVec 8)
deriving DecidableEq

def MqMsg.len (msg : MqMsg) : Nat := msg.data.length

/-- `SIGEV_SIGNAL`, `SIGEV_NONE` and `SIGEV_THREAD`. Only a helper thread has a socket
    and a cookie, and only for it are they read. -/
inductive Method
  | signal
  | none
  | thread (sock : Nat) (cookie : List (BitVec 8))
deriving DecidableEq

/-- The last byte of the cookie says why a registration ends. -/
def Method.ended (why : BitVec 8) : Method → Method
  | .thread sock cookie => .thread sock (cookie.set (notifyCookieLen - 1) why)
  | method => method

/-- `struct mq_note`, and the registration it is made from. -/
structure MqNote (P : Type) where
  method : Method
  tgid : P
  signo : Int
  value : BitVec 64
  execGen : Nat
deriving DecidableEq

/-- `struct mqueue`. -/
structure Mqueue (P : Type) where
  refs : Nat
  linked : Bool
  maxmsg : Nat
  msgsize : Nat
  curmsgs : Nat
  qsize : Nat
  msgs : List MqMsg
  receiversWaiting : Nat
  notify : Option (MqNote P)
deriving DecidableEq

/-- The access mode of a description. A queue can be made through the fourth mode, which
    allows nothing. -/
inductive Acc
  | rdonly
  | wronly
  | rdwr
  | neither
deriving DecidableEq

/-- `struct mq_file`, with the flags of its descriptor. -/
structure MqFile where
  id : Nat
  acc : Acc
  nonblock : Bool
deriving DecidableEq

/-- A `mq_send` that sleeps. -/
structure Send where
  file : Nat
  msg : MqMsg
  timed : Bool
deriving DecidableEq

/-- A `mq_receive` that sleeps. -/
structure Receive where
  file : Nat
  timed : Bool
deriving DecidableEq

/-- Where a task is. -/
inductive Phase
  | running
  | sending (w : Send)
  | receiving (w : Receive)
deriving DecidableEq

/-- What a call returns. A message that was taken off the queue is received, or lost
    where it could not be copied out, and the call then fails. A send is noted with its
    message and with the notification that it makes. -/
inductive Result (P : Type)
  | sent (msg : MqMsg) (note : Option (MqNote P))
  | received (msg : MqMsg)
  | lost (msg : MqMsg)
  | fd (id : Nat)
  | attr (nonblock : Bool) (maxmsg msgsize curmsgs : Nat)
  | done
  | error (e : Errno)
deriving DecidableEq

/-- The queue, its open descriptions, and the tasks. -/
structure State (T P : Type) where
  queue : Option (Mqueue P)
  files : List MqFile
  nextFile : Nat
  tasks : T → Phase

/-- What a call leads to, with its result once it has one. -/
abbrev Out (T P : Type) := Option (State T P × Option (Result P))

variable {T P : Type}

section Queues

/-- The limits of an IPC namespace. -/
structure Limits where
  queuesCount : Nat
  queuesMax : Nat
  msgMax : Nat
  msgDefault : Nat
  msgsizeMax : Nat
  msgsizeDefault : Nat

/-- `mq_create_locked`. The charge to the user's limit is `charge`. -/
def mqCreateLocked (ns : Limits) (capable : Bool) (attr : Option (Int × Int))
    (charge : Option Errno) (malloc : Bool) : Except Errno (Mqueue P) :=
  if ns.queuesMax ≤ ns.queuesCount ∧ !capable then .error .enospc
  else
    match attr.getD (min ns.msgDefault ns.msgMax, min ns.msgsizeDefault ns.msgsizeMax) with
    | (maxmsg, msgsize) =>
      if maxmsg ≤ 0 ∨ msgsize ≤ 0 then .error .einval
      else if capable ∧ (hardMsgmax < maxmsg ∨ hardMsgsizemax < msgsize) then .error .einval
      else if !capable ∧ ((ns.msgMax : Int) < maxmsg ∨ (ns.msgsizeMax : Int) < msgsize) then
        .error .einval
      else
        match charge with
        | some e => .error e
        | none =>
          if !malloc then .error .enomem
          else
            .ok
              { refs := 1, linked := true, maxmsg := maxmsg.toNat, msgsize := msgsize.toNat,
                curmsgs := 0, qsize := 0, msgs := [], receiversWaiting := 0, notify := none }

/-- `mq_release`: the last reference frees the queue. -/
def mqRelease (q : Mqueue P) : Option (Mqueue P) :=
  if q.refs = 1 then none else some { q with refs := q.refs - 1 }

/-- A message goes behind every message of its own priority or higher. -/
def insertMsg (msg : MqMsg) (msgs : List MqMsg) : List MqMsg :=
  Base.insertBehind MqMsg.prio msg msgs

/-- `mq_notify_take_locked`: a registration is used once. -/
def mqNotifyTakeLocked (q : Mqueue P) (why : BitVec 8) : Mqueue P × Option (MqNote P) :=
  match q.notify with
  | none => (q, none)
  | some note => ({ q with notify := none }, some { note with method := note.method.ended why })

/-- A message is put in. -/
def putMsg (q : Mqueue P) (msg : MqMsg) : Mqueue P :=
  { q with
    msgs := insertMsg msg q.msgs
    curmsgs := q.curmsgs + 1
    qsize := q.qsize + msg.len }

/-- What a send does to a queue that has room. Only a message that comes into an empty
    queue with no receiver waiting makes a notification. -/
def enqueue (q : Mqueue P) (msg : MqMsg) : Mqueue P × Option (MqNote P) :=
  if (putMsg q msg).receiversWaiting = 0 ∧ (putMsg q msg).curmsgs = 1 then
    mqNotifyTakeLocked (putMsg q msg) notifyWokenup
  else (putMsg q msg, none)

end Queues

def State.getFile (s : State T P) (id : Nat) : Option MqFile :=
  s.files.find? (fun file => file.id = id)

section Calls

variable [DecidableEq T] (s : State T P) (t : T)

def State.setPhase (phase : Phase) : State T P :=
  { s with tasks := Function.update s.tasks t phase }

/-- A call returns. -/
def finish (r : Result P) : State T P × Option (Result P) :=
  (s.setPhase t .running, some r)

/-- The loop of `mq_send_fd`, up to where it returns or sleeps. -/
def sendRound (w : Send) (expired : Bool) : Out T P :=
  match s.queue, s.getFile w.file with
  | some q, some file =>
    if q.maxmsg ≤ q.curmsgs then
      if file.nonblock then some (finish s t (.error .eagain))
      else if w.timed && expired then some (finish s t (.error .etimedout))
      else some (s.setPhase t (.sending w), none)
    else
      match enqueue q w.msg with
      | (q, note) => some (finish { s with queue := some q } t (.sent w.msg note))
  | _, _ => none

/-- A copy to memory that fails: of the priority, or of the text. -/
structure Faults where
  prio : Bool
  text : Bool
deriving DecidableEq

/-- Whether the copy of a message fails. An empty text is not copied. -/
def Faults.hit (faults : Faults) (msg : MqMsg) : Bool :=
  faults.prio || (msg.len != 0 && faults.text)

/-- The end of `mq_receive_fd`. The message is off the queue before it is copied. -/
def takeMsg (q : Mqueue P) (t : T) (faults : Faults) : Out T P :=
  match q.msgs with
  | [] => none
  | msg :: msgs =>
    match { q with
        msgs := msgs
        curmsgs := q.curmsgs - 1
        qsize := q.qsize - msg.len
        receiversWaiting := q.receiversWaiting - 1 }
      with
    | q =>
      some (finish { s with queue := some q } t
        (if faults.hit msg then .lost msg else .received msg))

/-- A receive gives up. -/
def leaveReceive (q : Mqueue P) (t : T) (e : Errno) :
    State T P × Option (Result P) :=
  finish { s with queue := some { q with receiversWaiting := q.receiversWaiting - 1 } } t (.error e)

/-- The loop of `mq_receive_fd`, with the receiver counted, up to where it returns or
    sleeps. -/
def receiveRound (w : Receive) (faults : Faults) (expired : Bool) : Out T P :=
  match s.queue, s.getFile w.file with
  | some q, some file =>
    if q.curmsgs = 0 then
      if file.nonblock then some (leaveReceive s q t .eagain)
      else if w.timed && expired then some (leaveReceive s q t .etimedout)
      else some (s.setPhase t (.receiving w), none)
    else takeMsg s q t faults
  | _, _ => none

/-- The deadline of a timed call: none, one that cannot be used, or one. -/
inductive Deadline
  | none
  | bad (e : Errno)
  | at
deriving DecidableEq

def Deadline.timed : Deadline → Bool
  | .at => true
  | _ => false

/-- `mq_timedsend`. `fault` is a failed read of the message. -/
def mqTimedsend (id : Nat) (data : List (BitVec 8)) (prio : Nat)
    (deadline : Deadline) (malloc fault expired : Bool) : Out T P :=
  match deadline with
  | .bad e => some (s, some (.error e))
  | _ =>
    if mqPrioMax ≤ prio then some (s, some (.error .einval))
    else
      match s.getFile id with
      | none => some (s, some (.error .ebadf))
      | some file =>
        match s.queue with
        | none => none
        | some q =>
          if file.acc ≠ .wronly ∧ file.acc ≠ .rdwr then some (s, some (.error .ebadf))
          else if q.msgsize < data.length then some (s, some (.error .emsgsize))
          else if !malloc then some (s, some (.error .enomem))
          else if data.length ≠ 0 ∧ fault then some (s, some (.error .efault))
          else
            sendRound s t
              { file := id, msg := { prio := prio, data := data }, timed := deadline.timed }
              expired

/-- How a sleep ends: woken, out of time, or by a signal, which may restart the call. -/
inductive Wake
  | woken
  | timedOut
  | interrupted
  | restart
deriving DecidableEq

def Wake.error : Wake → Option Errno
  | .woken => none
  | .timedOut => some .etimedout
  | .interrupted => some .eintr
  | .restart => some .erestart

/-- `mq_send_fd` after its sleep. An error ends it before it looks at the queue again. -/
def sendResume (wake : Wake) (expired : Bool) : Out T P :=
  match s.tasks t with
  | .sending w =>
    match wake.error with
    | some e => some (finish s t (.error e))
    | none => sendRound s t w expired
  | _ => none

/-- `mq_timedreceive`, with the room `len` for the message. -/
def mqTimedreceive (id : Nat) (len : Nat) (deadline : Deadline)
    (faults : Faults) (expired : Bool) : Out T P :=
  match deadline with
  | .bad e => some (s, some (.error e))
  | _ =>
    match s.getFile id with
    | none => some (s, some (.error .ebadf))
    | some file =>
      match s.queue with
      | none => none
      | some q =>
        if file.acc ≠ .rdonly ∧ file.acc ≠ .rdwr then some (s, some (.error .ebadf))
        else if len < q.msgsize then some (s, some (.error .emsgsize))
        else
          receiveRound
            { s with queue := some { q with receiversWaiting := q.receiversWaiting + 1 } } t
            { file := id, timed := deadline.timed } faults expired

/-- `mq_receive_fd` after its sleep. -/
def receiveResume (wake : Wake) (faults : Faults) (expired : Bool) : Out T P :=
  match s.tasks t with
  | .receiving w =>
    match wake.error with
    | some e =>
      match s.queue with
      | none => none
      | some q => some (leaveReceive s q t e)
    | none => receiveRound s t w faults expired
  | _ => none

end Calls

section Notify

variable [DecidableEq P]

/-- What `mq_notify` reads: nothing, something it cannot use, or an event. -/
inductive Sigevent
  | none
  | bad (e : Errno)
  | event (method : Method) (signo : Int) (value : BitVec 64)

/-- `sys_mq_notify_guest`, by a task of the process `p`. -/
def mqNotify (s : State T P) (p : P) (execGen : Nat) (id : Nat) (sev : Sigevent) : Out T P :=
  match sev with
  | .bad e => some (s, some (.error e))
  | .none =>
    match s.getFile id with
    | none => some (s, some (.error .ebadf))
    | some _ =>
      match s.queue with
      | none => none
      | some q =>
        if q.notify.map MqNote.tgid = some p then
          some ({ s with queue := some (mqNotifyTakeLocked q notifyRemoved).1 }, some .done)
        else some (s, some .done)
  | .event method signo value =>
    if method = .signal ∧ (signo < 0 ∨ numSigs ≤ signo) then some (s, some (.error .einval))
    else
      match s.getFile id with
      | none => some (s, some (.error .ebadf))
      | some _ =>
        match s.queue with
        | none => none
        | some q =>
          if q.notify.isSome then some (s, some (.error .ebusy))
          else
            some ({ s with
                    queue := some { q with
                        notify := some
                          { method := method, tgid := p,
                            signo := if method = .signal then signo else 0,
                            value := value, execGen := execGen } } },
              some .done)

/-- `mq_close`, by the process `p` if there is one: the registration of a process goes with
    its descriptor. -/
def mqClose (s : State T P) (p : Option P) (id : Nat) : Out T P :=
  match s.queue with
  | none => none
  | some q =>
    match (if q.notify.isSome ∧ q.notify.map MqNote.tgid = p then
        (mqNotifyTakeLocked q notifyRemoved).1 else q)
      with
    | q =>
      some ({ s with
              queue := mqRelease q
              files := s.files.filter (fun file => file.id ≠ id) }, some .done)

end Notify

section Names

/-- `sys_mq_open_guest` on the name of the queue, and `mqueuefs_open`. `access` is the
    answer of `mq_access`. With no queue of the name, it is another queue that is made. -/
def mqOpen (s : State T P) (acc : Acc) (nonblock excl : Bool) (access : Option Errno)
    (malloc : Bool) : Out T P :=
  match s.queue with
  | none => some (s, some (.error .enoent))
  | some q =>
    if !q.linked then some (s, some (.error .enoent))
    else if excl then some (s, some (.error .eexist))
    else
      match access with
      | some e => some (s, some (.error e))
      | none =>
        if !malloc then some (s, some (.error .enomem))
        else
          some ({ s with
                  queue := some { q with refs := q.refs + 1 }
                  files := s.files ++ [{ id := s.nextFile, acc := acc, nonblock := nonblock }]
                  nextFile := s.nextFile + 1 },
            some (.fd s.nextFile))

/-- `mq_unlink_name`. `allowed` is whether the caller may remove the name. -/
def mqUnlinkName (s : State T P) (allowed : Bool) : State T P × Option (Result P) :=
  match s.queue with
  | none => (s, some (.error .enoent))
  | some q =>
    if !q.linked then (s, some (.error .enoent))
    else if !allowed then (s, some (.error .eperm))
    else ({ s with queue := mqRelease { q with linked := false } }, some .done)

/-- `sys_mq_getsetattr_guest`: only whether a description blocks can be changed. `bad` is
    an attribute that cannot be read or asks for more. A failed write of the old
    attributes comes after the change. -/
def mqGetsetattr (s : State T P) (id : Nat) (bad : Option Errno) (new : Option Bool)
    (fault : Bool) : Out T P :=
  match bad with
  | some e => some (s, some (.error e))
  | none =>
    match s.getFile id with
    | none => some (s, some (.error .ebadf))
    | some file =>
      match s.queue with
      | none => none
      | some q =>
        some ({ s with
                files := match new with
                  | none => s.files
                  | some nonblock => s.files.map (fun file =>
                    if file.id = id then { file with nonblock := nonblock } else file) },
          some (if fault then .error .efault
            else .attr file.nonblock q.maxmsg q.msgsize q.curmsgs))

end Names

/-- What can happen. -/
inductive Action (T : Type)
  | send (t : T) (id : Nat) (data : List (BitVec 8)) (prio : Nat) (deadline : Deadline)
      (malloc fault expired : Bool)
  | sendResume (t : T) (wake : Wake) (expired : Bool)
  | receive (t : T) (id : Nat) (len : Nat) (deadline : Deadline) (faults : Faults) (expired : Bool)
  | receiveResume (t : T) (wake : Wake) (faults : Faults) (expired : Bool)
  | notify (t : T) (execGen : Nat) (id : Nat) (sev : Sigevent)
  | open (t : T) (acc : Acc) (nonblock excl : Bool) (access : Option Errno) (malloc : Bool)
  | unlink (t : T) (allowed : Bool)
  | getsetattr (t : T) (id : Nat) (bad : Option Errno) (new : Option Bool) (fault : Bool)
  /-- The last reference to a description goes, in a task or in none. -/
  | close (t : Option T) (id : Nat)

section System

variable [DecidableEq T] [DecidableEq P]

/-- The description that a sleeper holds. -/
def Phase.file : Phase → Option Nat
  | .running => none
  | .sending w => some w.file
  | .receiving w => some w.file

/-- When an action can happen. -/
def Enabled (s : State T P) : Action T → Prop
  | .send t _ _ _ _ _ _ _ => s.tasks t = .running
  | .sendResume t _ _ => ∃ w, s.tasks t = .sending w
  | .receive t _ _ _ _ _ => s.tasks t = .running
  | .receiveResume t _ _ _ => ∃ w, s.tasks t = .receiving w
  | .notify t _ _ _ => s.tasks t = .running
  | .open t _ _ _ _ _ => s.tasks t = .running
  | .unlink t _ => s.tasks t = .running
  | .getsetattr t _ _ _ _ => s.tasks t = .running
  | .close t id =>
    (∀ u ∈ t, s.tasks u = .running) ∧ (∃ file ∈ s.files, file.id = id) ∧
      ∀ u, (s.tasks u).file ≠ some id

/-- What an action does, for tasks of given processes. Without a result the queue was used
    after it was freed, or a message was taken from an empty list. -/
def exec (tgid : T → P) (s : State T P) : Action T → Out T P
  | .send t id data prio deadline malloc fault expired =>
    mqTimedsend s t id data prio deadline malloc fault expired
  | .sendResume t wake expired => sendResume s t wake expired
  | .receive t id len deadline faults expired => mqTimedreceive s t id len deadline faults expired
  | .receiveResume t wake faults expired => receiveResume s t wake faults expired
  | .notify t execGen id sev => mqNotify s (tgid t) execGen id sev
  | .open _ acc nonblock excl access malloc => mqOpen s acc nonblock excl access malloc
  | .unlink _ allowed => some (mqUnlinkName s allowed)
  | .getsetattr _ id bad new fault => mqGetsetattr s id bad new fault
  | .close t id => mqClose s (t.map tgid) id

/-- A step, with what was done and what it returned. -/
def Step (tgid : T → P) (s : State T P) (e : Action T × Option (Result P)) (u : State T P) : Prop :=
  Enabled s e.1 ∧ exec tgid s e.1 = some (u, e.2)

/-- The start: a queue that was just made, with no description yet. -/
structure Initial (s : State T P) : Prop where
  queue : ∃ ns capable attr charge malloc q,
    mqCreateLocked ns capable attr charge malloc = .ok q ∧ s.queue = some q
  files : s.files = []
  tasks : ∀ t, s.tasks t = .running

end System

end IshAok.PosixMq
