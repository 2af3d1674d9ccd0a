import IshAok.Core.Errno
import Mathlib

/-!
# Futexes

The model of `kernel/futex.c`. Every operation runs under one lock, so a step is
what a task does from taking `futex_lock` to letting it go. A wait lets go of it
to watch or to sleep, and a priority inheriting lock also to look whether the
owner is alive, so these take several steps.

A futex is an object with a reference count in a table, and is found by its key.
An object has an identity of its own here, so that a stale pointer can be told
from a live one: an operation on an object that is gone, or an assertion that
fails, has no result.

A key stands for a word of memory, which every task reaches through its own
address space, so whether it may read or write it is a matter of the task. A
compare-and-swap that fails is tried again by the source, so a load and the swap
that follows it are one access here. The clock is left out: a wait may time out at
any check of its deadline, and the deadline that a parked wait keeps is not
there. A notification of a sleeping task is left out as well, because a task may
come back from its sleep at any time.

## Main definitions

* `FutexObj`, `Wait`, `PiWait`, `Park`: The records of the source.
* `Task`, `State`: A task, and the whole system.
* `futexGetUnlocked`, `futexPutUnlocked`: References.
* `futexWaitMasked`, `futexWaitResume`: A wait, up to its sleep and after it.
* `futexWakelike`, `futexWakeOp`, `futexCmpRequeue`, `futexCmpRequeuePi`: Wakes.
* `futexLockPi`, `futexLockPiLooked`, `futexLockPiResume`, `futexUnlockPi`: Locks
  with an owner.
* `robustHandleDeathRead`, `robustHandleDeathWrite`: What a dying owner does.
* `Action`, `exec`, `Step`: The system.
-/

namespace IshAok

namespace Futex

/-- What a call returns. -/
inductive Result
  | value (n : Nat)
  | error (e : Errno)
deriving DecidableEq

/-- `struct futex`. -/
structure FutexObj (K T : Type) where
  id : Nat
  key : K
  refcount : Nat
  queue : List T
  piQueue : List T
  piOwner : BitVec 32
  wakeSeq : Nat

/-- `struct futex_wait` of a wait, with the key it was called for. `linked` is
    whether it is on a queue, `sleeping` whether it is past its first look. -/
structure Wait (K : Type) where
  futex : Nat
  key : K
  bitset : BitVec 32
  interrupted : Bool
  linked : Bool
  sleeping : Bool

/-- Where `futex_lock_pi` is while it does not hold `futex_lock`. -/
inductive PiStage
  /-- About to look whether the owner of this word is alive. -/
  | look (val : BitVec 32)
  /-- About to take the lock again after having looked. -/
  | looked (val : BitVec 32) (alive : Bool)
  | asleep
deriving DecidableEq

/-- `struct futex_wait` of a lock, with the locals of `futex_lock_pi`. -/
structure PiWait (K : Type) where
  futex : Nat
  key : K
  interrupted : Bool
  queued : Bool
  linked : Bool
  piOwned : Bool
  stage : PiStage

/-- What a task is doing. -/
inductive Phase (K : Type)
  | running
  | waiting (w : Wait K)
  | locking (w : PiWait K)
  | exited

/-- The `futex_restart_*` fields of a task: the pinned object, the key of the
    wait that will restart, and the wake counter when it left. -/
structure Park (K : Type) where
  futex : Nat
  key : K
  seq : Nat

/-- A task. `pending` is `futex_wait_has_pending_signal`. `robust` is a word
    that `robust_handle_death` has read and not yet written. `held` is the record
    of the locks that it has acquired and not released. -/
structure Task (K : Type) where
  phase : Phase K
  park : Option (Park K)
  pending : Bool
  exiting : Bool
  robust : Option (K × BitVec 32)
  held : K → Bool

/-- How a task may reach a word of memory. -/
inductive Access
  | none
  | read
  | write
deriving DecidableEq

structure State (K T : Type) where
  objs : List (FutexObj K T)
  next : Nat
  mem : K → BitVec 32
  access : T → K → Access
  tasks : T → Task K

/-- What an operation leads to, with its result once it has one. -/
abbrev Out (K T : Type) := Option (State K T × Option Result)

/-- The number that each task is shown as its own. -/
structure Tids (T : Type) where
  tid : T → BitVec 32
  tid_inj : Function.Injective tid
  tid_ne_zero : ∀ t, tid t ≠ 0
  tid_masked : ∀ t, tid t &&& 0x3fffffff = tid t

/-- `FUTEX_WAITERS`. -/
def futexWaiters : BitVec 32 := 0x80000000

/-- `FUTEX_OWNER_DIED`. -/
def futexOwnerDied : BitVec 32 := 0x40000000

/-- `FUTEX_TID_MASK`. -/
def futexTidMask : BitVec 32 := 0x3fffffff

variable {K T : Type} [DecidableEq K] [DecidableEq T]

namespace State

variable (s : State K T)

def getObj (id : Nat) : Option (FutexObj K T) := s.objs.find? (·.id = id)

def modifyObj (id : Nat) (f : FutexObj K T → FutexObj K T) : State K T :=
  { s with objs := s.objs.map (fun o => if o.id = id then f o else o) }

def removeObj (id : Nat) : State K T :=
  { s with objs := s.objs.filter (·.id ≠ id) }

def modifyTask (t : T) (f : Task K → Task K) : State K T :=
  { s with tasks := Function.update s.tasks t (f (s.tasks t)) }

def setPhase (t : T) (p : Phase K) : State K T :=
  s.modifyTask t (fun task => { task with phase := p })

def setPark (t : T) (p : Option (Park K)) : State K T :=
  s.modifyTask t (fun task => { task with park := p })

def setHeld (t : T) (key : K) (b : Bool) : State K T :=
  s.modifyTask t (fun task => { task with held := Function.update task.held key b })

/-- Change the task of every waiter in a list. -/
def modifyWaits (ts : List T) (f : Wait K → Wait K) : State K T :=
  { s with
    tasks := fun t =>
      match (s.tasks t).phase with
      | .waiting w => if t ∈ ts then { s.tasks t with phase := .waiting (f w) } else s.tasks t
      | _ => s.tasks t }

def storeWord (key : K) (v : BitVec 32) : State K T :=
  { s with mem := Function.update s.mem key v }

end State

variable (s : State K T) (t : T)

/-- `futex_load`. -/
def futexLoad (key : K) : Option (BitVec 32) :=
  if s.access t key = .none then none else some (s.mem key)

/-- `futex_cas` of a word that holds what is expected. -/
def futexCas (key : K) (desired : BitVec 32) : Option (State K T) :=
  if s.access t key = .write then some (s.storeWord key desired) else none

/-- `futex_wait_is_live` for a wait. -/
def waitIsLive : Bool :=
  match (s.tasks t).phase with
  | .waiting _ => true
  | _ => false

/-- `futex_wait_is_live` for a lock. -/
def piIsLive : Bool :=
  match (s.tasks t).phase with
  | .locking _ => true
  | _ => false

def waitBitset : BitVec 32 :=
  match (s.tasks t).phase with
  | .waiting w => w.bitset
  | _ => 0

/-- The futex for a key, with a reference. Without memory there is none. -/
def futexGetUnlocked (key : K) (malloc : Bool) : State K T × Option Nat :=
  match s.objs.find? (·.key = key) with
  | some o => (s.modifyObj o.id (fun o => { o with refcount := o.refcount + 1 }), some o.id)
  | none =>
    if malloc then
      ({ s with
          objs :=
            { id := s.next, key := key, refcount := 1, queue := [], piQueue := [],
              piOwner := 0, wakeSeq := 0 } :: s.objs
          next := s.next + 1 },
        some s.next)
    else (s, none)

/-- Drop a reference. The last one frees the object, which must have no
    waiter. -/
def futexPutUnlocked (id : Nat) : Option (State K T) :=
  match s.getObj id with
  | none => none
  | some o =>
    if o.refcount = 0 then none
    else if o.refcount = 1 then
      if o.queue = [] ∧ o.piQueue = [] then some (s.removeObj id) else none
    else some (s.modifyObj id (fun o => { o with refcount := o.refcount - 1 }))

/-- `futex_put` at the end of a call. -/
def putAndReturn (id : Nat) (r : Option Result) : Out K T :=
  match futexPutUnlocked s id with
  | none => none
  | some s => some (s, r)

/-- `futex_clear_restart_park_locked`. -/
def futexClearRestartPark : Option (State K T) :=
  match (s.tasks t).park with
  | none => some s
  | some p =>
    match futexPutUnlocked s p.futex with
    | none => none
    | some s => some (s.setPark t none)

/-- The part of `futex_wait_masked` that looks at the word and queues. -/
def futexWaitQueue (id : Nat) (key : K) (val bitset : BitVec 32) : Out K T :=
  match futexLoad s t key with
  | none => putAndReturn s id (some (.error .efault))
  | some word =>
    if word ≠ val then putAndReturn s id (some (.error .eagain))
    else
      some ((s.modifyObj id (fun o => { o with queue := o.queue ++ [t] })).setPhase t
            (.waiting
              { futex := id, key := key, bitset := bitset, interrupted := false,
                linked := true, sleeping := false }),
          none)

/-- `futex_wait_masked` up to where it lets go of the lock: it has returned, or
    it is on the queue. -/
def futexWaitMasked (key : K) (val bitset : BitVec 32) (malloc : Bool) : Out K T :=
  match futexGetUnlocked s key malloc with
  | (s, none) => some (s, some (.error .enomem))
  | (s, some id) =>
    match (s.tasks t).park with
    | none => futexWaitQueue s t id key val bitset
    | some p =>
      if p.futex = id then
        -- The restart of the parked wait: drop the second reference.
        match futexPutUnlocked s id with
        | none => none
        | some s =>
          match s.getObj id with
          | none => none
          | some o =>
            if o.wakeSeq ≠ p.seq then
              putAndReturn (s.setPark t none) id (some (.value 0))
            else futexWaitQueue (s.setPark t none) t id key val bitset
      else
        match futexClearRestartPark s t with
        | none => none
        | some s => futexWaitQueue s t id key val bitset

/-- Leave a wait that was interrupted: off the queue, but the object stays
    pinned. -/
def futexWaitPark (w : Wait K) : Out K T :=
  match s.getObj w.futex with
  | none => none
  | some o =>
    some (((s.modifyObj w.futex (fun o => { o with queue := o.queue.erase t })).setPhase t
          .running).setPark t (some { futex := w.futex, key := w.key, seq := o.wakeSeq }),
        some (.error .eintr))

/-- Leave a wait with a result. -/
def futexWaitLeave (w : Wait K) (r : Result) : Out K T :=
  putAndReturn
    ((s.modifyObj w.futex (fun o => { o with queue := o.queue.erase t })).setPhase t .running)
    w.futex (some r)

/-- A wait that has the lock again, after it watched or slept. -/
def futexWaitResume (timedOut : Bool) : Out K T :=
  match (s.tasks t).phase with
  | .waiting w =>
    -- After a sleep a signal is looked for before anything else.
    if w.sleeping && (w.interrupted || (s.tasks t).pending) then futexWaitPark s t w
    else if !w.linked then futexWaitLeave s t w (.value 0)
    else if timedOut then
      if (s.tasks t).pending then futexWaitPark s t w
      else futexWaitLeave s t w (.error .etimedout)
    else some (s.setPhase t (.waiting { w with sleeping := true }), none)
  | _ => none

/-- `futex_release_restart_park`. -/
def futexReleaseRestartPark : Out K T :=
  match futexClearRestartPark s t with
  | none => none
  | some s => some (s, none)

/-- Walk a queue from its front, taking up to `max` live waiters that are meant:
    those taken and those left. -/
def walk (live hit : T → Bool) : Nat → List T → List T × List T
  | _, [] => ([], [])
  | 0, q => ([], q)
  | max + 1, t :: q =>
    if !hit t then ((walk live hit (max + 1) q).1, t :: (walk live hit (max + 1) q).2)
    else if !live t then walk live hit (max + 1) q
    else (t :: (walk live hit max q).1, (walk live hit max q).2)

/-- Wake up to `max` waiters of an object that are meant. -/
def wakeWaiters (id : Nat) (hit : T → Bool) (max : Nat) :
    Option (State K T × Nat) :=
  match s.getObj id with
  | none => none
  | some o =>
    match walk (waitIsLive s) hit max o.queue with
    | (woken, rest) =>
      some ((s.modifyObj id (fun o => { o with queue := rest })).modifyWaits woken
            (fun w => { w with linked := false }),
          woken.length)

/-- `futex_requeue_waiters`: the reference moves with the waiter. Onto itself
    nothing moves. -/
def futexRequeueWaiters (id target : Nat) (max : Nat) : Option (State K T × Nat) :=
  match s.getObj id with
  | none => none
  | some o =>
    match walk (waitIsLive s) (fun _ => true) max o.queue with
    | (moved, rest) =>
      if target ≠ id then
        if moved = [] ∨ moved.length < o.refcount then
          some (((s.modifyObj id (fun o =>
                { o with queue := rest, refcount := o.refcount - moved.length })).modifyObj
                target (fun o =>
                  { o with
                    queue := o.queue ++ moved
                    refcount := o.refcount + moved.length })).modifyWaits moved
                (fun w => { w with futex := target }),
              moved.length)
        else none
      else some (s.modifyObj id (fun o => { o with queue := moved ++ rest }), moved.length)

/-- Put two futexes and return. -/
def putBoth (id2 id : Nat) (r : Result) : Out K T :=
  match futexPutUnlocked s id2 with
  | none => none
  | some s => putAndReturn s id (some r)

def bumpSeq (id : Nat) : State K T :=
  s.modifyObj id (fun o => { o with wakeSeq := (o.wakeSeq + 1) % 2 ^ 64 })

/-- `futex_wakelike`: `FUTEX_WAKE` and `FUTEX_WAKE_BITSET`, and with a target
    `FUTEX_REQUEUE`. -/
def futexWakelike (key : K) (wakeMax : Nat) (wakeMask : BitVec 32)
    (requeue : Option (K × Nat)) (malloc malloc2 : Bool) : Out K T :=
  match futexGetUnlocked s key malloc with
  | (s, none) => some (s, some (.value 0))
  | (s, some id) =>
    match requeue with
    | none =>
      match wakeWaiters (bumpSeq s id) id (fun t => waitBitset s t &&& wakeMask != 0) wakeMax with
      | none => none
      | some (s, woken) => putAndReturn s id (some (.value woken))
    | some (key2, requeueMax) =>
      match futexGetUnlocked s key2 malloc2 with
      | (s, none) => putAndReturn s id (some (.error .enomem))
      | (s, some id2) =>
        match wakeWaiters (bumpSeq s id) id (fun t => waitBitset s t &&& wakeMask != 0) wakeMax with
        | none => none
        | some (s, woken) =>
          match futexRequeueWaiters s id id2 requeueMax with
          | none => none
          | some (s, requeued) => putBoth s id2 id (.value (woken + requeued))

/-- `futex_op_sign_extend12`. -/
def signExtend12 (v : BitVec 32) : BitVec 32 := (v.setWidth 12).signExtend 32

/-- The encoded operation of `FUTEX_WAKE_OP`: what becomes of the word, and
    whether its old value asks for the second wake. -/
def decodeOp (encoded : BitVec 32) : Option ((BitVec 32 → BitVec 32) × (BitVec 32 → Bool)) :=
  match encoded >>> 28, encoded >>> 24 &&& 0xf, signExtend12 (encoded >>> 12),
      signExtend12 encoded with
  | rawOp, cmp, oparg, cmparg =>
    match if rawOp &&& 8 = 0 then oparg else 1#32 <<< (oparg &&& 31).toNat with
    | oparg =>
      match (match (rawOp &&& 7).toNat with
        | 0 => some (fun _ => oparg)
        | 1 => some (fun old => old + oparg)
        | 2 => some (fun old => old ||| oparg)
        | 3 => some (fun old => old &&& ~~~oparg)
        | 4 => some (fun old => old ^^^ oparg)
        | _ => none : Option (BitVec 32 → BitVec 32)),
        (match cmp.toNat with
        | 0 => some (fun old => old == cmparg)
        | 1 => some (fun old => old != cmparg)
        | 2 => some (fun old => old.slt cmparg)
        | 3 => some (fun old => old.sle cmparg)
        | 4 => some (fun old => cmparg.slt old)
        | 5 => some (fun old => cmparg.sle old)
        | _ => none : Option (BitVec 32 → Bool)) with
      | some f, some g => some (f, g)
      | _, _ => none

def futexWakeOp (key1 key2 : K) (wakeMax wakeMax2 : Nat)
    (encoded : BitVec 32) (malloc malloc2 : Bool) : Out K T :=
  match decodeOp encoded with
  | none => some (s, some (.error .enosys))
  | some (f, cmp) =>
    match futexGetUnlocked s key1 malloc with
    | (s, none) => some (s, some (.error .enomem))
    | (s, some id1) =>
      match futexGetUnlocked s key2 malloc2 with
      | (s, none) => putAndReturn s id1 (some (.error .enomem))
      | (s, some id2) =>
        match futexCas s t key2 (f (s.mem key2)) with
        | none => putBoth s id2 id1 (.error .efault)
        | some stored =>
          match wakeWaiters stored id1 (fun _ => true) wakeMax with
          | none => none
          | some (woke, woken) =>
            -- The comparison is with what the word held before.
            if cmp (s.mem key2) then
              match wakeWaiters woke id2 (fun _ => true) wakeMax2 with
              | none => none
              | some (woke, woken2) => putBoth woke id2 id1 (.value (woken + woken2))
            else putBoth woke id2 id1 (.value woken)

def futexCmpRequeue (key1 key2 : K) (val val2 : Nat) (val3 : BitVec 32)
    (malloc malloc2 : Bool) : Out K T :=
  match futexGetUnlocked s key1 malloc with
  | (s, none) => some (s, some (.error .enomem))
  | (s, some id1) =>
    match futexGetUnlocked s key2 malloc2 with
    | (s, none) => putAndReturn s id1 (some (.error .enomem))
    | (s, some id2) =>
      match futexLoad s t key1 with
      | none => putBoth s id2 id1 (.error .efault)
      | some word =>
        if word ≠ val3 then putBoth s id2 id1 (.error .eagain)
        else
          match wakeWaiters s id1 (fun _ => true) val with
          | none => none
          | some (s, woken) =>
            match futexRequeueWaiters s id1 id2 val2 with
            | none => none
            | some (s, requeued) => putBoth s id2 id1 (.value (woken + requeued))

/-- `futex_cmp_requeue_pi`, whose priorities have no effect here. It compares the
    word with its wake count and wakes nobody. -/
def futexCmpRequeuePi (key1 key2 : K) (val : BitVec 32) (val2 : Nat)
    (malloc malloc2 : Bool) : Out K T :=
  match futexGetUnlocked s key1 malloc with
  | (s, none) => some (s, some (.error .enomem))
  | (s, some id1) =>
    match futexGetUnlocked s key2 malloc2 with
    | (s, none) => putAndReturn s id1 (some (.error .enomem))
    | (s, some id2) =>
      match futexLoad s t key1 with
      | none => putBoth s id2 id1 (.error .efault)
      | some word =>
        if word ≠ val then putBoth s id2 id1 (.error .eagain)
        else
          match futexRequeueWaiters s id1 id2 val2 with
          | none => none
          | some (s, requeued) => putBoth s id2 id1 (.value requeued)

/-- `futex_pi_first_waiter`: the first live waiter other than `self`, and the
    queue without the stale ones before it. -/
def futexPiFirstWaiter (live : T → Bool) (self : Option T) : List T → Option T × List T
  | [] => (none, [])
  | t :: q =>
    if !live t then futexPiFirstWaiter live self q
    else if some t = self then
      ((futexPiFirstWaiter live self q).1, t :: (futexPiFirstWaiter live self q).2)
    else (some t, t :: q)

/-- Leave `futex_lock_pi` with a result. A lock that was handed over or taken is
    held from here on. -/
def futexLockPiLeave (w : PiWait K) (r : Result) : Out K T :=
  putAndReturn (((s.modifyObj w.futex (fun o => { o with piQueue := o.piQueue.erase t })).setPhase t
      .running).setHeld t w.key (r == .value 0 || (s.tasks t).held w.key))
    w.futex (some r)

/-- Whether a task that takes a free lock leaves others waiting, and the queue
    after the look. A task that was queued does not look. -/
def piOthers (w : PiWait K) (o : FutexObj K T) : Bool × List T :=
  if w.queued then (true, o.piQueue)
  else
    ((futexPiFirstWaiter (piIsLive s) (some t) o.piQueue).1.isSome,
      (futexPiFirstWaiter (piIsLive s) (some t) o.piQueue).2)

/-- The loop of `futex_lock_pi` from its top, up to where it returns or lets go
    of the lock. -/
def futexLockPiLoop (ids : Tids T) (s : State K T) (t : T) (w : PiWait K) (trylock : Bool) :
    Out K T :=
  if w.piOwned then futexLockPiLeave s t w (.value 0)
  else
    match futexLoad s t w.key with
    | none => futexLockPiLeave s t w (.error .efault)
    | some val =>
      if val &&& futexTidMask = 0 then
        match s.getObj w.futex with
        | none => none
        | some o =>
          -- Whoever else waits must still be told of the unlock.
          match piOthers s t w o with
          | (others, rest) =>
            match futexCas (s.modifyObj w.futex (fun o => { o with piQueue := rest })) t w.key
                (ids.tid t ||| (val &&& futexOwnerDied) ||| if others then futexWaiters else 0) with
            | none =>
              futexLockPiLeave (s.modifyObj w.futex (fun o => { o with piQueue := rest })) t
                w (.error .efault)
            | some s => futexLockPiLeave s t w (.value 0)
      else if val &&& futexTidMask = ids.tid t then
        futexLockPiLeave s t w (.error .edeadlk)
      else if val &&& futexWaiters = 0 then
        match futexCas s t w.key (val ||| futexWaiters) with
        | none => futexLockPiLeave s t w (.error .efault)
        | some s =>
          if trylock then futexLockPiLeave s t w (.error .eagain)
          else
            some (s.setPhase t (.locking { w with stage := .look (val ||| futexWaiters) }), none)
      else if trylock then futexLockPiLeave s t w (.error .eagain)
      else some (s.setPhase t (.locking { w with stage := .look val }), none)

/-- `futex_lock_pi`, also for `FUTEX_TRYLOCK_PI`, up to where it returns or lets
    go of the lock. -/
def futexLockPi (ids : Tids T) (s : State K T) (t : T) (key : K) (trylock malloc : Bool) :
    Out K T :=
  match futexGetUnlocked s key malloc with
  | (s, none) => some (s, some (.error .enomem))
  | (s, some id) =>
    futexLockPiLoop ids s t
      { futex := id, key := key, interrupted := false, queued := false, linked := false,
        piOwned := false, stage := .asleep }
      trylock

/-- `futex_pi_owner_alive`. -/
def futexPiOwnerAlive [Fintype T] (ids : Tids T) (s : State K T) (owner : BitVec 32) : Bool :=
  decide (∃ t, ids.tid t = owner ∧ (s.tasks t).exiting = false ∧ (match (s.tasks t).phase with
    | .exited => false
    | _ => true) = true)

/-- `futex_lock_pi` looks at the owner, without the lock. -/
def futexLockPiLook [Fintype T] (ids : Tids T) (s : State K T) (t : T) : Out K T :=
  match (s.tasks t).phase with
  | .locking w =>
    match w.stage with
    | .look val =>
      some (s.setPhase t
            (.locking { w with
                stage := .looked val (futexPiOwnerAlive ids s (val &&& futexTidMask)) }),
          none)
    | _ => none
  | _ => none

/-- `futex_lock_pi` has the lock again after it looked at the owner. -/
def futexLockPiLooked (ids : Tids T) (s : State K T) (t : T) (timedOut : Bool) : Out K T :=
  match (s.tasks t).phase with
  | .locking w =>
    match w.stage with
    | .looked val alive =>
      if w.piOwned then futexLockPiLoop ids s t w false
      else if alive then
        -- It goes on the queue whatever has become of the word.
        match (s.modifyObj w.futex (fun o =>
            { o with
              piOwner := val &&& futexTidMask
              piQueue := if w.queued then o.piQueue else o.piQueue ++ [t] })),
          { w with queued := true, linked := w.linked || !w.queued, stage := .asleep } with
        | s, w =>
          if timedOut then futexLockPiLeave s t w (.error .etimedout)
          else some (s.setPhase t (.locking w), none)
      else
        match futexLoad s t w.key with
        | none => futexLockPiLeave s t w (.error .efault)
        | some now =>
          if now ≠ val then futexLockPiLoop ids s t w false
          else
            match s.getObj w.futex with
            | none => none
            | some o =>
              if !w.queued ∧ o.piOwner ≠ val &&& futexTidMask then
                futexLockPiLeave s t w (.error .esrch)
              else
                match futexCas s t w.key (ids.tid t ||| futexOwnerDied ||| futexWaiters) with
                | none => futexLockPiLeave s t w (.error .efault)
                | some s => futexLockPiLeave s t w (.value 0)
    | _ => none
  | _ => none

/-- `futex_lock_pi` has the lock again after a sleep. -/
def futexLockPiResume (ids : Tids T) (s : State K T) (t : T) : Out K T :=
  match (s.tasks t).phase with
  | .locking w =>
    if w.piOwned then futexLockPiLoop ids s t w false
    else if w.interrupted || (s.tasks t).pending then
      futexLockPiLeave s t w (.error .erestartNointr)
    else futexLockPiLoop ids s t w false
  | _ => none

/-- Hand a lock to a waiter. -/
def handOver : State K T :=
  s.modifyTask t (fun task =>
    match task.phase with
    | .locking w => { task with phase := .locking { w with piOwned := true, linked := false } }
    | _ => task)

def futexUnlockPi (ids : Tids T) (s : State K T) (t : T) (key : K) (malloc : Bool) : Out K T :=
  match futexGetUnlocked s key malloc with
  | (s, none) => some (s, some (.error .enomem))
  | (s, some id) =>
    match futexLoad s t key with
    | none => putAndReturn s id (some (.error .efault))
    | some val =>
      if val &&& futexTidMask ≠ ids.tid t then
        putAndReturn s id (some (.error .eperm))
      else
        match s.getObj id with
        | none => none
        | some o =>
          match futexPiFirstWaiter (piIsLive s) none o.piQueue with
          | (none, rest) =>
            match s.modifyObj id (fun o => { o with piQueue := rest }) with
            | s =>
              match futexCas s t key 0 with
              | none => putAndReturn s id (some (.error .efault))
              | some s => putAndReturn (s.setHeld t key false) id (some (.value 0))
          | (some next, rest) =>
            match s.modifyObj id (fun o => { o with piQueue := rest }) with
            | s =>
              match futexCas s t key (ids.tid next ||| futexWaiters) with
              | none => putAndReturn s id (some (.error .efault))
              | some s =>
                putAndReturn ((handOver
                    (s.modifyObj id (fun o =>
                      { o with
                        piQueue := o.piQueue.erase next
                        piOwner := ids.tid next }))
                    next).setHeld t key false)
                  id (some (.value 0))

/-- `robust_handle_death` up to its read of the word. -/
def robustHandleDeathRead (ids : Tids T) (s : State K T) (t : T) (key : K) : State K T :=
  match futexLoad s t key with
  | none => s
  | some uval =>
    if uval &&& futexTidMask ≠ ids.tid t then s
    else s.modifyTask t (fun task => { task with robust := some (key, uval) })

/-- `robust_handle_death` from its write, which does not look at the word again.
    The wake after it is a step of its own. -/
def robustHandleDeathWrite : State K T :=
  match (s.tasks t).robust with
  | none => s
  | some (key, uval) =>
    match s.modifyTask t (fun task => { task with robust := none }) with
    | s =>
      if s.access t key = .write then
        s.storeWord key ((uval &&& futexWaiters) ||| futexOwnerDied)
      else s

/-- Set the flag of a task that sleeps. -/
def interruptTask (task : Task K) : Task K :=
  match task.phase with
  | .waiting w =>
    { task with phase := .waiting { w with interrupted := w.interrupted || w.sleeping } }
  | .locking w =>
    { task with
      phase := .locking { w with interrupted := w.interrupted || w.stage == .asleep } }
  | _ => task

/-- A new task. -/
def newTask : Task K :=
  { phase := .running, park := none, pending := false, exiting := false, robust := none,
    held := fun _ => false }

/-- What can happen. -/
inductive Action (K T : Type)
  /-- `FUTEX_WAIT` and `FUTEX_WAIT_BITSET`. -/
  | wait (t : T) (key : K) (val bitset : BitVec 32) (malloc : Bool)
  /-- A wait that has the lock again. -/
  | waitResume (t : T) (timedOut : Bool)
  /-- An interrupted wait that will not restart. -/
  | release (t : T)
  /-- `FUTEX_WAKE`, `FUTEX_WAKE_BITSET` and `FUTEX_REQUEUE`. -/
  | wakelike (t : T) (key : K) (wakeMax : Nat) (wakeMask : BitVec 32) (requeue : Option (K × Nat))
      (malloc malloc2 : Bool)
  | wakeOp (t : T) (key1 key2 : K) (wakeMax wakeMax2 : Nat) (encoded : BitVec 32)
      (malloc malloc2 : Bool)
  | cmpRequeue (t : T) (key1 key2 : K) (val val2 : Nat) (val3 : BitVec 32) (malloc malloc2 : Bool)
  | cmpRequeuePi (t : T) (key1 key2 : K) (val : BitVec 32) (val2 : Nat) (malloc malloc2 : Bool)
  /-- `FUTEX_LOCK_PI` and `FUTEX_TRYLOCK_PI`. -/
  | lockPi (t : T) (key : K) (trylock malloc : Bool)
  | lockPiLook (t : T)
  | lockPiLooked (t : T) (timedOut : Bool)
  | lockPiResume (t : T)
  | unlockPi (t : T) (key : K) (malloc : Bool)
  /-- The compare-and-swap of a task that takes a free lock. -/
  | userLock (t : T) (key : K)
  /-- The compare-and-swap of a task that drops a lock without waiters. -/
  | userUnlock (t : T) (key : K)
  /-- Any other change to a word of memory. -/
  | store (key : K) (val : BitVec 32)
  /-- The page of a word is mapped, unmapped or protected. -/
  | protect (t : T) (key : K) (access : Access)
  /-- A signal becomes deliverable, or is no longer. -/
  | signal (t : T) (pending : Bool)
  /-- `wake_waiting_task` marks the sleep of a task. -/
  | interrupt (t : T)
  | exitBegin (t : T)
  | robustRead (t : T) (key : K)
  | robustWrite (t : T)
  | exitEnd (t : T)
  | spawn (t : T)

/-- Running its own code, or a call that takes one step. -/
def isRunning (task : Task K) : Prop := task.phase = .running ∧ task.exiting = false

/-- When an action can happen. -/
def Enabled (ids : Tids T) (s : State K T) : Action K T → Prop
  | .wait t _ _ _ _ => isRunning (s.tasks t)
  | .waitResume t _ => ∃ w, (s.tasks t).phase = .waiting w
  | .release t => (s.tasks t).phase = .running
  | .wakelike t _ _ _ _ _ _ => (s.tasks t).phase = .running
  | .wakeOp t _ _ _ _ _ _ _ => isRunning (s.tasks t)
  | .cmpRequeue t _ _ _ _ _ _ _ => isRunning (s.tasks t)
  | .cmpRequeuePi t _ _ _ _ _ _ => isRunning (s.tasks t)
  | .lockPi t _ _ _ => isRunning (s.tasks t)
  | .lockPiLook t => ∃ w val, (s.tasks t).phase = .locking w ∧ w.stage = .look val
  | .lockPiLooked t _ =>
    ∃ w val alive, (s.tasks t).phase = .locking w ∧ w.stage = .looked val alive
  | .lockPiResume t => ∃ w, (s.tasks t).phase = .locking w ∧ w.stage = .asleep
  | .unlockPi t _ _ => isRunning (s.tasks t)
  | .userLock t key =>
    isRunning (s.tasks t) ∧ s.access t key = .write ∧ s.mem key = 0
  | .userUnlock t key =>
    isRunning (s.tasks t) ∧ s.access t key = .write ∧ s.mem key = ids.tid t
  | .store _ _ => True
  | .protect _ _ _ => True
  | .signal _ _ => True
  | .interrupt _ => True
  | .exitBegin t => isRunning (s.tasks t)
  | .robustRead t _ => (s.tasks t).phase = .running ∧ (s.tasks t).exiting = true
  | .robustWrite t => (s.tasks t).phase = .running ∧ (s.tasks t).exiting = true
  | .exitEnd t => (s.tasks t).phase = .running ∧ (s.tasks t).exiting = true
  | .spawn t => (s.tasks t).phase = .exited

/-- What an action does. Without a result an assertion has failed or an object
    was used after it was freed. -/
def exec [Fintype T] (ids : Tids T) (s : State K T) :
    Action K T → Out K T
  | .wait t key val bitset malloc => futexWaitMasked s t key val bitset malloc
  | .waitResume t timedOut => futexWaitResume s t timedOut
  | .release t => futexReleaseRestartPark s t
  | .wakelike _ key wakeMax wakeMask requeue malloc malloc2 =>
    futexWakelike s key wakeMax wakeMask requeue malloc malloc2
  | .wakeOp t key1 key2 wakeMax wakeMax2 encoded malloc malloc2 =>
    futexWakeOp s t key1 key2 wakeMax wakeMax2 encoded malloc malloc2
  | .cmpRequeue t key1 key2 val val2 val3 malloc malloc2 =>
    futexCmpRequeue s t key1 key2 val val2 val3 malloc malloc2
  | .cmpRequeuePi t key1 key2 val val2 malloc malloc2 =>
    futexCmpRequeuePi s t key1 key2 val val2 malloc malloc2
  | .lockPi t key trylock malloc => futexLockPi ids s t key trylock malloc
  | .lockPiLook t => futexLockPiLook ids s t
  | .lockPiLooked t timedOut => futexLockPiLooked ids s t timedOut
  | .lockPiResume t => futexLockPiResume ids s t
  | .unlockPi t key malloc => futexUnlockPi ids s t key malloc
  | .userLock t key => some ((s.storeWord key (ids.tid t)).setHeld t key true, none)
  | .userUnlock t key => some ((s.storeWord key 0).setHeld t key false, none)
  | .store key val => some (s.storeWord key val, none)
  | .protect t key access =>
    some ({ s with access := Function.update s.access t (Function.update (s.access t) key access) },
        none)
  | .signal t pending => some (s.modifyTask t (fun task => { task with pending := pending }), none)
  | .interrupt t => some (s.modifyTask t interruptTask, none)
  | .exitBegin t => some (s.modifyTask t (fun task => { task with exiting := true }), none)
  | .robustRead t key => some (robustHandleDeathRead ids s t key, none)
  | .robustWrite t => some (robustHandleDeathWrite s t, none)
  | .exitEnd t =>
    match futexClearRestartPark s t with
    | none => none
    | some s => some (s.setPhase t .exited, none)
  | .spawn t => some (s.modifyTask t (fun _ => newTask), none)

/-- A step, with what was done and what it returned. -/
def Step [Fintype T] (ids : Tids T) (s : State K T) (e : Action K T × Option Result)
    (u : State K T) : Prop :=
  Enabled ids s e.1 ∧ exec ids s e.1 = some (u, e.2)

/-- The start: no futex, and no task in a call. -/
structure Initial (s : State K T) : Prop where
  objs : s.objs = []
  tasks : ∀ t, ((s.tasks t).phase = .running ∨
      (s.tasks t).phase = .exited ∧ (s.tasks t).exiting = true) ∧
    (s.tasks t).park = none ∧ (s.tasks t).robust = none ∧ ∀ key, (s.tasks t).held key = false

end Futex

end IshAok
