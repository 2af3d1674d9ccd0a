import IshAok.Core.Errno
import Mathlib.Logic.Function.Basic

/-!
# Epoll Instances That Watch Each Other

The part of `kernel/epoll.c` that decides what an epoll instance may watch, with
the list of registrations of `fs/poll.c`. A registration is a file and the number
it was added under, and a file can be an epoll instance itself.

An `EPOLL_CTL_ADD` takes three locks one after the other: to see whether the
registration is there, to look for a loop and to add it. Between them other calls
run, so each is a step of its own, and a call that is between two of them is a
phase of its thread. The other operations take the lock once.

Events and their masks are left out, and with them the refusals of `EPOLLEXCLUSIVE`:
`EINVAL` for an epoll instance and for a modification, before any of this. How an add
ends depends on the host, the memory and what is ready, and is part of the step.

## Main definitions

* `Kinds`: What the calls ask about a file.
* `State`: The registrations, and where each thread is.
* `epollWouldLoop`: The search for a loop.
* `exec`, `Step`: The calls.
-/

namespace IshAok.Epoll

inductive Result
  | zero
  | error (e : Errno)
deriving DecidableEq

/-- `EP_MAX_NESTS`. -/
def epMaxNests : Nat := 4

/-- What a file is: an epoll instance, and something that can be polled. -/
structure Kinds (F : Type) where
  isEpoll : F → Bool
  pollable : F → Bool

/-- Where the thread of an `EPOLL_CTL_ADD` is: it has found no registration, or no
    loop either, or it waits for a lock that it has itself. -/
inductive Phase (F : Type)
  | idle
  | checked (epoll fd : F) (f : Int)
  | clear (epoll fd : F) (f : Int)
  | stuck
deriving DecidableEq

/-- The registrations of each file, and the threads. -/
structure State (F T : Type) where
  pollFds : F → List (F × Int)
  phase : T → Phase F

def State.initial {F T : Type} : State F T := ⟨fun _ => [], fun _ => .idle⟩

variable {F T : Type} [DecidableEq F] [DecidableEq T] (s : State F T)

def State.setPhase (t : T) (p : Phase F) : State F T :=
  { s with phase := Function.update s.phase t p }

/-- `poll_has_fd`. -/
def pollHasFd (epoll fd : F) (f : Int) : Bool := (s.pollFds epoll).contains (fd, f)

/-- `poll_add_fd`, which lists the registration first. -/
def pollAddFd (epoll fd : F) (f : Int) : State F T :=
  { s with pollFds := Function.update s.pollFds epoll ((fd, f) :: s.pollFds epoll) }

/-- `poll_del_fd` of a registration that is there. -/
def pollDelFd (epoll fd : F) (f : Int) : State F T :=
  { s with pollFds := Function.update s.pollFds epoll ((s.pollFds epoll).erase (fd, f)) }

/-- The last close of a file: nobody watches it, and it watches nothing. -/
def closeFile (fd : F) : State F T :=
  { s with pollFds := fun x => if x = fd then [] else (s.pollFds x).filter (·.1 ≠ fd) }

/-- `epoll_would_loop`, with the levels that are left until `EP_MAX_NESTS`. -/
def epollWouldLoop (k : Kinds F) (s : State F T) (target : F) : Nat → F → Bool
  | 0, fd => k.isEpoll fd
  | n + 1, fd =>
    k.isEpoll fd &&
      (s.pollFds fd).any (fun child => child.1 == target || epollWouldLoop k s target n child.1)

/-- How an `EPOLL_CTL_ADD` ends. The host or the memory may refuse it. Once the file is
    listed, `poll_add_fd` asks with the instance locked whether it is ready. An epoll
    instance asks what it watches in turn (`epoll_poll`), until something is. If that
    leads back to the locked instance, the call does not return. -/
inductive Outcome (F : Type)
  | failed (e : Errno)
  | listed
  | stuck (path : List F)

/-- The question goes from file to file along a path to the locked instance. -/
def asksBack (k : Kinds F) (s : State F T) (epoll : F) : F → List F → Bool
  | fd, [] => fd == epoll
  | fd, next :: path =>
    k.isEpoll fd && (s.pollFds fd).any (·.1 == next) && asksBack k s epoll next path

/-- What can happen. -/
inductive Action (F T : Type)
  /-- An `EPOLL_CTL_ADD` up to its look for the registration. -/
  | addBegin (t : T) (epoll fd : F) (f : Int)
  /-- Its look for a loop. -/
  | addLook (t : T)
  | addEnd (t : T) (outcome : Outcome F)
  | mod (t : T) (epoll fd : F) (f : Int)
  | del (t : T) (epoll fd : F) (f : Int)
  | close (fd : F)

/-- A registration that is there, or the error without it. -/
def found (epoll fd : F) (f : Int) : Result :=
  if pollHasFd s epoll fd f then .zero else .error .enoent

/-- What an action does and returns. A call that goes on or is stuck returns nothing,
    and a step that its thread is not at has no result. -/
def exec (k : Kinds F) (s : State F T) : Action F T → Option (State F T × Option Result)
  | .addBegin t epoll fd f =>
    if s.phase t ≠ .idle then none
    else if !k.isEpoll epoll then some (s, some (.error .einval))
    else if fd = epoll then some (s, some (.error .einval))
    else if !k.pollable fd then some (s, some (.error .eperm))
    else if pollHasFd s epoll fd f then some (s, some (.error .eexist))
    else some (s.setPhase t (.checked epoll fd f), none)
  | .addLook t =>
    match s.phase t with
    | .checked epoll fd f =>
      if epollWouldLoop k s epoll epMaxNests fd then
        some (s.setPhase t .idle, some (.error .eloop))
      else some (s.setPhase t (.clear epoll fd f), none)
    | _ => none
  | .addEnd t outcome =>
    match s.phase t with
    | .clear epoll fd f =>
      match outcome with
      | .failed e => some (s.setPhase t .idle, some (.error e))
      | .listed => some ((pollAddFd s epoll fd f).setPhase t .idle, some .zero)
      | .stuck path =>
        if asksBack k s epoll fd path then
          some ((pollAddFd s epoll fd f).setPhase t .stuck, none)
        else none
    | _ => none
  | .mod _ epoll fd f => some (s, some (found s epoll fd f))
  | .del _ epoll fd f => some (pollDelFd s epoll fd f, some (found s epoll fd f))
  | .close fd => some (closeFile s fd, none)

/-- A step, with what was done and what it returned. -/
def Step (k : Kinds F) (s : State F T) (e : Action F T × Option Result) (u : State F T) : Prop :=
  exec k s e.1 = some (u, e.2)

end IshAok.Epoll
