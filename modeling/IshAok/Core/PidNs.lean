import Mathlib.Data.List.Infix
import Mathlib.Logic.Function.Basic

/-!
# Numbers in Pid Namespaces

How `kernel/task.c` numbers tasks in pid namespaces. A task has a slot of the
machine's table, and a number in its namespace and in each one above. A
namespace keeps its numbers both ways, in two arrays that are updated lazily.

A namespace is given by the list of itself and those above it, innermost first,
so its parent is the tail, the initial one is the empty list, and one namespace
is in another if the other is a suffix. The tables of all namespaces that will
ever be made are there from the start, with zeros, and are never freed.

A slot is in use while it has a task, or a session or process group goes by its
number. Everything here holds `pids_lock`. Which empty slot the allocator comes
to is part of the call, and the caller of `pid_ns_number_task` is `copy_task`,
whose task has no numbers yet.

## Main definitions

* `Slot`, `Table`, `State`: The slots and the numbers.
* `pidNsUnnumber`, `pidNsNextNr`, `pidNsNumberTask`: Numbers taken back and given.
* `pidNsShown`, `pidNsGlobal`: The two ways to look.
* `exec`, `Step`: The calls.
-/

namespace IshAok

namespace PidNs

def maxPid : Nat := 32768

/-- `PID_MAX_LIMIT`. -/
def pidMaxLimit : Nat := 4194304

/-- `PID_NS_NO_PID`. -/
def noPid : Nat := 0x7fffffff

/-- A namespace and those above it. -/
abbrev Ns := List Nat

/-- `struct pid`, with the lengths of its lists. -/
structure Slot where
  task : Bool
  session : Nat
  pgroup : Nat
  numberedNs : Ns
  deriving DecidableEq

/-- `pid_empty`. -/
def Slot.empty (slot : Slot) : Bool := !slot.task && slot.session == 0 && slot.pgroup == 0

/-- The numbers of a namespace. -/
structure Table where
  nrOf : Nat → Nat
  byNr : Nat → Nat
  lastNr : Nat

structure State where
  pids : Nat → Slot
  tables : Ns → Table
  pidMax : Nat

variable (s : State)

def State.setTable (ns : Ns) (t : Table) : State :=
  { s with tables := Function.update s.tables ns t }

def State.setSlot (id : Nat) (slot : Slot) : State :=
  { s with pids := Function.update s.pids id slot }

/-- `task_pid_wrap`. -/
def taskPidWrap : Nat := if s.pidMax < maxPid then s.pidMax else maxPid

/-- One namespace takes a number back. -/
def Table.takeBack (t : Table) (id : Nat) : Table :=
  { t with
    nrOf := Function.update t.nrOf id 0
    byNr := if 0 < t.nrOf id ∧ t.nrOf id ≤ maxPid ∧ t.byNr (t.nrOf id) = id then
      Function.update t.byNr (t.nrOf id) 0 else t.byNr }

/-- One namespace gives a number, the last it has looked at. -/
def Table.give (t : Table) (id : Nat) (next : Nat × Nat) : Table :=
  ⟨Function.update t.nrOf id next.1, Function.update t.byNr next.1 id, next.2⟩

/-- The loop of `pid_ns_unnumber`. -/
def unnumberUp (s : State) (id : Nat) : Ns → State
  | [] => s
  | n :: up => unnumberUp (s.setTable (n :: up) ((s.tables (n :: up)).takeBack id)) id up

/-- `pid_ns_unnumber`. -/
def pidNsUnnumber (id : Nat) : State :=
  unnumberUp (s.setSlot id { s.pids id with numberedNs := [] }) id (s.pids id).numberedNs

/-- `pid_ns_unnumber_if_empty`. -/
def pidNsUnnumberIfEmpty (id : Nat) : State :=
  if (s.pids id).empty then pidNsUnnumber s id else s

/-- A number nobody has, or that was left behind. -/
def free (t : Table) (nr : Nat) : Bool :=
  t.byNr nr == 0 || t.nrOf (t.byNr nr) != nr || (s.pids (t.byNr nr)).empty

/-- The loop of `pid_ns_next_nr`, with the last number it has looked at. -/
def nextNrLoop (s : State) (t : Table) : Nat → Nat → Nat × Nat
  | 0, last => (0, last)
  | tries + 1, last =>
    let nr := if taskPidWrap s ≤ last + 1 then 1 else last + 1
    if free s t nr then (nr, nr) else nextNrLoop s t tries nr

/-- `pid_ns_next_nr`. -/
def pidNsNextNr (t : Table) : Nat × Nat :=
  nextNrLoop s t (taskPidWrap s - 1) t.lastNr

/-- The loop of `pid_ns_number_task`. When a namespace is full, those that have
    given a number take it back. -/
def numberUp (s : State) (id : Nat) : Ns → Bool × State
  | [] => (true, s)
  | n :: up =>
    let t := s.tables (n :: up)
    let next := pidNsNextNr s t
    if next.1 = 0 then (false, s.setTable (n :: up) { t with lastNr := next.2 })
    else
      let rest := numberUp (s.setTable (n :: up) (t.give id next)) id up
      if rest.1 then rest
      else (false, rest.2.setTable (n :: up) ((rest.2.tables (n :: up)).takeBack id))

/-- `pid_ns_number_task`. -/
def pidNsNumberTask (id : Nat) (ns : Ns) : Bool × State :=
  let done := numberUp (pidNsUnnumber s id) id ns
  if done.1 then (true, done.2.setSlot id { done.2.pids id with numberedNs := ns }) else done

/-- `pid_ns_shown`. -/
def pidNsShown (viewer : Ns) (pid : Nat) : Nat :=
  if viewer = [] ∨ pid = 0 then pid else if pid ≤ maxPid then (s.tables viewer).nrOf pid else 0

/-- `pid_ns_global`. -/
def pidNsGlobal (viewer : Ns) (pid : Nat) : Nat :=
  let machine := (s.tables viewer).byNr pid
  if viewer = [] ∨ pid = 0 then pid
  else if maxPid < pid then noPid
  else if machine = 0 ∨ maxPid < machine ∨ (s.tables viewer).nrOf machine ≠ pid then noPid
  else machine

inductive Action
  /-- `task_create_pid_`. -/
  | create (id : Nat)
  /-- `copy_task`, for a task in a namespace. -/
  | number (id : Nat) (ns : Ns)
  /-- `pid_ns_forget_init`. -/
  | forgetInit (id : Nat) (ns : Ns) (isInit : Bool)
  /-- `task_unlink_locked`, and what a thread that execs does to its own slot. -/
  | unlink (id : Nat)
  /-- The slot of the leader goes to the thread that execs. -/
  | retake (id : Nat)
  /-- Sessions and groups come under a number or leave it. -/
  | relist (id session pgroup : Nat) (restore : Bool)
  /-- `task_set_pid_max`. -/
  | setPidMax (value : Nat)

/-- A change of a slot that may empty it. `tgroup_restore_ids` leaves the numbers
    where they are. -/
def release (id : Nat) (slot : Slot) (restore : Bool) : State :=
  if restore then s.setSlot id slot else pidNsUnnumberIfEmpty (s.setSlot id slot) id

/-- The state after a call, and whether the call succeeds. -/
def exec : Action → Option (State × Bool)
  | .create id =>
    -- Slot 2 is that of `kthreadd`.
    if 0 < id ∧ id < taskPidWrap s ∧ id ≠ 2 ∧ (s.pids id).empty then
      let s := pidNsUnnumber s id
      some (s.setSlot id { s.pids id with task := true, session := 0, pgroup := 0 }, true)
    else none
  | .number id ns =>
    if (s.pids id).task ∧ (s.pids id).numberedNs = [] then
      some ((pidNsNumberTask s id ns).2, (pidNsNumberTask s id ns).1)
    else none
  | .forgetInit id ns isInit =>
    let given := pidNsUnnumber s id
    some (if ns = [] then s
      else if isInit then given.setTable ns { given.tables ns with lastNr := 0 } else given, true)
  | .unlink id =>
    some (if (s.pids id).empty then s
      else release s id { s.pids id with task := false } false, true)
  | .retake id =>
    some (if (s.pids id).empty then s else s.setSlot id { s.pids id with task := true }, true)
  | .relist id session pgroup restore =>
    -- A list that is joined is not empty, or the task of the slot is there.
    if (s.pids id).empty then none
    else some (release s id { s.pids id with session := session, pgroup := pgroup } restore, true)
  | .setPidMax value =>
    if value < 301 ∨ pidMaxLimit < value then some (s, false)
    else some ({ s with pidMax := value }, true)

def Step (a : Action) (s' : State) : Prop := (exec s a).map Prod.fst = some s'

/-- Nothing is in use and nothing is numbered. -/
def initial : State where
  pids := fun _ => ⟨false, 0, 0, []⟩
  tables := fun _ => ⟨fun _ => 0, fun _ => 0, 0⟩
  pidMax := maxPid

end PidNs

end IshAok
