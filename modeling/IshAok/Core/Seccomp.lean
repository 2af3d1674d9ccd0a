import Mathlib.Logic.Function.Basic
import IshAok.Core.Bpf

/-!
# Seccomp Filters

Installing and running seccomp filters, from `kernel/seccomp.c`, and the
parts of cloning and exiting that touch them.

A filter is immutable once it is installed and points at the filter that was
there before it, so a pointer to a filter is the list of filters from there
on, newest first. `is_ancestor` compares pointers, not programs; the `id` of
a filter is its identity, and it is never used twice. Reference counts are
left out: nothing is decided by them.

A filter carries the fact that its program was accepted by the checker, so
running one always gives a value.

`clone` copies the parent's task first and puts the child on the thread list
of its group later, under another lock. These are two steps here. A thread
that is being killed by a filter is `dead` until it exits; a thread that
exits is marked before it is taken off the list. A task that is gone keeps
its entry, so that the entries are never used for another task.

## Main definitions

* `Filter`: A checked program with its identity.
* `runFilters`: The verdict of a chain on a call.
* `seccompAction`: The verdict of a thread on a call.
* `prepareUserFilter`: Reading and checking a program.
* `tsyncBlocker`, `setModeFilter`: Installing a filter.
* `SeccompStep`: What threads do.
-/

namespace IshAok.Seccomp

/-- `SECCOMP_MODE_*`. -/
inductive Mode
  | disabled
  | strict
  | filter
  | dead
  deriving DecidableEq, Repr

/-- `struct seccomp_filter`, without its pointer to the one before. -/
structure Filter where
  id : Nat
  log : Bool
  prog : Program
  checked : ∃ memory, bpfCheck prog memory = .ok ()

/-- `SECCOMP_RET_ALLOW`. -/
def retAllow : UInt32 := 0x7fff0000

/-- `SECCOMP_RET_KILL_THREAD`. -/
def retKillThread : UInt32 := 0

/-- The action of a verdict, compared as the source compares it: signed. -/
def signedAction (v : UInt32) : Int :=
  (v &&& 0xffff0000).toBitVec.toInt

/-- `bpf_run` on a filter. A checked program always returns. -/
def Filter.run (f : Filter) (data : List UInt32) : UInt32 :=
  (bpfValue f.prog.insns data).getD 0

/-- The loop of `run_filters`: the verdict so far, and the filter it is from. -/
def filterLoop (data : List UInt32) : List Filter → UInt32 × Option Filter → UInt32 × Option Filter
  | [], acc => acc
  | f :: rest, acc =>
    if signedAction (f.run data) < signedAction acc.1 then
      filterLoop data rest (f.run data, some f)
    else filterLoop data rest acc

/-- `run_filters`. Filter mode without a filter fails closed. -/
def runFilters (chain : List Filter) (data : List UInt32) : UInt32 × Option Filter :=
  match chain with
  | [] => (retKillProcess, none)
  | _ => filterLoop data chain (retAllow, none)

/-- The guest's instruction sets. -/
inductive GuestAbi
  | i386
  | amd64
  | arm64
  | riscv64
  | ppc64
  deriving DecidableEq, Repr

/-- `seccomp_arch`. -/
def seccompArch : GuestAbi → UInt32
  | .amd64 => 0xc000003e
  | .arm64 => 0xc00000b7
  | .riscv64 => 0xc00000f3
  | .ppc64 => 0xc0000015
  | .i386 => 0x40000003

/-- A system call as it enters the kernel. -/
structure Syscall where
  abi : GuestAbi
  nr : UInt64
  ip : UInt64
  args : Fin 6 → UInt64

/-- `strict_allowed`. -/
def strictAllowed (call : Syscall) : Bool :=
  let nr := call.nr.toUInt32
  match call.abi with
  | .amd64 => decide (nr = 0 ∨ nr = 1 ∨ nr = 60 ∨ nr = 15)
  | .arm64 => decide (nr = 63 ∨ nr = 64 ∨ nr = 93 ∨ nr = 139)
  | .riscv64 => decide (nr = 63 ∨ nr = 64 ∨ nr = 93 ∨ nr = 139)
  | .ppc64 => decide (nr = 3 ∨ nr = 4 ∨ nr = 1 ∨ nr = 172)
  | .i386 => decide (nr = 3 ∨ nr = 4 ∨ nr = 1 ∨ nr = 119)

/-- The two halves of a 64-bit value. -/
def words (v : UInt64) : List UInt32 :=
  [v.toUInt32, (v >>> 32).toUInt32]

/-- An argument, narrowed for a 32-bit guest. -/
def Syscall.arg (call : Syscall) (i : Fin 6) : UInt64 :=
  if call.abi = .i386 then (call.args i).toUInt32.toUInt64 else call.args i

/-- The `struct seccomp_data` that `seccomp_syscall_enter` builds. -/
def seccompData (call : Syscall) : List UInt32 :=
  [call.nr.toUInt32, seccompArch call.abi] ++ words call.ip ++ words (call.arg 0) ++
    words (call.arg 1) ++ words (call.arg 2) ++ words (call.arg 3) ++ words (call.arg 4) ++
    words (call.arg 5)

/-- What these functions read and write of a `struct task`. -/
structure Task where
  pid : Nat
  group : Nat
  mode : Mode
  chain : List Filter
  noNewPrivs : Bool
  exiting : Bool

/-- The verdict on a call. Strict mode kills the thread for a call that is not
    one of its four, and a thread that is being killed is killed again. -/
def seccompAction (x : Task) (call : Syscall) : UInt32 :=
  match x.mode with
  | .disabled => retAllow
  | .strict => if strictAllowed call then retAllow else retKillThread
  | .dead => retKillProcess
  | .filter => (runFilters x.chain (seccompData call)).1

/-- All tasks, and the thread list of each group, newest first. -/
structure SeccompState where
  tasks : Nat → Option Task
  threads : Nat → List Nat
  nextFilter : Nat

/-- `is_ancestor`. -/
def isAncestor (parent child : List Filter) : Bool :=
  match parent with
  | [] => true
  | p :: _ => child.any (fun f => decide (f.id = p.id))

/-- `may_assign_mode`. -/
def mayAssignMode (now mode : Mode) : Bool :=
  decide (now = .disabled ∨ now = mode)

/-- What the reads and allocations of `prepare_user_filter` come up with: the
    program header as length and address, and the instructions. -/
structure UserFilter where
  header : Option (UInt16 × UInt64)
  capable : Bool
  insnsMemory : Bool
  insns : Option (Nat → SockFilter)
  checkMemory : Bool
  filterMemory : Bool

/-- A program the checker has accepted. -/
abbrev CheckedProgram :=
  { p : Program // ∃ memory, bpfCheck p memory = .ok () }

/-- The program of the given length that was read. -/
def readProgram (len : Nat) (read : Nat → SockFilter) (h : 0 < len ∧ len ≤ bpfMaxInsns) : Program :=
  { insns := (List.range len).map read
    pos := by rw [List.length_map, List.length_range]; exact h.1
    short := by rw [List.length_map, List.length_range]; exact h.2 }

/-- `prepare_user_filter`. -/
def prepareUserFilter (noNewPrivs : Bool) (u : UserFilter) : Except Errno CheckedProgram :=
  match u.header with
  | none => .error .efault
  | some (len, addr) =>
    if hlen : 0 < len.toNat ∧ len.toNat ≤ bpfMaxInsns then
      if noNewPrivs = false ∧ u.capable = false then .error .eacces
      else if addr = 0 then .error .einval
      else if u.insnsMemory = false then .error .enomem
      else match u.insns with
        | none => .error .efault
        | some read =>
          match hc : bpfCheck (readProgram len.toNat read hlen) u.checkMemory with
          | .error e => .error e
          | .ok () =>
            if u.filterMemory = false then .error .enomem
            else .ok ⟨readProgram len.toNat read hlen, u.checkMemory, hc⟩
    else .error .einval

/-- `SECCOMP_FILTER_FLAG_TSYNC`. -/
def flagTsync : UInt32 := 1

/-- `SECCOMP_FILTER_FLAG_LOG`. -/
def flagLog : UInt32 := 2

/-- `SECCOMP_FILTER_FLAG_TSYNC_ESRCH`. -/
def flagTsyncEsrch : UInt32 := 16

/-- `SECCOMP_FILTER_FLAGS_KNOWN`: the three above and `SPEC_ALLOW`. -/
def flagsKnown : UInt32 := 23

/-- A flag is set. -/
def hasFlag (flags flag : UInt32) : Bool :=
  decide (flags &&& flag ≠ 0)

/-- `SECCOMP_MAX_PATH_INSNS`. -/
def maxPathInsns : Nat := 2 ^ 18 / 8

/-- The instructions of a path, with four more for each filter below. -/
def pathTotal (p : Program) (chain : List Filter) : Nat :=
  p.insns.length + (chain.map (fun f => f.prog.insns.length + 4)).sum

/-- `tsync_blocker`: the process id of the first thread that cannot follow. -/
def tsyncBlocker (s : SeccompState) (cur : Nat) (old : List Filter) : List Nat → Option Nat
  | [] => none
  | t :: rest => match s.tasks t with
    | none => tsyncBlocker s cur old rest
    | some x =>
      if t = cur ∨ x.exiting = true then tsyncBlocker s cur old rest
      else if x.mode = .disabled then tsyncBlocker s cur old rest
      else if x.mode = .filter ∧ isAncestor x.chain old = true then tsyncBlocker s cur old rest
      else some x.pid

variable (s : SeccompState)

/-- The loop that gives the caller's chain to the other threads. -/
def tsyncAssign (cur : Nat) (x : Task) : SeccompState :=
  { s with tasks := fun t => (s.tasks t).map (fun y =>
      if t ∈ s.threads x.group ∧ t ≠ cur ∧ y.exiting = false then
        { y with
          chain := x.chain
          mode := .filter
          noNewPrivs := y.noNewPrivs || x.noNewPrivs }
      else y) }

/-- A task changes. -/
def SeccompState.setTask (t : Nat) (x : Task) : SeccompState :=
  { s with tasks := Function.update s.tasks t (some x) }

/-- The caller with its new filter. -/
def pushFilter (x : Task) (flags : UInt32) (p : CheckedProgram) : Task :=
  { x with
    mode := .filter
    chain := ⟨s.nextFilter, hasFlag flags flagLog, p.1, p.2⟩ :: x.chain }

/-- The state once the new filter is in place. -/
def install (cur : Nat) (x : Task) (flags : UInt32) (p : CheckedProgram) :
    SeccompState :=
  let x' := pushFilter s x flags p
  let s' := { s.setTask cur x' with nextFilter := s.nextFilter + 1 }
  if hasFlag flags flagTsync then tsyncAssign s' cur x' else s'

/-- What `set_mode_filter` returns: zero, an error, or the process id of a
    thread that cannot be synchronised. -/
inductive SetResult
  | done
  | failed (e : Errno)
  | blocked (pid : Nat)
  deriving DecidableEq, Repr

/-- The thread in the way of a synchronisation, if one was asked for. -/
def blockerFor (cur : Nat) (x : Task) (flags : UInt32) : Option Nat :=
  if hasFlag flags flagTsync then tsyncBlocker s cur x.chain (s.threads x.group) else none

/-- `set_mode_filter`, for the thread `cur` whose task is `x`. -/
def setModeFilter (cur : Nat) (x : Task) (flags : UInt32) (u : UserFilter) :
    SetResult × SeccompState :=
  if flags &&& ~~~flagsKnown ≠ 0 then (.failed .einval, s)
  else match prepareUserFilter x.noNewPrivs u with
    | .error e => (.failed e, s)
    | .ok p =>
      if mayAssignMode x.mode .filter = false then (.failed .einval, s)
      else if pathTotal p.1 x.chain > maxPathInsns then (.failed .enomem, s)
      else match blockerFor s cur x flags with
        | some pid =>
          (if hasFlag flags flagTsyncEsrch then .failed .esrch else .blocked pid, s)
        | none => (.done, install s cur x flags p)

/-- `set_mode_strict`. -/
def setModeStrict (cur : Nat) (x : Task) : SetResult × SeccompState :=
  if mayAssignMode x.mode .strict then (.done, s.setTask cur { x with mode := .strict })
  else (.failed .einval, s)

/-- A thread that is on the list of its group and is not exiting. -/
def Live (t : Nat) (x : Task) : Prop :=
  s.tasks t = some x ∧ x.exiting = false ∧ t ∈ s.threads x.group

/-- What a step does, and who does it. -/
inductive SeccompEvent
  | setModeFilter (cur : Nat) (flags : UInt32) (u : UserFilter)
  | setModeStrict (cur : Nat)
  | kill (cur : Nat)
  | setNoNewPrivs (cur : Nat)
  | copy (parent child pid group : Nat)
  | link (child : Nat)
  | exit (t : Nat)
  | unlink (t : Nat)

/-- One step of the system. -/
inductive SeccompStep : SeccompState → SeccompEvent → SeccompState → Prop
  | setModeFilter (s cur x flags u) : Live s cur x →
      SeccompStep s (.setModeFilter cur flags u) (setModeFilter s cur x flags u).2
  | setModeStrict (s cur x) :
      Live s cur x → SeccompStep s (.setModeStrict cur) (setModeStrict s cur x).2
  /-- A verdict kills the thread: `seccomp_kill`, or strict mode. -/
  | kill (s cur x) :
      Live s cur x → SeccompStep s (.kill cur) (s.setTask cur { x with mode := .dead })
  | setNoNewPrivs (s cur x) : Live s cur x →
        SeccompStep s (.setNoNewPrivs cur) (s.setTask cur { x with noNewPrivs := true })
  /-- The struct copy of `task_create_`. The group is the parent's for a
      thread and another for a process. -/
  | copy (s parent child pid group x) : Live s parent x → s.tasks child = none →
      SeccompStep s (.copy parent child pid group)
        (s.setTask child { x with pid := pid, group := group })
  /-- The child is put on the thread list of its group. -/
  | link (s child x) : s.tasks child = some x → child ∉ s.threads x.group →
      SeccompStep s (.link child)
        { s with threads := Function.update s.threads x.group (child :: s.threads x.group) }
  | exit (s t x) :
      s.tasks t = some x → SeccompStep s (.exit t) (s.setTask t { x with exiting := true })
  | unlink (s t x) : s.tasks t = some x → SeccompStep s (.unlink t)
        { s with threads := Function.update s.threads x.group ((s.threads x.group).erase t) }

end IshAok.Seccomp
