import IshAok.Base.BitSet
import IshAok.Core.UserNs

/-!
# User Ids and Capabilities of a Task

The calls of `kernel/getset.c` by which a task changes its user ids and its capability sets:
`setuid`, `setreuid`, `setresuid`, `setfsuid` and `capset`. The ids a task has are kernel ids. What
a call is given is an id of the caller's user namespace, and the table of the namespaces is given
with the call, since others may write a map between two calls.

A capability set is two 32-bit words, as it is in the source and in the call. A call that fails
leaves the task as it was: every check is made before the first field is written.

## Main definitions

* `CapWords`, `Cred`: The data.
* `argKuid`: An id a call was given, as a kernel id.
* `capEmulateSetxuid`: What a change of the user ids does to the capability sets.
* `sysSetuid`, `setresuidKernel`, `sysSetreuid`, `sysSetfsuid`, `sysCapset`: The calls.
* `CredCall`, `applyCall`, `CredStep`: The calls as steps of a task.
-/

namespace IshAok.Creds

open UserNs

/-! ## The data -/

/-- `dword_t[2]`: a capability set as two words. -/
abbrev CapWords : Type :=
  Fin 2 → BitVec 32

/-- The capability with number `cap` is bit `cap % 32` of word `cap / 32`. -/
def CapWords.bits (w : CapWords) : BitVec 64 :=
  w 1 ++ w 0

/-- What the calls read and write of `current`. The group's `undumpable` is with it. -/
structure Cred where
  uid : Nat
  euid : Nat
  suid : Nat
  fsuid : Nat
  egid : Nat
  fsgid : Nat
  capEffective : CapWords
  capPermitted : CapWords
  capInheritable : CapWords
  capAmbient : CapWords
  capBounding : CapWords
  keepcaps : Bool
  userNs : Option Nat
  pid : Int
  tgid : Int
  pdeathSignal : Nat
  undumpable : Bool

/-- What the capability checks read of the task. -/
def Cred.task (c : Cred) : Task where
  userNs := c.userNs
  euid := c.euid
  egid := c.egid
  capEffective := c.capEffective.bits
  chrooted := false

/-- `(uid_t_) -1`, "leave it". -/
def leaveId : Nat :=
  2 ^ 32 - 1

variable (t : NsTable) (c : Cred)

/-- `current_can_setuids`. -/
def currentCanSetuids : Bool :=
  nsCapable t c.task c.userNs capSetuid

/-- `arg_kuid`: the id as a kernel id, or none if the namespace does not map it. -/
def argKuid (uid : Nat) : Option Nat :=
  if uid = leaveId then some uid
  else
    let kuid := userNsMakeKuid t c.userNs uid
    if kuid = userNsInvalidId then none else some kuid

/-- `cred_change_commit`, with the task as it was. -/
def credChangeCommit (before c : Cred) : Cred :=
  if c.euid ≠ before.euid ∨ c.egid ≠ before.egid ∨ c.fsuid ≠ before.fsuid ∨
      c.fsgid ≠ before.fsgid ∨ c.capPermitted 0 &&& ~~~before.capPermitted 0 ≠ 0#32 ∨
      c.capPermitted 1 &&& ~~~before.capPermitted 1 ≠ 0#32 then
    { c with pdeathSignal := 0, undumpable := true }
  else c

/-! ## User ids -/

/-- `cap_emulate_setxuid`. Root is the id that is 0 in the task's own namespace. -/
def capEmulateSetxuid (oldRuid oldEuid oldSuid : Nat) : Cred :=
  let root := userNsMakeKuid t c.userNs 0
  let oldAnyRoot := oldRuid = root ∨ oldEuid = root ∨ oldSuid = root
  let newAnyRoot := c.uid = root ∨ c.euid = root ∨ c.suid = root
  if oldAnyRoot ∧ ¬ newAnyRoot then
    { c with
      capEffective := c.capAmbient
      capPermitted :=
        if c.keepcaps = false then c.capAmbient
        else fun i => c.capPermitted i ||| c.capAmbient i }
  -- Only the effective id is dropped from root, or it becomes root again.
  else if oldEuid = root ∧ c.euid ≠ root then { c with capEffective := c.capAmbient }
  else if oldEuid ≠ root ∧ c.euid = root then { c with capEffective := c.capPermitted }
  else c

/-- The end of a call that has changed the user ids. -/
def finishSetxuid (before c : Cred) : Cred :=
  credChangeCommit before (capEmulateSetxuid t c before.uid before.euid before.suid)

/-- `sys_setuid`. -/
def sysSetuid (uid : Nat) : Except Errno Cred :=
  if uid = leaveId then .error .einval
  else
    match argKuid t c uid with
    | none => .error .einval
    | some uid =>
      if currentCanSetuids t c then
        .ok (finishSetxuid t c { c with uid := uid, suid := uid, euid := uid, fsuid := uid })
      else if uid ≠ c.uid ∧ uid ≠ c.suid then .error .eperm
      else .ok (finishSetxuid t c { c with euid := uid, fsuid := uid })

/-- An id a task without the capability may not take for one of its three. -/
def notOwn (c : Cred) (id : Nat) : Prop :=
  id ≠ leaveId ∧ id ≠ c.uid ∧ id ≠ c.euid ∧ id ≠ c.suid

instance (c : Cred) (id : Nat) : Decidable (notOwn c id) :=
  inferInstanceAs (Decidable (_ ∧ _))

/-- `setresuid_kernel`. -/
def setresuidKernel (ruid euid suid : Nat) : Except Errno Cred :=
  if currentCanSetuids t c = false ∧ (notOwn c ruid ∨ notOwn c euid ∨ notOwn c suid) then
    .error .eperm
  else
    .ok (finishSetxuid t c { c with
        uid := if ruid ≠ leaveId then ruid else c.uid
        euid := if euid ≠ leaveId then euid else c.euid
        suid := if suid ≠ leaveId then suid else c.suid
        fsuid := if euid ≠ leaveId then euid else c.fsuid })

/-- `sys_setresuid`. -/
def sysSetresuid (ruid euid suid : Nat) : Except Errno Cred :=
  match argKuid t c ruid, argKuid t c euid, argKuid t c suid with
  | some ruid, some euid, some suid => setresuidKernel t c ruid euid suid
  | _, _, _ => .error .einval

/-- `sys_setreuid`: the saved id follows the effective one if the real id is set, or if the
    effective one is set to something else than the real id. -/
def sysSetreuid (ruid euid : Nat) : Except Errno Cred :=
  match argKuid t c ruid, argKuid t c euid with
  | some ruid, some euid =>
    let newEuid := if euid = leaveId then c.euid else euid
    let suid := if ruid ≠ leaveId ∨ newEuid ≠ c.uid then newEuid else leaveId
    setresuidKernel t c ruid euid suid
  | _, _ => .error .einval

/-- `sys_setfsuid` as it changes the task. It answers the old id in any case. -/
def sysSetfsuid (uid : Nat) : Cred :=
  if uid = leaveId then c
  else
    match argKuid t c uid with
    | none => c
    | some uid =>
      if currentCanSetuids t c ∨ uid = c.uid ∨ uid = c.euid ∨ uid = c.suid then
        credChangeCommit c { c with fsuid := uid }
      else c

/-! ## Capabilities -/

/-- `struct cap_user_header_`. -/
structure CapHeader where
  version : Nat
  pid : Int

/-- `struct cap_user_data_`. -/
structure CapData where
  effective : BitVec 32
  permitted : BitVec 32
  inheritable : BitVec 32

/-- `cap_data_count`. -/
def capDataCount (version : Nat) : Option Nat :=
  if version = 0x19980330 then some 1
  else if version = 0x20071026 ∨ version = 0x20080522 then some 2
  else none

/-- `cap_words_subset`. -/
def capWordsSubset (subset superset : CapWords) (count : Nat) : Bool :=
  decide (∀ i : Fin 2, i.val < count → subset i &&& ~~~superset i = 0#32)

/-- The words of the call: those past `count` are zero. -/
def wordsOf (data : Fin 2 → CapData) (count : Nat) (field : CapData → BitVec 32) : CapWords :=
  fun i => if i.val < count then field (data i) else 0#32

/-- The checks of `sys_capset_guest` that the superuser is spared. -/
def capsetRefused (c : Cred) (effective permitted inheritable : CapWords) (count : Nat) : Bool :=
  !(capWordsSubset permitted c.capPermitted count &&
    capWordsSubset inheritable (fun i => c.capInheritable i ||| c.capPermitted i) count &&
    capWordsSubset effective permitted count && capWordsSubset effective c.capPermitted count)

/-- The part of `sys_capset_guest` after the arguments are read. -/
def capsetWords (c : Cred) (effective permitted inheritable : CapWords) (count : Nat) :
    Except Errno Cred :=
  if superuser c.task = false ∧ capsetRefused c effective permitted inheritable count then
    .error .eperm
  else if capWordsSubset effective permitted count = false then .error .eperm
  else if capWordsSubset inheritable (fun i => c.capInheritable i ||| c.capBounding i) count =
      false then .error .eperm
  else
    .ok (credChangeCommit c { c with
        capEffective := effective
        capPermitted := permitted
        capInheritable := inheritable
        capAmbient := fun i => c.capAmbient i &&& (permitted i &&& inheritable i) })

/-- `sys_capset_guest`, with the header and the data where they can be read, and what
    `current_pid_global` makes of the header's process id. -/
def sysCapset (c : Cred) (header : Option CapHeader) (data : Option (Fin 2 → CapData))
    (pidGlobal : Int → Int) : Except Errno Cred :=
  match header with
  | none => .error .efault
  | some header =>
    match capDataCount header.version with
    | none => .error .einval
    | some count =>
      if header.pid ≠ 0 ∧ pidGlobal header.pid ≠ c.pid ∧ pidGlobal header.pid ≠ c.tgid then
        .error .eperm
      else
        match data with
        | none => .error .efault
        | some data =>
          capsetWords c (wordsOf data count CapData.effective)
            (wordsOf data count CapData.permitted)
            (wordsOf data count CapData.inheritable) count

/-! ## A task's calls -/

/-- A call that changes the ids or the capabilities. -/
inductive CredCall
  | setuid (uid : Nat)
  | setreuid (ruid euid : Nat)
  | setresuid (ruid euid suid : Nat)
  | setfsuid (uid : Nat)
  | capset (header : Option CapHeader) (data : Option (Fin 2 → CapData)) (pidGlobal : Int → Int)

/-- The task after a call that may have failed. -/
def orKeep (c : Cred) : Except Errno Cred → Cred
  | .ok c' => c'
  | .error _ => c

/-- The task after a call, made with the namespaces as they are in the table. -/
def applyCall : CredCall → Cred
  | .setuid uid => orKeep c (sysSetuid t c uid)
  | .setreuid ruid euid => orKeep c (sysSetreuid t c ruid euid)
  | .setresuid ruid euid suid => orKeep c (sysSetresuid t c ruid euid suid)
  | .setfsuid uid => sysSetfsuid t c uid
  | .capset header data pidGlobal => orKeep c (sysCapset c header data pidGlobal)

/-- One call. -/
def CredStep (c : Cred) (call : NsTable × CredCall) (c' : Cred) : Prop :=
  c' = applyCall call.1 c call.2

end IshAok.Creds
