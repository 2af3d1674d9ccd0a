import IshAok.Core.Mount

/-!
# Mount Calls

The calls of a guest on the mount table: `mount` in its forms, `umount2`,
`pivot_root`, `mount_setattr`, and the copy of a mount namespace. Paths are
resolved already, and the caller may mount.

A mount of `devtmpfs` on a directory that has its nodes, and one of
`binfmt_misc`, are not in the table and are left out. Whether a filesystem
accepts a mount or its options is part of the call, as is whether the caller's
root is that of its namespace for `pivot_root`.

## Main definitions

* `doMount`, `doBindMount`, `bindReplicateSubmounts`: New mounts.
* `mountMove`, `remount`, `mountSetattr`: Changes to a mount.
* `mntNsCopy`, `mntNsPivotRoot`: Namespaces.
* `Action`, `exec`, `Step`: Calls and what they do.
* `rootTable`: A table to start from.
-/

namespace IshAok.Mounts

/-- `MS_FLAGS`. -/
def msFlags : BitVec 32 := 0x01200c0f

variable (t : Table)

/-- `do_mount`. -/
def doMount (point : Place) (flags : BitVec 32) : Table :=
  t.add (newMount t point flags)

/-- `do_bind_mount`. The source is on `holder`, and on the origin of that when it
    is a bind. -/
def doBindMount (source point : Place) (flags : BitVec 32) : Option Errno × Table :=
  match mountFind t source with
  | none => (some .einval, t)
  | some holder =>
    let src := holder.bindPrefix ++ source.drop holder.point.length
    if holder.bindOrigin.isSome && !fits src then (some .einval, t)
    else if holder.unbindable then (some .einval, t)
    else (none, t.addBind holder.fsOrigin { newMount t point flags with
      bindPrefix := src
      sharedId := holder.sharedId
      masterId := holder.masterId
      derived := holder.lockedFlags })

/-- `mount_locked_flags_at`. -/
def mountLockedFlagsAt (path : Place) : BitVec 32 :=
  match mountFind t path with
  | none => 0
  | some m => m.lockedFlags

/-- `mount_locked_below`. -/
def mountLockedBelow (path : Place) : Bool :=
  t.mounts.any fun m => m.locked && m.inView && mountPointBelow m.point path

/-- `mount_set_lock_at`. -/
def mountSetLockAt (point : Place) (locked : Bool) (lockedFlags : BitVec 32) : Table :=
  match topAt t point with
  | none => t
  | some m => t.update m.addr fun m => { m with locked := locked, lockedFlags := lockedFlags }

/-- The mounts `bind_replicate_submounts` makes copies of. -/
def replicated (source point : Place) : List Mount :=
  t.mounts.filter fun m => mountPointBelow m.point source && decide (m.point ≠ point)

/-- One copy. -/
def replicate (source point : Place) (flags : BitVec 32) (t : Table) (sub : Mount) : Table :=
  let subPoint := rebase source point sub.point
  if fits subPoint then
    match doBindMount t sub.point subPoint (flags ||| sub.lockedFlags) with
    | (some _, _) => t
    | (none, t) =>
      if sub.locked || decide (sub.lockedFlags ≠ 0) then
        mountSetLockAt t subPoint sub.locked sub.lockedFlags
      else t
  else t

/-- `bind_replicate_submounts`. -/
def bindReplicateSubmounts (source point : Place) (flags : BitVec 32) : Table :=
  (replicated t source point).foldl (replicate source point flags) t

/-- `MS_BIND` of `sys_mount`, up to the propagation. -/
def bindAttach (source point : Place) (flags : BitVec 32) (recursive : Bool) :
    Option Errno × Table :=
  if !recursive && mountLockedBelow t source then (some .einval, t)
  else
    let inherited := mountLockedFlagsAt t source
    match doBindMount t source point ((flags &&& msFlags) ||| inherited) with
    | (some err, _) => (some err, t)
    | (none, t) =>
      let t := if inherited ≠ 0 then mountSetLockAt t point false inherited else t
      let t := if recursive then bindReplicateSubmounts t source point (flags &&& msFlags) else t
      (none, mountCoverAt t point true)

/-- `MS_BIND` of `sys_mount`. -/
def bindMount (source point : Place) (flags : BitVec 32) (recursive : Bool) :
    Option Errno × Table :=
  match bindAttach t source point flags recursive with
  | (some err, _) => (some err, t)
  | (none, t) => (none, mountPropagateAt t point recursive)

/-- `MS_MOVE` of `sys_mount`, up to the propagation: the mount and those in it. -/
def moveAttach (source point : Place) : Except Errno (Nat × List Nat × Table) :=
  match t.mounts.find? fun m => !m.lazyUmount && decide (m.point = source) with
  | none => .error .einval
  | some found =>
    if found.locked then .error .einval
    else if (mountParent t found).any fun m => m.sharedId ≠ 0 then .error .einval
    else if source.isPrefixOf point then .error .eloop
    else match mountSubtreeCollect t found.addr source point with
      | .error err => .error err
      | .ok (subs, t) =>
        -- It uncovers what it was over, and covers what it lands on.
        let t := (mountUncover t found).relocate found.addr point
        let t := mountCoverBelow t { found with point := point } mountCoverAll
        .ok (found.addr, subs.map Mount.addr, mountSubtreePlace t subs source point)

/-- `MS_MOVE` of `sys_mount`. -/
def mountMove (source point : Place) : Option Errno × Table :=
  match moveAttach t source point with
  | .error err => (some err, t)
  | .ok (top, subs, t) => (none, mountPropagateTree t top subs)

/-- `MS_REMOUNT` of `sys_mount`. -/
def remount (point : Place) (flags : BitVec 32) (fails : Option Errno) :
    Option Errno × Table :=
  match t.mounts.find? fun m => m.point = point with
  | none => (some .einval, t)
  | some m =>
    if fails.isSome then (fails, t)
    else if m.lockedFlags &&& ~~~flags ≠ 0 then (some .eperm, t)
    else (none, t.update m.addr fun m =>
      { m with flags := (m.flags &&& ~~~msFlags) ||| (flags &&& msFlags) })

/-- The propagation that `mount_setattr` may ask for. -/
def setType (addr : Nat) : Option Kind → Table
  | none => t
  | some type => setPropagations t [addr] type

/-- One mount of `mount_setattr`. -/
def setattrOne (set clear : BitVec 32) (type : Option Kind) (t : Table) (addr : Nat) : Table :=
  setType (t.update addr fun m => { m with flags := (m.flags &&& ~~~clear) ||| set }) addr type

/-- `sys_mount_setattr_guest`. -/
def mountSetattr (ns : Space) (point : Place) (recursive : Bool)
    (set clear : BitVec 32) (type : Option Kind) : Option Errno × Table :=
  match t.mounts.find? fun m => !m.lazyUmount && decide (m.coveredBy = 0 ∧ m.point = point) with
  | none => (some .einval, t)
  | some top =>
    if top.detached = mntNsHasPoint ns point then (some .einval, t)
    else
      let tree := treeAt t ns top recursive
      -- One mount with a lock on what is to be cleared, and nothing changes.
      if t.mounts.any fun m => decide (m.addr ∈ tree ∧ m.lockedFlags &&& clear ≠ 0) then
        (some .eperm, t)
      else (none, tree.foldl (setattrOne set clear type) t)

/-! ### Namespaces -/

/-- `mount_in_ns_locked`. -/
def mountInNs (ns : Space) (m : Mount) : Bool := m.inView && mntNsHasPoint ns m.point

/-- `mount_copy_to_ns_locked`. -/
def mountCopyToNs (source dest : Space) (locked : Bool) (t : Table) (mount : Mount) : Table :=
  let point := dest.root ++ mount.place.drop source.root.length
  let copy : Mount := { newMount t point mount.flags with
    bindPrefix := mount.bindPrefix
    locked := (locked && decide (pointLen mount.point ≠ pointLen source.root)) || mount.locked
    lockedFlags := mount.lockedFlags ||| (if locked then mount.flags &&& restrictions else 0)
    sharedId := if locked then 0 else mount.sharedId
    masterId := if locked ∧ mount.sharedId ≠ 0 then mount.sharedId else mount.masterId
    unbindable := mount.unbindable
    derived := mount.lockedFlags }
  if mount.isCovered then
    t.staged.addBind mount.fsOrigin { copy with
      point := stagingPoint t
      coveredPoint := some point
      detached := true }
  else t.addBind mount.fsOrigin copy

/-- The copies of covered mounts, each with the address of its copy. -/
def copyCovered (source dest : Space) (locked : Bool) (r : List (Mount × Mount) × Table)
    (mount : Mount) : List (Mount × Mount) × Table :=
  let t := mountCopyToNs source dest locked r.2 mount
  match t.get r.2.nextAddr with
  | none => (r.1, t)
  | some copy => (r.1 ++ [(mount, copy)], t)

/-- The number of the mount that covers the copy. -/
def copyCoverer (source dest : Space) (pairs : List (Mount × Mount)) (t : Table) (covered : Mount) :
    Int :=
  match t.mounts.find? fun m => m.id = covered.coveredBy with
  | none => 0
  | some coverer =>
    match pairs.find? fun p => p.1.addr = coverer.addr with
    | some p => p.2.id
    | none =>
      let place := dest.root ++ coverer.point.drop source.root.length
      if fits place then
        match t.mounts.find? fun m => m.inView && decide (m.point = place ∧
          m.fsOrigin = coverer.fsOrigin ∧ m.bindPrefix = coverer.bindPrefix) with
        | none => 0
        | some m => m.id
      else 0

/-- The last loop of `mnt_ns_copy`: with nothing to come back under, in view. -/
def coverCopy (source dest : Space) (pairs : List (Mount × Mount)) (t : Table)
    (pair : Mount × Mount) : Table :=
  let by' := copyCoverer source dest pairs t pair.1
  if by' = 0 then
    (t.relocate pair.2.addr (pair.2.coveredPoint.getD [])).update pair.2.addr
      fun m => { m with coveredPoint := none, detached := false }
  else t.update pair.2.addr fun m => { m with coveredBy := by' }

/-- `mnt_ns_copy`. -/
def mntNsCopy (source : Space) (owner : Nat) : Table :=
  let dest : Space := ⟨stagingPoint t, owner⟩
  let locked := decide (owner ≠ source.userNs)
  let t := (t.mounts.reverse.filter (mountInNs source)).foldl (mountCopyToNs source dest locked)
    t.staged
  let covered := t.mounts.filter fun m => m.isCovered &&
    mntNsHasPoint source (m.coveredPoint.getD [])
  let r := covered.foldl (copyCovered source dest locked) ([], t)
  let t := r.1.foldl (coverCopy source dest r.1) r.2
  { t with spaces := dest :: t.spaces }

/-- The name of `MOUNT_PIVOT_OLD` with a number. -/
def pivotOld (id : Int) : List Char :=
  ".ish-pivot-old.".toList ++ (if id < 0 then ['-'] else []) ++ Nat.toDigits 10 id.natAbs

/-- Where a point is after `pivot_root`. -/
def pivotPoint (ns : Space) (newRoot oldPrefix point : Place) : Place :=
  if newRoot.isPrefixOf point then rebase newRoot ns.root point
  else ns.root ++ oldPrefix ++ point.drop ns.root.length

/-- Where a covered mount of the namespace returns to. -/
def pivotCovered (ns : Space) (newRoot oldPrefix : Place) (m : Mount) : Mount :=
  match m.coveredPoint with
  | none => m
  | some point =>
    if m.coveredBy ≠ 0 ∧ mntNsHasPoint ns point then
      let point := pivotPoint ns newRoot oldPrefix point
      { m with coveredPoint := if fits point then some point else none }
    else m

/-- One mount of `mnt_ns_pivot_root`. -/
def pivotMount (ns : Space) (newRoot oldPrefix : Place) (stacked : Bool) (newId : Int) (m : Mount) :
    Mount :=
  { m with
    point := pivotPoint ns newRoot oldPrefix m.point
    pivotOver :=
      if stacked && !newRoot.isPrefixOf m.point && decide (m.point = ns.root) then newId
      else m.pivotOver }

/-- The end of `mnt_ns_pivot_root`: the new root's tree first, then the old one's. -/
def pivotTable (ns : Space) (newRoot oldPrefix : Place) (stacked : Bool) (newId : Int) :
    Table :=
  let covered := pivotCovered ns newRoot oldPrefix
  let inside := (t.mounts.filter (mountInNs ns)).reverse
  let moved := (inside.filter fun m => newRoot.isPrefixOf m.point) ++
    inside.filter fun m => !newRoot.isPrefixOf m.point
  let rest := (t.mounts.filter fun m => !mountInNs ns m).map covered
  { t with
    mounts := moved.foldl (fun l m =>
      mountListInsert (pivotMount ns newRoot oldPrefix stacked newId (covered m)) l) rest }

/-- `mnt_ns_pivot_root`. -/
def mntNsPivotRoot (ns : Space) (newRoot putOld : Place) (rooted : Bool) :
    Option Errno × Table :=
  if ns.root = [] ∨ !mntNsHasPoint ns newRoot ∨ !mntNsHasPoint ns putOld ∨
      !newRoot.isPrefixOf putOld then (some .einval, t)
  else if newRoot = ns.root then (some .ebusy, t)
  else if !rooted then (some .einval, t)
  else
    let inside := t.mounts.filter (mountInNs ns)
    match inside.find? fun m => m.point = newRoot with
    | none => (some .einval, t)
    | some new =>
      if new.locked then (some .einval, t)
      else if (inside.find? fun m => m.point.isPrefixOf putOld).any (fun m => m.sharedId ≠ 0) ∨
          (mountParent t new).any (fun m => m.sharedId ≠ 0) then (some .einval, t)
      else
        let stacked := decide (putOld = newRoot)
        let oldPrefix := if stacked then [pivotOld new.id] else putOld.drop newRoot.length
        if inside.any fun m => !fits (pivotPoint ns newRoot oldPrefix m.point) then
          (some .enametoolong, t)
        else (none, pivotTable t ns newRoot oldPrefix stacked new.id)

/-! ### Calls -/

inductive Action
  | mount (point : Place) (flags : BitVec 32) (fails : Option Errno)
  | bind (source point : Place) (flags : BitVec 32) (recursive : Bool)
  | move (source point : Place)
  | remount (point : Place) (flags : BitVec 32) (fails : Option Errno)
  | setattr (point : Place) (recursive : Bool) (set clear : BitVec 32) (type : Option Kind)
  | change (point : Place) (type : Kind) (recursive : Bool)
  | umount (point : Place) (lazy : Bool)
  | pivotRoot (newRoot putOld : Place) (rooted : Bool)
  | copyNs (owner : Nat)
  deriving DecidableEq, Repr

/-- A new filesystem. -/
def guestMount (point : Place) (flags : BitVec 32) (fails : Option Errno) :
    Option Errno × Table :=
  if fails.isSome then (fails, t)
  else (none, mountPropagateAt (mountCoverAt (doMount t point (flags &&& msFlags)) point false)
    point false)

/-- A call of a process in a namespace. -/
def exec (ns : Space) : Action → Option Errno × Table
  | .mount point flags fails =>
    if mntNsHasPoint ns point then guestMount t point flags fails else (some .einval, t)
  | .bind source point flags recursive =>
    if mntNsHasPoint ns point && mntNsHasPoint ns source then
      bindMount t source point flags recursive
    else (some .einval, t)
  | .move source point =>
    if mntNsHasPoint ns point then mountMove t source point else (some .einval, t)
  | .remount point flags fails =>
    if mntNsHasPoint ns point then remount t point flags fails else (some .einval, t)
  | .setattr point recursive set clear type => mountSetattr t ns point recursive set clear type
  | .change point type recursive =>
    if mntNsHasPoint ns point then mountChangePropagation t ns point type recursive
    else (some .einval, t)
  | .umount point lazy => doUmountFlags t point lazy true
  | .pivotRoot newRoot putOld rooted => mntNsPivotRoot t ns newRoot putOld rooted
  | .copyNs owner => (none, mntNsCopy t ns owner)

/-- A call of a process in one of the namespaces there are. -/
def call (a : Space × Action) : Option Table :=
  if a.1 = initSpace ∨ a.1 ∈ t.spaces then some (exec t a.1 a.2).2 else none

def Step (a : Space × Action) (t' : Table) : Prop := call t a = some t'

theorem step_exec {t t' : Table} {a : Space × Action} (h : Step t a t') :
    (exec t a.1 a.2).2 = t' := by
  unfold Step call at h
  split at h
  · exact Option.some.inj h
  · cases h

/-- The table with nothing but a root. -/
def rootTable : Table where
  mounts := [newMount ⟨[], 0, 2, 0, 1, []⟩ [] 0]
  nextAddr := 1
  nextMountId := 3
  nextStagingId := 0
  nextPeerGroup := 1
  spaces := []

end IshAok.Mounts
