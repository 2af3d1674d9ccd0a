import IshAok.Base.Limits
import IshAok.Base.PathText
import IshAok.Core.Errno
import Mathlib.Data.List.Sort

/-!
# The Mount Table

The mount table of `fs/mount.c`: one list of mounts, longest point first, for
every mount namespace. A point is normalized, so it is a list of names, and
`joinPath` is its spelling. The tree of a namespace other than the initial one
is below a staging point of its own.

A mount that another is mounted over is covered: it is parked at a staging
point, with the number of the mount that covers it and the point it returns to.
A busy mount that `umount -l` takes away is parked as well.

Mounts are told apart by `addr`, the object, since a number is an `int` that can
come around. References that a call takes and gives back are left out, as are
the texts a listing shows (`source`, `info`, `stacked_point`), the device and
what the filesystem is told. Memory does not run out.

`derived` is not in the source. It is what the mount that this one was made from
was locked with.

## Main definitions

* `Mount`, `Table`: A mount and the table.
* `mountFind`: The mount a path is on.
* `mountCoverBelow`, `mountUncover`: Covering.
* `mountDestroy`, `mountRemoveLazy`: Taking mounts away.
* `mountSetPropagation`, `mountPropagationTargets`, `mountPropagate`: Propagation.
* `doUmountFlags`: Unmounting.
* `mountSubtreeCollect`, `mountSubtreePlace`: Moving what is mounted in a mount.
-/

namespace IshAok.Mounts

open Base

/-- A normalized path. -/
abbrev Place := List (List Char)

/-- `point_len`. -/
def pointLen (p : Place) : Nat := (joinPath p).length

/-- The path and its end fit a buffer. -/
def fits (p : Place) : Bool := decide (pointLen p < maxPath)

/-- `MOUNT_STAGING_DIR`. -/
def mountStagingDir : List Char := ".ish-fsmount".toList

/-- The staging point `path` starts with, of `mount_staging_point_len` bytes. -/
def stagingOf : Place → Place
  | dir :: name :: _ => if dir = mountStagingDir then [dir, name] else []
  | _ => []

structure Mount where
  addr : Nat
  id : Int
  point : Place
  flags : BitVec 32
  refcount : Nat
  bindOrigin : Option Nat
  bindPrefix : Place
  detached : Bool
  lazyUmount : Bool
  coveredBy : Int
  coveredPoint : Option Place
  pivotOver : Int
  locked : Bool
  lockedFlags : BitVec 32
  sharedId : Int
  masterId : Int
  unbindable : Bool
  derived : BitVec 32
  deriving DecidableEq, Repr

/-- `struct mnt_namespace`: the staging point of its tree, none for the initial
    one, and the user namespace that owns it. -/
structure Space where
  root : Place
  userNs : Nat
  deriving DecidableEq, Repr

/-- The mounts with the counters that number things, and the namespaces. -/
structure Table where
  mounts : List Mount
  nextAddr : Nat
  nextMountId : Int
  nextStagingId : Nat
  nextPeerGroup : Int
  spaces : List Space
  deriving DecidableEq, Repr

/-- `n++` on an `int` that wraps around. -/
def nextInt (n : Int) : Int := (n + 1).bmod 4294967296

/-- The order of the list: longest point first. -/
def Longer (m n : Mount) : Prop := pointLen n.point ≤ pointLen m.point

instance : DecidableRel Longer := fun m n =>
  inferInstanceAs (Decidable (pointLen n.point ≤ pointLen m.point))

/-- `mount_list_insert`. -/
def mountListInsert (m : Mount) (mounts : List Mount) : List Mount :=
  mounts.orderedInsert Longer m

/-- `list_remove`. -/
def listRemove (addr : Nat) (mounts : List Mount) : List Mount :=
  mounts.filter fun m => m.addr ≠ addr

variable (t : Table) (mount : Mount)

def Table.get (addr : Nat) : Option Mount :=
  t.mounts.find? fun m => m.addr = addr

/-- A change to a mount where it is in the list. -/
def Table.update (addr : Nat) (f : Mount → Mount) : Table :=
  { t with mounts := t.mounts.map fun m => if m.addr = addr then f m else m }

/-- A mount with a new point, where the list has it now. -/
def Table.put (m : Mount) : Table :=
  { t with mounts := mountListInsert m (listRemove m.addr t.mounts) }

/-- A mount at a new point. -/
def Table.relocate (addr : Nat) (point : Place) : Table :=
  match t.get addr with
  | none => t
  | some m => t.put { m with point := point }

def Table.remove (addr : Nat) : Table :=
  { t with mounts := listRemove addr t.mounts }

/-- `mount_find`. -/
def mountFind (path : Place) : Option Mount :=
  t.mounts.find? fun m => m.point.isPrefixOf path

/-- `mount_staging_point`. -/
def stagingPoint : Place := [mountStagingDir, Nat.toDigits 10 t.nextStagingId]

/-- The counter of `mount_staging_point`. -/
def Table.staged : Table :=
  { t with nextStagingId := (t.nextStagingId + 1) % 4294967296 }

/-- `mount_point_below`. -/
def mountPointBelow (point top : Place) : Bool := decide (top <+: point ∧ point ≠ top)

/-- `mount_points_same_tree`. -/
def mountPointsSameTree (a b : Place) : Bool := decide (stagingOf a = stagingOf b)

/-- `mount_in_view`. -/
def Mount.inView (m : Mount) : Bool := !m.detached && !m.lazyUmount

/-- `mount_is_covered`. -/
def Mount.isCovered (m : Mount) : Bool :=
  decide (m.coveredBy ≠ 0) && m.coveredPoint.isSome && !m.lazyUmount

/-- `mount_place`. -/
def Mount.place (m : Mount) : Place := if m.isCovered then m.coveredPoint.getD [] else m.point

/-- `mount_fs_origin`. -/
def Mount.fsOrigin (m : Mount) : Nat := m.bindOrigin.getD m.addr

/-! ### Covered mounts -/

/-- What `mount_cover_below_locked` looks for. -/
def underneath (top : Mount) (olderThan : Int) (below : Mount) : Bool :=
  decide (below.addr ≠ top.addr) && below.inView && decide (below.id < olderThan) &&
    mountPointBelow below.point top.point && mountPointsSameTree below.point top.point

/-- A mount goes to a staging point, covered by the mount of that number. -/
def park (id : Int) (below : Mount) : Table :=
  (t.put { below with
    coveredPoint := some below.point
    coveredBy := id
    point := stagingPoint t
    detached := true }).staged

/-- The loop of `mount_cover_below_locked`, for at most a number of turns. -/
def coverLoop : Nat → Table → Mount → Int → Table
  | 0, t, _, _ => t
  | turns + 1, t, top, olderThan =>
    match t.mounts.find? (underneath top olderThan) with
    | none => t
    | some below => coverLoop turns (park t top.id below) top olderThan

/-- `mount_cover_below_locked`: each turn parks a mount. -/
def mountCoverBelow (top : Mount) (olderThan : Int) : Table :=
  coverLoop t.mounts.length t top olderThan

/-- `MOUNT_COVER_ALL`. -/
def mountCoverAll : Int := 0x7fffffff

/-- The mount on top at a point. -/
def topAt (point : Place) : Option Mount :=
  t.mounts.find? fun m => m.inView && decide (m.point = point)

/-- `mount_cover_at_locked`. -/
def mountCoverAt (point : Place) (keepNewer : Bool) : Table :=
  match topAt t point with
  | none => t
  | some m => mountCoverBelow t m (if keepNewer then m.id else mountCoverAll)

/-- What becomes of a mount that was covered, when what covers it goes. -/
def unpark (under : Mount) : Table :=
  match under.coveredPoint with
  | some point =>
    if under.lazyUmount then t.update under.addr fun m => { m with coveredBy := 0 }
    else t.put { under with
      coveredBy := 0
      point := point
      coveredPoint := none
      detached := false }
  | none => t.update under.addr fun m => { m with coveredBy := 0 }

/-- The loop of `mount_uncover_locked`, for at most a number of turns. -/
def uncoverLoop : Nat → Table → Int → Table
  | 0, t, _ => t
  | turns + 1, t, id =>
    match t.mounts.find? fun m => m.coveredBy = id with
    | none => t
    | some under => uncoverLoop turns (unpark t under) id

/-- `mount_uncover_locked`: each turn takes a mount that had the number. -/
def mountUncover (top : Mount) : Table :=
  if top.id ≤ 0 then t else uncoverLoop t.mounts.length t top.id

/-! ### Taking mounts away -/

/-- `mount_leave_group_locked`. -/
def mountLeaveGroup : Table :=
  let group := mount.sharedId
  if group = 0 then t
  else
    let t := t.update mount.addr fun m => { m with sharedId := 0 }
    if t.mounts.any fun m => m.sharedId = group then t
    else { t with mounts := t.mounts.map fun m =>
      if m.masterId = group then { m with masterId := mount.masterId } else m }

/-- A bind lets go of what it is a bind of. -/
def letGo : Table :=
  match mount.bindOrigin with
  | none => t
  | some origin => t.update origin fun m => { m with refcount := m.refcount - 1 }

/-- `mount_destroy`, for at most a number of mounts. -/
def destroyLoop : Nat → Table → Mount → Table
  | 0, t, _ => t
  | more + 1, t, mount =>
    let t := (letGo (mountLeaveGroup (mountUncover t mount) mount) mount).remove mount.addr
    match mount.bindOrigin.bind t.get with
    | none => t
    | some origin =>
      if origin.lazyUmount && origin.refcount = 0 then destroyLoop more t origin else t

/-- `mount_destroy`. -/
def mountDestroy : Table :=
  destroyLoop t.mounts.length t mount

/-- `mount_remove`. -/
def mountRemove : Option Errno × Table :=
  if mount.refcount ≠ 0 then (some .ebusy, t) else (none, mountDestroy t mount)

/-- A busy mount is parked for good. A bind just leaves the list. -/
def detachBusy : Table :=
  let t := mountLeaveGroup (mountUncover t mount) mount
  let t := t.update mount.addr fun m =>
    { m with masterId := 0, lazyUmount := true, detached := true }
  if mount.detached then t
  else if mount.bindOrigin.isSome then (t.remove mount.addr).staged
  else (t.relocate mount.addr (stagingPoint t)).staged

/-- `mount_detach_one`. -/
def mountDetachOne : Table :=
  if mount.refcount = 0 then mountDestroy t mount else detachBusy t mount

/-- The loop of `mount_detach_below`, for at most a number of turns. -/
def detachLoop : Nat → Table → Place → Table
  | 0, t, _ => t
  | turns + 1, t, point =>
    match t.mounts.find? fun m => !m.detached && mountPointBelow m.point point with
    | none => t
    | some below => detachLoop turns (mountDetachOne t below) point

/-- `mount_detach_below`. A mount that comes back into view is taken as well,
    so there are at most as many turns as mounts. -/
def mountDetachBelow (point : Place) : Table :=
  detachLoop t.mounts.length t point

/-- `mount_remove_lazy`. -/
def mountRemoveLazy : Table :=
  let t := mountDetachBelow t mount.point
  match t.get mount.addr with
  | none => t
  | some mount => mountDetachOne t mount

/-! ### Propagation -/

/-- The kinds of `MS_PROPAGATION`. -/
inductive Kind
  | shared
  | slave
  | «private»
  | unbindable
  deriving DecidableEq, Repr

/-- `init_mnt_ns`. -/
def initSpace : Space := ⟨[], 0⟩

/-- `mnt_ns_has_point`. -/
def mntNsHasPoint (ns : Space) (point : Place) : Bool := decide (stagingOf point = ns.root)

/-- `mount_under_locked`. -/
def mountUnder : Int :=
  if mount.isCovered then mount.coveredBy
  else match topAt t mount.point with
    | none => 0
    | some top => if top.addr = mount.addr then 0 else top.id

/-- `mnt_ns_of_point_locked`. -/
def mntNsOfPoint (point : Place) : Option Space :=
  if stagingOf point = [] then some initSpace else t.spaces.find? fun ns => mntNsHasPoint ns point

/-- `mount_parent_locked`. -/
def mountParent (child : Mount) : Option Mount :=
  let after := (t.mounts.dropWhile fun m => m.addr ≠ child.addr).tail
  let beneath := (after.takeWhile fun m => pointLen m.point = pointLen child.point).find?
    fun m => m.inView && decide (m.point = child.point)
  if beneath.isSome then beneath
  else if stagingOf child.point = child.point ∧ child.point ≠ [] then none
  else t.mounts.find? fun m => m.inView && mountPointBelow child.point m.point &&
    decide (stagingOf m.point = stagingOf child.point)

/-- `mount_set_propagation_locked`. -/
def mountSetPropagation (type : Kind) : Table :=
  let t := match type with
    | .shared =>
      if mount.sharedId = 0 then
        { t.update mount.addr fun m => { m with sharedId := t.nextPeerGroup } with
          nextPeerGroup := nextInt t.nextPeerGroup }
      else t
    | .slave =>
      let t' := mountLeaveGroup t mount
      if mount.sharedId ≠ 0 ∧ t'.mounts.any fun m => m.sharedId = mount.sharedId then
        t'.update mount.addr fun m => { m with masterId := mount.sharedId }
      else t'
    | .private | .unbindable =>
      (mountLeaveGroup t mount).update mount.addr fun m => { m with masterId := 0 }
  t.update mount.addr fun m => { m with unbindable := decide (type = .unbindable) }

/-- The same for each of a list of mounts. -/
def setPropagations (addrs : List Nat) (type : Kind) : Table :=
  addrs.foldl (fun t addr => match t.get addr with
    | none => t
    | some m => mountSetPropagation t m type) t

/-- The mount on top at a point and with `recursive` every mount in view below. -/
def treeAt (ns : Space) (top : Mount) (recursive : Bool) : List Nat :=
  (t.mounts.filter fun m => decide (m.addr = top.addr) || (recursive && m.inView &&
    mountPointBelow m.point top.point && mntNsHasPoint ns m.point)).map Mount.addr

/-- `mount_change_propagation`. -/
def mountChangePropagation (ns : Space) (point : Place) (type : Kind)
    (recursive : Bool) : Option Errno × Table :=
  match topAt t point with
  | none => (some .einval, t)
  | some top => (none, setPropagations t (treeAt t ns top recursive) type)

/-- `mount_propagated_point`. -/
def mountPropagatedPoint (parent : Mount) (point : Place) (receiver : Mount) : Option Place :=
  let inFs := parent.bindPrefix ++ point.drop parent.point.length
  let out := receiver.place ++ inFs.drop receiver.bindPrefix.length
  if parent.fsOrigin = receiver.fsOrigin ∧ fits inFs ∧ receiver.bindPrefix <+: inFs ∧ fits out then
    some out
  else none

/-- An entry of `levels`. -/
structure Level where
  group : Int
  copyGroup : Int
  copyMaster : Int
  deriving DecidableEq, Repr

/-- `struct propagation_target`. -/
structure Target where
  receiver : Mount
  shared : Int
  master : Int
  deriving DecidableEq, Repr

/-- `levels`, `targets` and `next_peer_group`. -/
structure Search where
  levels : List Level
  targets : List Target
  next : Int
  deriving DecidableEq, Repr

/-- The length of `levels`. -/
def maxLevels : Nat := 32

/-- The mounts that receive. -/
def receives (parent m : Mount) : Bool :=
  decide (m.addr ≠ parent.addr) && (m.inView || m.isCovered)

/-- One mount at one level. -/
def visit (parent : Mount) (mountGroup : Int) (level : Level) (s : Search) (m : Mount) : Search :=
  if !receives parent m then s
  else if m.sharedId = level.group then
    { s with targets := s.targets ++ [⟨m, level.copyGroup, level.copyMaster⟩] }
  else if m.masterId = level.group ∧ m.sharedId = 0 then
    { s with targets := s.targets ++ [⟨m, 0, level.copyGroup⟩] }
  else if m.masterId = level.group then
    -- A slave that is shared: it and its peers are a level of their own.
    if !(s.levels.any fun l => l.group = m.sharedId) && decide (s.levels.length < maxLevels) then
      if mountGroup ≠ 0 then
        { s with
          levels := s.levels ++ [⟨m.sharedId, s.next, level.copyGroup⟩]
          next := nextInt s.next }
      else { s with levels := s.levels ++ [⟨m.sharedId, 0, level.copyGroup⟩] }
    else s
  else s

/-- The levels from `i` on. There are at most as many turns as levels. -/
def levelLoop (mounts : List Mount) (parent : Mount) (mountGroup : Int) :
    Nat → Nat → Search → Search
  | 0, _, s => s
  | turns + 1, i, s =>
    match s.levels[i]? with
    | none => s
    | some level =>
      levelLoop mounts parent mountGroup turns (i + 1)
        (mounts.foldl (visit parent mountGroup level) s)

/-- `mount_propagation_targets_locked`, with `next_peer_group` afterwards. -/
def mountPropagationTargets (parent : Mount) (mountGroup mountMaster : Int) :
    List Target × Int :=
  if parent.sharedId = 0 then ([], t.nextPeerGroup)
  else
    let s := levelLoop t.mounts parent mountGroup maxLevels 0
      ⟨[⟨parent.sharedId, mountGroup, mountMaster⟩], [], t.nextPeerGroup⟩
    (s.targets, s.next)

/-- What a mount has when it is made: nothing but an address, a number, a point
    and flags. -/
def newMount (point : Place) (flags : BitVec 32) : Mount where
  addr := t.nextAddr
  id := t.nextMountId
  point := point
  flags := flags
  refcount := 0
  bindOrigin := none
  bindPrefix := []
  detached := false
  lazyUmount := false
  coveredBy := 0
  coveredPoint := none
  pivotOver := 0
  locked := false
  lockedFlags := 0
  sharedId := 0
  masterId := 0
  unbindable := false
  derived := 0

/-- A new mount in the list. -/
def Table.add (m : Mount) : Table :=
  { t with
    mounts := mountListInsert m t.mounts
    nextAddr := t.nextAddr + 1
    nextMountId := nextInt t.nextMountId }

def Table.hold (origin : Nat) : Table :=
  t.update origin fun m => { m with refcount := m.refcount + 1 }

/-- A new bind of a mount, which holds it. -/
def Table.addBind (origin : Nat) (m : Mount) : Table :=
  (t.hold origin).add { m with bindOrigin := some origin }

/-- `mount_clone_at_locked`, with what `mount_propagate_locked` sets. -/
def mountCloneAt (point : Place) (f : Mount → Mount) : Table :=
  t.addBind mount.fsOrigin (f { newMount t point mount.flags with
    bindPrefix := mount.bindPrefix
    derived := mount.lockedFlags })

/-- `MS_READONLY_ | MS_NOSUID_ | MS_NODEV_ | MS_NOEXEC_`. -/
def restrictions : BitVec 32 := 0xf

/-- In a tree that belongs to another user namespace a copy keeps the restrictions
    it arrived with. -/
def arrivalLock : Option Space → Option Space → BitVec 32 → BitVec 32
  | some source, some dest, flags =>
    if dest.userNs ≠ source.userNs then flags &&& restrictions else 0
  | _, _, _ => 0

/-- The copy under one receiver. -/
def propagateTo (parent mount : Nat) (fromNs : Option Space) (t : Table) (target : Target) :
    Table :=
  match t.get parent, t.get mount, t.get target.receiver.addr with
  | some parent, some mount, some receiver =>
    match mountPropagatedPoint parent mount.point receiver with
    | none => t
    | some point =>
      if point = mount.point then t
      else
        let under := mountUnder t receiver
        let grouped := fun copy : Mount => { copy with
          sharedId := target.shared
          masterId := target.master
          lockedFlags := arrivalLock fromNs (mntNsOfPoint t point) mount.flags }
        if under ≠ 0 then
          -- Under a covered receiver the copy is covered too.
          mountCloneAt t.staged mount (stagingPoint t) fun copy => { grouped copy with
            coveredPoint := some point
            coveredBy := under
            detached := true }
        else
          mountCoverBelow (mountCloneAt t mount point grouped) (newMount t point mount.flags)
            mountCoverAll
  | _, _, _ => t

/-- `mount_propagate_locked`. -/
def mountPropagate (parent mount : Nat) : Table :=
  match t.get parent, t.get mount with
  | some parent, some mount =>
    if parent.sharedId = 0 ∨ mount.inView = false then t
    else
      let group := if mount.sharedId = 0 then t.nextPeerGroup else mount.sharedId
      let t := { t.update mount.addr fun m => { m with sharedId := group, unbindable := false }
        with nextPeerGroup :=
          if mount.sharedId = 0 then nextInt t.nextPeerGroup else t.nextPeerGroup }
      let found := mountPropagationTargets t parent group mount.masterId
      found.1.foldl (propagateTo parent.addr mount.addr (mntNsOfPoint t mount.point))
        { t with nextPeerGroup := found.2 }
  | _, _ => t

/-- `mount_propagate_at_locked`. -/
def mountPropagateAt (point : Place) (newerBelow : Bool) : Table :=
  match topAt t point with
  | none => t
  | some top =>
    match mountParent t top with
    | none => t
    | some parent =>
      if parent.sharedId = 0 then t
      else
        let below := t.mounts.reverse.filter fun m => newerBelow && m.inView &&
          decide (top.id < m.id) && mountPointBelow m.point point
        (below.map Mount.addr).foldl (fun t m => mountPropagate t parent.addr m)
          (mountPropagate t parent.addr top.addr)

/-- `mount_propagate_tree_locked`. -/
def mountPropagateTree (top : Nat) (subs : List Nat) : Table :=
  match (t.get top).bind (mountParent t) with
  | none => t
  | some parent =>
    if parent.sharedId = 0 then t
    else subs.reverse.foldl (fun t m => mountPropagate t parent.addr m)
      (mountPropagate t parent.addr top)

/-! ### Unmounting -/

/-- What an unmount takes with it under one receiver. -/
def twinUnder (parent mount : Mount) (target : Target) : Option Mount :=
  match mountPropagatedPoint parent mount.point target.receiver with
  | none => none
  | some point =>
    let covered := decide (mountUnder t target.receiver ≠ 0)
    let other := t.mounts.find? fun m =>
      if covered then m.isCovered && decide (m.coveredPoint = some point)
      else m.inView && decide (m.point = point)
    other.filter fun m => m.addr ≠ mount.addr ∧ m.fsOrigin = mount.fsOrigin ∧
      m.bindPrefix = mount.bindPrefix

/-- `mount_propagated_twins_locked`. -/
def mountPropagatedTwins : List Mount :=
  match mountParent t mount with
  | none => []
  | some parent =>
    if mount.inView = false then []
    else (mountPropagationTargets t parent 0 0).1.foldl (fun twins target =>
      match twinUnder t parent mount target with
      | none => twins
      | some m => if twins.any fun n => n.addr = m.addr then twins else twins ++ [m]) []

/-- `mount_has_submounts_locked`. -/
def mountHasSubmounts : Bool :=
  t.mounts.any fun m => decide (m.addr ≠ mount.addr) && m.inView &&
    mountPointBelow m.point mount.point && mountPointsSameTree m.point mount.point

/-- The binds of a mount that are in another tree. -/
def foreign : Nat :=
  t.mounts.countP fun m => m.bindOrigin = some mount.addr ∧
    stagingOf m.point ≠ stagingOf mount.point

/-- `mount_busy_beyond_locked`. -/
def mountBusyBeyond (held : Nat) : Bool :=
  decide (held < mount.refcount ∧ (foreign t mount = 0 ∨ mount.refcount - held ≠ foreign t mount))

/-- `do_umount_one`. -/
def doUmountOne (lazy : Bool) : Option Errno × Table :=
  if lazy then (none, mountRemoveLazy t mount)
  else if mount.refcount ≠ 0 ∧ foreign t mount ≠ 0 ∧ foreign t mount = mount.refcount then
    (none, mountRemoveLazy t mount)
  else mountRemove t mount

/-- The last loop of `do_umount_flags`: what becomes of the mount itself is the
    answer. -/
def umountSet (lazy : Bool) (mount : Nat) : Option Errno × Table → Mount → Option Errno × Table
  | (some err, t), _ => (some err, t)
  | (none, t), member =>
    match t.get member.addr with
    | none => (none, t)
    | some member =>
      let one := doUmountOne t member lazy
      (if member.addr = mount then one.1 else none, one.2)

/-- `do_umount_flags`. -/
def doUmountFlags (point : Place) (lazy guest : Bool) : Option Errno × Table :=
  match t.mounts.find? fun m => !m.detached && decide (m.point = point) with
  | none => (some .einval, t)
  | some found =>
    let mount := (t.mounts.find? fun m => decide (m.pivotOver = found.id) && m.inView).getD found
    if mount.locked && guest then (some .einval, t)
    else
      let twins := mountPropagatedTwins t mount
      if twins = [] then doUmountOne t mount lazy
      else
        let all := (mount :: twins).filter fun m => decide (m.addr = mount.addr) || lazy ||
          !mountHasSubmounts t m
        -- Binds before what they are binds of.
        let set := all.filter (fun m => m.bindOrigin.isSome) ++
          all.filter fun m => m.bindOrigin.isNone
        if !lazy && set.any fun m => mountBusyBeyond t m (set.countP fun k =>
            k.bindOrigin = some m.addr) then (some .ebusy, t)
        else set.foldl (umountSet lazy mount.addr) (none, t)

/-! ### Moving a mount with what is mounted in it -/

/-- The mounts that move with a mount. -/
def movesWith (top : Nat) (oldPoint : Place) (m : Mount) : Bool :=
  decide (m.addr ≠ top) && m.inView && mountPointBelow m.point oldPoint

/-- `old_point` replaced by `new_point`. -/
def rebase (oldPoint newPoint point : Place) : Place := newPoint ++ point.drop oldPoint.length

/-- `mount_subtree_collect_locked`. -/
def mountSubtreeCollect (top : Nat) (oldPoint newPoint : Place) :
    Except Errno (List Mount × Table) :=
  let subs := t.mounts.filter (movesWith top oldPoint)
  if subs.all fun m => fits (rebase oldPoint newPoint m.point) then
    .ok (subs, { t with
      mounts := t.mounts.map fun m =>
        if movesWith top oldPoint m then { m with detached := true } else m })
  else .error .enametoolong

/-- The place a mount that one of the moved ones covers returns to. -/
def replaceCovered (subs : List Mount) (oldPoint newPoint : Place) (m : Mount) : Mount :=
  match m.coveredPoint with
  | none => m
  | some point =>
    if m.coveredBy ≠ 0 ∧ mountPointBelow point oldPoint ∧ subs.any (fun s => s.id = m.coveredBy)
    then { m with
      coveredPoint :=
        if fits (rebase oldPoint newPoint point) then some (rebase oldPoint newPoint point)
        else none }
    else m

/-- `mount_subtree_place_locked`. -/
def mountSubtreePlace (subs : List Mount) (oldPoint newPoint : Place) : Table :=
  subs.foldl (fun t sub =>
      (t.relocate sub.addr (rebase oldPoint newPoint sub.point)).update sub.addr
        fun m => { m with detached := false })
    { t with mounts := t.mounts.map (replaceCovered subs oldPoint newPoint) }

end IshAok.Mounts
