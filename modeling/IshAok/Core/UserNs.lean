import IshAok.Base.CText
import IshAok.Core.Errno

/-!
# User Namespaces

The id maps of `kernel/getset.c`: what an id of a namespace means as a kernel
id, how a namespace is made, and how its maps and its `setgroups` switch are
written.

A namespace pointer is an index into the table of namespaces, and the initial
namespace, which the source spells `NULL`, is `none`. Namespaces are only
ever added, so an index stays good; the reference counts that decide when the
source frees one are left out, a freed namespace being one nothing can name.

Ids are 32-bit and the sums the source makes with them are written with their
`% 2 ^ 32`. The sums over the numbers of a map line are 64-bit, and they are
written with theirs: the checks in `lineRefused` are modular, as the source's
are.

`writeMap` is the tail of `user_ns_write_map`, the part under the namespace's
lock. What comes before it reads only the text and the caller.

## Main definitions

* `IdMap`, `UserNamespace`, `NsTable`: The data of `kernel/user_ns.h`.
* `Task`: What the calls read of the calling task.
* `idMapDown`, `userNsMakeKid`: An id as a kernel id.
* `idMapUp`, `userNsFromKid`: A kernel id as an id.
* `nsCapable`: Whether the caller holds a capability over a namespace.
* `parseMap`: The lines of a map text as extents.
* `userNsNew`, `userNsWriteMap`, `userNsWriteSetgroups`: The three calls that
  change a namespace.
* `userNsMaySetgroups`: Whether `setgroups` is allowed in a namespace.
* `NsOp`, `nsStep`: The calls as steps on the table of namespaces.
-/

namespace IshAok.UserNs

/-- `USER_NS_INVALID_ID`, `(uid_t) -1`. -/
def userNsInvalidId : Nat := 2 ^ 32 - 1

/-- `USER_NS_MAX_LEVEL`. -/
def userNsMaxLevel : Nat := 32

/-- `USER_NS_MAP_EXTENTS`. -/
def userNsMapExtents : Nat := 340

def capSetgid : Nat := 6

def capSetuid : Nat := 7

def capSysAdmin : Nat := 21

/-- `struct id_extent`: `count` ids from `first` are the kernel ids from
    `lower`. The lines of a map text have the same three numbers. -/
structure IdExtent where
  first : Nat
  lower : Nat
  count : Nat
  deriving DecidableEq, Repr

/-- `struct id_map`, with the used part of its array as a list. -/
structure IdMap where
  set : Bool
  extent : List IdExtent
  deriving DecidableEq, Repr

/-- `struct user_namespace`, as far as ids and privilege read it. -/
structure UserNamespace where
  parent : Option Nat
  level : Nat
  owner : Nat
  group : Nat
  uidMap : IdMap
  gidMap : IdMap
  setgroupsDenied : Bool
  deriving DecidableEq, Repr

/-- Every namespace but the initial one, by index. -/
abbrev NsTable := List UserNamespace

/-- What these calls read of `current`. `chrooted` is `current_chrooted`'s
    answer, which depends on the mounts and not on anything modelled here. -/
structure Task where
  userNs : Option Nat
  euid : Nat
  egid : Nat
  capEffective : BitVec 64
  chrooted : Bool
  deriving DecidableEq, Repr

/-- Whether an extent maps `id`. -/
def IdExtent.Covers (e : IdExtent) (id : Nat) : Prop :=
  e.first ≤ id ∧ id - e.first < e.count

instance (e : IdExtent) (id : Nat) : Decidable (e.Covers id) :=
  inferInstanceAs (Decidable (_ ∧ _))

/-- The extent the loop of `id_map_down` stops at. -/
def IdMap.extentOf (map : IdMap) (id : Nat) : Option IdExtent :=
  map.extent.find? (fun e => decide (e.Covers id))

/-- `id_map_down`. -/
def idMapDown (map : IdMap) (id : Nat) : Nat :=
  if id = userNsInvalidId ∨ map.set = false then userNsInvalidId
  else match map.extentOf id with
    | some e => (e.lower + (id - e.first)) % 2 ^ 32
    | none => userNsInvalidId

/-- `id_map_up`. -/
def idMapUp (map : IdMap) (kid : Nat) : Nat :=
  if kid = userNsInvalidId ∨ map.set = false then userNsInvalidId
  else match map.extent.find? (fun e => decide (e.lower ≤ kid ∧ kid - e.lower < e.count)) with
    | some e => (e.first + (kid - e.lower)) % 2 ^ 32
    | none => userNsInvalidId

/-- The uid or the gid map of a namespace. -/
def UserNamespace.map (n : UserNamespace) (gid : Bool) : IdMap :=
  if gid then n.gidMap else n.uidMap

def UserNamespace.setMap (n : UserNamespace) (gid : Bool) (m : IdMap) : UserNamespace :=
  if gid then { n with gidMap := m } else { n with uidMap := m }

/-- `user_ns_make_kuid` and `user_ns_make_kgid`: the initial namespace's map
    is the identity. -/
def userNsMakeKid (gid : Bool) (t : NsTable) (ns : Option Nat) (id : Nat) : Nat :=
  match ns with
  | none => id
  | some i => match t[i]? with
    | some n => idMapDown (n.map gid) id
    | none => userNsInvalidId

def userNsMakeKuid : NsTable → Option Nat → Nat → Nat := userNsMakeKid false

/-- `user_ns_from_kuid` and `user_ns_from_kgid`. -/
def userNsFromKid (gid : Bool) (t : NsTable) (ns : Option Nat) (kid : Nat) : Nat :=
  match ns with
  | none => kid
  | some i => match t[i]? with
    | some n => idMapUp (n.map gid) kid
    | none => userNsInvalidId

def userNsFromKuid : NsTable → Option Nat → Nat → Nat := userNsFromKid false

def userNsFromKgid : NsTable → Option Nat → Nat → Nat := userNsFromKid true

/-- `current_has_cap`. -/
def currentHasCap (cur : Task) (cap : Nat) : Bool :=
  decide (cap < 64) && cur.capEffective.getLsbD cap

/-- `superuser`. -/
def superuser (cur : Task) : Bool :=
  decide (cur.euid = 0 ∧ cur.userNs = none)

/-- `current_capable`. -/
def currentCapable (cur : Task) (cap : Nat) : Bool :=
  superuser cur || (decide (cur.userNs = none) && currentHasCap cur cap)

variable (t : NsTable)

/-- The level of a namespace, 0 for the initial one. -/
def nsLevel : Option Nat → Nat
  | none => 0
  | some i => match t[i]? with
    | some n => n.level
    | none => 0

/-- The walk of `ns_capable` from a namespace towards the root. The first
    argument bounds the number of namespaces visited. -/
def nsCapableFrom (t : NsTable) (cur : Task) (cap : Nat) : Nat → Option Nat → Bool
  | 0, _ => false
  | fuel + 1, ns =>
    if ns = cur.userNs then
      if cur.userNs = none then currentCapable cur cap else currentHasCap cur cap
    else match ns with
      | none => false
      | some i => match t[i]? with
        | none => false
        | some n =>
          -- Not in it and not above it: in a sibling, or below.
          if n.level ≤ nsLevel t cur.userNs then false
          else if n.parent = cur.userNs ∧ n.owner = cur.euid then true
          else nsCapableFrom t cur cap fuel n.parent

/-- `ns_capable`. A namespace's parent is older than it is, so a walk visits
    each namespace at most once and then the initial one. -/
def nsCapable (cur : Task) (target : Option Nat) (cap : Nat) : Bool :=
  if 64 ≤ cap then false else nsCapableFrom t cur cap (t.length + 1) target

/-- `user_ns_new`: the table with the namespace added, and its index. -/
def userNsNew (cur : Task) (allocOk : Bool) : Except Errno (NsTable × Nat) :=
  if cur.userNs ≠ none ∧ userNsMaxLevel ≤ nsLevel t cur.userNs then .error .enospc
  else if cur.chrooted then .error .eperm
  else if userNsFromKuid t cur.userNs cur.euid = userNsInvalidId ∨
      userNsFromKgid t cur.userNs cur.egid = userNsInvalidId then .error .eperm
  else if allocOk = false then .error .enomem
  else
    let denied := match cur.userNs with
      | none => false
      | some i => match t[i]? with
        | some n => n.setgroupsDenied
        | none => false
    .ok (t ++ [{ parent := cur.userNs
                 level := nsLevel t cur.userNs + 1
                 owner := cur.euid
                 group := cur.egid
                 uidMap := { set := false, extent := [] }
                 gidMap := { set := false, extent := [] }
                 setgroupsDenied := denied }], t.length)

/-- `sscanf(line, " %llu %llu %llu %c", ...) == 3`, and the three numbers. -/
def scanLine (line : List Char) : Option IdExtent :=
  match Base.scanUll line with
  | none => none
  | some (first, rest) => match Base.scanUll rest with
    | none => none
    | some (lower, rest) => match Base.scanUll rest with
      | none => none
      | some (count, rest) =>
        if Base.skipSpace rest = [] then some ⟨first, lower, count⟩ else none

/-- The range checks on a line's numbers. The sums are `unsigned long long`. -/
def lineRefused (l : IdExtent) : Prop :=
  l.count = 0 ∨ 0xfffffffe < l.first ∨ 0xfffffffe < l.lower ∨
    0xffffffff < (l.first + l.count) % 2 ^ 64 ∨ 0xffffffff < (l.lower + l.count) % 2 ^ 64

instance (l : IdExtent) : Decidable (lineRefused l) :=
  inferInstanceAs (Decidable (_ ∨ _))

/-- Whether a line covers an id that an earlier extent covers, on either
    side. -/
def lineOverlaps (l e : IdExtent) : Prop :=
  (l.first < e.first + e.count ∧ e.first < (l.first + l.count) % 2 ^ 64) ∨
    (l.lower < e.lower + e.count ∧ e.lower < (l.lower + l.count) % 2 ^ 64)

instance (l e : IdExtent) : Decidable (lineOverlaps l e) :=
  inferInstanceAs (Decidable (_ ∨ _))

/-- The casts to `uid_t` of a stored extent. -/
def narrow (l : IdExtent) : IdExtent :=
  ⟨l.first % 2 ^ 32, l.lower % 2 ^ 32, l.count % 2 ^ 32⟩

/-- One turn of the parsing loop. -/
def addLine (parsed : List IdExtent) (line : List Char) : Except Errno (List IdExtent) :=
  match scanLine line with
  | none => .error .einval
  | some l =>
    if lineRefused l then .error .einval
    else if parsed.length = userNsMapExtents then .error .einval
    else if ∃ e ∈ parsed, lineOverlaps l e then .error .einval
    else .ok (parsed ++ [narrow l])

/-- The parsing loop over the lines still to be read. -/
def parseLines (parsed : List IdExtent) : List (List Char) → Except Errno (List IdExtent)
  | [] => if parsed = [] then .error .einval else .ok parsed
  | line :: rest => match addLine parsed line with
    | .error e => .error e
    | .ok parsed => parseLines parsed rest

/-- The lines of a map text: what `strndup` and `strtok_r` leave of it. -/
def mapLines (text : List Char) : List (List Char) :=
  Base.strtok '\n' (Base.cString text)

def parseMap (text : List Char) : Except Errno (List IdExtent) :=
  parseLines [] (mapLines text)

/-- Resolve the lower ids of the lines to kernel ids, each range by its two
    ends. -/
def resolveExtents (gid : Bool) (t : NsTable) (parent : Option Nat) :
    List IdExtent → Except Errno (List IdExtent)
  | [] => .ok []
  | e :: rest =>
    let lo := userNsMakeKid gid t parent e.lower
    let hi := userNsMakeKid gid t parent ((e.lower + e.count + 2 ^ 32 - 1) % 2 ^ 32)
    if lo = userNsInvalidId ∨ hi = userNsInvalidId ∨
        (hi + 2 ^ 32 - lo) % 2 ^ 32 ≠ (e.count + 2 ^ 32 - 1) % 2 ^ 32 then .error .eperm
    else match resolveExtents gid t parent rest with
      | .error err => .error err
      | .ok done => .ok ({ e with lower := lo } :: done)

/-- The one mapping that needs no privilege: the writer's own id, by the
    creator of the namespace, and for a group only with `setgroups` denied. -/
def ownId (gid : Bool) (t : NsTable) (cur : Task) (n : UserNamespace) : List IdExtent → Bool
  | [e] =>
    if e.count = 1 ∧ n.owner = cur.euid then
      let lower := userNsMakeKid gid t n.parent e.lower
      if gid then n.setgroupsDenied && decide (lower = cur.egid)
      else decide (lower = cur.euid)
    else false
  | _ => false

/-- The capability over the parent that any other mapping takes. -/
def mapCap (gid : Bool) : Nat :=
  if gid then capSetgid else capSetuid

/-- The part of `user_ns_write_map` under the namespace's lock. -/
def writeMap (cur : Task) (i : Nat) (n : UserNamespace) (gid : Bool)
    (parsed : List IdExtent) : Except Errno NsTable :=
  if (n.map gid).set then .error .eperm
  else if ownId gid t cur n parsed = false ∧
      nsCapable t cur n.parent (mapCap gid) = false then .error .eperm
  else match resolveExtents gid t n.parent parsed with
    | .error e => .error e
    | .ok extent => .ok (t.set i (n.setMap gid { set := true, extent := extent }))

/-- `user_ns_write_map`. -/
def userNsWriteMap (cur : Task) (ns : Option Nat) (gid : Bool)
    (text : List Char) (copyOk : Bool) : Except Errno NsTable :=
  match ns with
  | none => .error .eperm
  | some i => match t[i]? with
    | none => .error .eperm
    | some n =>
      -- By a task in the namespace, or in its parent.
      if cur.userNs ≠ some i ∧ cur.userNs ≠ n.parent then .error .eperm
      else if 4096 ≤ text.length then .error .einval
      else if nsCapable t cur ns capSysAdmin = false then .error .eperm
      else if copyOk = false then .error .enomem
      else match parseMap text with
        | .error e => .error e
        | .ok parsed => writeMap t cur i n gid parsed

/-- What `user_ns_write_setgroups` makes of its text: `allow`, `deny`, or
    neither. Trailing newlines and spaces do not count. -/
def setgroupsText (text : List Char) : Option Bool :=
  let word := (text.reverse.dropWhile (fun c => c = '\n' || c = ' ')).reverse
  if word = ['a', 'l', 'l', 'o', 'w'] then some true
  else if word = ['d', 'e', 'n', 'y'] then some false
  else none

/-- `user_ns_write_setgroups`. -/
def userNsWriteSetgroups (cur : Task) (ns : Option Nat) (text : List Char) :
    Except Errno NsTable :=
  match setgroupsText text with
  | none => .error .einval
  | some allow =>
    if nsCapable t cur ns capSysAdmin = false then .error .eperm
    else match ns with
      | none => if allow then .ok t else .error .eperm
      | some i => match t[i]? with
        | none => .error .eperm
        | some n =>
          if allow then
            -- Not back on once it is off.
            if n.setgroupsDenied then .error .eperm else .ok t
          else if n.gidMap.set ∧ n.setgroupsDenied = false then .error .eperm
          else .ok (t.set i { n with setgroupsDenied := true })

/-- `user_ns_may_setgroups`. -/
def userNsMaySetgroups : Option Nat → Bool
  | none => true
  | some i => match t[i]? with
    | none => false
    | some n => n.gidMap.set && !n.setgroupsDenied

/-- The calls that make or change a namespace, with the task that makes them. -/
inductive NsOp
  | new (cur : Task) (allocOk : Bool)
  | writeMap (cur : Task) (ns : Option Nat) (gid : Bool) (text : List Char) (copyOk : Bool)
  | writeSetgroups (cur : Task) (ns : Option Nat) (text : List Char)

/-- A call's effect on the table; a call that fails has none. -/
def applyOp : NsOp → NsTable
  | .new cur allocOk => match userNsNew t cur allocOk with
    | .ok (t', _) => t'
    | .error _ => t
  | .writeMap cur ns gid text copyOk => match userNsWriteMap t cur ns gid text copyOk with
    | .ok t' => t'
    | .error _ => t
  | .writeSetgroups cur ns text => match userNsWriteSetgroups t cur ns text with
    | .ok t' => t'
    | .error _ => t

/-- One call, by any task. -/
def nsStep (op : NsOp) (t' : NsTable) : Prop :=
  t' = applyOp t op

end IshAok.UserNs
