import IshAok.Base.Limits
import IshAok.Base.Run
import Mathlib

/-!
# The Database of fakefs

The tables of `fs/fake-db.c` and the statements it runs on them. A path is a
blob, so paths are compared byte by byte. A row of `stats` is an inode number
with the metadata of the file, a row of `paths` is a name of it, and
`next_inode` of `meta` is the allocation mark, which may be null.

Every mount has a counter of its own in memory. `pathCreate` starts at the mark
when that is larger, claims the number by inserting the row, and seeds the
counter again when the number is taken.

`State` is one database under any number of mounts. A writer has the only open
transaction, on a copy of the tables that a commit puts in place and a rollback
forgets. The counter is not part of the copy.

Attributes (`xattrs`) and the rebuild of a database that was moved or has run
out of numbers are not modelled.

## Main definitions

* `Db`: The tables.
* `nextInodeMark`, `fakefsNextInodeInit`, `pathCreate`: Allocation.
* `pathGetInode`, `pathLink`, `pathUnlink`, `pathRename`, `tryCleanupInode`: The
  other statements.
* `State`, `exec`: Mounts and their transactions.
-/

namespace IshAok.FakeDb

open Base

/-- A blob. -/
abbrev Text := List UInt8

/-- `struct ish_stat`. -/
structure Stat where
  mode : UInt32
  uid : UInt32
  gid : UInt32
  rdev : UInt32
  deriving DecidableEq, Repr

structure Db where
  stats : List (Nat × Stat)
  paths : List (Text × Nat)
  nextInode : Option Nat
  deriving DecidableEq, Repr

/-- `insert or replace into paths`. -/
def putPath (rows : List (Text × Nat)) (path : Text) (inode : Nat) : List (Text × Nat) :=
  (path, inode) :: rows.filter fun r => r.1 ≠ path

variable (db : Db)

/-- `path_get_inode`. -/
def pathGetInode (path : Text) : Nat :=
  (db.paths.lookup path).getD 0

/-- `next_inode_mark`. -/
def nextInodeMark : Nat :=
  let mark := db.nextInode.getD 0
  if mark > uint32Max then 0 else mark

/-- `fakefs_next_inode_init`. -/
def fakefsNextInodeInit : Nat :=
  let next := max ((db.stats.map Prod.fst).foldr max 0) (db.nextInode.getD 0 - 1) + 1
  if next = 0 ∨ next > uint32Max then 1 else next

/-- The attempts of `path_create`: the number that was claimed, and the counter. -/
def claim (db : Db) : Nat → Nat → Option Nat × Nat
  | 0, next => (none, next)
  | attempts + 1, next =>
    let mark := nextInodeMark db
    let inode := if next < mark then mark else next
    if inode ∈ db.stats.map Prod.fst then claim db attempts (fakefsNextInodeInit db)
    else (some inode, inode + 1)

/-- `path_create`: the number it returns, the tables and the counter. -/
def pathCreate (next : Nat) (path : Text) (stat : Stat) : Nat × Db × Nat :=
  match claim db 8 next with
  | (none, next) => (0, db, next)
  | (some inode, next) =>
    (inode,
      { stats := (inode, stat) :: db.stats
        paths := putPath db.paths path inode
        nextInode := some (max (db.nextInode.getD 0) (inode + 1)) },
      next)

/-- `path_link`. There is no source when the number is zero, and the source
    stops the program. -/
def pathLink (src dst : Text) : Option Db :=
  match pathGetInode db src with
  | 0 => none
  | inode => some { db with paths := putPath db.paths dst inode }

/-- `path_unlink`: the number of the name, and the tables. -/
def pathUnlink (path : Text) : Nat × Db :=
  match pathGetInode db path with
  | 0 => (0, db)
  | inode => (inode, { db with paths := db.paths.filter fun r => r.1 ≠ path })

/-- `(path >= src/ and path < src0) or path = src`. -/
def inSubtree (src path : Text) : Bool :=
  (¬ path < src ++ [47] ∧ path < src ++ [48]) ∨ path = src

/-- `change_prefix`. -/
def changePrefix (path : Text) (start : Nat) (replacement : Text) : Text :=
  replacement ++ path.drop start

/-- `update or replace paths`, for the rows that are still to be changed and the
    others. A row takes the place of the one that has its new name. If that was
    still to be changed it is gone, and its turn is passed over. -/
def updateOrReplace (change : Text → Text) :
    List (Text × Nat) → List (Text × Nat) → List (Text × Nat)
  | [], rows => rows
  | (path, inode) :: todo, rows =>
    if path ∈ rows.map Prod.fst then updateOrReplace change todo rows
    else updateOrReplace change todo (putPath rows (change path) inode)

/-- `path_rename`. The rows are changed in the order they stand in. -/
def pathRename (src dst : Text) : Db :=
  { db with
    paths := updateOrReplace (fun path => changePrefix path src.length dst)
      (db.paths.filter fun r => inSubtree src r.1) (db.paths.filter fun r => !inSubtree src r.1) }

/-- `try_cleanup_inode`. -/
def tryCleanupInode (inode : Nat) : Db :=
  { db with stats := db.stats.filter fun r => r.1 ≠ inode || inode ∈ db.paths.map Prod.snd }

/-! ### Mounts and transactions -/

variable {ι : Type} [DecidableEq ι]

structure State (ι : Type) where
  db : Db
  /-- The writer and its copy of the tables. -/
  txn : Option (ι × Db)
  /-- `next_inode` of the mounts there are. -/
  next : ι → Option Nat

inductive Action (ι : Type)
  /-- The mount seeds its counter. -/
  | mount (i : ι)
  /-- `delete from stats where not exists …`, which a mount does too. -/
  | sweep
  | begin (i : ι)
  | create (path : Text) (stat : Stat)
  | link (src dst : Text)
  | unlink (path : Text)
  | rename (src dst : Text)
  | cleanup (inode : Nat)
  | commit
  | rollback
  deriving DecidableEq, Repr

/-- What an action does, with the number of a `create`. -/
def exec (s : State ι) : Action ι → Option (State ι × Option Nat)
  | .mount i =>
    if s.txn.map Prod.fst = some i then none
    else
      let next := Function.update s.next i (some (fakefsNextInodeInit s.db))
      some ({ s with next := next }, none)
  | .sweep =>
    if s.txn.isSome then none
    else
      let stats := s.db.stats.filter fun r => r.1 ∈ s.db.paths.map Prod.snd
      some ({ s with db := { s.db with stats := stats } }, none)
  | .begin i =>
    if s.txn.isSome ∨ s.next i = none then none
    else some ({ s with txn := some (i, s.db) }, none)
  | .create path stat =>
    match s.txn with
    | none => none
    | some (i, db) =>
      let r := pathCreate db ((s.next i).getD 0) path stat
      some ({ s with txn := some (i, r.2.1), next := Function.update s.next i (some r.2.2) },
        some r.1)
  | .link src dst =>
    s.txn.bind fun t => (pathLink t.2 src dst).map fun db =>
      ({ s with txn := some (t.1, db) }, none)
  | .rename src dst =>
    s.txn.map fun t => ({ s with txn := some (t.1, pathRename t.2 src dst) }, none)
  | .unlink path =>
    s.txn.map fun t => ({ s with txn := some (t.1, (pathUnlink t.2 path).2) }, none)
  | .cleanup inode =>
    s.txn.map fun t => ({ s with txn := some (t.1, tryCleanupInode t.2 inode) }, none)
  | .commit => s.txn.map fun t => ({ s with db := t.2, txn := none }, none)
  | .rollback => s.txn.map fun _ => ({ s with txn := none }, none)

/-- An action with the number it gives, as a step. -/
def Step (s : State ι) (l : Action ι × Option Nat) (s' : State ι) : Prop :=
  exec s l.1 = some (s', l.2)

end IshAok.FakeDb
