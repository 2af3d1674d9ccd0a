import IshAok.Base.Limits
import IshAok.Base.PathText
import IshAok.Base.Run
import IshAok.Core.Errno

/-!
# Path Resolution

`path_normalize` and the walk below it, from `fs/path.c`. The walk copies the
path into `out` one name at a time. A name that turns out to be a symlink ends
the call: its text is spliced into the path and the whole walk starts again,
from the root for a relative text too, one link level further down.

The body of the loop is `turn`. It answers with a finished call, with the
cursor for the next turn, or with the call that replaces this one. `scan`
repeats it within one call and `innerPathNormalize` follows the calls.

The buffers are `MAX_PATH` bytes and the source counts the room left in `n`.
That count is decremented once before the name and once more in the loop
condition, so a name that begins when a single byte is left makes it negative
and the test for zero does not see it. The name is not copied, the next turn
writes past the buffer, and the call ends here as `Stop.overrun`. A failed
assertion is `Stop.abort`.

Text is a list of characters, one for each byte before the terminator. What
the mounts answer about a path is a `World`: the path inside its mount, the
text of a symlink there, and what `stat` reports. `readlink` and `stat` of one
world never change, so a world is a static tree. `access_check` compares the
mode bits with the caller, and the two masks the walk asks for are the two
answers a `Stat` carries.

## Main definitions

* `Flags`: The `N_` flags.
* `World`: What the mounts answer about each path.
* `turn`: One turn of the loop of `__path_normalize`.
* `innerPathNormalize`: `__path_normalize`.
* `pathNormalize`: `path_normalize`.
* `WalkStep`: One turn as a step of a walker, across calls.
-/

namespace IshAok.Path

open Base

/-- A C string, without its terminator. -/
abbrev Text := List Char

/-- `MAX_SYMLINKS`. -/
def maxSymlinks : Nat := 40

/-- `MOUNT_STAGING_DIR`. -/
def mountStagingDir : Text := "/.ish-fsmount".toList

/-- The `N_` flags. -/
structure Flags where
  symlinkFollow : Bool := false
  symlinkNofollow : Bool := false
  parentDirWrite : Bool := false
  realroot : Bool := false
  createEexistFirst : Bool := false
  removeEnoentFirst : Bool := false
  noSymlinks : Bool := false
  slashNotADir : Bool := false
  slashEisdir : Bool := false
  parentOnly : Bool := false
  slashUnlink : Bool := false
  detachedOk : Bool := false
  inRoot : Bool := false
  noMagiclinks : Bool := false
  beneath : Bool := false
  noXdev : Bool := false
  deriving DecidableEq, Repr

/-- What a `stat` reports: the type, and what `access_check` says of it for
    `AC_X` and for `AC_W | AC_X`. -/
structure Stat where
  isDir : Bool
  search : Bool
  writable : Bool
  deriving DecidableEq, Repr

/-- What `find_mount_and_trim_path` and the mount it finds answer about a
    path. `link` is the text `readlink` gives, if it gives one. -/
structure Found where
  trimmed : Text
  procfs : Bool
  link : Option Text
  stat : Except Errno Stat

/-- What the mounts answer. `mountId` is `mount_find` and the id of what it finds. -/
structure World where
  find : Text → Option Found
  mountId : Text → Option Int

/-- How a call ends that returns no path. -/
inductive Stop
  /-- It returns an error. -/
  | errno (e : Errno)
  /-- One of its assertions fails. -/
  | abort
  /-- It writes outside its buffers. -/
  | overrun
  deriving DecidableEq, Repr

/-- What a call returns, with the path it leaves in `out`. -/
abbrev Answer := Except Stop Text

/-- The answer of a call that returns an error. -/
def fail (e : Errno) : Answer :=
  .error (.errno e)

variable (w : World)

/-- `path_prefix_mount_id`. -/
def pathPrefixMountId (path : Text) : Int :=
  if maxPath ≤ path.length then -1 else (w.mountId path).getD (-1)

/-- `mount_staging_point_len`. -/
def mountStagingPointLen (path : Text) : Nat :=
  let dirLen := mountStagingDir.length
  if path.length ≤ dirLen + 1 || !(mountStagingDir ++ ['/']).isPrefixOf path then 0
  else
    let stop := dirLen + 1 + ((path.drop (dirLen + 1)).takeWhile (· ≠ '/')).length
    if dirLen + 1 < stop then stop else 0

/-- `path_is_normalized`. -/
def pathIsNormalized : Text → Bool
  | [] => true
  | c :: path =>
    if c ≠ '/' then false
    else if path.head? = some '/' then false
    else pathIsNormalized (path.dropWhile (· ≠ '/'))
  termination_by path => path.length
  decreasing_by
    have hle := (List.dropWhile_sublist (fun c : Char => decide (c ≠ '/')) (l := path)).length_le
    simp only [List.length_cons]
    omega

/-- A path with the real root spelled as the empty text. The source spells it
    as a slash and tests for that with `strcmp`. -/
def trimRoot : Option Text → Text
  | none => []
  | some path => if path = ['/'] then [] else path

/-! ### The walk -/

/-- The state of the loop: what has been written to `out`, the room left, the
    byte in front of `p` and the rest of the path. A string has no byte in
    front of its first one. -/
structure Cursor where
  out : Text
  n : Int
  prev : Option Char
  p : Text
  deriving DecidableEq, Repr

/-- The arguments of the call that replaces this one when a link is followed. -/
structure Expansion where
  atPath : Option Text
  path : Text
  flags : Flags
  deriving DecidableEq, Repr

/-- What one turn of the loop comes to. -/
inductive Turn
  | ret (a : Answer)
  | next (c : Cursor)
  | expand (e : Expansion)
  deriving DecidableEq

/-- A single dot, up to a slash or the end. -/
def isDot (p : Text) : Bool :=
  p.head? = some '.' && (p.drop 1 = [] || (p.drop 1).head? = some '/')

/-- A double dot, up to a slash or the end. -/
def isDotDot (p : Text) : Bool :=
  p.head? = some '.' && (p.drop 1).head? = some '.' &&
    (p.drop 2 = [] || (p.drop 2).head? = some '/')

/-- The copy of a name: the bytes copied, what is left of the path, and the
    room left. The count goes down before it is compared, so the byte that
    stops the copy is counted too. -/
def copyName : Text → Int → Text × Text × Int
  | [], n => ([], [], n)
  | ch :: p, n =>
    if ch = '/' then ([], ch :: p, n)
    else if 0 < n - 1 then
      let copied := copyName p (n - 1)
      (ch :: copied.1, copied.2.1, copied.2.2)
    else ([], ch :: p, n - 1)

/-- A name that has just been written behind `parent`. -/
structure Component where
  parent : Text
  name : Text
  n : Int
  prev : Option Char
  p : Text
  deriving DecidableEq, Repr

/-- What `out` holds once the name has been written. -/
def Component.out (k : Component) : Text :=
  k.parent ++ '/' :: k.name

/-- The byte in front of `p` is a slash: the name was spelled with one behind it. -/
def Component.slashed (k : Component) : Bool :=
  k.prev = some '/'

/-- The walk goes on behind the name. -/
def Component.cursor (k : Component) : Cursor :=
  { out := k.out, n := k.n, prev := k.prev, p := k.p }

/-- Output a slash, copy up to the next one and eat the run of slashes. -/
def component (c : Cursor) : Component :=
  let copied := copyName c.p (c.n - 1)
  { parent := c.out
    name := copied.1
    n := copied.2.2
    prev :=
      if copied.2.1.head? = some '/' then some '/' else copied.1.getLast?.or c.prev
    p := skipSlashes copied.2.1 }

/-- The walk stands on the process's root or on the root of a detached mount. -/
def atRoot (rootPath : Option Text) (out : Text) : Bool :=
  (trimRoot rootPath ≠ [] && out = trimRoot rootPath) ||
    (mountStagingPointLen out ≠ 0 && mountStagingPointLen out = out.length)

/-- The cursor behind a dot component of `len` bytes. -/
def Cursor.skip (c : Cursor) (len : Nat) : Cursor :=
  { c with prev := some '/', p := skipSlashes (c.p.drop len) }

/-- A double dot: delete the last component. -/
def dotDot (rootPath : Option Text) (flags : Flags) (c : Cursor) : Turn :=
  if flags.beneath && (atRoot rootPath c.out || c.out = []) then .ret (fail .exdev)
  else if c.out = [] || atRoot rootPath c.out then .next (c.skip 2)
  else
    let out := dropLastName c.out
    if flags.noXdev && pathPrefixMountId w out ≠ pathPrefixMountId w c.out then .ret (fail .exdev)
    else .next { c.skip 2 with out := out, n := c.n + (c.out.length - out.length) }

/-- A procfs link that reads "(unreachable)" and a global path. -/
def unreachable : Text := "(unreachable)".toList

/-- The path the link's text and the rest of the walk make, `base` being the
    text with what it is relative to. -/
def spliced (base : Text) (k : Component) : Except Stop Text :=
  if k.p ≠ [] then
    if maxPath ≤ base.length + 1 + k.p.length then .error (.errno .enametoolong)
    else .ok (base ++ '/' :: k.p)
  else if k.slashed then
    if maxPath ≤ base.length + 1 then .error (.errno .enametoolong)
    else .ok (base ++ ['/'])
  else .ok base

/-- Follow the link whose text is `text`: the checks, and the call that goes on
    with the text in the link's place. `left` is how many more links may be
    followed, `MAX_SYMLINKS - levels`. -/
def follow (rootPath : Option Text) (flags : Flags) (left : Nat) (k : Component)
    (found : Found) (text : Text) : Turn :=
  if flags.noSymlinks then .ret (fail .eloop)
  else
    -- A link under a process's own directory.
    let magicName := found.procfs && found.trimmed.head? = some '/' &&
      (found.trimmed.drop 1).head?.any Char.isDigit
    if magicName && flags.noMagiclinks then .ret (fail .eloop)
    else if magicName && (flags.inRoot || flags.beneath || flags.noXdev) then .ret (fail .exdev)
    else if left = 0 then .ret (fail .eloop)
    -- The terminator goes behind a text that fills the buffer.
    else if maxPath ≤ k.parent.length + 1 + text.length then .ret (.error .overrun)
    else
      let jumpRealRoot := found.procfs && (unreachable ++ ['/']).isPrefixOf text
      let text := if jumpRealRoot then text.drop unreachable.length else text
      let absolute := text.head? = some '/'
      if absolute ∧ !jumpRealRoot ∧ flags.beneath then .ret (fail .exdev)
      else if absolute ∧ !jumpRealRoot ∧ flags.noXdev ∧
          pathPrefixMountId w k.parent ≠ pathPrefixMountId w (trimRoot rootPath) then
        .ret (fail .exdev)
      else
        match spliced (if absolute then text else k.parent ++ '/' :: text) k with
        | .error stop => .ret (.error stop)
        | .ok path =>
          let flags' := { flags with
            detachedOk := found.procfs || (!absolute && mountStagingPointLen k.parent ≠ 0) }
          if flags.noXdev ∧ ¬ absolute then
            .expand ⟨some k.parent, path.drop (k.parent.length + 1), flags'⟩
          else
            .expand ⟨if absolute ∧ !jumpRealRoot then rootPath else none, path, flags'⟩

/-- The name is looked up: a link is followed, and a name with a slash behind
    it has to be a directory, searchable if the walk goes on below it. -/
def lookUp (rootPath : Option Text) (flags : Flags) (left : Nat)
    (k : Component) : Turn :=
  if maxPath ≤ k.out.length then .ret (.error .overrun)
  else
    match w.find k.out with
    | none => .ret (fail .enoent)
    | some found =>
      if !pathIsNormalized found.trimmed then .ret (.error .abort)
      else
        match found.link with
        | some text =>
          follow w rootPath flags left k found (text.take (maxPath - (k.parent.length + 1)))
        | none =>
          if k.slashed then
            match found.stat with
            | .ok st =>
              if !st.isDir then .ret (fail .enotdir)
              else if k.p ≠ [] && !st.search then .ret (fail .eacces)
              else .next k.cursor
            | .error e => if k.p ≠ [] then .ret (fail e) else .next k.cursor
          else .next k.cursor

/-- The name is one the walk resolves: not the last one of a caller that does
    not follow it, unless it is spelled with a slash behind it. -/
def lookedUp (flags : Flags) (k : Component) : Bool :=
  flags.symlinkFollow || k.p ≠ [] || (k.slashed && !flags.parentOnly)

/-- A name other than the two dots. -/
def enterName (rootPath : Option Text) (flags : Flags) (left : Nat)
    (k : Component) : Turn :=
  if k.n = 0 then .ret (fail .enametoolong)
  else if k.parent = [] ∧ k.name = mountStagingDir.drop 1 ∧ flags.detachedOk ∧ k.p ≠ [] then
    .next k.cursor
  else if k.parent = mountStagingDir ∧ !flags.detachedOk then .ret (fail .enoent)
  else if flags.noXdev ∧ pathPrefixMountId w k.out ≠ pathPrefixMountId w k.parent then
    .ret (fail .exdev)
  else if k.p = [] ∧ k.slashed ∧ flags.slashEisdir then .ret (fail .eisdir)
  else if lookedUp flags k then lookUp w rootPath flags left k
  else .next k.cursor

/-- One turn of the loop of `__path_normalize`, and what follows the loop. -/
def turn (rootPath : Option Text) (flags : Flags) (left : Nat) (c : Cursor) : Turn :=
  if c.p = [] then .ret (if pathIsNormalized c.out then .ok c.out else .error .abort)
  else if isDot c.p then .next (c.skip 1)
  else if isDotDot c.p then dotDot w rootPath flags c
  else enterName w rootPath flags left (component c)

/-- The turns of one call, up to its answer or the call that replaces it. A
    turn that consumed nothing had no room for its name: the next one writes
    past the buffer. -/
def scan (w : World) (rootPath : Option Text) (flags : Flags) (left : Nat) (c : Cursor) :
    Answer ⊕ Expansion :=
  match turn w rootPath flags left c with
  | .ret a => .inl a
  | .expand e => .inr e
  | .next c' =>
    if _h : c'.p.length < c.p.length then scan w rootPath flags left c'
    else .inl (.error .overrun)
  termination_by c.p.length

/-- What `__path_normalize` does before its loop. -/
def enter (flags : Flags) (atPath : Option Text) (path : Text) : Except Stop Cursor :=
  if flags.symlinkFollow = flags.symlinkNofollow then .error .abort
  else if flags.parentOnly && flags.symlinkFollow then .error .abort
  else if path = [] then .error (.errno .enoent)
  else
    .ok
      { out := trimRoot atPath
        n := maxPath - 1 - (trimRoot atPath).length
        prev := if path.head? = some '/' then some '/' else none
        p := skipSlashes path }

/-- The walk from a cursor to the end, through the calls that replace each
    other. `follow` has refused a link already when no more may be followed. -/
def resolve (w : World) (rootPath : Option Text) (left : Nat) (flags : Flags) (c : Cursor) :
    Answer :=
  match scan w rootPath flags left c with
  | .inl a => a
  | .inr e =>
    match left with
    | 0 => fail .eloop
    | left + 1 =>
      match enter e.flags e.atPath e.path with
      | .error stop => .error stop
      | .ok c => resolve w rootPath left e.flags c

/-- `__path_normalize` for a call that may follow `left` more links. -/
def innerPathNormalize (rootPath atPath : Option Text) (path : Text) (flags : Flags)
    (left : Nat) : Answer :=
  match enter flags atPath path with
  | .error stop => .error stop
  | .ok c => resolve w rootPath left flags c

/-! ### The caller's side -/

/-- A descriptor as the walk uses it: what `generic_getpath` answers and what
    its `fstat` reports, if it has one that succeeds. -/
structure Dirfd where
  getpath : Except Errno Text
  fstat : Option Stat

/-- `current->fs`. -/
structure FsInfo where
  root : Option Dirfd
  pwd : Option Dirfd

/-- The descriptor argument: `NULL`, `AT_PWD` or an open one. -/
inductive At
  | null
  | pwd
  | fd (d : Dirfd)

/-- `path_trailing_slash`. -/
def pathTrailingSlash (path : Text) : Bool :=
  path.getLast? = some '/'

/-- `path_target_lstat`. -/
def pathTargetLstat (path : Text) : Option Stat :=
  match w.find path with
  | none => none
  | some found => found.stat.toOption

/-- The check of `N_PARENT_DIR_WRITE` on the directory that holds `out`. -/
def parentDirWrite (flags : Flags) (out : Text) : Answer :=
  if out ≠ [] && mountStagingPointLen out = out.length then .ok out
  else if out = [] then .ok out
  else
    match w.find (dropLastName out) with
    | none => fail .enoent
    | some found =>
      match found.stat with
      | .error e => fail e
      | .ok st =>
        if st.writable then .ok out
        else if flags.createEexistFirst && (pathTargetLstat w out).isSome then .ok out
        else if flags.removeEnoentFirst && (pathTargetLstat w out).isNone then fail .enoent
        else fail .eacces

/-- What `path_normalize` does with a path that has been resolved. -/
def afterWalk (flags : Flags) (path out : Text) : Answer :=
  if flags.slashNotADir && pathTrailingSlash path && (pathTargetLstat w out).isNone then
    fail .enoent
  else if flags.slashUnlink && pathTrailingSlash path then
    match pathTargetLstat w out with
    | none => fail .enoent
    | some st => if st.isDir then fail .eisdir else fail .enotdir
  else if flags.parentDirWrite then parentDirWrite w flags out
  else .ok out

/-- The path of the starting descriptor, once it may be started from. The
    type and the search bit are asked only for a walk that starts there
    whatever the path: a relative one, or one whose root it is. -/
def startPath (d : Dirfd) (path : Text) (asked : Bool) : Except Stop Text :=
  match d.getpath with
  | .error e => .error (.errno e)
  | .ok atPath =>
    if !pathIsNormalized atPath then .error (.errno .enotdir)
    else
      match d.fstat with
      | none => .ok atPath
      | some st =>
        if asked && !st.isDir then .error (.errno .enotdir)
        else if asked && skipSlashes path ≠ [] && !st.search then .error (.errno .eacces)
        else .ok atPath

/-- The path of the root. It is asked again only when the walk starts elsewhere. -/
def rootPathOf : Option Dirfd → Except Stop (Option Text)
  | none => .ok none
  | some d =>
    match d.getpath with
    | .error e => .error (.errno e)
    | .ok path => if pathIsNormalized path then .ok (some path) else .error .abort

/-- The descriptor the caller starts from: the one it gives, or the working directory. -/
def startingDir (fs : FsInfo) : At → Option Dirfd
  | .null => none
  | .pwd => fs.pwd
  | .fd d => some d

/-- The paths of the root and of the start of the walk: what `path_normalize`
    does before it. -/
def prepare (fs : FsInfo) (at_ : At) (path : Text) (flags : Flags) :
    Except Stop (Option Text × Option Text) :=
  let absolute := path.head? = some '/'
  let inRoot := flags.inRoot || flags.beneath
  let realRoot := if flags.realroot then none else fs.root
  let start := if !inRoot && absolute then realRoot else startingDir fs at_
  let root := if inRoot then startingDir fs at_ else realRoot
  if path = [] then .error (.errno .enoent)
  else if flags.beneath && absolute then .error (.errno .exdev)
  else
    match start with
    | none => (rootPathOf root).map (·, none)
    | some d =>
      match startPath d path (!absolute || inRoot) with
      | .error stop => .error stop
      | .ok atPath => (rootPathOf root).map (·, some atPath)

/-- `path_normalize`. `current` is `none` for a caller without a task or
    without `fs`. -/
def pathNormalize (current : Option FsInfo) (at_ : At) (path : Text) (flags : Flags) :
    Answer :=
  match at_, current with
  | .null, _ => fail .ebadf
  | _, none => fail .enoent
  | at_, some fs =>
    match prepare fs at_ path flags with
    | .error stop => .error stop
    | .ok (rootPath, atPath) =>
      innerPathNormalize w rootPath atPath path flags maxSymlinks >>= afterWalk w flags path

/-! ### Walkers -/

/-- A call of `__path_normalize` under way. -/
structure Walker where
  left : Nat
  flags : Flags
  cursor : Cursor
  deriving DecidableEq

/-- One turn of a walker. The label says whether a link was followed. -/
inductive WalkStep (w : World) (rootPath : Option Text) : Walker → Bool → Walker → Prop
  | next (left flags c c') : turn w rootPath flags left c = .next c' → c'.p.length < c.p.length →
      WalkStep w rootPath ⟨left, flags, c⟩ false ⟨left, flags, c'⟩
  | expand (left flags c c' e) :
      turn w rootPath flags (left + 1) c = .expand e → enter e.flags e.atPath e.path = .ok c' →
      WalkStep w rootPath ⟨left + 1, flags, c⟩ true ⟨left, e.flags, c'⟩

end IshAok.Path
