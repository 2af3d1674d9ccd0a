import IshAok.Theory.Path.Turn

/-!
# Root Confinement

A walk that starts at its root or under it never returns a path outside it.

The invariant has two sides, because a relative link sends the walk back to
the very top. `Below R` is the side that matters: what has been written is `R`
or goes on from it. `Entering R` is the way back: what has been written is an
initial part of `R`, and the text still to be walked begins with the names of
`R` that are missing. No name of `R` is a dot and no initial part of `R` is a
link, so such a walker can only write the next name of `R`, and the last of
them puts it back under `R`.

On the other side the double dot drops a name only where the text differs from
`R`, and a path that goes on from `R` keeps doing so without its last name.

`N_IN_ROOT` and `N_BENEATH` are the same theorem with the starting directory
as the root.

## Main definitions

* `Normal`: A path spelled from names other than the two dots.
* `OpenedAt`: A descriptor on a directory with a given path.
* `Entering`: The walk is on its way back to the root.
* `Confined`: The invariant of a confined walk.
* `Visits`: A walker the resolution of a path comes to.
* `MeetsLink`: A walker whose turn reads a symlink.

## Theorems

* `confined_next`, `confined_expand`: Each turn keeps a walk confined.
* `inner_confined`: The walk returns a path under its root.
* `path_normalize_confined`: So does `path_normalize`, and `N_BENEATH` refuses to leave.
-/

namespace IshAok.Path

open Base List

/-- A path spelled from names other than the two dots. -/
def Normal (path : Text) : Prop :=
  ∃ names, path = joinPath names ∧ ∀ x ∈ names, ProperName x

/-- No initial part of the path is a symlink. -/
def LinkFree (w : World) (path : Text) : Prop :=
  ∀ q, Below q path → linkAt w q = none

/-- The real root is shown as a slash. -/
def shown (path : Text) : Text :=
  if path = [] then ['/'] else path

/-- The descriptor is open on a directory whose path, which fits a buffer, is
    normalized and has no symlink on the way. -/
structure OpenedAt (w : World) (d : Dirfd) (path : Text) : Prop where
  getpath : d.getpath = .ok (shown path)
  normal : Normal path
  linkFree : LinkFree w path
  short : path.length < maxPath

/-- The walk is on its way back to `R`: `out` is an initial part of it, and
    the missing names are the next ones of the text. -/
def Entering (R : Text) (c : Cursor) : Prop :=
  ∃ done x todo tail, R = joinPath (done ++ x :: todo) ∧ (∀ y ∈ done ++ x :: todo, ProperName y) ∧
    c.out = joinPath done ∧ c.n = maxPath - 1 - c.out.length ∧
    c.p = x ++ (joinPath todo ++ tail) ∧ Ended tail

/-- The walk is under `R` or on its way back to it. -/
def Confined (R : Text) (c : Cursor) : Prop :=
  Below R c.out ∨ Entering R c

variable {path : Text} {fs : FsInfo} {flags : Flags} {w : World}

/-- A normalized path is not a lone slash. -/
theorem normal_ne_slash (h : Normal path) : path ≠ ['/'] := by
  rcases h with ⟨names, rfl, hnames⟩
  cases names with
  | nil => exact cons_ne_nil _ _ ∘ Eq.symm
  | cons y names =>
    intro heq
    rw [joinPath_cons, List.cons.injEq] at heq
    exact (hnames y mem_cons_self).1.1 (append_eq_nil_iff.mp heq.2).1

/-- Reading a lone slash as the real root leaves nothing that was under `R`. -/
theorem below_trimRoot {R q : Text} (hR : Normal R) (hb : Below R q) :
    Below R (trimRoot (some q)) := by
  simp only [trimRoot]
  split
  · next hq =>
    rcases hb with rfl | ⟨u, hu⟩
    · exact absurd hq (normal_ne_slash hR)
    -- Only the empty path has a lone slash under it.
    have hlen := congrArg List.length (hu.trans hq)
    simp only [length_append, length_cons, length_nil] at hlen
    have hnil : R = [] := eq_nil_of_length_eq_zero (by omega)
    rw [hnil]
    exact below_refl []
  · exact hb

theorem trimRoot_shown (h : Normal path) : trimRoot (some (shown path)) = path := by
  unfold shown
  split
  · next hnil => rw [hnil, trimRoot, if_pos rfl]
  · rw [trimRoot, if_neg (normal_ne_slash h)]

/-! ### One turn -/

theorem ended_joinPath_append (names : List Text) {tail : Text} (h : Ended tail) :
    Ended (joinPath names ++ tail) := by
  cases names with
  | nil => exact h
  | cons x names => exact .inr ⟨_, by rw [joinPath_cons, cons_append]⟩

/-- The next name of `R`, if there is room for it. -/
theorem entering_component {R : Text} {c : Cursor} (hlen : R.length < maxPath)
    (hn : (component c).n ≠ 0) {done todo : List Text} {x tail : Text}
    (hR : R = joinPath (done ++ x :: todo)) (hx : ProperName x) (hout : c.out = joinPath done)
    (hroom : c.n = maxPath - 1 - c.out.length) (hp : c.p = x ++ (joinPath todo ++ tail))
    (htail : Ended tail) :
    (component c).out = joinPath (done ++ [x]) ∧
      (component c).n = maxPath - 1 - (component c).out.length ∧
      (component c).p = skipSlashes (joinPath todo ++ tail) := by
  have hended := ended_joinPath_append todo htail
  have hlenR : R.length = c.out.length + (x.length + 1) + (joinPath todo).length := by
    rw [hR, hout, joinPath_append, joinPath_cons]
    simp only [length_append, length_cons]
    omega
  have hpos : 0 < x.length := length_pos_iff.mpr hx.1.1
  by_cases hfit : (x.length : Int) < c.n - 1
  · have hk := component_name hp hx.1 hended hfit
    have hkout : (component c).out = joinPath (done ++ [x]) := by
      rw [hk, joinPath_snoc, ← hout]
      rfl
    refine ⟨hkout, ?_, by rw [hk]⟩
    rw [hk]
    simp only [Component.out, length_append, length_cons]
    omega
  · -- The name would fill the buffer.
    have hfull := copyName_full (joinPath todo ++ tail) (c.n - 1) hx.1.2 (by omega) (by omega)
    rw [← hp] at hfull
    exact absurd hfull hn

/-- A walker on its way back stands at a name, and not at a dot. -/
theorem entering_name {R : Text} {c : Cursor} (h : Entering R c) :
    c.p ≠ [] ∧ isDot c.p = false ∧ isDotDot c.p = false := by
  rcases h with ⟨done, x, todo, tail, -, hnames, -, -, hp, htail⟩
  have hx : ProperName x := hnames x (mem_append_right _ mem_cons_self)
  rw [hp]
  refine ⟨fun h => hx.1.1 (append_eq_nil_iff.mp h).1, isDot_name _ hx, ?_⟩
  exact isDotDot_name hx (ended_joinPath_append todo htail)

section

variable {w : World} {rootPath : Option Text} {flags : Flags} {left : Nat} {c : Cursor} {R : Text}

/-- A turn that goes on keeps the walk confined. -/
theorem confined_next {c' : Cursor} (hplain : Plain w) (hroot : trimRoot rootPath = R)
    (hlen : R.length < maxPath) (hc : Confined R c)
    (h : turn w rootPath flags left c = .next c') : Confined R c' := by
  rcases turn_next hplain h with ⟨hdot, rfl⟩ | ⟨hdots, -, rfl⟩ | ⟨hdots, hne, hat, rfl⟩ |
    ⟨-, -, hn, rfl⟩
  · rcases hc with hb | he
    · exact Or.inl hb
    · exact absurd hdot (by rw [(entering_name he).2.1]; exact Bool.false_ne_true)
  · rcases hc with hb | he
    · exact Or.inl hb
    · exact absurd hdots (by rw [(entering_name he).2.2]; exact Bool.false_ne_true)
  · rcases hc with hb | he
    · -- The text is not that of the root, so a name behind it is dropped.
      refine Or.inl (below_dropLastName hb ?_)
      intro heq
      simp only [atRoot, hroot, Bool.or_eq_false_iff, Bool.and_eq_false_iff] at hat
      rcases hat.1 with hR | hout
      · simp only [ne_eq, decide_not, Bool.not_eq_false', decide_eq_true_eq] at hR
        exact hne (heq.trans hR)
      · exact absurd heq (of_decide_eq_false hout)
    · exact absurd hdots (by rw [(entering_name he).2.2]; exact Bool.false_ne_true)
  · rcases hc with hb | ⟨done, x, todo, tail, hR, hnames, hout, hroom, hp, htail⟩
    · exact Or.inl (below_snoc _ hb)
    have hx : ProperName x := hnames x (mem_append_right _ mem_cons_self)
    rcases entering_component hlen hn hR hx hout hroom hp htail with ⟨hko, hkn, hkp⟩
    cases todo with
    | nil =>
      -- The last name of the root.
      refine Or.inl ?_
      show Below R (component c).out
      rw [hko, hR]
      exact below_refl _
    | cons y todo =>
      have hy : ProperName y := hnames y (by
        simp only [mem_append, mem_cons, true_or, or_true])
      refine Or.inr ⟨done ++ [x], y, todo, tail, ?_, ?_, hko, hkn, ?_, htail⟩
      · rw [hR, append_assoc, singleton_append]
      · rwa [append_assoc, singleton_append]
      · show (component c).p = _
        rw [hkp, joinPath_cons, cons_append, skipSlashes_slash, append_assoc,
          skipSlashes_name _ hy.1]

variable {path : Text}

theorem enter_ok {atPath : Option Text} (h : enter flags atPath path = .ok c) :
    c.out = trimRoot atPath ∧ c.n = maxPath - 1 - c.out.length ∧ c.p = skipSlashes path := by
  unfold enter at h
  split at h
  · cases h
  split at h
  · cases h
  split at h
  · cases h
  cases h
  exact ⟨rfl, rfl, rfl⟩

/-- Following a link keeps the walk confined. -/
theorem confined_expand {c' : Cursor} {e : Expansion} (hplain : Plain w)
    (hroot : trimRoot rootPath = R) (hnormal : Normal R) (hlen : R.length < maxPath)
    (hfree : LinkFree w R) (hc : Confined R c) (h : turn w rootPath flags left c = .expand e)
    (he : enter e.flags e.atPath e.path = .ok c') : Confined R c' := by
  rcases turn_expand hplain h with ⟨-, -, -, hn, hlink, text, hf⟩
  rcases enter_ok he with ⟨hout, hroom, hp⟩
  rcases hc with hb | ⟨done, x, todo, tail, hR, hnames, hco, hcn, hcp, htail⟩
  · rcases hf.call with ⟨-, -, hat, -⟩ | ⟨-, -, hat, -⟩ | ⟨-, hat, hpath⟩
    · -- An absolute text: the walk starts again at its root.
      rw [hat, hroot] at hout
      exact .inl (hout ▸ below_refl R)
    · -- The walk goes on in the directory of the link.
      rw [hat] at hout
      exact .inl (hout ▸ below_trimRoot hnormal hb)
    · -- A relative text: the names of the root come first.
      rcases hnormal with ⟨names, rfl, hnames⟩
      cases names with
      | nil =>
        refine .inl ?_
        rw [hout, hat]
        exact below_refl []
      | cons x todo =>
        rcases below_iff.mp hb with ⟨t, ht, hended⟩
        have hx : ProperName x := hnames x mem_cons_self
        have hpath' : e.path =
            '/' :: (x ++ (joinPath todo ++ (t ++ '/' :: text ++ (component c).rest))) := by
          rw [hpath, show (component c).parent = c.out from rfl, ht, joinPath_cons]
          simp
        refine .inr ⟨[], x, todo, t ++ '/' :: text ++ (component c).rest, rfl, hnames, ?_,
          hroom, ?_, ?_⟩
        · rw [hout, hat]
          rfl
        · rw [hp, hpath', skipSlashes_slash, skipSlashes_name _ hx.1]
        · rcases hended with rfl | ⟨u, rfl⟩
          · exact .inr ⟨_, rfl⟩
          · exact .inr ⟨_, rfl⟩
  · -- On the way back there is no link to follow.
    have hx : ProperName x := hnames x (mem_append_right _ mem_cons_self)
    rcases entering_component hlen hn hR hx hco hcn hcp htail with ⟨hko, -, -⟩
    refine absurd (hfree _ ?_) hlink
    rw [hko, hR]
    refine below_iff.mpr ⟨joinPath todo, ?_, ended_joinPath todo⟩
    rw [← joinPath_append, append_assoc, singleton_append]

/-- A run of a confined walker stays confined. -/
theorem confined_run {a b : Walker} {tr : List (Walker × Bool)} (hplain : Plain w)
    (hroot : trimRoot rootPath = R) (hnormal : Normal R) (hlen : R.length < maxPath)
    (hfree : LinkFree w R) (ha : Confined R a.cursor) (hrun : Run (WalkStep w rootPath) a tr b) :
    Confined R b.cursor := by
  refine run_invariant (fun a => Confined R a.cursor) hrun ha ?_
  intro u l v _ hu hs
  cases hs with
  | next left flags c c' ht => exact confined_next hplain hroot hlen hu ht
  | expand left flags c c' e ht he =>
    exact confined_expand hplain hroot hnormal hlen hfree hu ht he

/-- The walk returns a path under its root. -/
theorem inner_confined {atPath : Option Text} {out : Text} (hplain : Plain w)
    (hroot : trimRoot rootPath = R) (hnormal : Normal R) (hlen : R.length < maxPath)
    (hfree : LinkFree w R) (hat : Below R (trimRoot atPath))
    (h : innerPathNormalize w rootPath atPath path flags left = .ok out) : Below R out := by
  unfold innerPathNormalize at h
  cases he : enter flags atPath path with
  | error stop =>
    rw [he] at h
    cases h
  | ok c =>
    rw [he] at h
    rcases run_of_answer hplain ⟨left, flags, c⟩ out h with ⟨tr, b, hrun, hend, hout⟩
    have hstart : Confined R c := .inl ((enter_ok he).1 ▸ hat)
    rcases confined_run hplain hroot hnormal hlen hfree hstart hrun with hb | hb
    · exact hout ▸ hb
    · exact absurd hend (entering_name hb).1

/-- What follows the walk does not change its path. -/
theorem afterWalk_ok {out out' : Text} (h : afterWalk w flags path out = .ok out') :
    out' = out := by
  unfold afterWalk at h
  split at h
  · cases h
  split at h
  · split at h
    · cases h
    · split at h <;> cases h
  split at h
  · unfold parentDirWrite at h
    split at h
    · exact (Except.ok.inj h).symm
    split at h
    · exact (Except.ok.inj h).symm
    split at h
    · cases h
    split at h
    · cases h
    split at h
    · exact (Except.ok.inj h).symm
    split at h
    · exact (Except.ok.inj h).symm
    split at h <;> cases h
  · exact (Except.ok.inj h).symm

theorem startPath_ok {d : Dirfd} {atPath : Text} {asked : Bool}
    (h : startPath d path asked = .ok atPath) : d.getpath = .ok atPath := by
  unfold startPath at h
  split at h
  · cases h
  next p hp =>
  split at h
  · cases h
  split at h
  · exact Except.ok.inj h ▸ hp
  split at h
  · cases h
  split at h
  · cases h
  · exact Except.ok.inj h ▸ hp

theorem rootPathOf_ok {d : Dirfd} {rootPath : Option Text}
    (h : rootPathOf (some d) = .ok rootPath) :
    ∃ path, d.getpath = .ok path ∧ rootPath = some path := by
  simp only [rootPathOf] at h
  split at h
  · cases h
  next path hp =>
  split at h
  · exact ⟨path, hp, (Except.ok.inj h).symm⟩
  · cases h

end

/-- The root and the start of the walk come from the descriptors. -/
theorem prepare_ok {at_ : At} {r s : Dirfd} {rootPath atPath : Option Text}
    (hroot : fs.root = some r) (hstart : startingDir fs at_ = some s)
    (hreal : flags.realroot = false) (h : prepare fs at_ path flags = .ok (rootPath, atPath)) :
    ∃ rp ap, rootPath = some rp ∧ atPath = some ap ∧
      (((flags.inRoot || flags.beneath) = true ∧ s.getpath = .ok rp ∧ s.getpath = .ok ap) ∨
        ((flags.inRoot || flags.beneath) = false ∧ r.getpath = .ok rp ∧
          (r.getpath = .ok ap ∨ s.getpath = .ok ap))) := by
  simp only [prepare, hreal, Bool.false_eq_true, if_false, hroot, hstart] at h
  split at h
  · cases h
  split at h
  · cases h
  split at h
  · next hnone => split at hnone <;> cases hnone
  next d hd =>
  split at h
  · cases h
  next ap hap =>
  have hap' := startPath_ok hap
  cases hrp : rootPathOf (if (flags.inRoot || flags.beneath) = true then some s else some r) with
  | error stop =>
    rw [hrp] at h
    cases h
  | ok rp =>
    rw [hrp] at h
    cases h
    cases hin : flags.inRoot || flags.beneath with
    | true =>
      rw [hin, if_pos rfl] at hrp
      simp only [hin, Bool.not_true, Bool.false_and, Bool.false_eq_true, if_false,
        Option.some.injEq] at hd
      rcases rootPathOf_ok hrp with ⟨p, hp, rfl⟩
      exact ⟨p, ap, rfl, rfl, .inl ⟨rfl, hp, hd ▸ hap'⟩⟩
    | false =>
      rw [hin, if_neg Bool.false_ne_true] at hrp
      rcases rootPathOf_ok hrp with ⟨p, hp, rfl⟩
      refine ⟨p, ap, rfl, rfl, .inr ⟨rfl, hp, ?_⟩⟩
      split at hd
      · exact .inl (Option.some.inj hd ▸ hap')
      · exact .inr (Option.some.inj hd ▸ hap')

/-- What `path_normalize` does for a caller with a descriptor. -/
theorem pathNormalize_eq {at_ : At} (hat : at_ ≠ .null) :
    pathNormalize w (some fs) at_ path flags =
      match prepare fs at_ path flags with
      | .error stop => .error stop
      | .ok (rootPath, atPath) =>
        innerPathNormalize w rootPath atPath path flags maxSymlinks >>=
          afterWalk w flags path := by
  cases at_ with
  | null => exact absurd rfl hat
  | pwd | fd => rfl

/-- The walk of `path_normalize` and the paths it is given. -/
theorem pathNormalize_ok {at_ : At} {out : Text}
    (h : pathNormalize w (some fs) at_ path flags = .ok out) :
    ∃ rootPath atPath, prepare fs at_ path flags = .ok (rootPath, atPath) ∧
      innerPathNormalize w rootPath atPath path flags maxSymlinks = .ok out := by
  rw [pathNormalize_eq (by rintro rfl; cases h)] at h
  split at h
  · cases h
  next rootPath atPath hprep =>
  refine ⟨rootPath, atPath, hprep, ?_⟩
  cases hi : innerPathNormalize w rootPath atPath path flags maxSymlinks with
  | error stop =>
    rw [hi] at h
    cases h
  | ok q =>
    rw [hi] at h
    rw [afterWalk_ok h]

section

variable {w : World} {fs : FsInfo} {at_ : At} {path out R S : Text} {flags : Flags} {r s : Dirfd}

/-- A returned path lies under the starting directory when that is the root of the walk. -/
theorem scoped_confined (hplain : Plain w) (hroot : fs.root = some r)
    (hstart : startingDir fs at_ = some s) (hs : OpenedAt w s S) (hreal : flags.realroot = false)
    (hin : (flags.inRoot || flags.beneath) = true)
    (h : pathNormalize w (some fs) at_ path flags = .ok out) : Below S out := by
  rcases pathNormalize_ok h with ⟨rootPath, atPath, hprep, hinner⟩
  rcases prepare_ok hroot hstart hreal hprep with ⟨rp, ap, rfl, rfl, ⟨-, hrp, hap⟩ | ⟨hf, -⟩⟩
  · cases Except.ok.inj (hs.getpath.symm.trans hrp)
    cases Except.ok.inj (hs.getpath.symm.trans hap)
    have htrim := trimRoot_shown hs.normal
    exact inner_confined hplain htrim hs.normal hs.short hs.linkFree
      (htrim.symm ▸ below_refl S) hinner
  · rw [hin] at hf
    cases hf

/-- A returned path lies under the process's root. -/
theorem root_confined (hplain : Plain w) (hroot : fs.root = some r) (hr : OpenedAt w r R)
    (hstart : startingDir fs at_ = some s) (hs : OpenedAt w s S) (hbelow : Below R S)
    (hreal : flags.realroot = false) (h : pathNormalize w (some fs) at_ path flags = .ok out) :
    Below R out := by
  cases hin : flags.inRoot || flags.beneath with
  | true => exact below_trans hbelow (scoped_confined hplain hroot hstart hs hreal hin h)
  | false =>
    rcases pathNormalize_ok h with ⟨rootPath, atPath, hprep, hinner⟩
    rcases prepare_ok hroot hstart hreal hprep with ⟨rp, ap, rfl, rfl, ⟨ht, -⟩ | ⟨-, hrp, hap⟩⟩
    · rw [hin] at ht
      cases ht
    cases Except.ok.inj (hr.getpath.symm.trans hrp)
    have htrim := trimRoot_shown hr.normal
    refine inner_confined hplain htrim hr.normal hr.short hr.linkFree ?_ hinner
    rcases hap with hap | hap
    · cases Except.ok.inj (hr.getpath.symm.trans hap)
      exact htrim.symm ▸ below_refl R
    cases Except.ok.inj (hs.getpath.symm.trans hap)
    exact (trimRoot_shown hs.normal).symm ▸ hbelow

end

/-! ### Leaving a scope -/

/-- The resolution of `path` comes to the walker `b`. -/
def Visits (w : World) (fs : FsInfo) (at_ : At) (path : Text) (flags : Flags)
    (rootPath : Option Text) (b : Walker) : Prop :=
  ∃ atPath c tr, prepare fs at_ path flags = .ok (rootPath, atPath) ∧
    enter flags atPath path = .ok c ∧ Run (WalkStep w rootPath) ⟨maxSymlinks, flags, c⟩ tr b

/-- The next turn of the walker looks a name up and reads the text of a
    symlink there: it stands at a name, nothing refuses that name before it is
    looked up, and the text fits behind the directory that holds the link. -/
structure MeetsLink (w : World) (b : Walker) (text : Text) : Prop where
  some_name : b.cursor.p ≠ [] ∧ isDot b.cursor.p = false ∧ isDotDot b.cursor.p = false
  room : (component b.cursor).n ≠ 0
  unstaged : (component b.cursor).out ≠ mountStagingDir ∧
    (component b.cursor).parent ≠ mountStagingDir
  same_mount : b.flags.noXdev = true →
    pathPrefixMountId w (component b.cursor).out = pathPrefixMountId w (component b.cursor).parent
  no_eisdir : ¬ ((component b.cursor).p = [] ∧ (component b.cursor).slashed = true ∧
    b.flags.slashEisdir = true)
  looked_up : lookedUp b.flags (component b.cursor) = true
  found : ∃ f, w.find (component b.cursor).out = some f ∧ pathIsNormalized f.trimmed = true ∧
    f.link = some text
  out_short : (component b.cursor).out.length < maxPath
  short : (component b.cursor).parent.length + 1 + text.length < maxPath

/-- A walker that meets a link follows it. -/
theorem turn_meetsLink (rootPath : Option Text) {b : Walker} {text : Text}
    (h : MeetsLink w b text) :
    ∃ f, w.find (component b.cursor).out = some f ∧
      turn w rootPath b.flags b.left b.cursor =
        follow w rootPath b.flags b.left (component b.cursor) f text := by
  rcases h with ⟨⟨hp, hdot, hdots⟩, hroom, ⟨hst, hpar⟩, hx, he, hl, ⟨f, hf, hnorm, hlink⟩, hlen, hs⟩
  have hlook : LooksUp w b (component b.cursor) := by
    refine ⟨rfl, ⟨hp, hdot, hdots⟩, hroom, ?_, fun h => absurd h hpar, hx, he, hl⟩
    rintro ⟨h0, h1, -⟩
    refine hst ?_
    rw [Component.out, h0, h1]
    decide
  have htake : text.take (maxPath - ((component b.cursor).parent.length + 1)) = text :=
    take_of_length_le (by omega)
  refine ⟨f, hf, ?_⟩
  rw [turn_looksUp rootPath hlook, lookUp, if_neg (Nat.not_le.mpr hlen)]
  simp [hf, hnorm, hlink, htake]

/-- Only the flag for detached mounts changes from call to call. -/
theorem flags_run {rootPath : Option Text} {a b : Walker} {tr : List (Walker × Bool)}
    (hplain : Plain w) (h : Run (WalkStep w rootPath) a tr b) :
    ∃ d, b.flags = { a.flags with detachedOk := d } := by
  refine run_invariant (fun b => ∃ d, b.flags = { a.flags with detachedOk := d }) h ⟨_, rfl⟩ ?_
  rintro u l v _ ⟨d, hu⟩ hs
  cases hs with
  | next left flags c c' => exact ⟨d, hu⟩
  | expand left flags c c' e ht =>
    rcases turn_expand hplain ht with ⟨-, -, -, -, -, text, hf⟩
    rcases hf.sameFlags with ⟨d', he⟩
    have hu' : flags = { a.flags with detachedOk := d } := hu
    exact ⟨d', by rw [he, hu']⟩

section

variable {w : World} {fs : FsInfo} {at_ : At} {path R S text : Text} {flags : Flags} {r s : Dirfd}
  {rootPath : Option Text} {b : Walker}

/-- The answer of a walker is the answer of the call that comes to it. -/
theorem visits_error {stop : Stop} (hat : at_ ≠ .null)
    (hv : Visits w fs at_ path flags rootPath b)
    (h : turn w rootPath b.flags b.left b.cursor = .ret (.error stop)) :
    pathNormalize w (some fs) at_ path flags = .error stop := by
  rcases hv with ⟨atPath, c, tr, hprep, henter, hrun⟩
  have hb : b.answer w rootPath = .error stop := resolve_of_ret h
  have hinner : innerPathNormalize w rootPath atPath path flags maxSymlinks = .error stop := by
    rw [innerPathNormalize, henter, ← hb]
    exact answer_run hrun
  rw [pathNormalize_eq hat, hprep]
  dsimp only
  rw [hinner]
  rfl

/-- A double dot at the root of an `N_BENEATH` walk is refused. -/
theorem dotDot_beneath (hb : b.flags.beneath = true) (hroot : trimRoot rootPath = S)
    (hout : b.cursor.out = S) (hdots : isDotDot b.cursor.p = true) :
    turn w rootPath b.flags b.left b.cursor = .ret (fail .exdev) := by
  have hp : b.cursor.p ≠ [] := by
    intro h
    rw [h] at hdots
    cases hdots
  have hdot : isDot b.cursor.p = false := by
    simp only [isDotDot, Bool.and_eq_true, decide_eq_true_eq] at hdots
    rcases hd : b.cursor.p.drop 1 with _ | ⟨d, rest⟩
    · rw [hd] at hdots
      exact absurd hdots.1.2 (by simp [List.head?_nil])
    rw [hd, List.head?_cons, Option.some.injEq] at hdots
    simp [isDot, hd, hdots.1.2, List.head?_cons]
  have hat : (atRoot rootPath b.cursor.out || decide (b.cursor.out = [])) = true := by
    rw [Bool.or_eq_true, decide_eq_true_eq]
    by_cases hS : S = []
    · exact .inr (hout.trans hS)
    refine .inl ?_
    simp [atRoot, hroot, hout, hS]
  rw [turn, if_neg hp, if_neg (by rw [hdot]; exact Bool.false_ne_true), if_pos hdots, dotDot,
    if_pos (by rw [hb, hat]; rfl)]

/-- An absolute link met by an `N_BENEATH` walk is refused. -/
theorem absolute_beneath (hplain : Plain w) (hb : b.flags.beneath = true)
    (hm : MeetsLink w b text) (habs : text.head? = some '/') :
    turn w rootPath b.flags b.left b.cursor =
      .ret (fail (if b.flags.noSymlinks = true ∨ b.left = 0 then .eloop else .exdev)) := by
  rcases turn_meetsLink rootPath hm with ⟨f, hf, hturn⟩
  rw [hturn]
  simp only [follow, hplain _ _ hf, Bool.false_and, Bool.false_eq_true, if_false, Bool.not_false,
    true_and, habs, hb]
  by_cases hn : b.flags.noSymlinks = true
  · rw [if_pos hn, if_pos (.inl hn)]
  rw [if_neg hn]
  by_cases hl : b.left = 0
  · rw [if_pos hl, if_pos (.inr hl)]
  rw [if_neg hl, if_neg (Nat.not_le.mpr hm.short), if_neg (not_or.mpr ⟨hn, hl⟩)]
  simp

/-- Root confinement. A path that is returned lies under the process's root,
    and under the starting directory if that is the root of the walk. With
    `N_BENEATH` an absolute path, a double dot at the starting directory and an
    absolute link are refused. -/
theorem path_normalize_confined (hplain : Plain w) (hroot : fs.root = some r) (hr : OpenedAt w r R)
    (hstart : startingDir fs at_ = some s) (hs : OpenedAt w s S) (hbelow : Below R S)
    (hreal : flags.realroot = false) :
    (∀ out, pathNormalize w (some fs) at_ path flags = .ok out → Below R out) ∧
    (flags.inRoot = true ∨ flags.beneath = true →
      ∀ out, pathNormalize w (some fs) at_ path flags = .ok out → Below S out) ∧
    (flags.beneath = true →
      (path.head? = some '/' → pathNormalize w (some fs) at_ path flags = fail .exdev) ∧
      ∀ rootPath b, Visits w fs at_ path flags rootPath b →
        (isDotDot b.cursor.p = true → b.cursor.out = S →
          pathNormalize w (some fs) at_ path flags = fail .exdev) ∧
        (∀ text, MeetsLink w b text → text.head? = some '/' →
          pathNormalize w (some fs) at_ path flags =
            fail (if flags.noSymlinks = true ∨ b.left = 0 then .eloop else .exdev))) := by
  have hat : at_ ≠ .null := by
    rintro rfl
    cases hstart
  refine ⟨fun out h => root_confined hplain hroot hr hstart hs hbelow hreal h,
    fun hin out h => scoped_confined hplain hroot hstart hs hreal (by simpa using hin) h,
    fun hb => ⟨fun habs => ?_, fun rootPath b hv => ?_⟩⟩
  · have hne : path ≠ [] := by
      rintro rfl
      cases habs
    have hprep : prepare fs at_ path flags = .error (.errno .exdev) := by
      simp [prepare, if_neg hne, hb, habs]
    rw [pathNormalize_eq hat, hprep]
    rfl
  · rcases hv with ⟨atPath, c, tr, hprep, henter, hrun⟩
    have hvisits : Visits w fs at_ path flags rootPath b := ⟨atPath, c, tr, hprep, henter, hrun⟩
    -- The flags of the walker are those of the call.
    rcases flags_run hplain hrun with ⟨d, hflags⟩
    have hbb : b.flags.beneath = true := by rw [hflags]; exact hb
    have hnn : b.flags.noSymlinks = flags.noSymlinks := by rw [hflags]
    refine ⟨fun hdots hout => visits_error hat hvisits ?_, fun text hm habs => ?_⟩
    · refine dotDot_beneath hbb ?_ hout hdots
      rcases prepare_ok hroot hstart hreal hprep with ⟨rp, ap, rfl, rfl, ⟨-, hrp, -⟩ | ⟨hf, -⟩⟩
      · cases Except.ok.inj (hs.getpath.symm.trans hrp)
        exact trimRoot_shown hs.normal
      rw [hb, Bool.or_true] at hf
      cases hf
    · rw [← hnn]
      exact visits_error hat hvisits (absolute_beneath hplain hbb hm habs)

end

/-- A tree with a jail in it and, in the jail, a link that climbs and a link
    that starts at the root. -/
def jailTree : World where
  find q := some
    { trimmed := q
      procfs := false
      link :=
        if q = "/jail/up".toList then some "../../etc".toList
        else if q = "/jail/abs".toList then some "/etc".toList
        else none
      stat := .ok ⟨true, true, true⟩ }
  mountId _ := some 0

/-- A process whose root and working directory are the jail. -/
def jailed : FsInfo :=
  let jail : Dirfd := ⟨.ok "/jail".toList, some ⟨true, true, true⟩⟩
  ⟨some jail, some jail⟩

theorem jail_opened (d : Dirfd) (h : d.getpath = .ok "/jail".toList) :
    OpenedAt jailTree d "/jail".toList where
  getpath := h
  normal := by
    refine ⟨["jail".toList], rfl, fun x hx => ?_⟩
    rw [mem_singleton.mp hx, ProperName, IsName]
    decide
  linkFree := by
    intro q hq
    show (if q = "/jail/up".toList then some "../../etc".toList
      else if q = "/jail/abs".toList then some "/etc".toList else none) = none
    rw [if_neg, if_neg]
    · rintro rfl
      exact absurd hq (by decide)
    rintro rfl
    exact absurd hq (by decide)
  short := by decide

theorem path_normalize_confined_jail :
    pathNormalize jailTree (some jailed) .pwd "up".toList { symlinkFollow := true } =
        .ok "/jail/etc".toList ∧
      Below "/jail".toList "/jail/etc".toList := by
  have hout : pathNormalize jailTree (some jailed) .pwd "up".toList { symlinkFollow := true } =
      .ok "/jail/etc".toList := by decide +kernel
  refine ⟨hout, ?_⟩
  exact (path_normalize_confined (by rintro q f ⟨⟩; rfl) rfl (jail_opened _ rfl) rfl
    (jail_opened _ rfl) (below_refl _) rfl).1 _ hout

/-- With `N_NO_SYMLINKS` as well, the link is refused for being one. -/
theorem absolute_link_eloop :
    linkAt jailTree "/jail/abs".toList = some "/etc".toList ∧
    pathNormalize jailTree (some jailed) .pwd "abs".toList
      { symlinkFollow := true, beneath := true } = fail .exdev ∧
    pathNormalize jailTree (some jailed) .pwd "abs".toList
      { symlinkFollow := true, beneath := true, noSymlinks := true } = fail .eloop := by
  decide +kernel

end IshAok.Path
