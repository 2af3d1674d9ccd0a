import IshAok.Theory.Path.Confine

/-!
# The Reference Walk

What resolving a path is for, said without buffers and without starting over:
a component walk over a tree of directories, files and symlinks. The walk
keeps one current directory. A double dot drops its last name, except at the
root of the walk. A symlink is replaced by its text, walked from the directory
that holds it or from the root, with the rest of the path behind it. The last
name is replaced only for a caller that follows it or with a slash behind it.

A directory that a name of the path leads into has to be one, and has to be
searchable, if there is another name behind it. A slash behind the last name
asks for a directory if anything is there. A relative path asks for search
permission on the directory it starts from.

Next to its answer the walk lists the strings it spells on the way: each path
it comes to, each link's text behind the directory that holds it, and each
path with a text spliced into it.

## Main definitions

* `Tree`: A tree of directories, files and symlinks.
* `Shows`: The mounts answer as the tree says.
* `refNames`: The reference walk up to a link, with the strings it spells.
* `refWalk`: The reference walk through a number of links.
* `refNormalize`: The resolution of a path by the reference walk.
* `treeOf`, `worldOf`: The tree of a list of nodes, and a mount that holds it.

## Theorems

* `isDir_of_append`: What lies on the way to a directory is one.
* `staging_zero`: Without a staging directory no directory is in one.
* `atRoot_iff`: Where a double dot stays.
* `shows_worldOf`: The mount of a list answers as its tree says.
-/

namespace IshAok.Path

open Base List

/-- What a name in a tree stands for. -/
inductive Node
  | dir (search writable : Bool)
  | file
  | link (text : Text)
  deriving DecidableEq

/-- A tree, by the names that lead to each node. What has a node in it is a directory. -/
structure Tree where
  node : List Text → Option Node
  proper : ∀ names n, node names = some n → ∀ x ∈ names, ProperName x
  root : ∃ search writable, node [] = some (.dir search writable)
  parent : ∀ d x n, node (d ++ [x]) = some n →
    ∃ search writable, node d = some (.dir search writable)

/-- The names lead to a directory. -/
def Tree.IsDir (t : Tree) (names : List Text) : Prop :=
  ∃ search writable, t.node names = some (.dir search writable)

/-- The name of the staging directory. -/
def stagingName : Text := mountStagingDir.drop 1

/-- The text of the symlink the names lead to. -/
def Tree.link (t : Tree) (names : List Text) : Option Text :=
  match t.node names with
  | some (.link text) => some text
  | _ => none

/-- What `stat` reports for the names. -/
def Tree.stat (t : Tree) (names : List Text) : Except Errno Stat :=
  match t.node names with
  | none => .error .enoent
  | some (.dir search writable) => .ok ⟨true, search, writable⟩
  | some _ => .ok ⟨false, false, false⟩

/-- The mounts answer as the tree says, and none of them is procfs. -/
def Shows (w : World) (t : Tree) : Prop :=
  ∀ names, (∀ x ∈ names, ProperName x) →
    ∃ f, w.find (joinPath names) = some f ∧ f.procfs = false ∧ pathIsNormalized f.trimmed = true ∧
      f.link = t.link names ∧ f.stat = t.stat names

/-- The descriptor is open on the directory the names lead to. -/
structure Opens (t : Tree) (d : Dirfd) (names : List Text) : Prop where
  getpath : d.getpath = .ok (shown (joinPath names))
  fstat : ∃ search writable, t.node names = some (.dir search writable) ∧
    d.fstat = some ⟨true, search, writable⟩

/-- An answer of the reference walk, with the strings spelled on the way. -/
structure Walked where
  strings : List Text
  answer : Except Errno (List Text)
  deriving DecidableEq

/-- One more string has been spelled. -/
def Walked.spelling (s : Text) (r : Walked) : Walked :=
  { r with strings := s :: r.strings }

/-- What stands behind a name, with one slash for a run of them. -/
def remainder (after : Text) : Text :=
  if after = [] then [] else '/' :: skipSlashes after

/-- The directory a link's text is walked from. -/
def linkBase (root cur : List Text) (text : Text) : List Text :=
  if text.head? = some '/' then root else cur

/-- The path with a link's text spliced into it. -/
def linkPath (cur : List Text) (text after : Text) : Text :=
  (if text.head? = some '/' then text else joinPath cur ++ '/' :: text) ++ remainder after

/-- The reference walk from the directory `cur` along the text `rest`. `again`
    is the walk that goes on behind a link, if one may be followed. -/
def refNames (t : Tree) (root : List Text) (follow : Bool)
    (again : Option (List Text → Text → Walked)) (cur : List Text) (rest : Text) : Walked :=
  if _h : skipSlashes rest = [] then ⟨[], .ok cur⟩
  else
    let x := nameOf (skipSlashes rest)
    let after := afterName (skipSlashes rest)
    if x = ['.'] then refNames t root follow again cur after
    else if x = ['.', '.'] then
      refNames t root follow again (if cur = root then cur else cur.dropLast) after
    else
      Walked.spelling (joinPath (cur ++ [x])) (match t.node (cur ++ [x]) with
        | some (.link text) =>
          if follow = true ∨ after ≠ [] then
            match again with
            | none => ⟨[], .error .eloop⟩
            | some walk =>
              (walk (linkBase root cur text) (text ++ remainder after)).spelling
                (linkPath cur text after) |>.spelling (joinPath cur ++ '/' :: text)
          else ⟨[], .ok (cur ++ [x])⟩
        | some (.dir search _) =>
          if skipSlashes after ≠ [] ∧ search = false then ⟨[], .error .eacces⟩
          else refNames t root follow again (cur ++ [x]) after
        | some .file =>
          if after ≠ [] then ⟨[], .error .enotdir⟩ else ⟨[], .ok (cur ++ [x])⟩
        | none =>
          if skipSlashes after ≠ [] then ⟨[], .error .enoent⟩ else ⟨[], .ok (cur ++ [x])⟩)
  termination_by rest.length
  decreasing_by all_goals exact afterName_length_lt _h

/-- The reference walk that may follow `links` more links. -/
def refWalk (t : Tree) (root : List Text) (follow : Bool) : Nat → List Text → Text → Walked
  | 0 => refNames t root follow none
  | links + 1 => refNames t root follow (some (refWalk t root follow links))

/-- The walk behind a link, for a walk that may follow `links` of them. -/
def refAgain (t : Tree) (root : List Text) (follow : Bool) :
    Nat → Option (List Text → Text → Walked)
  | 0 => none
  | links + 1 => some (refWalk t root follow links)

theorem refWalk_eq (t : Tree) (root : List Text) (follow : Bool) (links : Nat) :
    refWalk t root follow links = refNames t root follow (refAgain t root follow links) := by
  cases links <;> rfl

/-- The directory is searchable. -/
def Tree.searchable (t : Tree) (names : List Text) : Bool :=
  match t.node names with
  | some (.dir search _) => search
  | _ => false

/-- The resolution of a path: from the root if it is absolute, from the
    starting directory, which has to be searchable, if it is not. -/
def refNormalize (t : Tree) (root start : List Text) (follow : Bool) (path : Text) : Walked :=
  if path = [] then ⟨[], .error .enoent⟩
  else if path.head? = some '/' then refWalk t root follow maxSymlinks root path
  else if t.searchable start = false then ⟨[], .error .eacces⟩
  else refWalk t root follow maxSymlinks start path

/-- The answer as `path_normalize` gives it. -/
def Walked.shownAnswer (r : Walked) : Answer :=
  match r.answer with
  | .ok names => .ok (joinPath names)
  | .error e => fail e

/-! ### Trees and their spelling -/

theorem pathIsNormalized_joinPath {names : List Text} (h : ∀ x ∈ names, IsName x) :
    pathIsNormalized (joinPath names) = true := by
  induction names with
  | nil => rw [joinPath_nil, pathIsNormalized]
  | cons x names ih =>
    have hx := h x mem_cons_self
    have hhead : (x ++ joinPath names).head? ≠ some '/' := by
      cases x with
      | nil => exact absurd rfl hx.1
      | cons d x =>
        rw [cons_append, List.head?_cons, ne_eq, Option.some.injEq]
        exact fun hd => hx.2 (hd ▸ mem_cons_self)
    have hafter : (x ++ joinPath names).dropWhile (fun c => decide (c ≠ '/')) = joinPath names :=
      afterName_append hx.2 (ended_joinPath names)
    rw [joinPath_cons, pathIsNormalized, if_neg (not_not.mpr rfl), if_neg hhead, hafter]
    exact ih fun y hy => h y (mem_cons_of_mem _ hy)

section

variable {t : Tree} {cur : List Text}

theorem isDir_of_append (a b : List Text) (h : t.IsDir (a ++ b)) : t.IsDir a := by
  induction b generalizing a with
  | nil => rwa [append_nil] at h
  | cons x b ih =>
    have hx : t.IsDir (a ++ [x]) := ih (a ++ [x]) (by rwa [append_assoc])
    rcases hx with ⟨s, wr, hn⟩
    exact t.parent _ _ _ hn

theorem isDir_dropLast (h : t.IsDir cur) : t.IsDir cur.dropLast := by
  rcases eq_nil_or_concat cur with rfl | ⟨init, x, rfl⟩
  · exact h
  · rw [concat_eq_append] at h ⊢
    rw [dropLast_concat]
    exact isDir_of_append _ _ h

theorem isDir_proper (h : t.IsDir cur) : ∀ x ∈ cur, ProperName x := by
  rcases h with ⟨s, wr, hn⟩
  exact t.proper _ _ hn

theorem isDir_names (h : t.IsDir cur) : ∀ x ∈ cur, IsName x :=
  fun x hx => (isDir_proper h x hx).1

/-- A directory of a tree without a staging directory is not in one. -/
theorem unstaged_head (hstage : ¬ t.IsDir [stagingName]) (h : t.IsDir cur) {x : Text}
    {names : List Text} (hcur : cur = x :: names) : x ≠ stagingName := by
  rintro rfl
  exact hstage (isDir_of_append _ names (by rw [singleton_append, ← hcur]; exact h))

theorem stagingDir_eq : mountStagingDir = joinPath [stagingName] := by decide

theorem stagingName_isName : IsName stagingName := by
  decide

section

variable (hstage : ¬ t.IsDir [stagingName])

include hstage

theorem unstaged (h : t.IsDir cur) : joinPath cur ≠ mountStagingDir := by
  intro heq
  have hcur := joinPath_inj (isDir_names h)
    (fun x hx => mem_singleton.mp hx ▸ stagingName_isName) heq
  exact hstage (hcur ▸ h)

theorem staging_zero (h : t.IsDir cur) : mountStagingPointLen (joinPath cur) = 0 := by
  refine if_pos ?_
  rw [Bool.or_eq_true, Bool.not_eq_true']
  right
  rw [Bool.eq_false_iff, ne_eq, isPrefixOf_iff_prefix]
  rintro ⟨u, hu⟩
  cases cur with
  | nil => cases hu
  | cons x names =>
    rw [joinPath_cons, stagingDir_eq, joinPath_cons, joinPath_nil, append_nil] at hu
    simp only [cons_append, append_assoc, nil_append, List.cons.injEq,
      true_and] at hu
    have hx := isDir_names h x mem_cons_self
    have hname := name_unique stagingName_isName.2 hx.2 (.inr ⟨u, rfl⟩) (ended_joinPath names) hu
    exact unstaged_head hstage h rfl hname.1.symm

theorem atRoot_iff {root : List Text} {rootPath : Option Text}
    (htrim : trimRoot rootPath = joinPath root) (hroot : t.IsDir root) (h : t.IsDir cur) :
    (joinPath cur = [] ∨ atRoot rootPath (joinPath cur) = true) ↔ cur = [] ∨ cur = root := by
  simp only [atRoot, staging_zero hstage h, htrim, ne_eq, not_true_eq_false, decide_false,
    Bool.false_and, Bool.or_false, Bool.and_eq_true, decide_eq_true_eq, joinPath_eq_nil]
  constructor
  · rintro (hc | ⟨-, hc⟩)
    · exact .inl hc
    · exact .inr (joinPath_inj (isDir_names h) (isDir_names hroot) hc)
  · rintro (hc | hc)
    · exact .inl hc
    · by_cases hr : root = []
      · exact .inl (hc.trans hr)
      · exact .inr ⟨hr, by rw [hc]⟩

end

end

/-! ### Trees from a list -/

variable (nodes : List (List Text × Node))

/-- The first entry of a list for the names. -/
def entryAt (names : List Text) : Option Node :=
  (nodes.find? fun e => e.1 = names).map Prod.snd

/-- The names lead to a directory of the list. -/
def hasDir (names : List Text) : Bool :=
  match entryAt nodes names with
  | some (.dir _ _) => true
  | _ => false

/-- A list of nodes is a tree if its names are proper and each node has a
    directory of the list around it. -/
def Treelike : Prop :=
  hasDir nodes [] = true ∧
    ∀ e ∈ nodes, (∀ x ∈ e.1, ProperName x) ∧ (e.1 ≠ [] → hasDir nodes e.1.dropLast = true)

instance (nodes : List (List Text × Node)) : Decidable (Treelike nodes) :=
  inferInstanceAs (Decidable (_ ∧ _))

theorem hasDir_iff {nodes : List (List Text × Node)} {names : List Text}
    (h : hasDir nodes names = true) :
    ∃ search writable, entryAt nodes names = some (.dir search writable) := by
  unfold hasDir at h
  split at h
  · next s wr hn => exact ⟨s, wr, hn⟩
  · cases h

theorem entryAt_mem {nodes : List (List Text × Node)} {names : List Text} {n : Node}
    (h : entryAt nodes names = some n) : (names, n) ∈ nodes := by
  rcases Option.map_eq_some_iff.mp h with ⟨e, he, rfl⟩
  have hname := List.find?_some he
  rw [decide_eq_true_eq] at hname
  rw [← hname]
  exact mem_of_find?_eq_some he

/-- The tree of a list of nodes. -/
def treeOf (h : Treelike nodes) : Tree where
  node := entryAt nodes
  proper names n hn := (h.2 _ (entryAt_mem hn)).1
  root := hasDir_iff h.1
  parent d x n hn := by
    have hd := (h.2 _ (entryAt_mem hn)).2 (append_ne_nil_of_right_ne_nil _
      (cons_ne_nil _ _))
    rw [dropLast_concat] at hd
    exact hasDir_iff hd

/-- One mount that holds the nodes of a list. -/
def worldOf : World where
  find q :=
    let node := (nodes.find? fun e => joinPath e.1 = q).map Prod.snd
    some
      { trimmed := q
        procfs := false
        link := match node with
          | some (.link text) => some text
          | _ => none
        stat := match node with
          | none => .error .enoent
          | some (.dir search writable) => .ok ⟨true, search, writable⟩
          | some _ => .ok ⟨false, false, false⟩ }
  mountId _ := some 0

/-- The mount answers as the tree says. -/
theorem shows_worldOf (h : Treelike nodes) :
    Shows (worldOf nodes) (treeOf nodes h) := by
  intro names hnames
  have hfind : (nodes.find? fun e => joinPath e.1 = joinPath names) =
      nodes.find? fun e => e.1 = names := by
    have hlist : ∀ e ∈ nodes, ∀ x ∈ e.1, IsName x := fun e he x hx => ((h.2 e he).1 x hx).1
    clear h
    induction nodes with
    | nil => rfl
    | cons e nodes ih =>
      have heq : joinPath e.1 = joinPath names ↔ e.1 = names :=
        ⟨joinPath_inj (hlist e mem_cons_self) fun x hx => (hnames x hx).1, fun h => by rw [h]⟩
      simp only [List.find?_cons, heq, ih fun e' he' => hlist e' (mem_cons_of_mem _ he')]
  refine ⟨_, rfl, rfl, pathIsNormalized_joinPath fun x hx => (hnames x hx).1, ?_, ?_⟩
  · rw [hfind]
    rfl
  · rw [hfind]
    rfl

end IshAok.Path
