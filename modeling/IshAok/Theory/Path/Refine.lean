import IshAok.Theory.Path.Reference
import Mathlib

/-!
# The Walk Refines the Reference Walk

The code follows a relative link by starting over: the path of the directory
that holds the link goes in front of the text, and everything is walked again
from the top. `rewalk` is that this has no effect where every directory of
that path can be searched, and `resolve_refWalk` that the code and the
reference walk then agree turn by turn.

What the second walk does ask for, and the reference walk does not, is search
permission on directories the path never named: those above the starting
directory and above the root. The comparison is therefore made where these can
be searched, or where no link has a relative text.

## Main definitions

* `Stands`: A cursor of the code stands where the reference walk does.
* `Searchable`: Every directory on the way can be searched.
* `Way`: Starting over cannot be refused.

## Theorems

* `rewalk`: Walking a searchable path again leads to its end.
* `resolve_refWalk`: The code's walk answers as the reference walk.
* `path_normalize_walk`: So does `path_normalize`.
-/

namespace IshAok.Path

open Base List

/-- The flags of a plain lookup. -/
def walkFlags (follow : Bool) : Flags :=
  { symlinkFollow := follow, symlinkNofollow := !follow }

/-- The cursor stands in the directory `cur`, at the text `rest`. -/
structure Stands (c : Cursor) (cur : List Text) (rest : Text) : Prop where
  out : c.out = joinPath cur
  n : c.n = maxPath - 1 - c.out.length
  p : c.p = skipSlashes rest

/-- Every directory on the way to the names, themselves included, can be searched. -/
def Searchable (t : Tree) (names : List Text) : Prop :=
  ∀ a b, names = a ++ b → a ≠ [] → ∃ writable, t.node a = some (.dir true writable)

/-- A walk may be started over on the way to the names, or never is. -/
def Way (t : Tree) (names : List Text) : Prop :=
  (∀ q text, t.node q = some (.link text) → text.head? = some '/') ∨ Searchable t names

/-! ### Turns of a cursor that stands in a directory -/

section

variable {w : World} {rootPath : Option Text} {flags : Flags} {left : Nat} {c : Cursor}
  {cur : List Text} {rest : Text}

theorem turn_end (hs : Stands c cur rest) (hend : skipSlashes rest = [])
    (hnames : ∀ x ∈ cur, IsName x) :
    turn w rootPath flags left c = .ret (.ok (joinPath cur)) := by
  rw [turn, if_pos (hs.p.trans hend), hs.out, pathIsNormalized_joinPath hnames, if_pos rfl]

/-- The text at the cursor is a name and what follows it. -/
theorem stands_split (hs : Stands c cur rest) :
    c.p = nameOf (skipSlashes rest) ++ afterName (skipSlashes rest) := by
  rw [nameOf_append_afterName, hs.p]

variable (w rootPath flags left) in
theorem turn_dot (hs : Stands c cur rest) (hx : nameOf (skipSlashes rest) = ['.']) :
    turn w rootPath flags left c = .next (c.skip 1) ∧ (c.skip 1).p.length < c.p.length ∧
      Stands (c.skip 1) cur (afterName (skipSlashes rest)) := by
  have hp := stands_split hs
  rw [hx] at hp
  have hdot : isDot c.p = true := by
    rw [hp]
    rcases ended_afterName (skipSlashes rest) with h | ⟨u, h⟩
    · rw [h]
      rfl
    · rw [h]
      rfl
  have hskip : (c.skip 1).p = skipSlashes (afterName (skipSlashes rest)) := by
    show skipSlashes (c.p.drop 1) = _
    rw [hp]
    rfl
  refine ⟨?_, ?_, hs.out, hs.n, hskip⟩
  · rw [turn, if_neg (by rw [hp]; exact cons_ne_nil _ _), if_pos hdot]
  · have hle := skipSlashes_length_le (afterName (skipSlashes rest))
    rw [hskip, hp, singleton_append, length_cons]
    omega

/-- The text at the cursor begins with a double dot. -/
theorem stands_dotDot (hs : Stands c cur rest) (hx : nameOf (skipSlashes rest) = ['.', '.']) :
    c.p ≠ [] ∧ isDot c.p = false ∧ isDotDot c.p = true ∧
      (c.skip 2).p = skipSlashes (afterName (skipSlashes rest)) ∧
      (c.skip 2).p.length < c.p.length := by
  have hp := stands_split hs
  rw [hx] at hp
  have hskip : (c.skip 2).p = skipSlashes (afterName (skipSlashes rest)) := by
    show skipSlashes (c.p.drop 2) = _
    rw [hp]
    rfl
  refine ⟨by rw [hp]; exact cons_ne_nil _ _, ?_, ?_, hskip, ?_⟩
  · rw [hp]
    rfl
  · rw [hp]
    rcases ended_afterName (skipSlashes rest) with h | ⟨u, h⟩
    · rw [h]
      rfl
    · rw [h]
      rfl
  · have hle := skipSlashes_length_le (afterName (skipSlashes rest))
    rw [hskip, hp]
    simp only [cons_append, nil_append, length_cons]
    omega

/-- A double dot of a plain lookup leads where the reference walk goes. -/
theorem turn_dotDot {t : Tree} {root : List Text} {f : Bool} (hstage : ¬ t.IsDir [stagingName])
    (htrim : trimRoot rootPath = joinPath root) (hroot : t.IsDir root) (hcur : t.IsDir cur)
    (hs : Stands c cur rest) (hx : nameOf (skipSlashes rest) = ['.', '.']) :
    ∃ c', turn w rootPath (walkFlags f) left c = .next c' ∧ c'.p.length < c.p.length ∧
      Stands c' (if cur = root then cur else cur.dropLast) (afterName (skipSlashes rest)) := by
  rcases stands_dotDot hs hx with ⟨hne, hdot, hdots, hskip, hlen⟩
  have hturn : turn w rootPath (walkFlags f) left c = dotDot w rootPath (walkFlags f) c := by
    rw [turn, if_neg hne, if_neg (by rw [hdot]; exact Bool.false_ne_true), if_pos hdots]
  have hiff := atRoot_iff hstage htrim hroot hcur
  rw [← hs.out] at hiff
  rcases dotDot_cases w rootPath (walkFlags f) c with hd | ⟨hr, -, hd⟩ | ⟨hr, hr', hd⟩
  · -- Neither flag that refuses a double dot is set.
    unfold dotDot walkFlags at hd
    simp only [Bool.false_and, Bool.false_eq_true, if_false] at hd
    split at hd <;> cases hd
  · refine ⟨_, hturn.trans hd, hlen, ?_⟩
    have hsame : (if cur = root then cur else cur.dropLast) = cur := by
      rcases hiff.mp hr with h | h
      · rw [h]
        split <;> rfl
      · exact if_pos h
    rw [hsame]
    exact ⟨hs.out, hs.n, hskip⟩
  · refine ⟨_, hturn.trans hd, hlen, ?_⟩
    have hcr : ¬ (cur = [] ∨ cur = root) := by
      rw [← hiff, not_or, Bool.not_eq_true]
      exact ⟨hr, hr'⟩
    rw [if_neg (fun h => hcr (Or.inr h))]
    refine ⟨?_, ?_, hskip⟩
    · rw [hs.out, dropLastName_joinPath (isDir_names hcur)]
    · show c.n + (c.out.length - (dropLastName c.out).length) = _
      have hn := hs.n
      show _ = (maxPath : Int) - 1 - (dropLastName c.out).length
      omega

/-- The component `k` is the name `x` written behind the directory `cur`, with
    `after` behind it. -/
structure Wrote (k : Component) (cur : List Text) (x after : Text) : Prop where
  parent : k.parent = joinPath cur
  out : k.out = joinPath (cur ++ [x])
  n : k.n = maxPath - 1 - k.out.length
  room : k.out.length + 1 < maxPath
  p : k.p = skipSlashes after
  slashed : k.slashed = true ↔ after ≠ []

theorem Wrote.stands {k : Component} {x after : Text} (h : Wrote k cur x after) :
    Stands k.cursor (cur ++ [x]) after :=
  { h with }

theorem Wrote.rest_eq {k : Component} {x after : Text} (h : Wrote k cur x after) :
    k.rest = remainder after := by
  unfold Component.rest remainder
  by_cases ha : after = []
  · have hs : ¬ k.slashed = true := fun hs => h.slashed.mp hs ha
    have hp : k.p = [] := by rw [h.p, ha]; rfl
    rw [if_neg (not_not.mpr hp), if_neg hs, if_pos ha]
  · rw [if_neg ha, h.p]
    split
    · rfl
    next hp =>
    rw [if_pos (h.slashed.mpr ha), not_not.mp hp]

variable (w rootPath flags left) in
/-- A cursor that stands at a name other than the two dots writes it. -/
theorem turn_name (hs : Stands c cur rest) (hne : skipSlashes rest ≠ [])
    (hdot : nameOf (skipSlashes rest) ≠ ['.']) (hdots : nameOf (skipSlashes rest) ≠ ['.', '.'])
    (hroom : (joinPath (cur ++ [nameOf (skipSlashes rest)])).length + 1 < maxPath) :
    turn w rootPath flags left c = enterName w rootPath flags left (component c) ∧
      (component c).cursor.p.length < c.p.length ∧
      Wrote (component c) cur (nameOf (skipSlashes rest)) (afterName (skipSlashes rest)) := by
  have hx : IsName (nameOf (skipSlashes rest)) := isName_nameOf hne
  have hafter := ended_afterName (skipSlashes rest)
  have hp := stands_split hs
  have hproper : ProperName (nameOf (skipSlashes rest)) := ⟨hx, hdot, hdots⟩
  have hlen : (joinPath (cur ++ [nameOf (skipSlashes rest)])).length =
      c.out.length + (nameOf (skipSlashes rest)).length + 1 := by
    rw [joinPath_snoc, ← hs.out, length_append, length_cons]
    omega
  have hn := hs.n
  have hk := component_name hp hx hafter (by omega)
  refine ⟨?_, ?_, ?_⟩
  · rw [turn, if_neg (by rw [hs.p]; exact hne), hp, isDot_name _ hproper,
      isDotDot_name hproper hafter, if_neg Bool.false_ne_true, if_neg Bool.false_ne_true]
  · have hle := skipSlashes_length_le (afterName (skipSlashes rest))
    have hpos := length_pos_iff.mpr hx.1
    rw [hk, hp, length_append]
    show (skipSlashes (afterName (skipSlashes rest))).length < _
    omega
  · have hout : (component c).out = joinPath (cur ++ [nameOf (skipSlashes rest)]) := by
      rw [hk, joinPath_snoc, ← hs.out]
      rfl
    refine ⟨by rw [hk]; exact hs.out, hout, ?_, by rw [hout]; exact hroom, by rw [hk], ?_⟩
    · rw [hout, hlen, hk]
      push_cast
      omega
    · rw [hk]
      simp only [Component.slashed, decide_eq_true_eq]
      exact slashed_name hx hafter

/-! ### What a plain lookup makes of a name -/

variable {t : Tree} {f : Bool} {k : Component} {x after text : Text}

/-- Nothing refuses a name of a plain lookup before it is looked up. -/
theorem enterName_plain (hk : Wrote k cur x after) (hunstaged : joinPath cur ≠ mountStagingDir) :
    enterName w rootPath (walkFlags f) left k =
      if f = true ∨ after ≠ [] then lookUp w rootPath (walkFlags f) left k
      else .next k.cursor := by
  have hn : k.n ≠ 0 := by
    have := hk.n
    have := hk.room
    omega
  have hlooked : lookedUp (walkFlags f) k = true ↔ f = true ∨ after ≠ [] := by
    simp only [lookedUp, walkFlags, Bool.not_false, Bool.and_true, Bool.or_eq_true, ne_eq,
      decide_eq_true_eq, hk.slashed, hk.p, or_assoc]
    refine or_congr_right ⟨?_, .inr⟩
    rintro (h | h)
    · rintro rfl
      exact h rfl
    · exact h
  rw [enterName, if_neg hn, if_neg (fun h => Bool.false_ne_true h.2.2.1),
    if_neg (fun h => hunstaged (hk.parent.symm.trans h.1)),
    if_neg (fun h => Bool.false_ne_true h.1), if_neg (fun h => Bool.false_ne_true h.2.2)]
  by_cases h : f = true ∨ after ≠ []
  · rw [if_pos (hlooked.mpr h), if_pos h]
  · rw [if_neg (fun hl => h (hlooked.mp hl)), if_neg h]

/-- A link of a plain lookup is replaced by its text. -/
theorem lookUp_link (hshow : Shows w t) (hk : Wrote k cur x after)
    (hnames : ∀ y ∈ cur ++ [x], ProperName y) (hlink : t.link (cur ++ [x]) = some text)
    (hstaging : mountStagingPointLen (joinPath cur) = 0)
    (htext : left ≠ 0 → (joinPath cur ++ '/' :: text).length + 1 < maxPath)
    (hpath : left ≠ 0 → (linkPath cur text after).length + 1 < maxPath) :
    lookUp w rootPath (walkFlags f) left k = if left = 0 then .ret (fail .eloop)
      else .expand ⟨if text.head? = some '/' then rootPath else none, linkPath cur text after,
        walkFlags f⟩ := by
  rcases hshow _ hnames with ⟨found, hfound, hproc, hnorm, hfl, -⟩
  have hroom := hk.room
  rw [lookUp, if_neg (by omega), hk.out, hfound]
  simp only [hnorm, Bool.not_true, Bool.false_eq_true, if_false, hfl, hlink]
  by_cases hl : left = 0
  · simp [follow, walkFlags, hproc, hl]
  have ht := htext hl
  have hp := hpath hl
  simp only [length_append, length_cons] at ht
  have htake : text.take (maxPath - (k.parent.length + 1)) = text := by
    refine take_of_length_le ?_
    rw [hk.parent]
    omega
  have hsplice : spliced (if text.head? = some '/' then text else joinPath cur ++ '/' :: text)
      k = .ok (linkPath cur text after) := by
    rw [linkPath, length_append] at hp
    rw [linkPath, ← hk.rest_eq]
    rw [← hk.rest_eq] at hp
    exact spliced_of_short (by omega)
  rw [htake]
  simp only [follow, walkFlags, hproc, Bool.false_and, Bool.false_eq_true, if_false, hl,
    Bool.not_false, and_false, false_and, hsplice, Bool.false_or, hk.parent, hstaging,
    ne_eq, not_true_eq_false, decide_false, Bool.and_false, and_true]
  rw [if_neg (by omega)]

variable (rootPath left f) in
/-- A name that is no link has to be a directory if a slash is behind it, and
    to be there and searchable if another name is. -/
theorem turn_noLink (hshow : Shows w t) (hunstaged : joinPath cur ≠ mountStagingDir)
    (hk : Wrote k cur x after) (hnames : ∀ y ∈ cur ++ [x], ProperName y)
    (hlink : t.link (cur ++ [x]) = none) :
    enterName w rootPath (walkFlags f) left k = if after ≠ [] then
        match t.stat (cur ++ [x]) with
        | .ok st =>
          if !st.isDir then .ret (fail .enotdir)
          else if skipSlashes after ≠ [] && !st.search then .ret (fail .eacces)
          else .next k.cursor
        | .error e => if skipSlashes after ≠ [] then .ret (fail e) else .next k.cursor
      else .next k.cursor := by
  rcases hshow _ hnames with ⟨found, hfound, -, hnorm, hfl, hstat⟩
  have hroom : ¬ maxPath ≤ k.out.length := by have := hk.room; omega
  rw [enterName_plain hk hunstaged, lookUp, if_neg hroom, hk.out, hfound]
  simp only [hnorm, Bool.not_true, Bool.false_eq_true, if_false, hfl, hlink, hstat, hk.p]
  by_cases ha : after = []
  · rw [if_neg (fun h => hk.slashed.mp h ha), if_neg (not_not.mpr ha), ite_self]
  · rw [if_pos (.inr ha), if_pos (hk.slashed.mpr ha)]
    refine Eq.trans ?_ (if_pos ha).symm
    cases t.stat (cur ++ [x]) <;> rfl

variable (rootPath left f) in
/-- A searchable directory is gone through. -/
theorem turn_dir {search writable : Bool} (hshow : Shows w t) (hstage : ¬ t.IsDir [stagingName])
    (hcur : t.IsDir cur) (hk : Wrote k cur x after)
    (hdir : t.node (cur ++ [x]) = some (.dir search writable))
    (hsearch : skipSlashes after = [] ∨ search = true) :
    enterName w rootPath (walkFlags f) left k = .next k.cursor := by
  have hlink : t.link (cur ++ [x]) = none := by rw [Tree.link, hdir]
  have hstat : t.stat (cur ++ [x]) = .ok ⟨true, search, writable⟩ := by rw [Tree.stat, hdir]
  rw [turn_noLink rootPath left f hshow (unstaged hstage hcur) hk (t.proper _ _ hdir) hlink, hstat]
  dsimp only
  split
  · rcases hsearch with h | h
    · simp [h]
    · simp [h]
  · rfl

/-- Walking a searchable path again leads to its end. -/
theorem rewalk (hshow : Shows w t) (hstage : ¬ t.IsDir [stagingName]) (todo : List Text)
    (done : List Text) (hdir : t.IsDir (done ++ todo)) (hsearch : Searchable t (done ++ todo))
    (hroom : (joinPath (done ++ todo)).length + 1 < maxPath) {tail : Text} (htail : Ended tail)
    (hs : Stands c done (joinPath todo ++ tail)) :
    ∃ c', resolve w rootPath left (walkFlags f) c = resolve w rootPath left (walkFlags f) c' ∧
      Stands c' (done ++ todo) tail := by
  induction todo generalizing done c with
  | nil =>
    refine ⟨c, rfl, ?_⟩
    rw [append_nil]
    exact hs
  | cons x todo ih =>
    have hnames := isDir_proper hdir
    have hx : ProperName x := hnames x (mem_append_right _ mem_cons_self)
    have hended := ended_joinPath_append todo htail
    have happ : done ++ x :: todo = (done ++ [x]) ++ todo := by
      rw [append_assoc, singleton_append]
    -- The text begins with the next name of the path.
    have hrest : skipSlashes (joinPath (x :: todo) ++ tail) = x ++ (joinPath todo ++ tail) := by
      rw [joinPath_cons, cons_append, skipSlashes_slash, append_assoc,
        skipSlashes_name _ hx.1]
    have hname : nameOf (skipSlashes (joinPath (x :: todo) ++ tail)) = x := by
      rw [hrest, nameOf_append hx.1.2 hended]
    have hafter : afterName (skipSlashes (joinPath (x :: todo) ++ tail)) =
        joinPath todo ++ tail := by
      rw [hrest, afterName_append hx.1.2 hended]
    have hne : skipSlashes (joinPath (x :: todo) ++ tail) ≠ [] := by
      rw [hrest]
      exact fun h => hx.1.1 (append_eq_nil_iff.mp h).1
    rcases hsearch (done ++ [x]) todo happ (append_ne_nil_of_right_ne_nil _
      (cons_ne_nil _ _)) with ⟨wr, hnode⟩
    have hlen : (joinPath (done ++ [x])).length + 1 < maxPath := by
      rw [happ, joinPath_append, length_append] at hroom
      omega
    rcases turn_name w rootPath (walkFlags f) left hs hne (hname.symm ▸ hx.2.1)
      (hname.symm ▸ hx.2.2) (hname.symm ▸ hlen) with ⟨hturn, hshort, hk⟩
    have hdirTurn := turn_dir rootPath left f hshow hstage (isDir_of_append _ _ hdir) hk
      (hname.symm ▸ hnode) (.inr rfl)
    have hstands := hk.stands
    rw [hname, hafter] at hstands
    rw [happ] at hdir hsearch hroom ⊢
    rcases ih (done ++ [x]) hdir hsearch hroom hstands with ⟨c', heq, hc'⟩
    exact ⟨c', (resolve_of_next (hturn.trans hdirTurn) hshort).trans heq, hc'⟩

/-- A walk that has written its last name returns it. -/
theorem resolve_last {c' : Cursor} (hturn : turn w rootPath flags left c = .next c')
    (hlen : c'.p.length < c.p.length) (hs : Stands c' (cur ++ [x]) after)
    (hafter : skipSlashes after = []) (hnames : ∀ y ∈ cur ++ [x], ProperName y) :
    resolve w rootPath left flags c = .ok (joinPath (cur ++ [x])) := by
  rw [resolve_of_next hturn hlen]
  exact resolve_of_ret (turn_end hs hafter (fun y hy => (hnames y hy).1))

/-- The cursor writes the name `x`, with `after` behind it, and looks it up. -/
structure Names (w : World) (rootPath : Option Text) (flags : Flags) (left : Nat) (c : Cursor)
    (cur : List Text) (x after : Text) : Prop where
  turn : turn w rootPath flags left c = enterName w rootPath flags left (component c)
  less : (component c).cursor.p.length < c.p.length
  wrote : Wrote (component c) cur x after
  unstaged : joinPath cur ≠ mountStagingDir
  proper : ∀ y ∈ cur ++ [x], ProperName y

/-- A name that leads nowhere may only be the last one. -/
theorem resolve_missing (hshow : Shows w t) (h : Names w rootPath (walkFlags f) left c cur x after)
    (hnode : t.node (cur ++ [x]) = none) :
    resolve w rootPath left (walkFlags f) c =
      if skipSlashes after ≠ [] then fail .enoent else .ok (joinPath (cur ++ [x])) := by
  have hlink : t.link (cur ++ [x]) = none := by rw [Tree.link, hnode]
  have hstat : t.stat (cur ++ [x]) = .error .enoent := by rw [Tree.stat, hnode]
  have hturn := h.turn
  rw [turn_noLink rootPath left f hshow h.unstaged h.wrote h.proper hlink, hstat] at hturn
  dsimp only at hturn
  by_cases hmore : skipSlashes after = []
  · rw [if_neg (not_not.mpr hmore), ite_self] at hturn
    rw [if_neg (not_not.mpr hmore)]
    exact resolve_last hturn h.less h.wrote.stands hmore h.proper
  · have hafter : after ≠ [] := fun h => hmore (by rw [h]; rfl)
    rw [if_pos hafter, if_pos hmore] at hturn
    rw [if_pos hmore]
    exact resolve_of_ret hturn

/-- A file has no slash behind it. -/
theorem resolve_file (hshow : Shows w t) (h : Names w rootPath (walkFlags f) left c cur x after)
    (hnode : t.node (cur ++ [x]) = some .file) :
    resolve w rootPath left (walkFlags f) c =
      if after ≠ [] then fail .enotdir else .ok (joinPath (cur ++ [x])) := by
  have hlink : t.link (cur ++ [x]) = none := by rw [Tree.link, hnode]
  have hstat : t.stat (cur ++ [x]) = .ok ⟨false, false, false⟩ := by rw [Tree.stat, hnode]
  have hturn := h.turn
  rw [turn_noLink rootPath left f hshow h.unstaged h.wrote h.proper hlink, hstat] at hturn
  by_cases hafter : after = []
  · rw [if_neg (not_not.mpr hafter)] at hturn ⊢
    exact resolve_last hturn h.less h.wrote.stands (by rw [hafter]; rfl) h.proper
  rw [if_pos hafter] at hturn ⊢
  exact resolve_of_ret hturn

/-- A directory that cannot be searched is not gone through. -/
theorem resolve_barred {writable : Bool} (hshow : Shows w t)
    (h : Names w rootPath (walkFlags f) left c cur x after)
    (hnode : t.node (cur ++ [x]) = some (.dir false writable)) (hmore : skipSlashes after ≠ []) :
    resolve w rootPath left (walkFlags f) c = fail .eacces := by
  have hlink : t.link (cur ++ [x]) = none := by rw [Tree.link, hnode]
  have hstat : t.stat (cur ++ [x]) = .ok ⟨true, false, writable⟩ := by rw [Tree.stat, hnode]
  have hafter : after ≠ [] := fun h => hmore (by rw [h]; rfl)
  have hturn := h.turn
  rw [turn_noLink rootPath left f hshow h.unstaged h.wrote h.proper hlink, hstat,
    if_pos hafter] at hturn
  simp only [Bool.not_true, Bool.false_eq_true, if_false, ne_eq, hmore, not_false_eq_true,
    decide_true, Bool.not_false, Bool.and_self, if_true] at hturn
  exact resolve_of_ret hturn

variable (w rootPath left f) in
/-- The call for a plain lookup of a path that is not empty. -/
theorem inner_plain (atPath : Option Text) {path : Text} (hpath : path ≠ []) :
    ∃ c, innerPathNormalize w rootPath atPath path (walkFlags f) left =
        resolve w rootPath left (walkFlags f) c ∧
      c.out = trimRoot atPath ∧ c.n = maxPath - 1 - c.out.length ∧ c.p = skipSlashes path := by
  have henter : ∃ c, enter (walkFlags f) atPath path = .ok c := by
    unfold enter walkFlags
    rw [if_neg (by cases f <;> simp), if_neg (by simp), if_neg hpath]
    exact ⟨_, rfl⟩
  rcases henter with ⟨c, hc⟩
  refine ⟨c, ?_, enter_ok hc⟩
  rw [innerPathNormalize, hc]

end

/-! ### The comparison -/

theorem searchable_snoc {t : Tree} {cur : List Text} {x : Text} {writable : Bool}
    (h : Searchable t cur) (hx : t.node (cur ++ [x]) = some (.dir true writable)) :
    Searchable t (cur ++ [x]) := by
  intro a b hab ha
  rcases eq_nil_or_concat b with rfl | ⟨init, y, rfl⟩
  · rw [append_nil] at hab
    exact ⟨writable, hab ▸ hx⟩
  · rw [concat_eq_append, ← append_assoc] at hab
    exact h a init (append_inj_left' hab rfl) ha

theorem way_dropLast {t : Tree} {cur : List Text} (h : Way t cur) : Way t cur.dropLast := by
  refine h.imp_right fun hs => ?_
  rcases eq_nil_or_concat cur with rfl | ⟨init, x, rfl⟩
  · exact hs
  · rw [concat_eq_append] at hs ⊢
    rw [dropLast_concat]
    intro a b hab ha
    exact hs a (b ++ [x]) (by rw [hab, append_assoc]) ha

@[simp] theorem shownAnswer_spelling (s : Text) (r : Walked) :
    (r.spelling s).shownAnswer = r.shownAnswer := rfl

section

variable {w : World} {t : Tree} {root : List Text} {rootPath : Option Text} {f : Bool}

/-- Following a link, the code comes to stand where the reference walk goes on. -/
theorem resolve_link {links : Nat} {c : Cursor} {cur : List Text} {text after : Text}
    (hshow : Shows w t) (hstage : ¬ t.IsDir [stagingName])
    (htrim : trimRoot rootPath = joinPath root) (hcur : t.IsDir cur)
    (hway : text.head? ≠ some '/' → Searchable t cur)
    (hpath : (linkPath cur text after).length + 1 < maxPath)
    (hturn : turn w rootPath (walkFlags f) (links + 1) c =
      .expand ⟨if text.head? = some '/' then rootPath else none, linkPath cur text after,
        walkFlags f⟩) :
    ∃ c', resolve w rootPath (links + 1) (walkFlags f) c =
        resolve w rootPath links (walkFlags f) c' ∧
      Stands c' (linkBase root cur text) (text ++ remainder after) := by
  have hne : linkPath cur text after ≠ [] := by
    unfold linkPath
    split
    · next habs =>
      cases text with
      | nil => cases habs
      | cons d text => exact cons_ne_nil _ _
    · exact fun h => append_ne_nil_of_right_ne_nil _ (cons_ne_nil _ _)
        (append_eq_nil_iff.mp h).1
  rw [resolve_of_expand hturn]
  rcases inner_plain w rootPath links f _ hne with ⟨c', heq, hout, hn, hp⟩
  rw [heq]
  by_cases habs : text.head? = some '/'
  · rw [if_pos habs, htrim] at hout
    rw [linkPath, if_pos habs] at hp
    rw [linkBase, if_pos habs]
    exact ⟨c', rfl, hout, hn, hp⟩
  · rw [if_neg habs] at hout
    rw [linkPath, if_neg habs, append_assoc] at hp hpath
    rw [linkBase, if_neg habs]
    have hroom : (joinPath ([] ++ cur)).length + 1 < maxPath := by
      rw [nil_append]
      rw [length_append] at hpath
      omega
    have hstands : Stands c' [] (joinPath cur ++ ('/' :: text ++ remainder after)) := ⟨hout, hn, hp⟩
    rcases rewalk hshow hstage cur [] hcur (hway habs) hroom (.inr ⟨_, rfl⟩) hstands with
      ⟨c'', heq', hs⟩
    refine ⟨c'', heq', hs.out, hs.n, ?_⟩
    rw [hs.p]
    exact skipSlashes_slash _

/-- The code's walk answers as the reference walk. -/
theorem resolve_refWalk (hshow : Shows w t) (hstage : ¬ t.IsDir [stagingName])
    (htrim : trimRoot rootPath = joinPath root) (hroot : t.IsDir root) (hrootWay : Way t root)
    (links : Nat) (cur : List Text) (rest : Text) (c : Cursor) (hcur : t.IsDir cur)
    (hway : Way t cur) (hs : Stands c cur rest)
    (hshort : ∀ s ∈ (refWalk t root f links cur rest).strings, s.length + 1 < maxPath) :
    resolve w rootPath links (walkFlags f) c = (refWalk t root f links cur rest).shownAnswer := by
  -- As the reference walk recurses: fewer links, or less text.
  induction links using Nat.strong_induction_on generalizing cur rest c with
  | _ links ihl =>
  induction hlen : rest.length using Nat.strong_induction_on generalizing cur rest c with
  | _ len ihr =>
  rw [refWalk_eq, refNames] at hshort ⊢
  by_cases hend : skipSlashes rest = []
  · rw [dif_pos hend]
    exact resolve_of_ret (turn_end hs hend (isDir_names hcur))
  rw [dif_neg hend] at hshort ⊢
  have hless : (afterName (skipSlashes rest)).length < len := hlen ▸ afterName_length_lt hend
  by_cases hdot : nameOf (skipSlashes rest) = ['.']
  · rw [if_pos hdot] at hshort ⊢
    rcases turn_dot w rootPath (walkFlags f) links hs hdot with ⟨hturn, hsmall, hstands⟩
    rw [← refWalk_eq] at hshort ⊢
    rw [resolve_of_next hturn hsmall]
    exact ihr _ hless cur _ _ hcur hway hstands hshort rfl
  rw [if_neg hdot] at hshort ⊢
  by_cases hdots : nameOf (skipSlashes rest) = ['.', '.']
  · rw [if_pos hdots] at hshort ⊢
    rcases turn_dotDot hstage htrim hroot hcur hs hdots with ⟨c', hturn, hsmall, hstands⟩
    rw [← refWalk_eq] at hshort ⊢
    rw [resolve_of_next hturn hsmall]
    refine ihr _ hless _ _ _ ?_ ?_ hstands hshort rfl
    · split
      · exact hcur
      · exact isDir_dropLast hcur
    · split
      · exact hway
      · exact way_dropLast hway
  rw [if_neg hdots] at hshort ⊢
  -- A name: it is written, and then its node decides.
  have hroom : (joinPath (cur ++ [nameOf (skipSlashes rest)])).length + 1 < maxPath :=
    hshort _ mem_cons_self
  have hx : ProperName (nameOf (skipSlashes rest)) := ⟨isName_nameOf hend, hdot, hdots⟩
  have hnames : ∀ y ∈ cur ++ [nameOf (skipSlashes rest)], ProperName y := by
    intro y hy
    rcases mem_append.mp hy with hy | hy
    · exact isDir_proper hcur y hy
    · rw [mem_singleton.mp hy]
      exact hx
  rcases turn_name w rootPath (walkFlags f) links hs hend hdot hdots hroom with
    ⟨hturn, hsmall, hk⟩
  have hat : Names w rootPath (walkFlags f) links c cur _ _ :=
    ⟨hturn, hsmall, hk, unstaged hstage hcur, hnames⟩
  have hshort' := fun s h => hshort s (mem_cons_of_mem _ h)
  cases hnode : t.node (cur ++ [nameOf (skipSlashes rest)]) with
  | none =>
    rw [resolve_missing hshow hat hnode]
    split <;> rfl
  | some node =>
  rw [hnode] at hshort'
  cases node with
  | file =>
    rw [resolve_file hshow hat hnode]
    split <;> rfl
  | dir search writable =>
    dsimp only at hshort' ⊢
    by_cases hmore : skipSlashes (afterName (skipSlashes rest)) = []
    · -- The last name.
      have hdirTurn := turn_dir rootPath links f hshow hstage hcur hk hnode (Or.inl hmore)
      rw [if_neg (fun h => h.1 hmore), refNames, dif_pos hmore]
      exact resolve_last (hturn.trans hdirTurn) hsmall hk.stands hmore hnames
    cases search with
    | false =>
      rw [if_pos ⟨hmore, rfl⟩, resolve_barred hshow hat hnode hmore]
      rfl
    | true =>
      have hdirTurn := turn_dir rootPath links f hshow hstage hcur hk hnode (Or.inr rfl)
      have hno : ¬ (skipSlashes (afterName (skipSlashes rest)) ≠ [] ∧ true = false) :=
        fun h => Bool.noConfusion h.2
      rw [if_neg hno, ← refWalk_eq] at hshort' ⊢
      rw [resolve_of_next (hturn.trans hdirTurn) hsmall]
      exact ihr _ hless _ _ _ ⟨true, writable, hnode⟩
        (hway.imp_right fun h => searchable_snoc h hnode) hk.stands hshort' rfl
  | link text =>
    have hlink : t.link (cur ++ [nameOf (skipSlashes rest)]) = some text := by
      rw [Tree.link, hnode]
    rw [enterName_plain hk hat.unstaged] at hturn
    dsimp only at hshort' ⊢
    by_cases hfollow : f = true ∨ afterName (skipSlashes rest) ≠ []
    · rw [if_pos hfollow] at hturn hshort' ⊢
      have hstaging := staging_zero hstage hcur
      cases links with
      | zero =>
        rw [lookUp_link hshow hk hnames hlink hstaging (fun h => absurd rfl h)
          (fun h => absurd rfl h), if_pos rfl] at hturn
        exact resolve_of_ret hturn
      | succ links =>
        have htext := hshort' _ mem_cons_self
        have hpath := hshort' _ (mem_cons_of_mem _ mem_cons_self)
        rw [lookUp_link hshow hk hnames hlink hstaging (fun _ => htext) (fun _ => hpath),
          if_neg (Nat.succ_ne_zero links)] at hturn
        have hsearch : text.head? ≠ some '/' → Searchable t cur := fun hrel =>
          hway.resolve_left fun habs => hrel (habs _ _ hnode)
        rcases resolve_link hshow hstage htrim hcur hsearch hpath hturn with ⟨c', heq, hs'⟩
        rw [heq]
        refine ihl links (Nat.lt_succ_self links) _ _ _ ?_ ?_ hs'
          (fun s h => hshort' s (mem_cons_of_mem _ (mem_cons_of_mem _ h)))
        · unfold linkBase
          split
          · exact hroot
          · exact hcur
        · unfold linkBase
          split
          · exact hrootWay
          · exact hway
    · -- The last name of a caller that does not follow it.
      rw [if_neg hfollow] at hturn ⊢
      have hafter : afterName (skipSlashes rest) = [] :=
        not_not.mp fun h => hfollow (Or.inr h)
      exact resolve_last hturn hsmall hk.stands (by rw [hafter]; rfl) hnames

/-- Nothing follows a plain lookup. -/
theorem bind_afterWalk (a : Answer) (path : Text) : a >>= afterWalk w (walkFlags f) path = a := by
  cases a <;> rfl

variable {names : List Text}

theorem pathIsNormalized_shown (h : ∀ x ∈ names, IsName x) :
    pathIsNormalized (shown (joinPath names)) = true := by
  unfold shown
  split
  · decide +kernel
  · exact pathIsNormalized_joinPath h

theorem Opens.isDir {d : Dirfd} (h : Opens t d names) : t.IsDir names := by
  rcases h.fstat with ⟨s, wr, hn, -⟩
  exact ⟨s, wr, hn⟩

theorem Opens.rootPathOf {d : Dirfd} {names : List Text} (h : Opens t d names) :
    rootPathOf (some d) = .ok (some (shown (joinPath names))) := by
  simp [Path.rootPathOf, h.getpath, pathIsNormalized_shown (isDir_names h.isDir)]

theorem trimRoot_shown_joinPath (h : t.IsDir names) :
    trimRoot (some (shown (joinPath names))) = joinPath names :=
  trimRoot_shown ⟨names, rfl, isDir_proper h⟩

/-- A plain lookup from a directory, once it may start there. -/
theorem normalize_from {root cur : List Text} {path : Text} (hshow : Shows w t)
    (hstage : ¬ t.IsDir [stagingName]) (hroot : t.IsDir root) (hrootWay : Way t root)
    (hcur : t.IsDir cur) (hway : Way t cur) (hpath : path ≠ [])
    (hshort : ∀ s ∈ (refWalk t root f maxSymlinks cur path).strings, s.length + 1 < maxPath) :
    innerPathNormalize w (some (shown (joinPath root))) (some (shown (joinPath cur))) path
        (walkFlags f) maxSymlinks >>= afterWalk w (walkFlags f) path =
      (refWalk t root f maxSymlinks cur path).shownAnswer := by
  rw [bind_afterWalk]
  rcases inner_plain w (some (shown (joinPath root))) maxSymlinks f (some (shown (joinPath cur)))
    hpath with ⟨c, heq, hout, hn, hp⟩
  rw [trimRoot_shown_joinPath hcur] at hout
  rw [heq]
  exact resolve_refWalk hshow hstage (trimRoot_shown_joinPath hroot) hroot hrootWay _ _ _ _ hcur
    hway ⟨hout, hn, hp⟩ hshort

/-- Path resolution is the reference walk, in a tree without a staging
    directory and as long as every string is shorter than `MAX_PATH - 1`,
    where no link is relative or the directories on the way to the root and to
    the starting directory can be searched. -/
theorem path_normalize_walk {fs : FsInfo} {at_ : At} {r s : Dirfd} {root start : List Text}
    {path : Text} (hshow : Shows w t) (hstage : ¬ t.IsDir [stagingName]) (hroot : fs.root = some r)
    (hr : Opens t r root) (hstart : startingDir fs at_ = some s) (hs : Opens t s start)
    (hway : (∀ q text, t.node q = some (.link text) → text.head? = some '/') ∨
      (Searchable t root ∧ Searchable t start.dropLast))
    (hshort : ∀ q ∈ (refNormalize t root start f path).strings, q.length + 1 < maxPath) :
    pathNormalize w (some fs) at_ path (walkFlags f) =
      (refNormalize t root start f path).shownAnswer := by
  have hat : at_ ≠ .null := by
    rintro rfl
    cases hstart
  have hrootWay : Way t root := hway.imp_right And.left
  rw [pathNormalize_eq hat]
  unfold refNormalize at hshort ⊢
  by_cases hpath : path = []
  · simp only [prepare, hpath, if_true]
    rfl
  rw [if_neg hpath] at hshort ⊢
  by_cases habs : path.head? = some '/'
  · -- The walk starts at the root, whatever its mode.
    rw [if_pos habs] at hshort ⊢
    rcases hr.fstat with ⟨search, writable, -, hstat⟩
    have hstartPath : startPath r path false = .ok (shown (joinPath root)) := by
      simp [startPath, hr.getpath, pathIsNormalized_shown (isDir_names hr.isDir), hstat]
    have hprep : prepare fs at_ path (walkFlags f) =
        .ok (some (shown (joinPath root)), some (shown (joinPath root))) := by
      simp only [prepare, walkFlags, hpath, habs, hroot, Bool.or_self, Bool.not_false,
        decide_true, Bool.and_self, Bool.false_eq_true, if_false, if_true, Bool.false_and,
        Bool.not_true, hstartPath, hr.rootPathOf]
      rfl
    rw [hprep]
    exact normalize_from hshow hstage hr.isDir hrootWay hr.isDir hrootWay hpath hshort
  · rw [if_neg habs] at hshort ⊢
    rcases hs.fstat with ⟨search, writable, hnode, hstat⟩
    have hsearch : t.searchable start = search := by rw [Tree.searchable, hnode]
    have hskip : skipSlashes path ≠ [] := by
      cases path with
      | nil => exact absurd rfl hpath
      | cons d path =>
        rw [List.head?_cons, Option.some.injEq] at habs
        rw [skipSlashes_of_ne _ habs]
        exact cons_ne_nil _ _
    have hstartPath : startPath s path true =
        if search = false then .error (.errno .eacces) else .ok (shown (joinPath start)) := by
      simp only [startPath, hs.getpath, pathIsNormalized_shown (isDir_names hs.isDir), hstat,
        Bool.not_true, Bool.false_eq_true, if_false, Bool.and_false, ne_eq, hskip,
        not_false_eq_true, decide_true, Bool.true_and, Bool.not_eq_eq_eq_not, Bool.not_true]
    rw [hsearch] at hshort ⊢
    cases search with
    | false =>
      have hprep : prepare fs at_ path (walkFlags f) = .error (.errno .eacces) := by
        simp [prepare, walkFlags, hpath, habs, hstart, hstartPath]
      rw [hprep, if_pos rfl]
      rfl
    | true =>
      have hprep : prepare fs at_ path (walkFlags f) =
          .ok (some (shown (joinPath root)), some (shown (joinPath start))) := by
        simp only [prepare, walkFlags, hpath, habs, hroot, hstart, Bool.or_self, Bool.not_false,
          decide_false, Bool.and_false, Bool.false_eq_true, if_false, Bool.or_false, hstartPath,
          Bool.true_eq_false, hr.rootPathOf]
        rfl
      have hstartWay : Way t start := by
        refine hway.imp_right fun h => ?_
        rcases eq_nil_or_concat start with rfl | ⟨init, x, rfl⟩
        · exact h.2
        · rw [concat_eq_append] at h hnode ⊢
          rw [dropLast_concat] at h
          exact searchable_snoc h.2 hnode
      rw [hprep]
      exact normalize_from hshow hstage hr.isDir hrootWay hs.isDir hstartWay hpath hshort

end

/-! ### A lookup, and where lookups differ -/

/-- A directory with a link in it that leads to its parent. -/
def climbNodes : List (List Text × Node) :=
  [([], .dir true true), (["a".toList], .dir true true), (["a".toList, "b".toList], .dir true true),
    (["a".toList, "b".toList, "l".toList], .link "../x".toList)]

/-- A directory with a link in it, below a directory that cannot be searched. -/
def barredNodes : List (List Text × Node) :=
  [([], .dir true true), (["a".toList], .dir false true),
    (["a".toList, "b".toList], .dir true true),
    (["a".toList, "b".toList, "l".toList], .link "x".toList)]

/-- A file in a directory with the name of the staging directory. -/
def stagedNodes : List (List Text × Node) :=
  [([], .dir true true), ([stagingName], .dir true true), ([stagingName, "x".toList], .file)]

/-- A process at the real root that works in the directory the names lead to. -/
def workingIn (names : List Text) : FsInfo :=
  ⟨some ⟨.ok ['/'], some ⟨true, true, true⟩⟩,
    some ⟨.ok (shown (joinPath names)), some ⟨true, true, true⟩⟩⟩

theorem climb_tree : Treelike climbNodes := by decide

theorem barred_tree : Treelike barredNodes := by decide

theorem staged_tree : Treelike stagedNodes := by decide

theorem path_normalize_walk_climb :
    pathNormalize (worldOf climbNodes) (some (workingIn ["a".toList, "b".toList])) .pwd
        "l".toList (walkFlags true) = .ok "/a/x".toList := by
  have hsearch : Searchable (treeOf climbNodes climb_tree) [] := by
    intro a b hab ha
    exact absurd (append_eq_nil_iff.mp hab.symm).1 ha
  have hone : Searchable (treeOf climbNodes climb_tree) ["a".toList] :=
    searchable_snoc hsearch
      (show (treeOf climbNodes climb_tree).node ([] ++ ["a".toList]) = some (.dir true true)
        from rfl)
  have hdir : Opens (treeOf climbNodes climb_tree) ⟨.ok "/a/b".toList, some ⟨true, true, true⟩⟩
      ["a".toList, "b".toList] := ⟨rfl, true, true, rfl, rfl⟩
  rw [path_normalize_walk (shows_worldOf climbNodes climb_tree) (by rintro ⟨s, wr, h⟩; cases h) rfl
    ⟨rfl, true, true, rfl, rfl⟩ rfl hdir (.inr ⟨hsearch, hone⟩) (by decide +kernel)]
  decide +kernel

/-- A name that leads nowhere is where its walk ends. -/
theorem refNormalize_name {t : Tree} {root start : List Text} {f : Bool} {x : Text}
    (hx : ProperName x) (hsearch : t.searchable start = true)
    (hnode : t.node (start ++ [x]) = none) :
    refNormalize t root start f x = ⟨[joinPath (start ++ [x])], .ok (start ++ [x])⟩ := by
  have hskip : skipSlashes x = x := by
    have h := skipSlashes_name [] hx.1
    rwa [append_nil] at h
  have hname : nameOf x = x := by
    have h := nameOf_append hx.1.2 (.inl rfl : Ended [])
    rwa [append_nil] at h
  have hafter : afterName x = [] := by
    have h := afterName_append hx.1.2 (.inl rfl : Ended [])
    rwa [append_nil] at h
  have hhead : x.head? ≠ some '/' := fun h => hx.1.2 (mem_of_head? h)
  rw [refNormalize, if_neg hx.1.1, if_neg hhead, hsearch, if_neg (by exact Bool.noConfusion),
    refWalk_eq, refNames, hskip, dif_neg hx.1.1]
  simp only [hname, hafter, if_neg hx.2.1, if_neg hx.2.2, hnode, skipSlashes_nil, ne_eq,
    not_true_eq_false, if_false]
  rfl

/-- Where the walks differ: below the staging directory nothing is found, a
    relative link is refused for a directory above the starting one, and a
    string one byte short of `MAX_PATH` does not fit. -/
theorem walks_differ :
    (pathNormalize (worldOf stagedNodes) (some (workingIn [])) .pwd "/.ish-fsmount/x".toList
        (walkFlags true) = fail .enoent ∧
      (refNormalize (treeOf stagedNodes staged_tree) [] [] true
        "/.ish-fsmount/x".toList).answer = .ok [stagingName, "x".toList]) ∧
    (pathNormalize (worldOf barredNodes) (some (workingIn ["a".toList, "b".toList])) .pwd
        "l".toList (walkFlags true) = fail .eacces ∧
      (refNormalize (treeOf barredNodes barred_tree) [] ["a".toList, "b".toList] true
        "l".toList).answer = .ok ["a".toList, "b".toList, "x".toList]) ∧
    (pathNormalize (worldOf climbNodes) (some (workingIn [])) .pwd (List.replicate 4094 'z')
        (walkFlags true) = fail .enametoolong ∧
      refNormalize (treeOf climbNodes climb_tree) [] [] true (List.replicate 4094 'z') =
        ⟨['/' :: List.replicate 4094 'z'], .ok [List.replicate 4094 'z']⟩ ∧
      ('/' :: List.replicate 4094 'z').length < maxPath) := by
  refine ⟨⟨?_, ?_⟩, ⟨?_, ?_⟩, ?_, ?_, ?_⟩
  · decide +kernel
  · decide +kernel
  · decide +kernel
  · decide +kernel
  · decide +kernel
  · have hx : ProperName (List.replicate 4094 'z') := by decide +kernel
    have hnode : (treeOf climbNodes climb_tree).node ([] ++ [List.replicate 4094 'z']) = none := by
      decide +kernel
    rw [refNormalize_name hx (by decide) hnode, nil_append, joinPath_cons, joinPath_nil,
      append_nil]
  · rw [length_cons, length_replicate]
    decide

end IshAok.Path
