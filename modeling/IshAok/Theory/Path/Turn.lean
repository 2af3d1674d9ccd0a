import IshAok.Core.Path

/-!
# What One Turn of the Walk Does

The outcomes of `turn`, said once, and the walk as a run of turns. A turn that
goes on has skipped a dot, has stayed at the root or dropped the last name for
a double dot, or has written a name. A turn that follows a link replaces the
call by one whose path is the link's text with the rest of the path behind it,
started at the root for an absolute text and at the very top for a relative
one.

`answer_run` is that the answer of a walk is the answer from any walker it
comes to, and `run_of_answer` that a path is returned only by a walker that
has come to the end of its text.

## Main definitions

* `linkAt`: The text of the symlink at a path.
* `Plain`: A world without procfs.
* `LooksUp`: The next turn looks a name up.

## Theorems

* `copyName_name`: A name that fits is copied whole.
* `turn_next`: What a turn that goes on has done.
* `turn_expand`: The call a followed link is replaced by.
* `answer_run`: The answer is the same from every walker of a run.
* `run_of_answer`: A returned path is what a finished walker has written.
-/

namespace IshAok.Path

open Base List

/-- The text of the symlink at a path, if there is one. -/
def linkAt (w : World) (path : Text) : Option Text :=
  (w.find path).bind Found.link

/-- No path is on a procfs mount. -/
def Plain (w : World) : Prop :=
  ∀ path found, w.find path = some found → found.procfs = false

/-! ### Names -/

variable {x t : Text}

/-- A name that fits is copied whole. -/
theorem copyName_name (t : Text) (n : Int) (hx : '/' ∉ x) (ht : Ended t)
    (hn : x = [] ∨ (x.length : Int) < n) : copyName (x ++ t) n = (x, t, n - x.length) := by
  induction x generalizing n with
  | nil =>
    rcases ht with rfl | ⟨u, rfl⟩
    · simp [copyName]
    · simp [copyName]
  | cons c x ih =>
    have hc : c ≠ '/' := fun h => hx (h ▸ mem_cons_self)
    have hlen : ((c :: x).length : Int) < n := hn.resolve_left (cons_ne_nil c x)
    simp only [length_cons] at hlen
    have hrest := ih (n - 1) (fun h => hx (mem_cons_of_mem _ h)) (.inr (by omega))
    simp only [cons_append, copyName, if_neg hc, if_pos (show 0 < n - 1 by omega), hrest,
      length_cons, Prod.mk.injEq, true_and]
    omega

/-- A name that does not fit uses up the room exactly. -/
theorem copyName_full (t : Text) (n : Int) (hx : '/' ∉ x) (hpos : 0 < n)
    (hn : n ≤ x.length) : (copyName (x ++ t) n).2.2 = 0 := by
  induction x generalizing n with
  | nil =>
    simp only [length_nil] at hn
    omega
  | cons c x ih =>
    have hc : c ≠ '/' := fun h => hx (h ▸ mem_cons_self)
    simp only [length_cons] at hn
    simp only [cons_append, copyName, if_neg hc]
    by_cases h : 0 < n - 1
    · rw [if_pos h]
      exact ih (n - 1) (fun hm => hx (mem_cons_of_mem _ hm)) h (by omega)
    · rw [if_neg h]
      show n - 1 = 0
      omega

theorem isDot_name (t : Text) (hx : ProperName x) : isDot (x ++ t) = false := by
  rcases hx with ⟨⟨hne, hslash⟩, hdot, -⟩
  match x, hne with
  | [c], _ =>
    have hc : c ≠ '.' := fun h => hdot (by rw [h])
    simp [isDot, List.head?_cons, hc]
  | c :: d :: x, _ =>
    have hd : d ≠ '/' := fun h => hslash (by simp [h])
    simp [isDot, List.head?_cons, hd]

theorem isDotDot_name (hx : ProperName x) (ht : Ended t) : isDotDot (x ++ t) = false := by
  rcases hx with ⟨⟨hne, hslash⟩, -, hdots⟩
  match x, hne with
  | [c], _ =>
    -- The byte behind a one-byte name is a slash or missing.
    rcases ht with rfl | ⟨u, rfl⟩
    · simp [isDotDot, List.head?_nil]
    · simp [isDotDot, List.head?_cons]
  | [c, d], _ =>
    by_cases hc : c = '.'
    · have hd : d ≠ '.' := fun h => hdots (by rw [hc, h])
      simp [isDotDot, List.head?_cons, hd]
    · simp [isDotDot, List.head?_cons, hc]
  | c :: d :: e :: x, _ =>
    have he : e ≠ '/' := fun h => hslash (by simp [h])
    simp [isDotDot, List.head?_cons, he]

/-- The component a walk writes when its text begins with a name that fits. -/
theorem component_name {c : Cursor} (hp : c.p = x ++ t) (hx : IsName x)
    (ht : Ended t) (hn : (x.length : Int) < c.n - 1) :
    component c =
      { parent := c.out, name := x, n := c.n - 1 - x.length,
        prev := if t.head? = some '/' then some '/' else x.getLast?.or c.prev,
        p := skipSlashes t } := by
  simp only [component, hp, copyName_name t (c.n - 1) hx.2 ht (.inr hn)]

/-- The slash behind a name is what `slashed` sees. -/
theorem slashed_name {prev : Option Char} (hx : IsName x) (ht : Ended t) :
    ((if t.head? = some '/' then some '/' else x.getLast?.or prev) = some '/') ↔ t ≠ [] := by
  rcases ht with rfl | ⟨u, rfl⟩
  · have hlast : x.getLast? ≠ some '/' := fun h => hx.2 (mem_of_getLast? h)
    have hd := List.getLast?_eq_some_getLast hx.1
    rw [hd] at hlast
    simp [List.head?_nil, hd, hlast]
  · simp [List.head?_cons]

/-! ### The outcomes of a turn -/

section

variable {w : World} {rootPath : Option Text} {flags : Flags} {left : Nat} {c : Cursor}

/-- What is put behind the text of a link: the rest of the path, or the slash
    the link itself was spelled with. -/
def Component.rest (k : Component) : Text :=
  if k.p ≠ [] then '/' :: k.p else if k.slashed then ['/'] else []

variable {base : Text} {k : Component} {a b : Walker}

theorem spliced_ok {path : Text} (h : spliced base k = .ok path) : path = base ++ k.rest := by
  unfold spliced at h
  unfold Component.rest
  split at h
  · next hp =>
    rw [if_pos hp]
    split at h
    · cases h
    · exact (Except.ok.inj h).symm
  · next hp =>
    rw [if_neg hp]
    split at h
    · next hs =>
      rw [if_pos hs]
      split at h
      · cases h
      · exact (Except.ok.inj h).symm
    · next hs =>
      rw [if_neg hs, append_nil]
      exact (Except.ok.inj h).symm

/-- The room a splice needs. -/
theorem spliced_eq (h : base.length < maxPath) : spliced base k =
    if base.length + k.rest.length < maxPath then .ok (base ++ k.rest)
    else .error (.errno .enametoolong) := by
  unfold spliced Component.rest
  split_ifs <;> simp_all <;> omega

theorem spliced_of_short
    (h : base.length + k.rest.length < maxPath) : spliced base k = .ok (base ++ k.rest) := by
  rw [spliced_eq (by omega), if_pos h]

/-- The call that replaces one that follows a link off procfs. -/
structure Follows (rootPath : Option Text) (flags : Flags) (k : Component) (text : Text)
    (e : Expansion) : Prop where
  sameFlags : ∃ b, e.flags = { flags with detachedOk := b }
  call : (text.head? = some '/' ∧ flags.beneath = false ∧ e.atPath = rootPath ∧
      e.path = text ++ k.rest) ∨
    (text.head? ≠ some '/' ∧ flags.noXdev = true ∧ e.atPath = some k.parent ∧
      e.path = text ++ k.rest) ∨
    (text.head? ≠ some '/' ∧ e.atPath = none ∧ e.path = k.parent ++ '/' :: text ++ k.rest)

/-- A text with what it is relative to. -/
def linked (k : Component) (text : Text) : Text :=
  if text.head? = some '/' then text else k.parent ++ '/' :: text

variable (rootPath flags) in
/-- The call a splice makes. -/
theorem expand_follows (k : Component) {text : Text} (d : Bool)
    (hbeneath : text.head? = some '/' → flags.beneath = false) :
    ∃ e, (if flags.noXdev = true ∧ ¬ text.head? = some '/' then
        Turn.expand ⟨some k.parent, (linked k text ++ k.rest).drop (k.parent.length + 1),
          { flags with detachedOk := d }⟩
      else
        .expand ⟨if text.head? = some '/' then rootPath else none, linked k text ++ k.rest,
          { flags with detachedOk := d }⟩) = .expand e ∧ Follows rootPath flags k text e := by
  unfold linked
  by_cases habs : text.head? = some '/'
  · -- An absolute text starts over at the root.
    rw [if_neg (fun h => h.2 habs), if_pos habs, if_pos habs]
    exact ⟨_, rfl, ⟨_, rfl⟩, .inl ⟨habs, hbeneath habs, rfl, rfl⟩⟩
  · rw [if_neg habs, if_neg habs]
    by_cases hx : flags.noXdev = true
    · -- The walk goes on in the directory of the link.
      rw [if_pos ⟨hx, habs⟩]
      refine ⟨_, rfl, ⟨_, rfl⟩, .inr (.inl ⟨habs, hx, rfl, ?_⟩)⟩
      have hsplit : k.parent ++ '/' :: text ++ k.rest =
          (k.parent ++ ['/']) ++ (text ++ k.rest) := by
        simp
      rw [hsplit, drop_left' (by simp)]
    · -- The path of that directory is walked again from the top.
      rw [if_neg (fun h => hx h.1)]
      exact ⟨_, rfl, ⟨_, rfl⟩, .inr (.inr ⟨habs, rfl, rfl⟩)⟩

variable (w rootPath flags left) in
/-- Following a link ends the call, with an error or with the call that replaces it. -/
theorem follow_cases (k : Component) {found : Found} (text : Text) (hplain : found.procfs = false) :
    (∃ stop, follow w rootPath flags left k found text = .ret (.error stop)) ∨
    (left ≠ 0 ∧ ∃ e, follow w rootPath flags left k found text = .expand e ∧
      Follows rootPath flags k text e) := by
  simp only [follow, hplain, Bool.false_and, Bool.false_eq_true, if_false, Bool.not_false,
    true_and, and_true, Bool.false_or]
  split
  · exact .inl ⟨_, rfl⟩
  split
  · exact .inl ⟨_, rfl⟩
  next hleft =>
  split
  · exact .inl ⟨_, rfl⟩
  split
  · exact .inl ⟨_, rfl⟩
  next hbeneath =>
  split
  · exact .inl ⟨_, rfl⟩
  split
  · exact .inl ⟨_, rfl⟩
  next path hpath =>
  have hrest := spliced_ok hpath
  subst hrest
  refine .inr ⟨hleft, expand_follows rootPath flags k _ fun habs => ?_⟩
  simpa only [habs, true_and, Bool.not_eq_true] using hbeneath

variable (w rootPath flags left) in
/-- What a lookup comes to: an error, the next name, or a link that is followed. -/
theorem lookUp_cases (k : Component) (hplain : Plain w) :
    (∃ stop, lookUp w rootPath flags left k = .ret (.error stop)) ∨
    lookUp w rootPath flags left k = .next k.cursor ∨
    (left ≠ 0 ∧ ∃ text e, linkAt w k.out ≠ none ∧
      lookUp w rootPath flags left k = .expand e ∧ Follows rootPath flags k text e) := by
  unfold lookUp
  split
  · exact .inl ⟨_, rfl⟩
  split
  · exact .inl ⟨_, rfl⟩
  next found hfound =>
  split
  · exact .inl ⟨_, rfl⟩
  split
  · next text htext =>
    rcases follow_cases w rootPath flags left k (text.take (maxPath - (k.parent.length + 1)))
      (hplain _ _ hfound) with h | ⟨hl, e, h, he⟩
    · exact .inl h
    · refine .inr (.inr ⟨hl, _, e, ?_, h, he⟩)
      simp [linkAt, hfound, htext]
  · split
    · split
      · split
        · exact .inl ⟨_, rfl⟩
        split
        · exact .inl ⟨_, rfl⟩
        · exact .inr (.inl rfl)
      · split
        · exact .inl ⟨_, rfl⟩
        · exact .inr (.inl rfl)
    · exact .inr (.inl rfl)

variable (w rootPath flags left) in
/-- What a name comes to. -/
theorem enterName_cases (k : Component) (hplain : Plain w) :
    (∃ stop, enterName w rootPath flags left k = .ret (.error stop)) ∨
    k.n ≠ 0 ∧ (enterName w rootPath flags left k = .next k.cursor ∨
      (left ≠ 0 ∧ ∃ text e, linkAt w k.out ≠ none ∧
        enterName w rootPath flags left k = .expand e ∧ Follows rootPath flags k text e)) := by
  unfold enterName
  split
  · exact .inl ⟨_, rfl⟩
  next hn =>
  split
  · exact .inr ⟨hn, .inl rfl⟩
  split
  · exact .inl ⟨_, rfl⟩
  split
  · exact .inl ⟨_, rfl⟩
  split
  · exact .inl ⟨_, rfl⟩
  split
  · rcases lookUp_cases w rootPath flags left k hplain with h | h
    · exact .inl h
    · exact .inr ⟨hn, h⟩
  · exact .inr ⟨hn, .inl rfl⟩

/-- The next turn writes the name `k` and looks it up: there is room for the
    name, and nothing refuses or passes over it. -/
structure LooksUp (w : World) (b : Walker) (k : Component) : Prop where
  writes : component b.cursor = k
  some_name : b.cursor.p ≠ [] ∧ isDot b.cursor.p = false ∧ isDotDot b.cursor.p = false
  room : k.n ≠ 0
  unstaged : ¬ (k.parent = [] ∧ k.name = mountStagingDir.drop 1 ∧ b.flags.detachedOk = true ∧
    k.p ≠ [])
  detached : k.parent = mountStagingDir → b.flags.detachedOk = true
  same_mount : b.flags.noXdev = true → pathPrefixMountId w k.out = pathPrefixMountId w k.parent
  no_eisdir : ¬ (k.p = [] ∧ k.slashed = true ∧ b.flags.slashEisdir = true)
  looked_up : lookedUp b.flags k = true

theorem turn_looksUp (rootPath : Option Text) (h : LooksUp w b k) :
    turn w rootPath b.flags b.left b.cursor = lookUp w rootPath b.flags b.left k := by
  rcases h with ⟨rfl, ⟨hp, hdot, hdots⟩, hroom, hst, hpar, hx, he, hl⟩
  rw [turn, if_neg hp, if_neg (by rw [hdot]; exact Bool.false_ne_true),
    if_neg (by rw [hdots]; exact Bool.false_ne_true), enterName, if_neg hroom, if_neg hst,
    if_neg (fun h => by simp [hpar h.1] at h), if_neg (fun h => h.2 (hx h.1)), if_neg he, if_pos hl]

/-- What a double dot comes to. -/
theorem dotDot_cases (w : World) (rootPath : Option Text) (flags : Flags) (c : Cursor) :
    dotDot w rootPath flags c = .ret (fail .exdev) ∨
    ((c.out = [] ∨ atRoot rootPath c.out = true) ∧ flags.beneath = false ∧
      dotDot w rootPath flags c = .next (c.skip 2)) ∨
    (c.out ≠ [] ∧ atRoot rootPath c.out = false ∧ dotDot w rootPath flags c = .next { c.skip 2 with
        out := dropLastName c.out, n := c.n + (c.out.length - (dropLastName c.out).length) }) := by
  unfold dotDot
  split
  · exact Or.inl rfl
  next hb =>
  split
  · next hroot =>
    have hroot' : c.out = [] ∨ atRoot rootPath c.out = true := by
      simpa only [Bool.or_eq_true, decide_eq_true_eq] using hroot
    refine Or.inr (Or.inl ⟨hroot', ?_, rfl⟩)
    have hor : (atRoot rootPath c.out || decide (c.out = [])) = true := by
      rw [Bool.or_comm]
      exact hroot
    rw [hor, Bool.and_true, Bool.not_eq_true] at hb
    exact hb
  · next hroot =>
    rw [Bool.or_eq_true, decide_eq_true_eq, not_or, Bool.not_eq_true] at hroot
    dsimp only
    split
    · exact Or.inl rfl
    · exact Or.inr (Or.inr ⟨hroot.1, hroot.2, rfl⟩)

/-- What a turn that goes on has done. -/
theorem turn_next {c' : Cursor} (hplain : Plain w) (h : turn w rootPath flags left c = .next c') :
    (isDot c.p = true ∧ c' = c.skip 1) ∨
    (isDotDot c.p = true ∧ (c.out = [] ∨ atRoot rootPath c.out = true) ∧ c' = c.skip 2) ∨
    (isDotDot c.p = true ∧ c.out ≠ [] ∧ atRoot rootPath c.out = false ∧ c' = { c.skip 2 with
        out := dropLastName c.out, n := c.n + (c.out.length - (dropLastName c.out).length) }) ∨
    (isDot c.p = false ∧ isDotDot c.p = false ∧ (component c).n ≠ 0 ∧
      c' = (component c).cursor) := by
  unfold turn at h
  split at h
  · cases h
  split at h
  · next hdot => exact .inl ⟨hdot, (Turn.next.inj h).symm⟩
  next hdot =>
  split at h
  · next hdots =>
    rcases dotDot_cases w rootPath flags c with hd | ⟨hr, -, hd⟩ | ⟨ho, hr, hd⟩
    · rw [hd] at h
      cases h
    · rw [hd] at h
      exact .inr (.inl ⟨hdots, hr, (Turn.next.inj h).symm⟩)
    · rw [hd] at h
      exact .inr (.inr (.inl ⟨hdots, ho, hr, (Turn.next.inj h).symm⟩))
  · next hdots =>
    rcases enterName_cases w rootPath flags left (component c) hplain with
      ⟨stop, he⟩ | ⟨hn, he | ⟨-, -, e, -, he, -⟩⟩
    · rw [he] at h
      cases h
    · rw [he] at h
      exact .inr (.inr (.inr ⟨Bool.not_eq_true _ ▸ hdot, Bool.not_eq_true _ ▸ hdots, hn,
        (Turn.next.inj h).symm⟩))
    · rw [he] at h
      cases h

/-- The call a followed link is replaced by. -/
theorem turn_expand {e : Expansion} (hplain : Plain w)
    (h : turn w rootPath flags left c = .expand e) :
    isDot c.p = false ∧ isDotDot c.p = false ∧ left ≠ 0 ∧ (component c).n ≠ 0 ∧
      linkAt w (component c).out ≠ none ∧ ∃ text, Follows rootPath flags (component c) text e := by
  unfold turn at h
  split at h
  · cases h
  split at h
  · cases h
  next hdot =>
  split at h
  · rcases dotDot_cases w rootPath flags c with hd | ⟨-, -, hd⟩ | ⟨-, -, hd⟩
    all_goals
      rw [hd] at h
      cases h
  · next hdots =>
    rcases enterName_cases w rootPath flags left (component c) hplain with
      ⟨stop, he⟩ | ⟨hn, he | ⟨hl, text, e', hlink, he, hf⟩⟩
    · rw [he] at h
      cases h
    · rw [he] at h
      cases h
    · rw [he] at h
      cases h
      exact ⟨Bool.not_eq_true _ ▸ hdot, Bool.not_eq_true _ ▸ hdots, hl, hn, hlink, text, hf⟩

/-- A turn returns a path only at the end of the text. -/
theorem turn_ok {out : Text} (hplain : Plain w)
    (h : turn w rootPath flags left c = .ret (.ok out)) : c.p = [] ∧ out = c.out := by
  unfold turn at h
  split at h
  · next hp =>
    split at h
    · cases h
      exact ⟨hp, rfl⟩
    · cases h
  split at h
  · cases h
  split at h
  · rcases dotDot_cases w rootPath flags c with hd | ⟨-, -, hd⟩ | ⟨-, -, hd⟩
    all_goals
      rw [hd] at h
      cases h
  · rcases enterName_cases w rootPath flags left (component c) hplain with
      ⟨stop, he⟩ | ⟨-, he | ⟨-, -, e, -, he, -⟩⟩
    all_goals
      rw [he] at h
      cases h

/-! ### Walks as runs of turns -/

theorem resolve_of_ret {a : Answer} (h : turn w rootPath flags left c = .ret a) :
    resolve w rootPath left flags c = a := by
  have hs : scan w rootPath flags left c = .inl a := by rw [scan, h]
  rw [resolve, hs]

theorem resolve_of_next {c' : Cursor} (h : turn w rootPath flags left c = .next c')
    (hlen : c'.p.length < c.p.length) :
    resolve w rootPath left flags c = resolve w rootPath left flags c' := by
  have hs : scan w rootPath flags left c = scan w rootPath flags left c' := by
    rw [scan, h]
    exact dif_pos hlen
  rw [resolve, hs, ← resolve]

theorem resolve_of_expand {e : Expansion} (h : turn w rootPath flags (left + 1) c = .expand e) :
    resolve w rootPath (left + 1) flags c =
      innerPathNormalize w rootPath e.atPath e.path e.flags left := by
  have hs : scan w rootPath flags (left + 1) c = .inr e := by rw [scan, h]
  rw [resolve, hs]
  rfl

/-- The answer of a walker. -/
def Walker.answer (w : World) (rootPath : Option Text) (a : Walker) : Answer :=
  resolve w rootPath a.left a.flags a.cursor

/-- A turn does not change the answer. -/
theorem answer_step {l : Bool} (h : WalkStep w rootPath a l b) :
    a.answer w rootPath = b.answer w rootPath := by
  cases h with
  | next left flags c c' ht hlen => exact resolve_of_next ht hlen
  | expand left flags c c' e ht he =>
    have hx := resolve_of_expand ht
    rw [innerPathNormalize, he] at hx
    exact hx

/-- The answer is the same from every walker of a run. -/
theorem answer_run {tr : List (Walker × Bool)}
    (h : Run (WalkStep w rootPath) a tr b) : a.answer w rootPath = b.answer w rootPath := by
  induction h with
  | nil => rfl
  | snoc t u l tr _ hs ih => rw [ih, answer_step hs]

theorem run_cons {d : Walker} {l : Bool} {tr : List (Walker × Bool)}
    (hs : WalkStep w rootPath a l b) (h : Run (WalkStep w rootPath) b tr d) :
    Run (WalkStep w rootPath) a ((a, l) :: tr) d :=
  run_append (Run.snoc a b l [] Run.nil hs) h

/-- A returned path is what a finished walker has written. -/
theorem run_of_answer (hplain : Plain w) (a : Walker) (out : Text)
    (h : a.answer w rootPath = .ok out) :
    ∃ tr b, Run (WalkStep w rootPath) a tr b ∧ b.cursor.p = [] ∧ b.cursor.out = out := by
  rcases a with ⟨left, flags, c⟩
  -- The links left go down from call to call, the text left within one call.
  induction left using Nat.strong_induction_on generalizing flags c with
  | _ left ihl =>
  induction hp : c.p.length using Nat.strong_induction_on generalizing c with
  | _ len ihc =>
  cases ht : turn w rootPath flags left c with
  | ret a =>
    have ha : resolve w rootPath left flags c = a := resolve_of_ret ht
    have hok : a = .ok out := ha.symm.trans h
    rcases turn_ok hplain (hok ▸ ht) with ⟨hend, rfl⟩
    exact ⟨[], _, Run.nil, hend, rfl⟩
  | next c' =>
    by_cases hlen : c'.p.length < c.p.length
    · have hstep := WalkStep.next left flags c c' ht hlen
      have hc' : Walker.answer w rootPath ⟨left, flags, c'⟩ = .ok out :=
        (answer_step hstep).symm.trans h
      rcases ihc c'.p.length (hp ▸ hlen) c' hc' rfl with ⟨tr, b, hrun, hb⟩
      exact ⟨_, b, run_cons hstep hrun, hb⟩
    · -- Such a turn ends the call outside its buffers.
      have hs : scan w rootPath flags left c = .inl (.error .overrun) := by
        rw [scan, ht]
        exact dif_neg hlen
      have hr : Walker.answer w rootPath ⟨left, flags, c⟩ = .error .overrun := by
        rw [Walker.answer, resolve, hs]
      rw [hr] at h
      cases h
  | expand e =>
    rcases turn_expand hplain ht with ⟨-, -, hl, -⟩
    cases left with
    | zero => exact absurd rfl hl
    | succ left =>
      have hr : Walker.answer w rootPath ⟨left + 1, flags, c⟩ = _ := resolve_of_expand ht
      rw [hr, innerPathNormalize] at h
      cases he : enter e.flags e.atPath e.path with
      | error stop =>
        rw [he] at h
        cases h
      | ok c' =>
        rw [he] at h
        rcases ihl left (Nat.lt_succ_self left) e.flags c' h with ⟨tr, b, hrun, hb⟩
        exact ⟨_, b, run_cons (WalkStep.expand left flags c c' e ht he) hrun, hb⟩

end

end IshAok.Path
