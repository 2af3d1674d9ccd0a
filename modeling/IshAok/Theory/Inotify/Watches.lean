import IshAok.Core.Inotify

/-!
# The Watches of an Inotify Descriptor

A file has one watch, and a number one watch. Adding a watch looks for the
file first, and removals only take watches away. A rename writes new paths
into the watches of the file and of what is below it, without a look at the
watches that are on those paths already: renaming a watched file onto another
watched file leaves two watches on one path.

`watches_distinct` has what holds if no rename comes while the new name, or
something below it, is watched, and the counter of numbers does not wrap.

## Main definitions

* `WatchStep`: What an action does to the watches.
* `Vacant`: Nothing at a path or below it is watched.
* `Meets`: The condition on renames and on the counter.
* `Distinct`: One watch for each file and for each number.

## Theorems

* `exec_watchStep`: Every action does what `WatchStep` has for it.
* `distinct_step`: Each action keeps watches distinct.
* `watches_distinct`: Watches are distinct and numbers are not used again.
-/

namespace IshAok.Inotify

open Base List

/-! ### Replacing one watch -/

section

variable {l : List Watch} {x y : Watch}

theorem mem_of_mem_replace {w : Watch} (h : w ∈ l.replace x y) : w = y ∨ w ∈ l := by
  induction l with
  | nil => cases h
  | cons a rest ih =>
    rw [replace_cons] at h
    split at h
    · rcases mem_cons.mp h with h | h
      · exact .inl h
      · exact .inr (mem_cons_of_mem _ h)
    · rcases mem_cons.mp h with h | h
      · exact .inr (h ▸ mem_cons_self)
      rcases ih h with h | h
      · exact .inl h
      · exact .inr (mem_cons_of_mem _ h)

/-- A watch replaced by one that agrees with it in some field. -/
theorem map_replace_same {α : Type} (g : Watch → α) (h : g y = g x) :
    (l.replace x y).map g = l.map g := by
  induction l with
  | nil => rfl
  | cons a rest ih =>
    rw [replace_cons]
    split
    · next heq =>
      rw [map_cons, map_cons, h, eq_of_beq heq]
    · rw [map_cons, map_cons, ih]

/-- A watch replaced by one with a key that is free. -/
theorem nodup_replace {α : Type} (g : Watch → α) (h : (l.map g).Nodup) (hfree : g y ∉ l.map g) :
    ((l.replace x y).map g).Nodup := by
  induction l with
  | nil => exact h
  | cons a rest ih =>
    rw [map_cons, nodup_cons] at h
    rw [map_cons, mem_cons, not_or] at hfree
    rw [replace_cons]
    split
    · rw [map_cons, nodup_cons]
      exact ⟨hfree.2, h.2⟩
    rw [map_cons, nodup_cons]
    refine ⟨fun hmem => ?_, ih h.2 hfree.2⟩
    rcases mem_map.mp hmem with ⟨w, hw, heq⟩
    rcases mem_of_mem_replace hw with rfl | hw
    · exact hfree.1 heq
    · exact h.1 (mem_map.mpr ⟨w, hw, heq⟩)

end

/-! ### What actions do to the watches -/

/-- What an action does to the watches and the counter. -/
inductive WatchStep (s : State) : Action → State → Prop
  | shrunk (a s') (hsub : s'.watches.Sublist s.watches) (hnext : s'.nextWd = s.nextWd) :
      WatchStep s a s'
  | remasked (a s' watch mask)
      (hwatches : s'.watches = s.watches.replace watch { watch with mask := mask })
      (hnext : s'.nextWd = s.nextWd) : WatchStep s a s'
  | added (mnt path mask s') (hnone : findWatch s mnt path = none)
      (hwatches : s'.watches = s.watches ++ [⟨s.nextWd, mask, mnt, path⟩])
      (hnext : s'.nextWd = wrap32 (s.nextWd + 1)) : WatchStep s (.add mnt path mask) s'
  | moved (mnt oldPath newPath isDir cookie u s') (hsub : u.watches.Sublist s.watches)
      (hnext : s'.nextWd = s.nextWd)
      (hwatches : s'.watches = (moveSubtree u mnt oldPath newPath).watches ∨
        ∃ watch, findWatch (moveSubtree u mnt oldPath newPath) mnt oldPath = some watch ∧
          s'.watches = (moveSubtree u mnt oldPath newPath).watches.replace watch
            { watch with path := newPath }) :
      WatchStep s (.move mnt oldPath newPath isDir cookie) s'

/-- Some watches are gone, and nothing else. -/
def Shrinks (s s' : State) : Prop :=
  s'.watches.Sublist s.watches ∧ s'.nextWd = s.nextWd

section

variable {s s' : State}

theorem shrinks_refl (s : State) : Shrinks s s :=
  ⟨List.Sublist.refl _, rfl⟩

theorem deliver_shrinks (watch : Watch) (mask cookie : UInt32) (name : Text) :
    Shrinks s (deliver s watch mask cookie name).1 := by
  unfold deliver
  split
  · exact ⟨erase_sublist, rfl⟩
  · exact shrinks_refl s

theorem notifyExact_shrinks (mnt : Nat) (path : Text) (mask cookie : UInt32) :
    Shrinks s (notifyExact s mnt path mask cookie).1 := by
  unfold notifyExact
  split
  · exact shrinks_refl s
  split
  · exact shrinks_refl s
  · exact deliver_shrinks _ _ _ _

theorem notifyParent_shrinks (mnt : Nat) (path : Text) (mask cookie : UInt32) :
    Shrinks s (notifyParent s mnt path mask cookie).1 := by
  unfold notifyParent
  split
  · exact shrinks_refl s
  split
  · exact shrinks_refl s
  split
  · exact shrinks_refl s
  · exact deliver_shrinks _ _ _ _

theorem Shrinks.trans {u : State} (h : Shrinks s u) (h' : Shrinks u s') : Shrinks s s' :=
  ⟨h'.1.trans h.1, h'.2.trans h.2⟩

theorem Shrinks.watchStep {a : Action} (h : Shrinks s s') : WatchStep s a s' :=
  .shrunk a s' h.1 h.2

theorem moveSubtree_nextWd (mnt : Nat) (oldPath newPath : Text) :
    (moveSubtree s mnt oldPath newPath).nextWd = s.nextWd := by
  unfold moveSubtree
  split <;> rfl

theorem emitMove_watchStep (mnt : Nat) (oldPath newPath : Text) (isDir : Bool) (cookie : UInt32) :
    WatchStep s (.move mnt oldPath newPath isDir cookie)
      (emitMove s mnt oldPath newPath isDir cookie).1 := by
  have hshrinks := (notifyParent_shrinks (s := s) mnt oldPath (inMovedFrom ||| dirMask isDir)
    cookie).trans (notifyParent_shrinks mnt newPath (inMovedTo ||| dirMask isDir) cookie)
  have hnext := (moveSubtree_nextWd mnt oldPath newPath).trans hshrinks.2
  refine .moved mnt oldPath newPath isDir cookie _ _ hshrinks.1 ?_ ?_
  · unfold emitMove
    dsimp only
    split
    · exact hnext
    · split <;> exact hnext
  · unfold emitMove
    dsimp only
    split
    · exact Or.inl rfl
    next watch hfind =>
    refine Or.inr ⟨watch, hfind, ?_⟩
    split <;> rfl

theorem exec_watchStep {l : Action × Answer} (h : Step s l s') : WatchStep s l.1 s' := by
  rcases l with ⟨a, ans⟩
  have hs' : s' = (exec s a).1 := (congrArg Prod.fst h).symm
  rw [hs']
  cases a with
  | add mnt path mask =>
    show WatchStep s (.add mnt path mask) (addWatch s mnt path mask).1
    unfold addWatch
    split
    · exact .remasked _ _ _ _ rfl rfl
    · next hnone => exact .added mnt path mask _ hnone rfl rfl
  | remove wd =>
    simp only [exec, rmWatch]
    cases findWatchByWd s wd with
    | none => exact (shrinks_refl s).watchStep
    | some watch => exact .shrunk _ _ erase_sublist rfl
  | touch t mnt path =>
    exact ((notifyExact_shrinks mnt path t.mask 0).trans
      (notifyParent_shrinks mnt path t.mask 0)).watchStep
  | create isDir mnt path => exact (notifyParent_shrinks mnt path _ 0).watchStep
  | delete pass mnt path =>
    cases pass with
    | parent isDir => exact (notifyParent_shrinks mnt path _ 0).watchStep
    | attrib => exact (notifyExact_shrinks mnt path _ 0).watchStep
    | self => exact (notifyExact_shrinks mnt path _ 0).watchStep
    | ignored =>
      show WatchStep s _ (emitIgnored s mnt path).1
      unfold emitIgnored
      split
      · exact (shrinks_refl s).watchStep
      · exact .shrunk _ _ erase_sublist rfl
  | move mnt oldPath newPath isDir cookie => exact emitMove_watchStep ..
  | read bufsize =>
    simp only [exec]
    split_ifs
    · exact (shrinks_refl s).watchStep
    · exact (shrinks_refl s).watchStep
    · exact .shrunk _ _ (List.Sublist.refl _) rfl

end

/-! ### Renames -/

/-- Nothing at the path or below it is watched. -/
def Vacant (s : State) (mnt : Nat) (path : Text) : Prop :=
  ∀ w ∈ s.watches, w.mnt = mnt → ¬Below path w.path

instance (s : State) (mnt : Nat) (path : Text) : Decidable (Vacant s mnt path) :=
  inferInstanceAs (Decidable (∀ w ∈ s.watches, _))

/-- A watch below the old name gets the new one in its place, and any other
    stays. -/
theorem moveWatch_cases (mnt : Nat) (oldPath newPath : Text) (w : Watch) :
    moveWatch mnt oldPath newPath w = w ∨ ∃ t, w.mnt = mnt ∧ w.path = oldPath ++ '/' :: t ∧
        moveWatch mnt oldPath newPath w = { w with path := newPath ++ '/' :: t } := by
  unfold moveWatch
  split
  · exact Or.inl rfl
  next hmnt =>
  split
  · exact Or.inl rfl
  next hbelow =>
  rcases not_not.mp hbelow with ⟨t, ht⟩
  have hpath : w.path = oldPath ++ '/' :: t := by
    rw [← ht, append_assoc]
    rfl
  have hdrop : w.path.drop oldPath.length = '/' :: t := by
    rw [hpath, drop_left]
  dsimp only
  split
  · exact Or.inl rfl
  · exact Or.inr ⟨t, not_not.mp hmnt, hpath, by rw [hdrop]⟩

theorem moveWatch_wd (mnt : Nat) (oldPath newPath : Text) (w : Watch) :
    (moveWatch mnt oldPath newPath w).wd = w.wd := by
  rcases moveWatch_cases mnt oldPath newPath w with h | ⟨t, -, -, h⟩ <;> rw [h]

/-- A rename to the same name changes nothing. -/
theorem moveWatch_same (mnt : Nat) (path : Text) (w : Watch) : moveWatch mnt path path w = w := by
  rcases moveWatch_cases mnt path path w with h | ⟨t, -, hpath, h⟩
  · exact h
  · rw [h, ← hpath]

section

variable {s : State} {mnt : Nat} {oldPath newPath : Text}

/-- A moved watch is below the new name, where there was none. -/
theorem moveWatch_ne {x : Watch} (hvacant : Vacant s mnt newPath) (hx : x ∈ s.watches)
    {t : Text} : x.key ≠ (mnt, newPath ++ '/' :: t) := by
  intro hkey
  rcases Prod.mk.inj hkey with ⟨hmnt, hpath⟩
  exact hvacant x hx hmnt (hpath ▸ below_snoc t (below_refl newPath))

theorem moveWatch_key_ne {x y : Watch} (hvacant : Vacant s mnt newPath) (hx : x ∈ s.watches)
    (hy : y ∈ s.watches) (hne : x.key ≠ y.key) :
    (moveWatch mnt oldPath newPath x).key ≠ (moveWatch mnt oldPath newPath y).key := by
  rcases moveWatch_cases mnt oldPath newPath x with h | ⟨t, hmnt, hpath, h⟩
  · rcases moveWatch_cases mnt oldPath newPath y with h' | ⟨t', hmnt', hpath', h'⟩
    · rw [h, h']
      exact hne
    rw [h, h', Watch.key, hmnt']
    exact moveWatch_ne hvacant hx
  · rcases moveWatch_cases mnt oldPath newPath y with h' | ⟨t', hmnt', hpath', h'⟩
    · rw [h, h', Watch.key, hmnt]
      exact (moveWatch_ne hvacant hy).symm
    -- Both were below the old name, and differ in what follows it.
    rw [h, h']
    intro hkey
    have htail := append_cancel_left (Prod.mk.inj hkey).2
    refine hne ?_
    rw [Watch.key, Watch.key, hmnt, hmnt', hpath, hpath', htail]

/-- The new name itself stays free. -/
theorem moveWatch_key_new {x : Watch} (hvacant : Vacant s mnt newPath) (hx : x ∈ s.watches) :
    (moveWatch mnt oldPath newPath x).key ≠ (mnt, newPath) := by
  rcases moveWatch_cases mnt oldPath newPath x with h | ⟨t, hmnt, hpath, h⟩
  · rw [h]
    intro hkey
    rcases Prod.mk.inj hkey with ⟨hmnt, hpath⟩
    exact hvacant x hx hmnt (hpath ▸ below_refl newPath)
  · rw [h]
    intro hkey
    have hlength := congrArg List.length (Prod.mk.inj hkey).2
    simp only [length_append, length_cons] at hlength
    omega

/-- The watches after the subtree has moved. -/
theorem moveSubtree_watches (s : State) (mnt : Nat) (oldPath newPath : Text) :
    (moveSubtree s mnt oldPath newPath).watches =
      s.watches.map (if oldPath.length = 0 then id else moveWatch mnt oldPath newPath) := by
  unfold moveSubtree
  split
  · rw [map_id]
  · rfl

theorem moveSubtree_keys (oldPath : Text) (hkeys : (s.watches.map Watch.key).Nodup)
    (hvacant : Vacant s mnt newPath) :
    ((moveSubtree s mnt oldPath newPath).watches.map Watch.key).Nodup ∧
      (mnt, newPath) ∉ (moveSubtree s mnt oldPath newPath).watches.map Watch.key := by
  rw [moveSubtree_watches, map_map]
  split
  · refine ⟨hkeys, fun hmem => ?_⟩
    rcases mem_map.mp hmem with ⟨w, hw, hkey⟩
    rcases Prod.mk.inj hkey with ⟨hmnt, hpath⟩
    exact hvacant w hw hmnt (hpath ▸ below_refl newPath)
  · constructor
    · rw [List.Nodup, pairwise_map] at hkeys ⊢
      exact hkeys.imp_of_mem fun hx hy hne => moveWatch_key_ne hvacant hx hy hne
    · intro hmem
      rcases mem_map.mp hmem with ⟨w, hw, hkey⟩
      exact moveWatch_key_new hvacant hw hkey

theorem moveSubtree_wds (s : State) (mnt : Nat) (oldPath newPath : Text) :
    (moveSubtree s mnt oldPath newPath).watches.map Watch.wd = s.watches.map Watch.wd := by
  rw [moveSubtree_watches, map_map]
  refine map_congr_left fun w _ => ?_
  split
  · rfl
  · exact moveWatch_wd mnt oldPath newPath w

theorem moveSubtree_same (s : State) (mnt : Nat) (path : Text) :
    (moveSubtree s mnt path path).watches = s.watches := by
  rw [moveSubtree_watches]
  split
  · exact map_id _
  · exact (map_congr_left fun w _ => moveWatch_same mnt path w).trans (map_id _)

end

/-! ### Runs -/

/-- A rename comes while nothing at the new name or below it is watched, or
    keeps the name, and a new watch finds a number. -/
def Meets (s : State) : Action → Prop
  | .move mnt oldPath newPath _ _ => oldPath = newPath ∨ Vacant s mnt newPath
  | .add mnt path _ => findWatch s mnt path = none → s.nextWd < intMax
  | _ => True

instance (s : State) (a : Action) : Decidable (Meets s a) := by
  cases a <;> unfold Meets <;> infer_instance

/-- The numbers of the watches. -/
def State.wds (s : State) : List Int :=
  s.watches.map Watch.wd

/-- One watch for each file and for each number, and the counter is past them. -/
structure Distinct (s : State) : Prop where
  keys : (s.watches.map Watch.key).Nodup
  wds : s.wds.Nodup
  counter : 0 < s.nextWd
  past : ∀ wd ∈ s.wds, wd < s.nextWd

section

variable {s s' : State}

theorem wrap32_succ {x : Int} (h0 : 0 < x) (hlt : x < intMax) : wrap32 (x + 1) = x + 1 := by
  unfold wrap32 intMax at *
  omega

/-- The numbers after an action: some are gone, or the counter's is new. -/
theorem wds_step {a : Action} (hstep : WatchStep s a s') :
    (s'.wds.Sublist s.wds ∧ s'.nextWd = s.nextWd) ∨
      (∃ mnt path mask, a = .add mnt path mask ∧ findWatch s mnt path = none ∧
        s'.wds = s.wds ++ [s.nextWd] ∧ s'.nextWd = wrap32 (s.nextWd + 1)) := by
  cases hstep with
  | shrunk _ _ hsub hnext => exact .inl ⟨hsub.map _, hnext⟩
  | remasked _ _ watch mask hwatches hnext =>
    refine .inl ⟨?_, hnext⟩
    have hsame : s'.wds = s.wds := by
      rw [State.wds, hwatches]
      exact map_replace_same Watch.wd rfl
    rw [hsame]
  | added mnt path mask _ hnone hwatches hnext =>
    refine .inr ⟨mnt, path, mask, rfl, hnone, ?_, hnext⟩
    rw [State.wds, hwatches, map_append]
    rfl
  | moved mnt oldPath newPath isDir cookie u _ hsub hnext hwatches =>
    refine .inl ⟨?_, hnext⟩
    have hsame : s'.wds = u.wds := by
      rcases hwatches with hwatches | ⟨watch, -, hwatches⟩
      · rw [State.wds, hwatches, moveSubtree_wds]
        rfl
      rw [State.wds, hwatches]
      rw [State.wds, ← moveSubtree_wds u mnt oldPath newPath]
      exact map_replace_same Watch.wd rfl
    rw [hsame]
    exact hsub.map _

theorem keys_step {a : Action} (hkeys : (s.watches.map Watch.key).Nodup) (hmeets : Meets s a)
    (hstep : WatchStep s a s') : (s'.watches.map Watch.key).Nodup := by
  cases hstep with
  | shrunk _ _ hsub hnext => exact (hsub.map _).nodup hkeys
  | remasked _ _ watch mask hwatches hnext =>
    have hsame : s'.watches.map Watch.key = s.watches.map Watch.key := by
      rw [hwatches]
      exact map_replace_same Watch.key rfl
    rw [hsame]
    exact hkeys
  | added mnt path mask _ hnone hwatches hnext =>
    rw [hwatches, map_append]
    refine nodup_append.mpr ⟨hkeys, pairwise_singleton _ _, fun k hk k' hk' heq => ?_⟩
    rcases mem_map.mp hk with ⟨w, hw, hkey⟩
    rw [mem_singleton.mp hk'] at heq
    rcases Prod.mk.inj (hkey.trans heq) with ⟨hmnt, hpath⟩
    have hnot := find?_eq_none.mp hnone w hw
    simp only [hmnt, hpath, decide_true, Bool.and_self, not_true_eq_false] at hnot
  | moved mnt oldPath newPath isDir cookie u _ hsub hnext hwatches =>
    have hu := (hsub.map Watch.key).nodup hkeys
    rcases hmeets with rfl | hvacant
    · -- The name is kept, and with it every key.
      have hsame : s'.watches.map Watch.key = u.watches.map Watch.key := by
        rcases hwatches with hwatches | ⟨watch, hfind, hwatches⟩
        · rw [hwatches, moveSubtree_same]
        have hpath : watch.path = oldPath := by
          have hfound := find?_some hfind
          simp only [Bool.and_eq_true, decide_eq_true_eq] at hfound
          exact hfound.2
        rw [hwatches, map_replace_same Watch.key (by rw [Watch.key, Watch.key, hpath]),
          moveSubtree_same]
      rw [hsame]
      exact hu
    · have hvacant' : Vacant u mnt newPath := fun w hw => hvacant w (hsub.subset hw)
      rcases moveSubtree_keys oldPath hu hvacant' with ⟨hnodup, hfree⟩
      rcases hwatches with hwatches | ⟨watch, hfind, hwatches⟩
      · rw [hwatches]
        exact hnodup
      have hmnt : watch.mnt = mnt := by
        have hfound := find?_some hfind
        simp only [Bool.and_eq_true, decide_eq_true_eq] at hfound
        exact hfound.1
      rw [hwatches]
      refine nodup_replace Watch.key hnodup ?_
      rw [Watch.key, hmnt]
      exact hfree

variable {l : Action × Answer}

theorem distinct_step (h : Distinct s) (hmeets : Meets s l.1)
    (hstep : Step s l s') : Distinct s' := by
  have hwatch := exec_watchStep hstep
  have hkeys := keys_step h.keys hmeets hwatch
  rcases wds_step hwatch with ⟨hsub, hnext⟩ | ⟨mnt, path, mask, ha, hnone, hwds, hnext⟩
  · refine ⟨hkeys, hsub.nodup h.wds, hnext ▸ h.counter, fun wd hwd => ?_⟩
    rw [hnext]
    exact h.past wd (hsub.subset hwd)
  · rw [ha] at hmeets
    rw [wrap32_succ h.counter (hmeets hnone)] at hnext
    have hcounter := h.counter
    refine ⟨hkeys, ?_, by omega, fun wd hwd => ?_⟩
    · rw [hwds]
      refine nodup_append.mpr ⟨h.wds, pairwise_singleton _ _, fun k hk k' hk' heq => ?_⟩
      have hpast := h.past k hk
      rw [heq, mem_singleton.mp hk'] at hpast
      omega
    · rw [hwds] at hwd
      rcases mem_append.mp hwd with hwd | hwd
      · have hpast := h.past wd hwd
        omega
      rw [mem_singleton.mp hwd]
      omega

/-- The counter does not go back. -/
theorem counter_step (h : Distinct s) (hmeets : Meets s l.1)
    (hstep : Step s l s') : s.nextWd ≤ s'.nextWd := by
  rcases wds_step (exec_watchStep hstep) with
    ⟨-, hnext⟩ | ⟨mnt, path, mask, ha, hnone, -, hnext⟩
  · exact Int.le_of_eq hnext.symm
  · rw [ha] at hmeets
    rw [wrap32_succ h.counter (hmeets hnone)] at hnext
    omega

/-- A number that is behind the counter and not in use stays out of use. -/
theorem retired_step {wd : Int} (hstep : Step s l s')
    (hpast : wd < s.nextWd) (hwd : wd ∉ s.wds) : wd ∉ s'.wds := by
  rcases wds_step (exec_watchStep hstep) with ⟨hsub, -⟩ | ⟨-, -, -, -, -, hwds, -⟩
  · exact fun hmem => hwd (hsub.subset hmem)
  rw [hwds]
  intro hmem
  rcases mem_append.mp hmem with hmem | hmem
  · exact hwd hmem
  have heq := mem_singleton.mp hmem
  omega

end

theorem distinct_initial : Distinct initial :=
  ⟨List.Pairwise.nil, List.Pairwise.nil, by decide, fun wd hwd => by cases hwd⟩

theorem distinct_run {tr : List (State × Action × Answer)} {s : State}
    (hrun : Run Step initial tr s) (hmeets : ∀ p ∈ tr, Meets p.1 p.2.1) : Distinct s :=
  run_invariant Distinct hrun distinct_initial fun _ _ _ hmem h hstep =>
    distinct_step h (hmeets _ hmem) hstep

/-- The counter is past every number that was in use in the run. -/
theorem used_run {tr : List (State × Action × Answer)} {s : State}
    (hrun : Run Step initial tr s) (hmeets : ∀ p ∈ tr, Meets p.1 p.2.1) :
    ∀ p ∈ tr, ∀ wd ∈ p.1.wds, wd < s.nextWd := by
  induction hrun with
  | nil =>
    intro p hp
    cases hp
  | snoc u v l tr hrun hstep ih =>
    have hmeets' : ∀ p ∈ tr, Meets p.1 p.2.1 := fun p hp =>
      hmeets p (mem_append_left _ hp)
    have hu := distinct_run hrun hmeets'
    have hcounter := counter_step hu
      (hmeets (u, l) (mem_append_right _ (mem_singleton.mpr rfl))) hstep
    intro p hp wd hwd
    rcases mem_append.mp hp with hp | hp
    · exact Int.lt_of_lt_of_le (ih hmeets' p hp wd hwd) hcounter
    rw [mem_singleton.mp hp] at hwd
    exact Int.lt_of_lt_of_le (hu.past wd hwd) hcounter

/-- For every run of a descriptor whose renames and additions meet the
    condition: no two watches have one key, no two have one number, and a number
    that was in use and is not any more is not in use again. -/
theorem watches_distinct {tr : List (State × Action × Answer)} {s : State}
    (hrun : Run Step initial tr s) (hmeets : ∀ p ∈ tr, Meets p.1 p.2.1) :
    (s.watches.map Watch.key).Nodup ∧ s.wds.Nodup ∧
      ∀ tr₁ u tr₂, tr = tr₁ ++ tr₂ → Run Step initial tr₁ u → Run Step u tr₂ s →
        ∀ wd, (∃ p ∈ tr₁, wd ∈ p.1.wds) → wd ∉ u.wds → wd ∉ s.wds := by
  have hs := distinct_run hrun hmeets
  refine ⟨hs.keys, hs.wds, fun tr₁ u tr₂ htr hrun₁ hrun₂ wd hused hwd => ?_⟩
  rw [htr] at hmeets
  have hmeets₁ : ∀ p ∈ tr₁, Meets p.1 p.2.1 := fun p hp => hmeets p (mem_append_left _ hp)
  rcases hused with ⟨p, hp, hpwd⟩
  have hend : Distinct s ∧ wd < s.nextWd ∧ wd ∉ s.wds := by
    refine run_invariant (fun s => Distinct s ∧ wd < s.nextWd ∧ wd ∉ s.wds) hrun₂
      ⟨distinct_run hrun₁ hmeets₁, used_run hrun₁ hmeets₁ p hp wd hpwd, hwd⟩ ?_
    rintro x l y hmem ⟨hx, hpast, hout⟩ hstep
    have hm := hmeets (x, l) (mem_append_right _ hmem)
    exact ⟨distinct_step hx hm hstep, Int.lt_of_lt_of_le hpast (counter_step hx hm hstep),
      retired_step hstep hpast hout⟩
  exact hend.2.2

/-- Two files are watched, the directory above one is renamed, and that one's
    watch is removed and made again under another number. -/
theorem watches_distinct_readded : ∃ tr s, Run Step initial tr s ∧ (∀ p ∈ tr, Meets p.1 p.2.1) ∧
      (∃ p ∈ tr, 2 ∈ p.1.wds) ∧
      s.watches.map Watch.key = [(0, "/a".toList), (0, "/e/x".toList)] ∧ s.wds = [1, 3] ∧
      (s.watches.map Watch.key).Nodup ∧ s.wds.Nodup := by
  have hcomputed : (runList (fun s a => some (exec s a)) initial
      [.add 0 "/a".toList inModify, .add 0 "/d/x".toList inModify,
        .move 0 "/d".toList "/e".toList true 7, .remove 2, .add 0 "/e/x".toList inOpen]).map
      (fun r => (r.1.all (fun p => decide (Meets p.1 p.2.1)),
        r.1.any (fun p => decide (2 ∈ p.1.wds)),
        decide (r.2.watches.map Watch.key = [(0, "/a".toList), (0, "/e/x".toList)]),
        decide (r.2.wds = [1, 3]))) = some (true, true, true, true) := by
    decide +kernel
  rcases Option.map_eq_some_iff.mp hcomputed with ⟨⟨tr, s⟩, htr, hval⟩
  simp only [Prod.mk.injEq, all_eq_true, any_eq_true, decide_eq_true_eq] at hval
  rcases hval with ⟨hmeets, hused, hkeys, hwds⟩
  have hrun : Run Step initial tr s := by
    have h := run_of_runList _ _ _ _ htr
    simp only [Option.some.injEq] at h
    exact h
  have hdistinct := watches_distinct hrun hmeets
  exact ⟨tr, s, hrun, hmeets, hused, hkeys, hwds, hdistinct.1, hdistinct.2.1⟩

/-- A watched file is renamed onto another watched file. -/
theorem renamed_onto_watched : ∃ tr s, Run Step initial tr s ∧
      tr.map (fun p => p.2.1) = [.add 0 "/a".toList inModify, .add 0 "/b".toList inModify,
        .move 0 "/a".toList "/b".toList false 7] ∧
      s.watches.map Watch.key = [(0, "/b".toList), (0, "/b".toList)] ∧ s.wds = [1, 2] := by
  have hcomputed : (runList (fun s a => some (exec s a)) initial
      [.add 0 "/a".toList inModify, .add 0 "/b".toList inModify,
        .move 0 "/a".toList "/b".toList false 7]).map
      (fun r => (r.1.map (fun p => p.2.1), r.2.watches.map Watch.key, r.2.wds)) =
      some ([.add 0 "/a".toList inModify, .add 0 "/b".toList inModify,
        .move 0 "/a".toList "/b".toList false 7],
        [(0, "/b".toList), (0, "/b".toList)], [1, 2]) := by
    decide +kernel
  rcases Option.map_eq_some_iff.mp hcomputed with ⟨⟨tr, s⟩, htr, hval⟩
  simp only [Prod.mk.injEq] at hval
  refine ⟨tr, s, ?_, hval.1, hval.2.1, hval.2.2⟩
  have h := run_of_runList _ _ _ _ htr
  simp only [Option.some.injEq] at h
  exact h

end IshAok.Inotify
