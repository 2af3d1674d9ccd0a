import IshAok.Base.BitSet
import IshAok.Theory.Mounts.Moves

/-!
# Locked Flags

A mount in a namespace of a less privileged user namespace is locked with flags
that must not be cleared there. What is made from it has to be locked with them
too, or making a copy would be the way around the lock.

Most calls leave flags and locks alone, which is what `Moves` says. A bind is
made without a lock and locked after, as the mount it is found to be on top of;
`add_locked` says that this is the same as a mount made with the lock. A copy
that propagation makes in the same user namespace has no lock at all, and a
recursive bind takes the lock of each mount below the source for a bind of what
is found at the point of that mount, which can be another mount.

## Main definitions

* `Kept`: A mount has the flags it owes.
* `Safe`: Calls that do not lose a lock.

## Theorems

* `orderedInsert_top`, `add_locked`: A mount that was just made is on top.
* `copyNs_moves`, `pivot_moves`: The calls on namespaces.
* `locks_kept`: Locked flags are never lost.
* `lock_lost`: A lock that is lost.
-/

namespace IshAok.Mounts

open Base List Bool

/-- A mount has the flags that what it was made from was locked with, and cannot
    lose them. -/
structure Kept (m : Mount) : Prop where
  owed : Within m.derived m.lockedFlags
  masked : Within m.lockedFlags restrictions
  shown : Within m.lockedFlags m.flags

def LocksKept (t : Table) : Prop := ∀ m ∈ t.mounts, Kept m

/-- A mount without a lock, if the point is at or above its own. -/
def Unlocked (t : Table) (point : Place) : Prop :=
  ∀ m ∈ t.mounts, point <+: m.point → m.lockedFlags = 0

/-- Calls that do not lose a lock: nothing with a lock is attached to a mount that
    is shared, and a recursive bind finds each mount below the source. -/
def Safe (t : Table) : Action → Prop
  | .bind source point flags recursive =>
    ((∀ u, bindAttach t source point flags recursive = (none, u) → OnPrivate u (topAt · point)) ∨
        mountLockedFlagsAt t source = 0 ∧ Unlocked t source ∧ Unlocked t point) ∧
      (recursive = true → ∀ m ∈ replicated t source point, mountFind t m.point = some m ∧
        ∀ n ∈ replicated t source point, rebase source point n.point ≠ m.point)
  | .move source point =>
    (∀ top subs u, moveAttach t source point = .ok (top, subs, u) → OnPrivate u (·.get top)) ∨
      Unlocked t source
  | .mount .. => False
  | _ => True

section

variable {t u : Table} {m n : Mount} {a : BitVec 32}

/-! ### Flags -/

theorem restrictions_within : Within restrictions msFlags :=
  within_iff.mpr (by decide)

theorem kept_fixed (h : fixed m = fixed n) (hn : Kept n) : Kept m := by
  simp only [fixed, Prod.mk.injEq] at h
  rcases h with ⟨_, hflags, hlocked, hderived⟩
  exact ⟨hderived ▸ hlocked ▸ hn.owed, hlocked ▸ hn.masked, hlocked ▸ hflags ▸ hn.shown⟩

theorem kept_moves (h : Moves fixed Kept t u) (ht : LocksKept t) : LocksKept u := by
  intro m hm
  rcases moves_mem h m hm with ⟨n, hn, heq⟩ | ⟨n, hn, _, heq⟩
  · exact kept_fixed heq (ht n hn)
  · exact kept_fixed heq hn

/-! ### A mount that was just made -/

theorem orderedInsert_top (l : List Mount) (hview : m.inView = true) :
    (mountListInsert m l).find? (fun n => n.inView && decide (n.point = m.point)) = some m := by
  unfold mountListInsert
  rw [orderedInsert_eq_take_drop, find?_append, find?_eq_none.mpr, Option.none_or,
    find?_cons, hview, decide_eq_true rfl, Bool.true_and]
  -- What stands before it has a longer point.
  intro x hx hfound
  rw [Bool.and_eq_true, decide_eq_true_eq] at hfound
  have hlonger := mem_takeWhile_imp hx
  exact of_decide_eq_true hlonger (Nat.le_of_eq (congrArg pointLen hfound.2))

theorem orderedInsert_map {f : Mount → Mount} (l : List Mount) (hpoint : (f m).point = m.point)
    (hf : ∀ n ∈ l, f n = n) :
    (mountListInsert m l).map f = mountListInsert (f m) l := by
  have hpart : ∀ r : List Mount, r.Sublist l → r.map f = r := fun r hr => by
    rw [map_congr_left fun n hn => hf n (hr.subset hn), map_id']
  have hlonger : ∀ x, Longer (f m) x ↔ Longer m x := fun x => by rw [Longer, Longer, hpoint]
  unfold mountListInsert
  simp only [orderedInsert_eq_take_drop, map_append, map_cons, hpart _ (takeWhile_sublist _),
    hpart _ (dropWhile_sublist _), hlonger]

/-- A mount that was just made is on top, so a lock at its point is on it. -/
theorem add_locked (ht : Distinct t) (origin : Nat) (haddr : m.addr = t.nextAddr)
    (hview : m.inView = true) (locked : Bool) (flags : BitVec 32) :
    mountSetLockAt (t.addBind origin m) m.point locked flags =
      t.addBind origin { m with locked := locked, lockedFlags := flags } := by
  have htop : topAt (t.addBind origin m) m.point = some { m with bindOrigin := some origin } := by
    exact orderedInsert_top (m := { m with bindOrigin := some origin }) _ hview
  unfold mountSetLockAt
  rw [htop]
  have hmap := orderedInsert_map (m := { m with bindOrigin := some origin })
    (f := fun x => if x.addr = m.addr then { x with locked := locked, lockedFlags := flags } else x)
    (t.hold origin).mounts (by simp) (by
      intro n hn
      have hlt := (distinct_fixed (A := fun _ => True) (hold_moves t origin) ht).fresh n hn
      have hne : n.addr ≠ m.addr := by
        rw [haddr]
        exact Nat.ne_of_lt hlt
      exact if_neg hne)
  rw [if_pos rfl] at hmap
  exact congrArg (fun l : List Mount => ({ t.hold origin with
    mounts := l
    nextAddr := (t.hold origin).nextAddr + 1
    nextMountId := nextInt (t.hold origin).nextMountId } : Table)) hmap

variable {source point : Place} {l : List Mount} {flags : BitVec 32} {recursive : Bool}

/-- In a list that is in order, what is found at the point of a mount is at that
    point. -/
theorem find_exact (hsorted : l.Pairwise Longer) (h : l.find? (fun m => m.point = point) = some n) :
    l.find? (fun m => m.point.isPrefixOf point) = some n := by
  rcases find?_eq_some_iff_append.mp h with ⟨hn, front, rest, rfl, hfront⟩
  rw [decide_eq_true_eq] at hn
  refine find?_eq_some_iff_append.mpr ⟨?_, front, rest, rfl, fun x hx => ?_⟩
  · exact hn ▸ isPrefixOf_iff_prefix.mpr (prefix_refl _)
  -- A shorter point would stand further back.
  have hlonger := (pairwise_append.mp hsorted).2.2 x hx n mem_cons_self
  have hpoint := hfront x hx
  rw [Bool.not_eq_true', decide_eq_false_iff_not] at hpoint
  rw [Bool.not_eq_true', eq_false_iff]
  intro hpre
  rcases isPrefixOf_iff_prefix.mp hpre with ⟨more, hmore⟩
  rw [Longer, hn, ← hmore] at hlonger
  cases more with
  | nil => exact hpoint ((append_nil _).symm.trans hmore)
  | cons y more =>
    simp only [pointLen, joinPath, flatMap_append, flatMap_cons, length_append, length_cons]
      at hlonger
    omega

theorem find_point (h : l.find? (fun m => m.point.isPrefixOf n.point) = some n) :
    l.find? (fun m => m.point = n.point) = some n := by
  rcases find?_eq_some_iff_append.mp h with ⟨_, front, rest, rfl, hfront⟩
  refine find?_eq_some_iff_append.mpr ⟨decide_eq_true rfl, front, rest, rfl, fun x hx => ?_⟩
  have hpre := hfront x hx
  rw [Bool.not_eq_true', decide_eq_false_iff_not]
  intro heq
  rw [heq, isPrefixOf_iff_prefix.mpr (prefix_refl _)] at hpre
  cases hpre

theorem find_insert {p : Mount → Bool} (hm : p m = false) :
    (mountListInsert m l).find? p = l.find? p := by
  unfold mountListInsert
  rw [orderedInsert_eq_take_drop, find?_append, find?_cons, hm, ← find?_append,
    takeWhile_append_dropWhile]

/-- What is found at a point has some locked flags. -/
def LockedAt (t : Table) (point : Place) (flags : BitVec 32) : Prop :=
  ∃ n, t.mounts.find? (fun m => m.point = point) = some n ∧ n.lockedFlags = flags

theorem lockedAt_addBind (origin : Nat) (h : LockedAt t point a)
    (hm : m.point ≠ point) : LockedAt (t.addBind origin m) point a := by
  rcases h with ⟨n, hfind, hlocked⟩
  refine ⟨if n.addr = origin then { n with refcount := n.refcount + 1 } else n, ?_, ?_⟩
  · refine (find_insert (by simpa using hm)).trans ?_
    unfold Table.hold Table.update
    rw [find?_map]
    have hsame : ((fun m : Mount => decide (m.point = point)) ∘ fun m =>
        if m.addr = origin then { m with refcount := m.refcount + 1 } else m) =
        fun m => decide (m.point = point) := by
      funext x
      dsimp only [Function.comp]
      split <;> rfl
    rw [hsame, hfind]
    rfl
  · split <;> exact hlocked

/-! ### Binding -/

/-- A bind with the lock it is given. -/
theorem bind_locked {holder : Mount}
    (locked cond : Bool) (ht : Distinct t) (hfind : mountFind t source = some holder)
    (howed : Within holder.lockedFlags a) (hmask : Within a restrictions) (hshown : Within a flags)
    (hcond : cond = false → a = 0) (h : doBindMount t source point flags = (none, u)) :
    ∃ origin m, (if cond = true then mountSetLockAt u point locked a else u) =
        t.addBind origin m ∧ m.addr = t.nextAddr ∧ m.point = point ∧ m.lockedFlags = a ∧
      Kept { m with bindOrigin := some origin } := by
  rcases doBind_cases t source point flags with ⟨_, hsome⟩ | ⟨holder', hfind', heq⟩
  · rw [h] at hsome
    exact absurd rfl hsome
  · cases hfind.symm.trans hfind'
    rw [h] at heq
    cases heq
    cases cond with
    | true =>
      refine ⟨_, _, add_locked ht _ rfl rfl locked a, rfl, rfl, rfl, ?_⟩
      exact ⟨howed, hmask, hshown⟩
    | false =>
      cases hcond rfl
      exact ⟨_, _, rfl, rfl, rfl, rfl, ⟨howed, hmask, hshown⟩⟩

theorem mem_addBind {origin : Nat} (h : n ∈ (t.addBind origin m).mounts) :
    n = { m with bindOrigin := some origin } ∨ ∃ x ∈ t.mounts, n.point = x.point ∧
      n.lockedFlags = x.lockedFlags := by
  rcases (mem_orderedInsert Longer).mp h with rfl | h
  · exact .inl rfl
  · rcases mem_map.mp h with ⟨x, hx, rfl⟩
    refine .inr ⟨x, hx, ?_⟩
    split <;> exact ⟨rfl, rfl⟩

theorem unlocked_addBind (origin : Nat) (h : Unlocked t point)
    (hm : m.lockedFlags = 0) : Unlocked (t.addBind origin m) point := by
  intro n hn hpoint
  rcases mem_addBind hn with rfl | ⟨x, hx, heq, hlocked⟩
  · exact hm
  · exact hlocked.trans (h x hx (heq ▸ hpoint))

/-- The copies of a recursive bind. Without a lock below the source there is none
    among them. -/
theorem replicates_moves {source point : Place} {flags : BitVec 32} (subs : List Mount) :
    ∀ t, Distinct t → LocksKept t → (∀ m ∈ subs, LockedAt t m.point m.lockedFlags) →
      (∀ m ∈ subs, ∀ n ∈ subs, rebase source point n.point ≠ m.point) →
      Moves fixed Kept t (subs.foldl (replicate source point flags) t) ∧
        ((∀ m ∈ subs, m.lockedFlags = 0) → Unlocked t point →
          Unlocked (subs.foldl (replicate source point flags) t) point) := by
  induction subs with
  | nil => exact fun _ _ _ _ _ => ⟨.refl, fun _ h => h⟩
  | cons sub subs ih =>
    intro t ht hk hlocks hapart
    rw [foldl_cons]
    have hsame := ih t ht hk (forall_mem_cons.mp hlocks).2
      fun m hm n hn => hapart m (mem_cons_of_mem _ hm) n (mem_cons_of_mem _ hn)
    unfold replicate
    dsimp only
    split
    · split
      · exact ⟨hsame.1, fun hfree => hsame.2 (forall_mem_cons.mp hfree).2⟩
      next u heq =>
      rcases hlocks sub mem_cons_self with ⟨holder, hholder, hlocked⟩
      have hmem := mem_of_find?_eq_some hholder
      rcases bind_locked sub.locked (sub.locked || decide (sub.lockedFlags ≠ 0)) ht
          (find_exact ht.sorted hholder) (hlocked ▸ Within.refl _)
          (hlocked ▸ (hk holder hmem).masked) (within_or_right flags _) (by simp) heq with
        ⟨origin, m, hadd, haddr, hpoint, hflags, hkept⟩
      rw [hadd]
      have hone : Moves fixed Kept t (t.addBind origin m) := addBind_moves t origin haddr hkept
      have hnext := ih (t.addBind origin m) (distinct_fixed hone ht) (kept_moves hone hk)
        (fun n hn => lockedAt_addBind origin (hlocks n (mem_cons_of_mem _ hn))
          (hpoint ▸ hapart n (mem_cons_of_mem _ hn) sub mem_cons_self))
        fun m hm n hn => hapart m (mem_cons_of_mem _ hm) n (mem_cons_of_mem _ hn)
      refine ⟨moves_trans hone hnext.1, fun hfree h => ?_⟩
      rcases forall_mem_cons.mp hfree with ⟨hsub, hfree⟩
      exact hnext.2 hfree (unlocked_addBind origin h (hflags.trans hsub))
    · exact ⟨hsame.1, fun hfree => hsame.2 (forall_mem_cons.mp hfree).2⟩

/-- A mount without a lock may be copied. -/
theorem copies_unlocked (hm : m.lockedFlags = 0) : Copies Kept m := by
  intro n hflags hlocked hderived
  refine ⟨within_of_eq_zero (hderived.trans hm), ?_, ?_⟩
  · rcases hlocked with hlocked | hlocked
    · exact within_of_eq_zero hlocked
    · rw [hlocked]
      exact within_and_right _ _
  · rcases hlocked with hlocked | hlocked
    · exact within_of_eq_zero hlocked
    · rw [hlocked, hflags]
      exact within_and_left _ _

theorem copiesAt_unlocked (ht : Distinct t) (hm : m ∈ t.mounts) (hlocked : m.lockedFlags = 0) :
    CopiesAt Kept t m.addr :=
  ⟨ht.fresh m hm, fun _ hn haddr => distinct_eq ht hn hm haddr ▸ copies_unlocked hlocked⟩

/-- What goes out of view under a mount had no lock either. -/
theorem coverLoop_unlocked (top : Mount) (olderThan : Int) :
    ∀ turns t, Unlocked t top.point → Unlocked (coverLoop turns t top olderThan) top.point := by
  intro turns
  induction turns with
  | zero => exact fun _ h => h
  | succ turns ih =>
    intro t h
    rw [coverLoop]
    split
    · exact h
    next below hfind =>
    refine ih _ fun m hm hpoint => ?_
    rcases (mem_orderedInsert Longer).mp hm with rfl | hm
    · have hbelow := find?_some hfind
      simp only [underneath, mountPointBelow, Bool.and_eq_true, decide_eq_true_eq] at hbelow
      exact h below (mem_of_find?_eq_some hfind) hbelow.1.2.1
    · exact h m (mem_of_mem_filter hm) hpoint

theorem coverAt_unlocked (keepNewer : Bool) (h : Unlocked t point) :
    Unlocked (mountCoverAt t point keepNewer) point := by
  unfold mountCoverAt
  split
  · exact h
  next top htop =>
  have hfound := find?_some htop
  simp only [Bool.and_eq_true, decide_eq_true_eq] at hfound
  rw [← hfound.2] at h ⊢
  exact coverLoop_unlocked top _ _ t h

/-- A bind up to the propagation. -/
theorem attach_moves (ht : Distinct t)
    (hk : LocksKept t) (hsafe : Safe t (.bind source point flags recursive)) {v : Table}
    (h : bindAttach t source point flags recursive = (none, v)) : Moves fixed Kept t v ∧
      (mountLockedFlagsAt t source = 0 → Unlocked t source → Unlocked t point →
        Unlocked v point) := by
  unfold bindAttach at h
  split at h
  · cases h
  dsimp only at h
  split at h
  · cases h
  next u heq =>
  cases h
  -- The bind itself, with the lock of the mount its source is on.
  rcases doBind_cases t source point ((flags &&& msFlags) ||| mountLockedFlagsAt t source) with
    ⟨_, hsome⟩ | ⟨holder, hfind, _⟩
  · rw [heq] at hsome
    exact absurd rfl hsome
  have hholder : mountLockedFlagsAt t source = holder.lockedFlags := by
    unfold mountLockedFlagsAt
    rw [hfind]
  have hmem := mem_of_find?_eq_some hfind
  rcases bind_locked false (decide (mountLockedFlagsAt t source ≠ 0)) ht hfind
      (hholder ▸ Within.refl _) (hholder ▸ (hk holder hmem).masked)
      (within_or_right (flags &&& msFlags) _) (by simp) heq with
    ⟨origin, m, hadd, haddr, hpoint, hflags, hkept⟩
  simp only [decide_eq_true_eq] at hadd
  rw [hadd]
  have hone : Moves fixed Kept t (t.addBind origin m) := addBind_moves t origin haddr hkept
  have hdistinct := distinct_fixed hone ht
  have hfree : mountLockedFlagsAt t source = 0 → Unlocked t point →
      Unlocked (t.addBind origin m) point := fun hzero h =>
    unlocked_addBind origin h (hflags.trans hzero)
  cases recursive with
  | false =>
    exact ⟨moves_trans hone (coverAt_moves steady_fixed _ _ _), fun hzero _ h =>
      coverAt_unlocked true (hfree hzero h)⟩
  | true =>
    -- Each mount below the source is one that was there before.
    have hsub : ∀ sub ∈ replicated (t.addBind origin m) source point,
        ∃ x ∈ replicated t source point, sub.point = x.point ∧
          sub.lockedFlags = x.lockedFlags := by
      intro sub hsub
      rcases mem_filter.mp hsub with ⟨hsub, hbelow⟩
      rcases mem_addBind hsub with rfl | ⟨x, hx, hxpoint, hxlocked⟩
      · simp [hpoint] at hbelow
      · exact ⟨x, mem_filter.mpr ⟨hx, hxpoint ▸ hbelow⟩, hxpoint, hxlocked⟩
    have hcopies := @replicates_moves source point (flags &&& msFlags)
      (replicated (t.addBind origin m) source point) _ hdistinct (kept_moves hone hk)
      (fun sub hs => by
        rcases hsub sub hs with ⟨x, hx, hxpoint, hlocked⟩
        rcases mem_filter.mp hs with ⟨_, hbelow⟩
        simp only [Bool.and_eq_true, decide_eq_true_eq] at hbelow
        rw [hxpoint, hlocked]
        exact lockedAt_addBind origin ⟨x, find_point (hsafe.2 rfl x hx).1, rfl⟩
          (hpoint ▸ hxpoint ▸ hbelow.2.symm))
      (fun sub hs sub' hs' => by
        rcases hsub sub hs with ⟨x, hx, hxpoint, _⟩
        rcases hsub sub' hs' with ⟨y, hy, hypoint, _⟩
        rw [hxpoint, hypoint]
        exact (hsafe.2 rfl x hx).2 y hy)
    refine ⟨moves_trans (moves_trans hone hcopies.1) (coverAt_moves steady_fixed _ _ _),
      fun hzero hsource h => coverAt_unlocked true (hcopies.2 (fun sub hs => ?_) (hfree hzero h))⟩
    rcases hsub sub hs with ⟨x, hx, _, hlocked⟩
    rcases mem_filter.mp hx with ⟨hx, hbelow⟩
    simp only [mountPointBelow, Bool.and_eq_true, decide_eq_true_eq] at hbelow
    exact hlocked.trans (hsource x hx hbelow.1.1)

theorem bind_moves (ht : Distinct t)
    (hk : LocksKept t) (hsafe : Safe t (.bind source point flags recursive)) :
    Moves fixed Kept t (bindMount t source point flags recursive).2 := by
  unfold bindMount
  split
  · exact .refl
  next u heq =>
  rcases attach_moves ht hk hsafe heq with ⟨hattach, hfree⟩
  refine moves_trans hattach (propagateAt_moves _ point recursive ?_)
  rcases hsafe.1 with h | ⟨hzero, hsource, hpoint⟩
  · exact .inl (h u heq)
  · exact .inr fun m hm hbelow => copiesAt_unlocked (distinct_fixed hattach ht) hm
      (hfree hzero hsource hpoint m hm hbelow)

/-! ### Other calls -/

/-- A move up to the propagation. -/
theorem moveAttach_moves {top : Nat} {subs : List Nat} (ht : Distinct t)
    (h : moveAttach t source point = .ok (top, subs, u)) : Moves fixed Kept t u ∧
      (Unlocked t source → ∀ a ∈ top :: subs, CopiesAt Kept u a) := by
  unfold moveAttach at h
  split at h
  · cases h
  next found hfound =>
  split at h
  · cases h
  split at h
  · cases h
  split at h
  · cases h
  split at h
  · cases h
  next subs v hcollect =>
  cases h
  -- Everything until the tree is in its new place is covering.
  rcases collect_moves (A := Kept) steady_fixed hcollect with ⟨hmoves, hsubs⟩
  have hplace := moves_trans (moves_trans (moves_trans (moves_trans hmoves
    (uncover_moves steady_fixed v found)) (moves_relocate steady_fixed _ found.addr point))
    (cover_moves steady_fixed _ { found with point := point } mountCoverAll))
    (place_moves steady_fixed _ subs source point)
  refine ⟨hplace, fun h a ha => copiesAt_moves hplace ?_⟩
  rcases mem_cons.mp ha with rfl | ha
  · have hpoint := find?_some hfound
    simp only [Bool.and_eq_true, decide_eq_true_eq] at hpoint
    have hmem := mem_of_find?_eq_some hfound
    exact copiesAt_unlocked ht hmem (h found hmem (hpoint.2 ▸ prefix_refl _))
  · rcases mem_map.mp ha with ⟨m, hm, rfl⟩
    rw [hsubs] at hm
    rcases mem_filter.mp hm with ⟨hm, hwith⟩
    simp only [movesWith, mountPointBelow, Bool.and_eq_true, decide_eq_true_eq] at hwith
    exact copiesAt_unlocked ht hm (h m hm hwith.2.1)

theorem move_moves (ht : Distinct t) (hsafe : Safe t (.move source point)) :
    Moves fixed Kept t (mountMove t source point).2 := by
  unfold mountMove
  split
  · exact .refl
  next top subs u heq =>
  rcases moveAttach_moves ht heq with ⟨hmoves, hfree⟩
  exact moves_trans hmoves (propagateTree_moves _ _ _ (hsafe.imp (· top subs u heq) hfree))

theorem kept_copyToNs (source dest : Space) (locked : Bool) (t : Table) (hm : Kept m) :
    Moves fixed Kept t (mountCopyToNs source dest locked t m) := by
  have hlock : Within (m.lockedFlags ||| if locked = true then m.flags &&& restrictions else 0)
      restrictions ∧ Within (m.lockedFlags ||| if locked = true then m.flags &&& restrictions
        else 0) m.flags := by
    cases locked with
    | true => exact ⟨Within.or hm.masked (within_and_right _ _),
        Within.or hm.shown (within_and_left _ _)⟩
    | false => exact ⟨Within.or hm.masked (within_of_eq_zero rfl),
        Within.or hm.shown (within_of_eq_zero rfl)⟩
  unfold mountCopyToNs
  dsimp only
  split
  · refine moves_trans (moves_staged t) ?_
    exact addBind_moves _ _ rfl ⟨within_or_left _ _, hlock.1, hlock.2⟩
  · exact addBind_moves _ _ rfl ⟨within_or_left _ _, hlock.1, hlock.2⟩

theorem copyNs_moves (hk : LocksKept t) (source : Space) (owner : Nat) :
    Moves fixed Kept t (mntNsCopy t source owner) := by
  have hcovered : ∀ (dest : Space) (locked : Bool) (m : Mount), Kept m →
      ∀ r : List (Mount × Mount) × Table,
        Moves fixed Kept r.2 (copyCovered source dest locked r m).2 := by
    intro dest locked m hm r
    have hone := kept_copyToNs source dest locked r.2 hm
    unfold copyCovered
    dsimp only
    split <;> exact hone
  have hcover : ∀ (dest : Space) (pairs : List (Mount × Mount)) (t : Table) (p : Mount × Mount),
      Moves fixed Kept t (coverCopy source dest pairs t p) := by
    intro dest pairs t p
    unfold coverCopy
    dsimp only
    split
    · exact moves_trans (moves_relocate steady_fixed _ _ _)
        (moves_update _ _ (fun _ => rfl) fun _ => rfl)
    · exact moves_update _ _ (fun _ => rfl) fun _ => rfl
  have hfirst := moves_trans (moves_staged t) (moves_foldl id
    (t.mounts.reverse.filter (mountInNs source)) t.staged fun u _ m hm =>
    kept_copyToNs source ⟨stagingPoint t, owner⟩ (decide (owner ≠ source.userNs)) u
      (hk m (mem_reverse.mp (mem_of_mem_filter hm))))
  refine .count (moves_trans (moves_trans hfirst ?_)
    (moves_foldl id _ _ fun u _ p _ => hcover _ _ u p)) _ _ _
  exact moves_foldl Prod.snd _ ([], _) fun r _ m hm =>
    hcovered _ _ m (kept_moves hfirst hk m (mem_of_mem_filter hm)) r

theorem inserts_perm {g : Mount → Mount} (hg : ∀ m, fixed (g m) = fixed m) (l : List Mount) :
    ∀ r : List Mount, ((l.foldl (fun l m => mountListInsert (g m) l) r).map fixed).Perm
        ((l ++ r).map fixed) ∧
      (r.Pairwise Longer → (l.foldl (fun l m => mountListInsert (g m) l) r).Pairwise Longer) := by
  induction l with
  | nil => exact fun r => ⟨List.Perm.refl _, id⟩
  | cons m l ih =>
    intro r
    rcases ih (mountListInsert (g m) r) with ⟨hperm, hsorted⟩
    refine ⟨hperm.trans ?_, fun h => hsorted (h.orderedInsert _ _)⟩
    have hone := (perm_orderedInsert Longer (g m) r).map fixed
    rw [map_cons, hg] at hone
    rw [map_append]
    refine (hone.append_left _).trans (perm_middle.trans (Perm.of_eq ?_))
    rw [cons_append, map_cons, map_append]

/-- Points change, and the mounts are sorted in anew. -/
theorem pivotTable_moves (t : Table) (ns : Space) (newRoot old : Place) (stacked : Bool)
    (newId : Int) : Moves fixed Kept t (pivotTable t ns newRoot old stacked newId) := by
  have hcovered : ∀ m, fixed (pivotCovered ns newRoot old m) = fixed m ∧
      (pivotCovered ns newRoot old m).point = m.point := by
    intro m
    unfold pivotCovered
    split
    · exact ⟨rfl, rfl⟩
    · split <;> exact ⟨rfl, rfl⟩
  unfold pivotTable
  generalize hinside : (t.mounts.filter (mountInNs ns)).reverse = inside
  rcases inserts_perm (g := fun m => pivotMount ns newRoot old stacked newId
    (pivotCovered ns newRoot old m)) (fun m => (hcovered m).1)
    ((inside.filter fun m => newRoot.isPrefixOf m.point) ++
      inside.filter fun m => !newRoot.isPrefixOf m.point)
    ((t.mounts.filter fun m => !mountInNs ns m).map (pivotCovered ns newRoot old)) with
    ⟨hperm, hsorted⟩
  refine .shrink .refl (hperm.trans ?_).subperm fun h => hsorted ?_
  · -- The two parts of the namespace and the rest are all mounts.
    have hall : (inside ++ t.mounts.filter fun m => !mountInNs ns m).Perm t.mounts :=
      hinside ▸ ((reverse_perm _).append_right _).trans (filter_append_perm _ _)
    have hsame : fixed ∘ pivotCovered ns newRoot old = fixed := funext fun m => (hcovered m).1
    rw [map_append, map_map, hsame, ← map_append]
    exact (((filter_append_perm _ _).append_right _).trans hall).map fixed
  · refine pairwise_map.mpr ((h.sublist filter_sublist).imp fun {m n} hmn => ?_)
    rwa [Longer, (hcovered m).2, (hcovered n).2]

theorem pivot_moves (t : Table) (ns : Space) (newRoot putOld : Place) (rooted : Bool) :
    Moves fixed Kept t (mntNsPivotRoot t ns newRoot putOld rooted).2 := by
  unfold mntNsPivotRoot
  split
  · exact .refl
  split
  · exact .refl
  split
  · exact .refl
  dsimp only
  split
  · exact .refl
  next new _ =>
  split
  · exact .refl
  split
  · exact .refl
  generalize (if decide (putOld = newRoot) = true then [pivotOld new.id]
    else putOld.drop newRoot.length) = old
  split
  · exact .refl
  · exact pivotTable_moves t ns newRoot old _ _

/-! ### Changing flags -/

theorem update_kept {addr : Nat} {f : Mount → Mount} (hk : LocksKept t) (ht : Distinct t)
    (hf : ∀ n ∈ t.mounts, n.addr = addr → Kept (f n)) (haddr : ∀ n, (f n).addr = n.addr)
    (hpoint : ∀ n, (f n).point = n.point) :
    LocksKept (t.update addr f) ∧ Distinct (t.update addr f) := by
  constructor
  · intro m hm
    rcases mem_map.mp hm with ⟨n, hn, rfl⟩
    split
    · next heq => exact hf n hn heq
    · exact hk n hn
  · have hmoves : Moves Mount.addr (fun _ => False) t (t.update addr f) :=
      moves_update t addr haddr hpoint
    exact distinct_moves (f := id) (fun _ => rfl) hmoves ht

theorem remount_kept {fails : Option Errno} (hk : LocksKept t) (ht : Distinct t) :
    LocksKept (remount t point flags fails).2 ∧ Distinct (remount t point flags fails).2 := by
  unfold remount
  split
  · exact ⟨hk, ht⟩
  next m hfind =>
  have hmem := mem_of_find?_eq_some hfind
  split
  · exact ⟨hk, ht⟩
  split
  · exact ⟨hk, ht⟩
  next hlocked =>
  refine update_kept hk ht (fun n hn haddr => ?_) (fun _ => rfl) fun _ => rfl
  rw [distinct_eq ht hn hmem haddr]
  have hkept := hk m hmem
  refine ⟨hkept.owed, hkept.masked, Within.trans (Within.and ?_ ?_) (within_or_right _ _)⟩
  · exact within_iff.mpr (not_not.mp hlocked)
  · exact Within.trans hkept.masked restrictions_within

/-- None of the mounts at some addresses has a lock on what is cleared. -/
def Clears (clear : BitVec 32) (t : Table) (tree : List Nat) : Prop :=
  ∀ m ∈ t.mounts, m.addr ∈ tree → Within m.lockedFlags (~~~clear)

theorem setattrOne_kept {set clear : BitVec 32} (type : Option Kind) {addr : Nat} {tree : List Nat}
    (hk : LocksKept t) (ht : Distinct t) (hclear : Clears clear t (addr :: tree)) :
    LocksKept (setattrOne set clear type t addr) ∧ Distinct (setattrOne set clear type t addr) ∧
      Clears clear (setattrOne set clear type t addr) tree := by
  unfold setattrOne
  generalize hu : t.update addr (fun m => { m with flags := (m.flags &&& ~~~clear) ||| set }) = u
  have hupdate : LocksKept u ∧ Distinct u := by
    subst hu
    refine update_kept hk ht (fun n hn haddr => ?_) (fun _ => rfl) fun _ => rfl
    have hkept := hk n hn
    exact ⟨hkept.owed, hkept.masked, Within.trans (Within.and hkept.shown
      (hclear n hn (haddr ▸ mem_cons_self))) (within_or_left _ _)⟩
  have hmoves : ∀ A : Mount → Prop, Moves fixed A u (setType u addr type) := by
    intro A
    cases type with
    | none => exact .refl
    | some type => exact setPropagations_moves u _ _
  refine ⟨kept_moves (hmoves _) hupdate.1, distinct_fixed (hmoves Kept) hupdate.2,
    fun m hm htree => ?_⟩
  rcases moves_mem (hmoves fun _ => False) m hm with ⟨n, hn, heq⟩ | ⟨_, hno, _⟩
  · simp only [fixed, Prod.mk.injEq] at heq
    rw [← hu] at hn
    rcases mem_map.mp hn with ⟨x, hx, rfl⟩
    have hsame : m.addr = x.addr ∧ m.lockedFlags = x.lockedFlags := by
      rw [heq.1, heq.2.2.1]
      split <;> exact ⟨rfl, rfl⟩
    rw [hsame.2]
    exact hclear x hx (mem_cons_of_mem _ (hsame.1 ▸ htree))
  · exact hno.elim

theorem setattr_kept {ns : Space} {set clear : BitVec 32}
    {type : Option Kind} (hk : LocksKept t) (ht : Distinct t) :
    LocksKept (mountSetattr t ns point recursive set clear type).2 ∧
      Distinct (mountSetattr t ns point recursive set clear type).2 := by
  have hall : ∀ (tree : List Nat) (t : Table), LocksKept t → Distinct t → Clears clear t tree →
      LocksKept (tree.foldl (setattrOne set clear type) t) ∧
        Distinct (tree.foldl (setattrOne set clear type) t) := by
    intro tree
    induction tree with
    | nil => exact fun t hk ht _ => ⟨hk, ht⟩
    | cons addr tree ih =>
      intro t hk ht hclear
      rcases setattrOne_kept type hk ht hclear with ⟨hk, ht, hclear⟩
      exact ih _ hk ht hclear
  unfold mountSetattr
  split
  · exact ⟨hk, ht⟩
  split
  · exact ⟨hk, ht⟩
  dsimp only
  split
  · exact ⟨hk, ht⟩
  next hno =>
  refine hall _ t hk ht fun m hm htree => within_iff.mpr ?_
  by_contra hlocked
  refine hno (any_eq_true.mpr ⟨m, hm, decide_eq_true ⟨htree, ?_⟩⟩)
  rwa [BitVec.not_not] at hlocked

/-! ### Runs -/

theorem exec_kept {ns : Space} {a : Action} (hk : LocksKept t) (ht : Distinct t)
    (hsafe : Safe t a) : LocksKept (exec t ns a).2 ∧ Distinct (exec t ns a).2 := by
  have hmoved : ∀ {u}, Moves fixed Kept t u → LocksKept u ∧ Distinct u := fun h =>
    ⟨kept_moves h hk, distinct_fixed h ht⟩
  cases a with
  | mount => exact hsafe.elim
  | bind source point flags recursive =>
    simp only [exec]
    split
    · exact hmoved (bind_moves ht hk hsafe)
    · exact ⟨hk, ht⟩
  | move source point =>
    simp only [exec]
    split
    · exact hmoved (move_moves ht hsafe)
    · exact ⟨hk, ht⟩
  | remount =>
    simp only [exec]
    split
    · exact remount_kept hk ht
    · exact ⟨hk, ht⟩
  | setattr => exact setattr_kept hk ht
  | change point type recursive =>
    simp only [exec]
    split
    · exact hmoved (change_moves t ns point type recursive)
    · exact ⟨hk, ht⟩
  | umount point lazy => exact hmoved (umount_moves t point lazy true)
  | pivotRoot newRoot putOld rooted => exact hmoved (pivot_moves t ns newRoot putOld rooted)
  | copyNs owner => exact hmoved (copyNs_moves hk ns owner)

/-- Locked flags are never lost in a run of safe calls: a mount has the flags that
    the mount it was made from was locked with. -/
theorem locks_kept {s t : Table} {tr : List (Table × Space × Action)} (hs : Distinct s)
    (hk : LocksKept s) (hr : Run Step s tr t) (hsafe : ∀ x ∈ tr, Safe x.1 x.2.2) :
    ∀ m ∈ t.mounts, Within m.derived m.flags := by
  have hrun : LocksKept t ∧ Distinct t := by
    refine run_invariant (fun t => LocksKept t ∧ Distinct t) hr ⟨hk, hs⟩
      fun u a v hmem hu hstep => ?_
    rw [← step_exec hstep]
    exact exec_kept hu.1 hu.2 (hsafe _ hmem)
  exact fun m hm => Within.trans (hrun.1 m hm).owed (hrun.1 m hm).shown

/-- A table with a root and a mount that is only for reading. -/
def readonlyTable : Table where
  mounts := [{ newMount ⟨[], 1, 3, 0, 1, []⟩ [['d']] 1 with addr := 1 },
    newMount ⟨[], 0, 2, 0, 1, []⟩ [] 0]
  nextAddr := 2
  nextMountId := 4
  nextStagingId := 0
  nextPeerGroup := 1
  spaces := []

/-- The copy of the namespace for another user namespace. -/
def copySpace : Space := ⟨stagingPoint readonlyTable, 1⟩

/-- A directory of the copy. -/
def inCopy (rest : Place) : Place := copySpace.root ++ rest

/-- Calls that are safe to look at: a bind is not recursive and not on a shared mount. -/
def plainly (t : Table) : Action → Bool
  | .bind source point flags recursive =>
    let u := (bindAttach t source point flags recursive).2
    !recursive && ((topAt u point).bind (mountParent u)).all fun m => m.sharedId = 0
  | .change .. | .copyNs _ | .remount .. => true
  | _ => false

theorem safe_plainly {a : Action} (h : plainly t a = true) : Safe t a := by
  cases a with
  | bind source point flags recursive =>
    simp only [plainly, Bool.and_eq_true, Bool.not_eq_true', Option.all_eq_true,
      decide_eq_true_eq] at h
    refine ⟨.inl fun u hu parent hparent => h.2 parent ?_, fun hrec => ?_⟩
    · rw [hu]
      exact hparent
    · rw [h.1] at hrec
      cases hrec
  | change | copyNs | remount => trivial
  | _ => cases h

/-- A bind of a locked mount in a copied namespace, where another mount is shared. -/
theorem locks_kept_bind : ∃ (t : Table) (tr : List (Table × Space × Action)),
    Run Step readonlyTable tr t ∧ (∃ m ∈ t.mounts, m.derived ≠ 0) ∧
      ∀ m ∈ t.mounts, Within m.derived m.flags := by
  have hval : (runActions call readonlyTable [(initSpace, .copyNs 1),
      (copySpace, .bind (inCopy [['s']]) (inCopy [['p']]) 0 false),
      (copySpace, .change (inCopy [['p']]) .shared false),
      (copySpace, .bind (inCopy [['d']]) (inCopy [['e']]) 0 false)]).map (fun r =>
      (r.1.all fun x => plainly x.1 x.2.2, r.2.mounts.any fun m => m.derived ≠ 0)) =
      some (true, true) := by
    decide +kernel
  rcases Option.map_eq_some_iff.mp hval with ⟨⟨tr, t⟩, htr, hval⟩
  simp only [Prod.mk.injEq, all_eq_true, any_eq_true, decide_eq_true_eq] at hval
  have hrun := run_of_runActions _ _ _ _ htr
  have hkept : LocksKept readonlyTable := by
    intro m hm
    have hzero : m.lockedFlags = 0 ∧ m.derived = 0 :=
      (by decide : ∀ m ∈ readonlyTable.mounts, m.lockedFlags = 0 ∧ m.derived = 0) m hm
    exact ⟨within_of_eq_zero hzero.2, within_of_eq_zero hzero.1, within_of_eq_zero hzero.1⟩
  exact ⟨t, tr, hrun, hval.2, locks_kept ⟨by decide, by decide, by decide⟩ hkept hrun
    fun x hx => safe_plainly (hval.1 x hx)⟩

/-- A lock that is lost: a bind of the locked mount under a shared mount has a copy
    under the peer of that, and the copy can be made writable. -/
theorem lock_lost : ∃ (t : Table) (tr : List (Table × Space × Action)),
    Run Step readonlyTable tr t ∧ ∃ m ∈ t.mounts, m.derived = 1 ∧ m.flags = 0 := by
  have hval : (runActions call readonlyTable [(initSpace, .copyNs 1),
      (copySpace, .bind (inCopy [['s']]) (inCopy [['p']]) 0 false),
      (copySpace, .change (inCopy [['p']]) .shared false),
      (copySpace, .bind (inCopy [['p']]) (inCopy [['q']]) 0 false),
      (copySpace, .bind (inCopy [['d']]) (inCopy [['p'], ['d']]) 0 false),
      (copySpace, .remount (inCopy [['q'], ['d']]) 0 none)]).map (fun r =>
      r.2.mounts.any fun m => decide (m.derived = 1 ∧ m.flags = 0)) = some true := by
    decide +kernel
  rcases Option.map_eq_some_iff.mp hval with ⟨⟨tr, t⟩, htr, hval⟩
  simp only [any_eq_true, decide_eq_true_eq] at hval
  exact ⟨t, tr, run_of_runActions _ _ _ _ htr, hval⟩

end

end IshAok.Mounts
