import IshAok.Core.MountCalls
import IshAok.Base.Run
import Mathlib.Data.List.Perm.Subperm

/-!
# Moves of the Mount Table

What the calls on the mount table can do, said once. They take mounts away or
put them elsewhere, they add new ones, and they count. `Moves key A` is any number
of these, with `A` for the mounts that are added and `key` for what is kept.
Whatever else a call changes about a mount, it keeps what `fixed` lists: the
object, its number, and unless the call is for that its flags and locks.

## Main definitions

* `fixed`: What a move keeps of a mount.
* `Moves`: Any number of moves.
* `Distinct`: Mounts are told apart by their addresses.

## Theorems

* `uncover_moves`, `cover_moves`, `umount_moves`, `propagateAt_moves`: Calls are moves.
* `moves_mem`: A mount was there before, or it was added.
* `distinct_moves`: Moves keep mounts apart.
-/

namespace IshAok.Mounts

open Base List

/-- Any number of moves that keep a part of every mount. -/
inductive Moves {κ : Type*} (key : Mount → κ) (A : Mount → Prop) (t : Table) : Table → Prop
  | refl : Moves key A t t
  | shrink {u : Table} (h : Moves key A t u) {l : List Mount}
      (hl : (l.map key).Subperm (u.mounts.map key))
      (hsorted : u.mounts.Pairwise Longer → l.Pairwise Longer) :
      Moves key A t { u with mounts := l }
  | add {u : Table} (h : Moves key A t u) {m : Mount} (haddr : m.addr = u.nextAddr) (hA : A m) :
      Moves key A t (u.add m)
  | count {u : Table} (h : Moves key A t u) (staging group spaces) :
      Moves key A t { u with nextStagingId := staging, nextPeerGroup := group, spaces := spaces }

/-- A part of a mount that covering leaves alone. -/
structure Steady {κ : Type*} (key : Mount → κ) : Prop where
  covering : ∀ m point coveredBy coveredPoint detached, key { m with
    point := point
    coveredBy := coveredBy
    coveredPoint := coveredPoint
    detached := detached } = key m

/-- What every call keeps of a mount, unless it is for the flags. -/
def fixed (m : Mount) : Nat × BitVec 32 × BitVec 32 × BitVec 32 :=
  (m.addr, m.flags, m.lockedFlags, m.derived)

/-- Mounts are told apart by their addresses, and the list is in order. -/
structure Distinct (t : Table) : Prop where
  sorted : t.mounts.Pairwise Longer
  nodup : (t.mounts.map Mount.addr).Nodup
  fresh : ∀ m ∈ t.mounts, m.addr < t.nextAddr

instance : IsTrans Mount Longer := ⟨fun _ _ _ h h' => Nat.le_trans h' h⟩

instance : Std.Total Longer := ⟨fun m n => Nat.le_total (pointLen n.point) (pointLen m.point)⟩

section

variable {κ : Type*} {key : Mount → κ} {A : Mount → Prop} {t u v : Table} {l : List Mount}
  {m n : Mount}

/-! ### What follows from moves -/

theorem moves_trans (h : Moves key A t u) (h' : Moves key A u v) : Moves key A t v := by
  induction h' with
  | refl => exact h
  | shrink _ hl hsorted ih => exact .shrink ih hl hsorted
  | add _ haddr hA ih => exact .add ih haddr hA
  | count _ a b c ih => exact .count ih a b c

theorem moves_nextAddr (h : Moves key A t u) : t.nextAddr ≤ u.nextAddr := by
  induction h with
  | refl => exact Nat.le_refl _
  | shrink _ _ _ ih | count _ _ _ _ ih => exact ih
  | add _ _ _ ih => exact Nat.le_succ_of_le ih

/-- A mount was there before, or it was added. -/
theorem moves_mem (h : Moves key A t u) : ∀ m ∈ u.mounts,
    (∃ n ∈ t.mounts, key m = key n) ∨ ∃ n, A n ∧ t.nextAddr ≤ n.addr ∧ key m = key n := by
  induction h with
  | refl => exact fun m hm => .inl ⟨m, hm, rfl⟩
  | @shrink u _ l hl _ ih =>
    intro m hm
    rcases mem_map.mp (hl.subset (mem_map_of_mem hm)) with ⟨n, hn, heq⟩
    rw [← heq]
    exact ih n hn
  | @add u h m haddr hA ih =>
    intro n hn
    rcases (mem_orderedInsert Longer).mp hn with rfl | hn
    · exact .inr ⟨n, hA, haddr ▸ moves_nextAddr h, rfl⟩
    · exact ih n hn
  | count _ _ _ _ ih => exact ih

theorem subperm_map {α β : Type*} (f : α → β) {l l' : List α} (h : l.Subperm l') :
    (l.map f).Subperm (l'.map f) := by
  rcases h with ⟨l'', hperm, hsub⟩
  exact ⟨l''.map f, hperm.map f, hsub.map f⟩

/-- Moves keep mounts apart. -/
theorem distinct_moves {f : κ → Nat} (hf : ∀ m, f (key m) = m.addr) (h : Moves key A t u)
    (ht : Distinct t) : Distinct u := by
  have hmap : ∀ l : List Mount, l.map Mount.addr = (l.map key).map f := by
    intro l
    rw [map_map]
    exact map_congr_left fun m _ => (hf m).symm
  induction h with
  | refl => exact ht
  | @shrink u _ l hl hsorted ih =>
    have hsub : (l.map Mount.addr).Subperm (u.mounts.map Mount.addr) := by
      rw [hmap, hmap]
      exact subperm_map _ hl
    refine ⟨hsorted ih.sorted, ?_, fun m hm => ?_⟩
    · rcases hsub with ⟨l', hperm, hsublist⟩
      exact hperm.nodup_iff.mp (ih.nodup.sublist hsublist)
    · rcases mem_map.mp (hsub.subset (mem_map_of_mem hm)) with ⟨n, hn, heq⟩
      rw [← heq]
      exact ih.fresh n hn
  | @add u _ m haddr _ ih =>
    have hperm := (perm_orderedInsert Longer m u.mounts).map Mount.addr
    refine ⟨ih.sorted.orderedInsert m _,
      hperm.nodup_iff.mpr (nodup_cons.mpr ⟨fun hmem => ?_, ih.nodup⟩), fun n hn => ?_⟩
    · rcases mem_map.mp hmem with ⟨n, hn, heq⟩
      have := ih.fresh n hn
      omega
    · show n.addr < u.nextAddr + 1
      rcases (mem_orderedInsert Longer).mp hn with rfl | hn
      · omega
      have := ih.fresh n hn
      omega
  | count _ _ _ _ ih => exact ⟨ih.sorted, ih.nodup, ih.fresh⟩

theorem distinct_fixed (h : Moves fixed A t u) (ht : Distinct t) : Distinct u :=
  distinct_moves (f := Prod.fst) (fun _ => rfl) h ht

/-- With distinct addresses an address is one mount. -/
theorem distinct_eq (ht : Distinct t) (hm : m ∈ t.mounts) (hn : n ∈ t.mounts)
    (h : m.addr = n.addr) : m = n :=
  inj_on_of_nodup_map ht.nodup hm hn h

/-! ### Primitive moves -/

theorem moves_map (t : Table) {f : Mount → Mount} (hf : ∀ m, key (f m) = key m)
    (hpoint : ∀ m, (f m).point = m.point) : Moves key A t { t with mounts := t.mounts.map f } := by
  refine .shrink .refl (List.Perm.subperm (List.Perm.of_eq ?_)) fun h => pairwise_map.mpr ?_
  · rw [map_map]
    exact map_congr_left fun m _ => hf m
  · exact h.imp fun {m n} hmn => by rwa [Longer, hpoint, hpoint]

theorem moves_update (t : Table) (addr : Nat) {f : Mount → Mount}
    (hf : ∀ m, key (f m) = key m) (hpoint : ∀ m, (f m).point = m.point) :
    Moves key A t (t.update addr f) := by
  refine moves_map t (fun m => ?_) fun m => ?_
  · split
    · exact hf m
    · rfl
  · split
    · exact hpoint m
    · rfl

theorem moves_remove (t : Table) (addr : Nat) : Moves key A t (t.remove addr) :=
  .shrink .refl ((filter_sublist).map _).subperm fun h => h.sublist filter_sublist

theorem moves_staged (t : Table) : Moves key A t t.staged :=
  .count .refl _ _ _

theorem moves_put (hn : n ∈ t.mounts) (haddr : m.addr = n.addr)
    (hkey : key m = key n) : Moves key A t (t.put m) := by
  refine .shrink .refl ?_ fun h => (h.sublist filter_sublist).orderedInsert m _
  have hperm := (perm_orderedInsert Longer m (listRemove m.addr t.mounts)).map key
  refine hperm.subperm.trans ?_
  rw [map_cons, hkey, ← map_cons]
  refine subperm_map key ?_
  -- The mount itself is among those that are taken out.
  have hone : [n].Subperm (t.mounts.filter fun x => !decide (x.addr ≠ m.addr)) :=
    singleton_subperm_iff.mpr (mem_filter.mpr ⟨hn, by simp [haddr]⟩)
  exact (hone.append (List.Subperm.refl (listRemove m.addr t.mounts))).trans
    (perm_append_comm.trans (filter_append_perm _ _)).subperm

theorem moves_relocate (hk : Steady key) (t : Table) (addr : Nat) (point : Place) :
    Moves key A t (t.relocate addr point) := by
  unfold Table.relocate
  split
  · exact .refl
  · next m hget => exact moves_put (mem_of_find?_eq_some hget) rfl (hk.covering m _ _ _ _)

theorem get_mem {addr : Nat} (h : t.get addr = some m) : m ∈ t.mounts ∧ m.addr = addr := by
  have hfound := List.find?_some h
  exact ⟨mem_of_find?_eq_some h, of_decide_eq_true hfound⟩

/-! ### Covering -/

section

variable (hk : Steady key)

include hk

theorem park_moves (id : Int) (hm : m ∈ t.mounts) : Moves key A t (park t id m) := by
  refine moves_trans ?_ (moves_staged _)
  exact moves_put hm rfl (hk.covering m _ _ _ _)

theorem coverLoop_moves (top : Mount) (olderThan : Int) :
    ∀ turns t, Moves key A t (coverLoop turns t top olderThan) := by
  intro turns
  induction turns with
  | zero => exact fun _ => .refl
  | succ turns ih =>
    intro t
    rw [coverLoop]
    split
    · exact .refl
    next below hfind =>
    exact moves_trans (park_moves hk top.id (mem_of_find?_eq_some hfind)) (ih _)

theorem cover_moves (t : Table) (top : Mount) (olderThan : Int) :
    Moves key A t (mountCoverBelow t top olderThan) :=
  coverLoop_moves hk top olderThan _ t

theorem coverAt_moves (t : Table) (point : Place) (keepNewer : Bool) :
    Moves key A t (mountCoverAt t point keepNewer) := by
  unfold mountCoverAt
  split
  · exact .refl
  · exact cover_moves hk t _ _

theorem unpark_moves (hm : m ∈ t.mounts) : Moves key A t (unpark t m) := by
  unfold unpark
  split
  · split
    · exact moves_update t _ (fun m => hk.covering m _ 0 _ _) fun _ => rfl
    · exact moves_put hm rfl (hk.covering m _ _ _ _)
  · exact moves_update t _ (fun m => hk.covering m _ 0 _ _) fun _ => rfl

theorem uncoverLoop_moves (id : Int) : ∀ turns t, Moves key A t (uncoverLoop turns t id) := by
  intro turns
  induction turns with
  | zero => exact fun _ => .refl
  | succ turns ih =>
    intro t
    rw [uncoverLoop]
    split
    · exact .refl
    next under hfind =>
    exact moves_trans (unpark_moves hk (mem_of_find?_eq_some hfind)) (ih _)

theorem uncover_moves (t : Table) (top : Mount) : Moves key A t (mountUncover t top) := by
  unfold mountUncover
  split
  · exact .refl
  · exact uncoverLoop_moves hk _ _ t

end

theorem steady_fixed : Steady fixed := ⟨fun _ _ _ _ _ => rfl⟩

/-! ### Taking mounts away -/

theorem leaveGroup_moves (t : Table) (m : Mount) : Moves fixed A t (mountLeaveGroup t m) := by
  unfold mountLeaveGroup
  dsimp only
  split
  · exact .refl
  have hleft : Moves fixed A t (t.update m.addr fun m => { m with sharedId := 0 }) :=
    moves_update t _ (fun _ => rfl) fun _ => rfl
  split
  · exact hleft
  refine moves_trans hleft (moves_map _ (fun x => ?_) fun x => ?_)
  · split <;> rfl
  · split <;> rfl

theorem letGo_moves (t : Table) (m : Mount) : Moves fixed A t (letGo t m) := by
  unfold letGo
  split
  · exact .refl
  · exact moves_update t _ (fun _ => rfl) fun _ => rfl

theorem destroyLoop_moves : ∀ more t m, Moves fixed A t (destroyLoop more t m) := by
  intro more
  induction more with
  | zero => exact fun _ _ => .refl
  | succ more ih =>
    intro t m
    have hone : Moves fixed A t ((letGo (mountLeaveGroup (mountUncover t m) m) m).remove m.addr) :=
      moves_trans (moves_trans (moves_trans (uncover_moves steady_fixed t m)
        (leaveGroup_moves _ m)) (letGo_moves _ m)) (moves_remove _ _)
    rw [destroyLoop]
    split
    · exact hone
    split
    · exact moves_trans hone (ih _ _)
    · exact hone

theorem destroy_moves (t : Table) (m : Mount) : Moves fixed A t (mountDestroy t m) :=
  destroyLoop_moves _ t m

theorem remove_moves (t : Table) (m : Mount) : Moves fixed A t (mountRemove t m).2 := by
  unfold mountRemove
  split
  · exact .refl
  · exact destroy_moves t m

theorem detachBusy_moves (t : Table) (m : Mount) : Moves fixed A t (detachBusy t m) := by
  have hleft : Moves fixed A t ((mountLeaveGroup (mountUncover t m) m).update m.addr
      fun m => { m with masterId := 0, lazyUmount := true, detached := true }) :=
    moves_trans (moves_trans (uncover_moves steady_fixed t m) (leaveGroup_moves _ m))
      (moves_update _ _ (fun _ => rfl) fun _ => rfl)
  unfold detachBusy
  split
  · exact hleft
  split
  · exact moves_trans (moves_trans hleft (moves_remove _ _)) (moves_staged _)
  · exact moves_trans (moves_trans hleft (moves_relocate steady_fixed _ _ _)) (moves_staged _)

theorem detachOne_moves (t : Table) (m : Mount) : Moves fixed A t (mountDetachOne t m) := by
  unfold mountDetachOne
  split
  · exact destroy_moves t m
  · exact detachBusy_moves t m

theorem detachLoop_moves (point : Place) :
    ∀ turns t, Moves fixed A t (detachLoop turns t point) := by
  intro turns
  induction turns with
  | zero => exact fun _ => .refl
  | succ turns ih =>
    intro t
    rw [detachLoop]
    split
    · exact .refl
    · exact moves_trans (detachOne_moves t _) (ih _)

theorem removeLazy_moves (t : Table) (m : Mount) : Moves fixed A t (mountRemoveLazy t m) := by
  have hbelow : Moves fixed A t (mountDetachBelow t m.point) := detachLoop_moves _ _ t
  unfold mountRemoveLazy
  dsimp only
  split
  · exact hbelow
  · exact moves_trans hbelow (detachOne_moves _ _)

/-! ### Unmounting -/

theorem umountOne_moves (t : Table) (m : Mount) (lazy : Bool) :
    Moves fixed A t (doUmountOne t m lazy).2 := by
  unfold doUmountOne
  split
  · exact removeLazy_moves t m
  split
  · exact removeLazy_moves t m
  · exact remove_moves t m

theorem umountSet_moves (lazy : Bool) (addr : Nat) (r : Option Errno × Table) (m : Mount) :
    Moves fixed A r.2 (umountSet lazy addr r m).2 := by
  unfold umountSet
  split
  · exact .refl
  split
  · exact .refl
  · exact umountOne_moves _ _ _

/-- A fold whose steps are moves. -/
theorem moves_foldl {β σ : Type*} {f : σ → β → σ} (table : σ → Table) (l : List β) (s : σ)
    (hf : ∀ r, Moves key A (table s) (table r) → ∀ x ∈ l, Moves key A (table r) (table (f r x))) :
    Moves key A (table s) (table (l.foldl f s)) :=
  foldlRecOn (motive := fun r => Moves key A (table s) (table r)) l f .refl
    fun r h x hx => moves_trans h (hf r h x hx)

theorem umount_moves (t : Table) (point : Place) (lazy guest : Bool) :
    Moves fixed A t (doUmountFlags t point lazy guest).2 := by
  unfold doUmountFlags
  split
  · exact .refl
  dsimp only
  split
  · exact .refl
  split
  · exact umountOne_moves _ _ _
  split
  · exact .refl
  · exact moves_foldl Prod.snd _ (none, t) fun r _ m _ => umountSet_moves lazy _ r m

/-! ### Propagation -/

theorem setPropagation_moves (t : Table) (m : Mount) (type : Kind) :
    Moves fixed A t (mountSetPropagation t m type) := by
  have hgroup : Moves fixed A t
      { t.update m.addr fun m => { m with sharedId := t.nextPeerGroup } with
        nextPeerGroup := nextInt t.nextPeerGroup } := by
    refine .count ?_ _ _ _
    exact moves_update t m.addr (fun _ => rfl) fun _ => rfl
  refine moves_trans ?_ (moves_update _ _ (fun _ => rfl) fun _ => rfl)
  cases type with
  | shared =>
    dsimp only
    split
    · exact hgroup
    · exact .refl
  | slave =>
    dsimp only
    split
    · exact moves_trans (leaveGroup_moves t m) (moves_update _ _ (fun _ => rfl) fun _ => rfl)
    · exact leaveGroup_moves t m
  | «private» =>
    exact moves_trans (leaveGroup_moves t m) (moves_update _ _ (fun _ => rfl) fun _ => rfl)
  | unbindable =>
    exact moves_trans (leaveGroup_moves t m) (moves_update _ _ (fun _ => rfl) fun _ => rfl)

theorem setPropagations_moves (t : Table) (addrs : List Nat) (type : Kind) :
    Moves fixed A t (setPropagations t addrs type) := by
  refine moves_foldl id addrs t fun t _ addr _ => ?_
  split
  · exact .refl
  · exact setPropagation_moves t _ type

theorem change_moves (t : Table) (ns : Space) (point : Place) (type : Kind) (recursive : Bool) :
    Moves fixed A t (mountChangePropagation t ns point type recursive).2 := by
  unfold mountChangePropagation
  split
  · exact .refl
  · exact setPropagations_moves t _ type

theorem hold_moves (t : Table) (origin : Nat) : Moves fixed A t (t.hold origin) :=
  moves_update t origin (fun _ => rfl) fun _ => rfl

theorem addBind_moves (t : Table) (origin : Nat) (haddr : m.addr = t.nextAddr)
    (hA : A { m with bindOrigin := some origin }) :
    Moves fixed A t (t.addBind origin m) :=
  .add (hold_moves t origin) haddr hA

theorem arrivalLock_cases (source dest : Option Space) (flags : BitVec 32) :
    arrivalLock source dest flags = 0 ∨ arrivalLock source dest flags = flags &&& restrictions := by
  unfold arrivalLock
  split
  · split
    · exact .inr rfl
    · exact .inl rfl
  · exact .inl rfl

/-- Copies of a mount may be added. -/
def Copies (A : Mount → Prop) (m : Mount) : Prop :=
  ∀ n : Mount, n.flags = m.flags → (n.lockedFlags = 0 ∨ n.lockedFlags = m.flags &&& restrictions) →
    n.derived = m.lockedFlags → A n

/-- The mount at an address is there, and its copies may be added. -/
def CopiesAt (A : Mount → Prop) (t : Table) (addr : Nat) : Prop :=
  addr < t.nextAddr ∧ ∀ m ∈ t.mounts, m.addr = addr → Copies A m

theorem copiesAt_moves {addr : Nat} (h : Moves fixed A t u) (ht : CopiesAt A t addr) :
    CopiesAt A u addr := by
  refine ⟨Nat.lt_of_lt_of_le ht.1 (moves_nextAddr h), fun m hm haddr => ?_⟩
  rcases moves_mem h m hm with ⟨n, hn, heq⟩ | ⟨n, _, hle, heq⟩
  · simp only [fixed, Prod.mk.injEq] at heq
    have hcopies := ht.2 n hn (heq.1.symm.trans haddr)
    unfold Copies at hcopies ⊢
    rw [heq.2.1, heq.2.2.1]
    exact hcopies
  · have : m.addr = n.addr := congrArg Prod.fst heq
    have := ht.1
    omega

theorem propagateTo_moves (parent addr : Nat) (ns : Option Space) (t : Table) (x : Target)
    (hA : CopiesAt A t addr) : Moves fixed A t (propagateTo parent addr ns t x) := by
  unfold propagateTo
  split
  · next p m r _ hm _ =>
    rcases get_mem hm with ⟨hmem, haddr⟩
    have hcopy := hA.2 m hmem haddr
    split
    · exact .refl
    split
    · exact .refl
    dsimp only
    split
    · refine moves_trans (moves_staged t) ?_
      exact addBind_moves _ _ rfl (hcopy _ rfl (arrivalLock_cases _ _ _) rfl)
    refine moves_trans ?_ (cover_moves steady_fixed _ _ _)
    exact addBind_moves _ _ rfl (hcopy _ rfl (arrivalLock_cases _ _ _) rfl)
  · exact .refl

theorem propagate_moves (t : Table) (parent addr : Nat) (hA : CopiesAt A t addr) :
    Moves fixed A t (mountPropagate t parent addr) := by
  unfold mountPropagate
  split
  · next p m _ hm =>
    rcases get_mem hm with ⟨_, rfl⟩
    split
    · exact .refl
    -- The mount is shared from here on.
    have hgroup : ∀ (group next : Int), Moves fixed A t
        { t.update m.addr fun m => { m with sharedId := group, unbindable := false }
          with nextPeerGroup := next } := by
      intro group next
      refine .count ?_ _ _ _
      exact moves_update t m.addr (fun _ => rfl) fun _ => rfl
    have hcount := hgroup (if m.sharedId = 0 then t.nextPeerGroup else m.sharedId)
      (mountPropagationTargets { t.update m.addr fun n => { n with
          sharedId := if m.sharedId = 0 then t.nextPeerGroup else m.sharedId
          unbindable := false } with
        nextPeerGroup := if m.sharedId = 0 then nextInt t.nextPeerGroup else t.nextPeerGroup }
        p (if m.sharedId = 0 then t.nextPeerGroup else m.sharedId) m.masterId).2
    exact moves_trans hcount (moves_foldl id _ _ fun u hu x _ =>
      propagateTo_moves _ _ _ u x (copiesAt_moves hu (copiesAt_moves hcount hA)))
  · exact .refl

theorem propagates_moves (parent : Nat) {addrs : List Nat} (hA : ∀ a ∈ addrs, CopiesAt A t a) :
    Moves fixed A t (addrs.foldl (fun t m => mountPropagate t parent m) t) :=
  moves_foldl id addrs t fun u hu a ha => propagate_moves u parent a (copiesAt_moves hu (hA a ha))

/-- What a mount is on is not shared, so that nothing is propagated. -/
def OnPrivate (t : Table) (made : Table → Option Mount) : Prop :=
  ∀ parent, (made t).bind (mountParent t) = some parent → parent.sharedId = 0

theorem propagateAt_moves (t : Table) (point : Place) (newer : Bool)
    (hA : OnPrivate t (topAt · point) ∨
      ∀ m ∈ t.mounts, point <+: m.point → CopiesAt A t m.addr) :
    Moves fixed A t (mountPropagateAt t point newer) := by
  unfold mountPropagateAt
  split
  · exact .refl
  next top htop =>
  split
  · exact .refl
  next parent hparent =>
  split
  · exact .refl
  next hshared =>
  rcases hA with hprivate | hA
  · exact absurd (hprivate parent (Option.bind_eq_some_iff.mpr ⟨top, htop, hparent⟩)) hshared
  rw [← foldl_cons]
  refine propagates_moves _ fun a ha => ?_
  rcases mem_cons.mp ha with rfl | ha
  · have hfound := List.find?_some htop
    simp only [Bool.and_eq_true, decide_eq_true_eq] at hfound
    exact hA top (mem_of_find?_eq_some htop) (hfound.2 ▸ prefix_refl _)
  · rcases mem_map.mp ha with ⟨m, hm, rfl⟩
    rcases mem_filter.mp hm with ⟨hm, hbelow⟩
    simp only [Bool.and_eq_true, mountPointBelow, decide_eq_true_eq] at hbelow
    exact hA m (mem_reverse.mp hm) hbelow.2.1

theorem propagateTree_moves (t : Table) (top : Nat) (subs : List Nat)
    (hA : OnPrivate t (·.get top) ∨ ∀ a ∈ top :: subs, CopiesAt A t a) :
    Moves fixed A t (mountPropagateTree t top subs) := by
  unfold mountPropagateTree
  split
  · exact .refl
  next parent hparent =>
  split
  · exact .refl
  next hshared =>
  rcases hA with hprivate | hA
  · exact absurd (hprivate parent hparent) hshared
  rw [← foldl_cons]
  refine propagates_moves _ fun a ha => hA a ?_
  rcases mem_cons.mp ha with rfl | ha
  · exact mem_cons_self
  · exact mem_cons_of_mem _ (mem_reverse.mp ha)

/-! ### Moving -/

theorem replaceCovered_steady (hk : Steady key) (subs : List Mount) (old new : Place) (m : Mount) :
    key (replaceCovered subs old new m) = key m := by
  unfold replaceCovered
  split
  · rfl
  split
  · exact hk.covering m _ _ _ _
  · rfl

theorem place_moves (hk : Steady key) (t : Table) (subs : List Mount) (old new : Place) :
    Moves key A t (mountSubtreePlace t subs old new) := by
  refine moves_trans (moves_map t (replaceCovered_steady hk subs old new) fun m => ?_) ?_
  · unfold replaceCovered
    split
    · rfl
    · split <;> rfl
  refine moves_foldl id subs _ fun t _ sub _ => ?_
  exact moves_trans (moves_relocate hk _ _ _) (moves_update _ _ (fun m => hk.covering m _ _ _ false)
    fun _ => rfl)

theorem collect_moves (hk : Steady key) {subs : List Mount} {top : Nat} {old new : Place}
    (h : mountSubtreeCollect t top old new = .ok (subs, u)) :
    Moves key A t u ∧ subs = t.mounts.filter (movesWith top old) := by
  unfold mountSubtreeCollect at h
  dsimp only at h
  split at h
  · cases h
    refine ⟨moves_map t (fun m => ?_) fun m => ?_, rfl⟩
    · split
      · exact hk.covering m _ _ _ true
      · rfl
    · split <;> rfl
  · cases h

/-! ### Binding -/

theorem doBind_cases (t : Table) (source point : Place) (flags : BitVec 32) :
    ((doBindMount t source point flags).2 = t ∧ (doBindMount t source point flags).1 ≠ none) ∨
      ∃ holder, mountFind t source = some holder ∧ doBindMount t source point flags = (none,
        t.addBind holder.fsOrigin { newMount t point flags with
          bindPrefix := holder.bindPrefix ++ source.drop holder.point.length
          sharedId := holder.sharedId
          masterId := holder.masterId
          derived := holder.lockedFlags }) := by
  unfold doBindMount
  split
  · exact .inl ⟨rfl, Option.some_ne_none _⟩
  next holder hfind =>
  dsimp only
  split
  · exact .inl ⟨rfl, Option.some_ne_none _⟩
  split
  · exact .inl ⟨rfl, Option.some_ne_none _⟩
  · exact .inr ⟨holder, hfind, rfl⟩

section

variable (ht : Distinct t)

include ht

theorem distinct_doBind (source point : Place) (flags : BitVec 32) :
    Distinct (doBindMount t source point flags).2 := by
  rcases doBind_cases t source point flags with ⟨heq, _⟩ | ⟨holder, _, heq⟩
  · rw [heq]
    exact ht
  rw [heq]
  exact distinct_fixed (A := fun _ => True) (addBind_moves t _ rfl trivial) ht

theorem distinct_setLock (point : Place) (locked : Bool)
    (lockedFlags : BitVec 32) : Distinct (mountSetLockAt t point locked lockedFlags) := by
  unfold mountSetLockAt
  split
  · exact ht
  next m _ =>
  have hmoves : Moves Mount.addr (fun _ => True) t (t.update m.addr fun m =>
    { m with locked := locked, lockedFlags := lockedFlags }) :=
    moves_update t _ (fun _ => rfl) fun _ => rfl
  exact distinct_moves (f := id) (fun _ => rfl) hmoves ht

theorem distinct_replicate (source point : Place) (flags : BitVec 32) :
    Distinct (bindReplicateSubmounts t source point flags) := by
  unfold bindReplicateSubmounts
  generalize replicated t source point = subs
  induction subs generalizing t with
  | nil => exact ht
  | cons sub subs ih =>
    refine ih ?_
    unfold replicate
    dsimp only
    split
    · have hbind := distinct_doBind ht sub.point (rebase source point sub.point)
        (flags ||| sub.lockedFlags)
      split
      · exact ht
      next heq =>
      rw [heq] at hbind
      split
      · exact distinct_setLock hbind _ _ _
      · exact hbind
    · exact ht

theorem distinct_attach (source point : Place) (flags : BitVec 32)
    (recursive : Bool) : Distinct (bindAttach t source point flags recursive).2 := by
  unfold bindAttach
  split
  · exact ht
  have hbind := distinct_doBind ht source point
    ((flags &&& msFlags) ||| mountLockedFlagsAt t source)
  dsimp only
  split
  · exact ht
  next u heq =>
  rw [heq] at hbind
  have hlock : Distinct (if mountLockedFlagsAt t source ≠ 0 then
      mountSetLockAt u point false (mountLockedFlagsAt t source) else u) := by
    split
    · exact distinct_setLock hbind _ _ _
    · exact hbind
  generalize (if mountLockedFlagsAt t source ≠ 0 then
      mountSetLockAt u point false (mountLockedFlagsAt t source) else u) = w at hlock
  have hsubs : Distinct (if recursive = true then
      bindReplicateSubmounts w source point (flags &&& msFlags) else w) := by
    split
    · exact distinct_replicate hlock _ _ _
    · exact hlock
  exact distinct_fixed (A := fun _ => True) (coverAt_moves steady_fixed _ point true) hsubs

theorem distinct_bind (source point : Place) (flags : BitVec 32)
    (recursive : Bool) : Distinct (bindMount t source point flags recursive).2 := by
  have hattach := distinct_attach ht source point flags recursive
  unfold bindMount
  split
  · exact ht
  next u heq =>
  rw [heq] at hattach
  exact distinct_fixed (A := fun _ => True) (propagateAt_moves _ point recursive
    (.inr fun m hm _ => ⟨hattach.fresh m hm, fun _ _ _ _ _ _ _ => trivial⟩)) hattach

end

end

end IshAok.Mounts
