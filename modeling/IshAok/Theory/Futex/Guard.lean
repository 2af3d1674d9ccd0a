import IshAok.Theory.Futex.Frame

/-!
# Who Owns a Lock

A lock is a word of memory that the kernel and the tasks change together. What
keeps it exclusive is one fact: the word names every live task that owns it. Two
owners would then have the same number. A task owns the lock from the moment it is
handed over, so a task that has not run since is an owner already.

The kernel reads the word, lets go of its own lock, and comes back with what it
read in two places: `futexLockPi` when it looks for the owner, and
`robust_handle_death` between its read and its write. `Undisturbed` says that what
was read is still so when it comes back. Everything else keeps the invariant
without a condition, and that is where the work is: a lock that is taken while it
is free, that is handed over, and that is left.

The flag for waiters is the other half. It is set whenever a task is on the queue,
since otherwise the owner would unlock without a call.

## Main definitions

* `LockInv`: The word names every owner, and its flag covers the queue.
* `Undisturbed`: A step that comes back to a word finds it as it was.

## Theorems

* `lockInv_modifyTask`, `lockInv_modifyObj`, `lockInv_storeWord`: The small changes.
* `closed_lockInv`: Operations without locks keep the invariant.
* `lockInv_leave`, `lockInv_loop`, `lockInv_looked`: The parts of `futexLockPi`.
* `lockInv_unlockPi`: A release and a handover.
* `lockInv_step`: An undisturbed step keeps the invariant.
-/

namespace IshAok.Futex

open List Function BitVec Bool

variable {K T : Type}

section Bits

theorem or_and (a b c : BitVec 32) : (a ||| b) &&& c = a &&& c ||| b &&& c := by
  ext i hi
  simp only [BitVec.getElem_and, BitVec.getElem_or, Bool.and_or_distrib_right]

theorem mask_or {a b : BitVec 32} (hb : b &&& futexTidMask = 0#32) :
    (a ||| b) &&& futexTidMask = a &&& futexTidMask := by
  rw [or_and, hb, or_zero]

theorem mask_waiters : futexWaiters &&& futexTidMask = 0#32 := by decide

theorem mask_and_died (val : BitVec 32) : (val &&& futexOwnerDied) &&& futexTidMask = 0#32 := by
  rw [BitVec.and_assoc, show futexOwnerDied &&& futexTidMask = 0#32 by decide, and_zero]

theorem or_waiters (a : BitVec 32) : (a ||| futexWaiters) &&& futexWaiters ≠ 0 := by
  rw [or_and, BitVec.and_self]
  intro h
  have hw : futexWaiters = 0 := (or_eq_zero_iff.mp h).2
  cases hw

theorem tid_mask (ids : Tids T) (t : T) : ids.tid t &&& futexTidMask = ids.tid t :=
  ids.tid_masked t

/-- The word of a task that takes a free lock names it. -/
theorem mask_taken (ids : Tids T) (t : T) (val : BitVec 32) (others : Bool) :
    (ids.tid t ||| (val &&& futexOwnerDied) ||| if others then futexWaiters else 0) &&&
      futexTidMask = ids.tid t := by
  have hflag : (if others then futexWaiters else 0) &&& futexTidMask = 0 := by
    cases others with
    | true => exact mask_waiters
    | false => exact zero_and
  rw [mask_or hflag, mask_or (mask_and_died val), tid_mask]

theorem waiters_death (uval : BitVec 32) :
    ((uval &&& futexWaiters) ||| futexOwnerDied) &&& futexWaiters = uval &&& futexWaiters := by
  rw [or_and, BitVec.and_assoc, BitVec.and_self,
    show futexOwnerDied &&& futexWaiters = 0#32 by decide, or_zero]

end Bits

/-- A lock is on an object of its key, which is in the table or was. -/
def LockOk (s : State K T) (w : PiWait K) : Prop :=
  w.futex < s.next ∧ ∀ o, s.getObj w.futex = some o → o.key = w.key

/-- A word that is looked at has the flag for waiters. -/
def Seen : PiStage → Prop
  | .look val => val &&& futexWaiters ≠ 0
  | .looked val _ => val &&& futexWaiters ≠ 0
  | .asleep => True

/-- The word names every owner, and its flag covers the queue. -/
structure LockInv (ids : Tids T) (key : K) (s : State K T) : Prop where
  wf : Wf s
  owner : ∀ t, Owns key (s.tasks t) → s.mem key &&& futexTidMask = ids.tid t
  waiters : ∀ o ∈ s.objs, o.key = key → o.piQueue ≠ [] → s.mem key &&& futexWaiters ≠ 0
  locking : ∀ t w, (s.tasks t).phase = .locking w → LockOk s w ∧ Seen w.stage
  robust : ∀ t uval, (s.tasks t).robust = some (key, uval) →
    uval &&& futexTidMask = ids.tid t ∧ (s.tasks t).exiting = true
  gone : ∀ t, (s.tasks t).phase = .exited → (s.tasks t).exiting = true

variable {s : State K T}

/-- Two owners have one number. -/
theorem owner_unique {ids : Tids T} {key : K} (h : LockInv ids key s) {t u : T}
    (ht : Owns key (s.tasks t)) (hu : Owns key (s.tasks u)) : t = u :=
  ids.tid_inj ((h.owner t ht).symm.trans (h.owner u hu))

/-- A word without a number has no owner. -/
theorem no_owner {ids : Tids T} {key : K} (h : LockInv ids key s)
    (hfree : s.mem key &&& futexTidMask = 0) (t : T) : ¬ Owns key (s.tasks t) :=
  fun ht => ids.tid_ne_zero t ((h.owner t ht).symm.trans hfree)

section Changes

variable {ids : Tids T} {key : K} {s : State K T}

section

variable (h : LockInv ids key s)

include h

/-- A task that has entered no lock and acquired nothing it has no claim to. -/
theorem lockInv_modifyTask [DecidableEq T] (t : T) (f : Task K → Task K)
    (howner : Owns key (f (s.tasks t)) → s.mem key &&& futexTidMask = ids.tid t)
    (hlock : ∀ w, (f (s.tasks t)).phase = .locking w → LockOk s w ∧ Seen w.stage)
    (hrobust : ∀ uval, (f (s.tasks t)).robust = some (key, uval) →
      uval &&& futexTidMask = ids.tid t ∧ (f (s.tasks t)).exiting = true)
    (hgone : (f (s.tasks t)).phase = .exited → (f (s.tasks t)).exiting = true) :
    LockInv ids key (s.modifyTask t f) := by
  refine ⟨{ h.wf with }, ?_, h.waiters, ?_, ?_, ?_⟩
  · exact (forall_update_iff s.tasks fun u task => Owns key task →
      s.mem key &&& futexTidMask = ids.tid u).mpr ⟨howner, fun u _ => h.owner u⟩
  · exact (forall_update_iff s.tasks fun _ task => ∀ w, task.phase = .locking w →
      LockOk s w ∧ Seen w.stage).mpr ⟨hlock, fun u _ => h.locking u⟩
  · exact (forall_update_iff s.tasks fun u task => ∀ uval, task.robust = some (key, uval) →
      uval &&& futexTidMask = ids.tid u ∧ task.exiting = true).mpr ⟨hrobust, fun u _ => h.robust u⟩
  · exact (forall_update_iff s.tasks fun _ task => task.phase = .exited →
      task.exiting = true).mpr ⟨hgone, fun u _ => h.gone u⟩

theorem lockInv_calm [DecidableEq T] (t : T) {f : Task K → Task K}
    (hf : Calm f) : LockInv ids key (s.modifyTask t f) := by
  refine lockInv_modifyTask h t f (fun ho => h.owner t (hf.owns _ _ ho)) (fun w hw => ?_)
    (fun uval hu => ?_) fun hu => ?_
  · rcases hf.locking _ w hw with ⟨w', hw', hfutex, hkey, hstage⟩
    rcases h.locking t w' hw' with ⟨hok, hseen⟩
    unfold LockOk at hok ⊢
    rw [← hfutex, ← hkey, ← hstage]
    exact ⟨hok, hseen⟩
  · rcases hf.robust _ _ hu with ⟨hold, hexit⟩
    rcases h.robust t uval hold with ⟨htid, hexiting⟩
    exact ⟨htid, hexit hexiting⟩
  · rcases hf.gone _ hu with ⟨hold, hexit⟩
    exact hexit (h.gone t hold)

/-- An object whose queue gets longer only while the flag is set. -/
theorem lockInv_modifyObj (id : Nat)
    (f : FutexObj K T → FutexObj K T) (hf : Keeps f)
    (hqueue : ∀ o ∈ s.objs, o.id = id → o.key = key → (f o).piQueue ≠ [] →
      s.mem key &&& futexWaiters ≠ 0) :
    LockInv ids key (s.modifyObj id f) := by
  refine ⟨wf_modifyObj h.wf id f hf, h.owner, fun o ho hkey hne => ?_, fun t w hw => ?_, h.robust,
    h.gone⟩
  · rcases mem_map.mp ho with ⟨p, hp, rfl⟩
    by_cases hid : p.id = id
    · rw [if_pos hid] at hkey hne
      exact hqueue p hp hid ((hf p).2.symm.trans hkey) hne
    rw [if_neg hid] at hkey hne
    exact h.waiters p hp hkey hne
  · rcases h.locking t w hw with ⟨⟨hlt, hobj⟩, hseen⟩
    refine ⟨⟨hlt, fun o ho => ?_⟩, hseen⟩
    rw [getObj_modifyObj s id w.futex f hf] at ho
    split at ho
    · rcases Option.map_eq_some_iff.mp ho with ⟨p, hp, rfl⟩
      exact (hf p).2.trans (hobj p hp)
    · exact hobj o ho

/-- A word is written. That of the lock names every owner then, and has the flag if
    it has to. -/
theorem lockInv_storeWord [DecidableEq K] (k : K) (v : BitVec 32)
    (howner : k = key → ∀ t, Owns key (s.tasks t) → v &&& futexTidMask = ids.tid t)
    (hwaiters : k = key → ∀ o ∈ s.objs, o.key = key → o.piQueue ≠ [] → v &&& futexWaiters ≠ 0) :
    LockInv ids key (s.storeWord k v) := by
  by_cases hk : k = key
  · have hmem : (s.storeWord k v).mem key = v := by rw [hk]; exact update_self _ _ _
    exact ⟨{ h.wf with }, by rw [hmem]; exact howner hk, by rw [hmem]; exact hwaiters hk,
      h.locking, h.robust, h.gone⟩
  · have hmem : (s.storeWord k v).mem key = s.mem key := update_of_ne (Ne.symm hk) _ _
    exact ⟨{ h.wf with }, by rw [hmem]; exact h.owner, by rw [hmem]; exact h.waiters,
      h.locking, h.robust, h.gone⟩

theorem lockInv_store_other [DecidableEq K] {k : K} (hk : k ≠ key)
    (v : BitVec 32) : LockInv ids key (s.storeWord k v) :=
  lockInv_storeWord h k v (fun heq => absurd heq hk) fun heq => absurd heq hk

/-- Waits that are no locks. -/
theorem lockInv_modifyWaits [DecidableEq T] (ts : List T)
    (f : Wait K → Wait K) : LockInv ids key (s.modifyWaits ts f) := by
  have hsame : ∀ t, ((s.modifyWaits ts f).tasks t).held = (s.tasks t).held ∧
      ((s.modifyWaits ts f).tasks t).exiting = (s.tasks t).exiting ∧
      ((s.modifyWaits ts f).tasks t).robust = (s.tasks t).robust ∧
      (∀ w, ((s.modifyWaits ts f).tasks t).phase = .locking w → (s.tasks t).phase = .locking w) ∧
      (((s.modifyWaits ts f).tasks t).phase = .exited → (s.tasks t).phase = .exited) := by
    intro t
    by_cases ht : t ∈ ts
    · cases hphase : (s.tasks t).phase with
      | waiting w =>
        rw [modifyWaits_of_mem s f ht hphase]
        exact ⟨rfl, rfl, rfl,
          fun _ hw => absurd hw (by simp),
          fun hw => absurd hw (by simp)⟩
      | _ =>
        have heq : (s.modifyWaits ts f).tasks t = s.tasks t := by
          simp only [State.modifyWaits, hphase]
        rw [heq, hphase]
        exact ⟨rfl, rfl, rfl, fun _ hw => hw, fun hw => hw⟩
    · rw [modifyWaits_of_not_mem s f ht]
      exact ⟨rfl, rfl, rfl, fun _ hw => hw, fun hw => hw⟩
  refine ⟨{ h.wf with }, fun t ht => h.owner t ?_, h.waiters,
    fun t w hw => h.locking t w ((hsame t).2.2.2.1 w hw), fun t uval hu => ?_, fun t hu => ?_⟩
  · rcases hsame t with ⟨hheld, hexit, _, hlock, _⟩
    rcases ht with ⟨hlive, hown | ⟨w, hw, hrest⟩⟩
    · exact ⟨hexit.symm.trans hlive, .inl (by rw [← hheld]; exact hown)⟩
    · exact ⟨hexit.symm.trans hlive, .inr ⟨w, hlock w hw, hrest⟩⟩
  · rw [(hsame t).2.2.1] at hu
    rw [(hsame t).2.1]
    exact h.robust t uval hu
  · rw [(hsame t).2.1]
    exact h.gone t ((hsame t).2.2.2.2 hu)

end

end Changes

variable [DecidableEq K] [DecidableEq T]

/-- What has nothing to do with locks keeps the invariant. -/
theorem closed_lockInv (ids : Tids T) (key : K) (u : T) : ClosedCalm u (LockInv ids key) where
  object s id f hf h := by
    refine lockInv_modifyObj h id f (fun o => ⟨(hf o).1, (hf o).2.1⟩) fun o ho _ hkey hne => ?_
    rw [(hf o).2.2.2] at hne
    exact h.waiters o ho hkey hne
  remove s id h := by
    refine ⟨wf_removeObj h.wf id, h.owner, fun o ho => h.waiters o (mem_filter.mp ho).1,
      fun t w hw => ?_, h.robust, h.gone⟩
    rcases h.locking t w hw with ⟨⟨hlt, hobj⟩, hseen⟩
    refine ⟨⟨hlt, fun o ho => hobj o ?_⟩, hseen⟩
    rw [getObj_removeObj] at ho
    split at ho
    · cases ho
    · exact ho
  fresh s k hfind h := by
    refine ⟨wf_cons h.wf _ rfl hfind, h.owner, fun o ho hkey hne => ?_, fun t w hw => ?_,
      h.robust, h.gone⟩
    · rcases mem_cons.mp ho with rfl | ho
      · exact absurd rfl hne
      · exact h.waiters o ho hkey hne
    · rcases h.locking t w hw with ⟨⟨hlt, hobj⟩, hseen⟩
      -- No lock is on the new object yet.
      have hne : w.futex ≠ s.next := Nat.ne_of_lt hlt
      refine ⟨⟨Nat.lt_succ_of_lt hlt, fun o ho => hobj o ?_⟩, hseen⟩
      exact ((getObj_cons s _ _ w.futex).trans (if_neg hne)).symm.trans ho
  own _ _ hf h := lockInv_calm h u hf.1
  unlink _ ts h := lockInv_modifyWaits h ts _
  move _ ts _ h := lockInv_modifyWaits h ts _
  access _ _ h := { h with wf := { h.wf with } }

section Lock

variable {ids : Tids T} {key : K} {s : State K T} {t : T} {w : PiWait K}

omit [DecidableEq K] in
/-- A lock in which nothing but its stage changes. -/
theorem lockInv_stage (h : LockInv ids key (s.setPhase t (.locking w))) {w' : PiWait K}
    (hfutex : w'.futex = w.futex) (hkey : w'.key = w.key) (howned : w'.piOwned = w.piOwned)
    (hseen : Seen w'.stage) : LockInv ids key (s.setPhase t (.locking w')) := by
  have htask : (s.setPhase t (.locking w)).tasks t = { s.tasks t with phase := .locking w } :=
    setPhase_tasks s t _
  rw [← setPhase_setPhase s t (.locking w)]
  refine lockInv_modifyTask h t _ (fun ho => h.owner t ?_) (fun v hv => ?_) (fun uval hu => ?_)
    (fun hu => nomatch hu)
  · rw [htask] at ho ⊢
    rcases ho with ⟨hlive, hheld | ⟨v, hv, hvkey, hvowned⟩⟩
    · exact ⟨hlive, .inl hheld⟩
    · rw [← Phase.locking.inj hv, hkey] at hvkey
      rw [← Phase.locking.inj hv, howned] at hvowned
      exact ⟨hlive, .inr ⟨w, rfl, hvkey, hvowned⟩⟩
  · rw [← Phase.locking.inj hv]
    have hok := (h.locking t w (by rw [htask])).1
    unfold LockOk at hok ⊢
    rw [hfutex, hkey]
    exact ⟨hok, hseen⟩
  · exact h.robust t uval hu

section

variable (h : LockInv ids key (s.setPhase t (.locking w)))

include h

/-- Leaving a lock. A result of zero is for the task that the word names. -/
theorem lockInv_leave {r : Result}
    (hzero : r = .value 0 → w.key = key → (s.tasks t).exiting = false →
      s.mem key &&& futexTidMask = ids.tid t) :
    Post (LockInv ids key) (futexLockPiLeave s t w r) := by
  have hclosed := closed_lockInv ids key t
  -- Off the queue, and out of the lock.
  have hqueue : LockInv ids key ((s.setPhase t (.locking w)).modifyObj w.futex
      (fun o => { o with piQueue := o.piQueue.erase t })) := by
    refine lockInv_modifyObj h _ _ (fun _ => ⟨rfl, rfl⟩) fun o ho _ hkey hne => ?_
    refine h.waiters o ho hkey fun hnil => hne ?_
    simp [hnil]
  have hout := hclosed.own _ _ ⟨calm_setPhase (p := .running) rfl, fun _ => rfl⟩ hqueue
  have heq : ((s.setPhase t (.locking w)).modifyObj w.futex
        (fun o => { o with piQueue := o.piQueue.erase t })).modifyTask t
        (fun task => { task with phase := .running }) =
      (s.modifyObj w.futex (fun o => { o with piQueue := o.piQueue.erase t })).setPhase t
        .running := setPhase_setPhase
          (s.modifyObj w.futex (fun o => { o with piQueue := o.piQueue.erase t })) t _ _
  rw [heq] at hout
  have htask : ((s.modifyObj w.futex (fun o => { o with piQueue := o.piQueue.erase t })).setPhase t
      .running).tasks t = { s.tasks t with phase := .running } := setPhase_tasks _ t _
  refine post_putAndReturn hclosed (lockInv_modifyTask hout t _ (fun ho => ?_) (fun v hv => ?_)
    (fun uval hu => hout.robust t uval hu) (fun hu => hout.gone t hu)) _ _
  · rcases ho with ⟨hlive, hheld | ⟨v, hv, _⟩⟩
    · rw [htask] at hlive hheld
      by_cases hkey : w.key = key
      · subst hkey
        simp only [update_self, or_eq_true, beq_iff_eq] at hheld
        rcases hheld with hr | hheld
        · exact hzero hr rfl hlive
        · exact hout.owner t (by rw [htask]; exact ⟨hlive, .inl hheld⟩)
      · have hsame := update_of_ne (Ne.symm hkey) (r == .value 0 || (s.tasks t).held w.key)
          (s.tasks t).held
        replace hheld := hsame.symm.trans hheld
        exact hout.owner t (by rw [htask]; exact ⟨hlive, .inl hheld⟩)
    · rw [htask] at hv
      cases hv
  · rw [htask] at hv
    cases hv

theorem lockInv_leave_error (e : Errno) :
    Post (LockInv ids key) (futexLockPiLeave s t w (.error e)) :=
  lockInv_leave h fun hr => nomatch hr

/-- A task that was handed the lock leaves with it. -/
theorem lockInv_leave_owned (howned : w.piOwned = true) :
    Post (LockInv ids key) (futexLockPiLeave s t w (.value 0)) := by
  refine lockInv_leave h fun _ hkey hlive => h.owner t ?_
  rw [setPhase_tasks]
  exact ⟨hlive, .inr ⟨w, rfl, hkey, howned⟩⟩

/-- A task that writes its number to a word without an owner leaves with the lock. -/
theorem lockInv_take (v : BitVec 32) (htid : v &&& futexTidMask = ids.tid t)
    (hnone : w.key = key → ∀ u, ¬ Owns key ((s.setPhase t (.locking w)).tasks u))
    (hwaiters : ∀ o ∈ s.objs, o.key = w.key → o.piQueue ≠ [] → v &&& futexWaiters ≠ 0) :
    Post (LockInv ids key) (futexLockPiLeave (s.storeWord w.key v) t w (.value 0)) := by
  have hstore := lockInv_storeWord h w.key v (fun hkey u hu => absurd hu (hnone hkey u))
    fun hkey o ho hok => hwaiters o ho (hok.trans hkey.symm)
  refine lockInv_leave hstore fun _ hkey _ => ?_
  have hmem : (s.storeWord w.key v).mem key = v := by rw [← hkey]; exact update_self _ _ _
  rw [hmem]
  exact htid

end

end Lock

omit [DecidableEq K] [DecidableEq T] in
theorem futexLoad_some {t : T} {key : K} {v : BitVec 32} (h : futexLoad s t key = some v) :
    s.mem key = v := by
  unfold futexLoad at h
  split at h
  · cases h
  · exact Option.some.inj h

omit [DecidableEq K] [DecidableEq T] in
/-- A queue written back as it was. -/
theorem modifyObj_piQueue_self (hwf : Wf s) {id : Nat} {o : FutexObj K T}
    (ho : s.getObj id = some o) :
    s.modifyObj id (fun p => { p with piQueue := o.piQueue }) = s := by
  unfold State.modifyObj
  have hmap : s.objs.map (fun p => if p.id = id then { p with piQueue := o.piQueue } else p) =
      s.objs.map (fun p => p) := by
    refine map_congr_left fun p hp => ?_
    by_cases hid : p.id = id
    · have hpo : p = o := inj_on_of_nodup_map hwf.ids hp (getObj_mem ho)
        (hid.trans (getObj_id ho).symm)
      rw [if_pos hid, hpo]
    · rw [if_neg hid]
  rw [hmap, map_id']

omit [DecidableEq K] in
/-- The first waiter is missing only from an empty queue. -/
theorem piFirst_none (live : T → Bool) (self : Option T) {q : List T}
    (hlive : ∀ t ∈ q, live t = true) (hself : ∀ t ∈ q, some t ≠ self)
    (h : (futexPiFirstWaiter live self q).1 = none) : q = [] := by
  cases q with
  | nil => rfl
  | cons t q =>
    unfold futexPiFirstWaiter at h
    simp only [hlive t mem_cons_self, Bool.not_true, false_eq_true, if_false,
      hself t mem_cons_self, reduceCtorEq] at h

variable [Fintype T]

omit [DecidableEq K] in
/-- A task that takes a free lock and sees no others leaves an empty queue. -/
theorem piOthers_none {t : T} {w : PiWait K} (h : Inv (s.setPhase t (.locking w)) 0)
    {o : FutexObj K T} (ho : s.getObj w.futex = some o) (hnone : (piOthers s t w o).1 = false) :
    o.piQueue = [] := by
  have hok := h.task t
  simp only [setPhase_tasks, TaskOk] at hok
  unfold piOthers at hnone
  split at hnone
  · cases hnone
  next hq =>
  have hl : w.linked = false := by rw [hok, eq_false_iff.mpr hq, Bool.false_and]
  refine piFirst_none (piIsLive s) (some t) (piLive_of_mem h hl ho) (fun u hu heq => ?_)
    (Option.not_isSome_iff_eq_none.mp (eq_false_iff.mp hnone))
  -- The task itself is not on the queue.
  rw [Option.some.inj heq] at hu
  rcases locking_of_mem h ho hu with ⟨v, hv, hvl, _⟩
  rw [setPhase_tasks, Phase.locking.injEq] at hv
  rw [← hv, hl] at hvl
  cases hvl

section Lock

variable {ids : Tids T} {key : K} {s : State K T} {t : T} {w : PiWait K}

theorem lockInv_loop (h : LockInv ids key (s.setPhase t (.locking w)))
    (hinv : Inv (s.setPhase t (.locking w)) 0) (trylock : Bool) :
    Post (LockInv ids key) (futexLockPiLoop ids s t w trylock) := by
  have hwf : Wf s := { h.wf with }
  unfold futexLockPiLoop
  split
  · next howned => exact lockInv_leave_owned h howned
  split
  · exact lockInv_leave_error h _
  next val hload =>
  have hmem := futexLoad_some hload
  split
  · next hfree =>
    rcases getObj_of_locking hinv with ⟨o, ho⟩
    simp only [ho, piOthers_rest hinv ho, modifyObj_piQueue_self hwf ho]
    split
    · exact lockInv_leave_error h _
    next s' hcas =>
    rw [futexCas_some hcas]
    refine lockInv_take h _ (mask_taken ids t val _) (fun hkey => no_owner h ?_)
      (fun p hp hkey hne => ?_)
    · rw [← hkey]
      exact (congrArg (· &&& futexTidMask) hmem).trans hfree
    · -- The only object of this key is the one that the task looked at.
      have hpo : p = o := inj_on_of_nodup_map hwf.keys hp (getObj_mem ho)
        (hkey.trans ((h.locking t w (by rw [setPhase_tasks])).1.2 o ho).symm)
      cases hothers : (piOthers s t w o).1 with
      | true => exact or_waiters _
      | false => exact absurd (by rw [hpo]; exact piOthers_none hinv ho hothers) hne
  split
  · exact lockInv_leave_error h _
  split
  · split
    · exact lockInv_leave_error h _
    next s' hcas =>
    -- The flag is set, and the number stays.
    have hstore : LockInv ids key ((s.storeWord w.key (val ||| futexWaiters)).setPhase t
        (.locking w)) := by
      refine lockInv_storeWord h _ _ (fun hkey u hu => ?_) fun _ _ _ _ _ => or_waiters val
      rw [mask_or mask_waiters, ← hmem, hkey]
      exact h.owner u hu
    rw [futexCas_some hcas]
    split
    · exact lockInv_leave_error hstore _
    refine post_some ?_ _
    exact lockInv_stage hstore rfl rfl rfl (or_waiters val)
  · next hflag =>
    split
    · exact lockInv_leave_error h _
    refine post_some ?_ _
    exact lockInv_stage h rfl rfl rfl hflag

theorem lockInv_lockPi (h : LockInv ids key s) (hinv : Inv s 0)
    (hrun : (s.tasks t).phase = .running) (k : K) (trylock malloc : Bool) :
    Post (LockInv ids key) (futexLockPi ids s t k trylock malloc) := by
  unfold futexLockPi
  rcases inv_get hinv k malloc with ⟨s₁, id, o, hget, hinv₁, hframe, ho, hokey⟩ | hget
  · simp only [hget]
    have h₁ := closed_get (closed_lockInv ids key t) h hget
    have hrun₁ : (s₁.tasks t).phase = .running := by rw [hframe.tasks]; exact hrun
    refine lockInv_loop ?_ (inv_lockBegin hinv₁ hrun₁ rfl rfl rfl) trylock
    refine lockInv_modifyTask h₁ t _ (fun hown => h₁.owner t ?_) (fun v hv => ?_)
      (fun uval hu => h₁.robust t uval hu)
      (fun hu => nomatch hu)
    · rcases hown with ⟨hlive, hheld | ⟨v, hv, _, howned⟩⟩
      · exact ⟨hlive, .inl hheld⟩
      · rw [← Phase.locking.inj hv] at howned
        cases howned
    · rw [← Phase.locking.inj hv]
      refine ⟨⟨?_, fun p hp => ?_⟩, trivial⟩
      · have hlt := h₁.wf.bound o (getObj_mem ho)
        rw [getObj_id ho] at hlt
        exact hlt
      · rw [Option.some.inj (hp.symm.trans ho)]
        exact hokey
  · simp only [hget]
    exact post_some h _

/-- Back from the look at the owner: a task that goes on the queue needs the word as
    it was, and one that takes the lock over needs the owner dead as it was. -/
theorem lockInv_looked (h : LockInv ids key s) (hinv : Inv s 0)
    (hw : (s.tasks t).phase = .locking w) {val : BitVec 32} {alive : Bool}
    (hstage : w.stage = .looked val alive)
    (hword : w.key = key → alive = true → w.queued = false → s.mem key = val)
    (hdead : w.key = key → alive = false →
      futexPiOwnerAlive ids s (val &&& futexTidMask) = false) (timedOut : Bool) :
    Post (LockInv ids key) (futexLockPiLooked ids s t timedOut) := by
  have hself := setPhase_self hw
  have h' : LockInv ids key (s.setPhase t (.locking w)) := by rw [hself]; exact h
  have hinv' : Inv (s.setPhase t (.locking w)) 0 := by rw [hself]; exact hinv
  rcases h.locking t w hw with ⟨hok, hseen⟩
  rw [hstage] at hseen
  unfold futexLockPiLooked
  simp only [hw, hstage]
  split
  · exact lockInv_loop h' hinv' false
  split
  · next halive =>
    have hlock : LockInv ids key ((s.setPhase t (.locking w)).modifyObj w.futex (fun o =>
        { o with
          piOwner := val &&& futexTidMask
          piQueue := if w.queued then o.piQueue else o.piQueue ++ [t] })) := by
      refine lockInv_modifyObj h' _ _ (fun _ => ⟨rfl, rfl⟩) fun o ho hid hkey hne => ?_
      have hokey : o.key = w.key := hok.2 o (by rw [← hid]; exact getObj_of_mem h.wf ho)
      cases hq : w.queued with
      | true =>
        simp only [hq, if_true] at hne
        exact h.waiters o ho hkey hne
      | false =>
        rw [← hword (hokey.symm.trans hkey) halive hq] at hseen
        exact hseen
    split
    · refine lockInv_leave_error ?_ _
      exact lockInv_stage (w := w) hlock rfl rfl rfl trivial
    refine post_some ?_ _
    exact lockInv_stage (w := w) hlock rfl rfl rfl trivial
  · next halive =>
    split
    · exact lockInv_leave_error h' _
    next now hload =>
    split
    · exact lockInv_loop h' hinv' false
    next hnow =>
    rcases getObj_of_locking hinv' with ⟨o, ho⟩
    simp only [ho]
    split
    · exact lockInv_leave_error h' _
    split
    · exact lockInv_leave_error h' _
    next s' hcas =>
    rw [futexCas_some hcas]
    refine lockInv_take h' _ ?_ (fun hkey u hu => ?_) fun _ _ _ _ => or_waiters _
    · rw [mask_or mask_waiters, mask_or (by decide), tid_mask]
    · -- An owner would be alive, and the word names it.
      rw [hself] at hu
      have htid := h.owner u hu
      rw [← hkey, futexLoad_some hload, not_not.mp hnow] at htid
      have hno := hdead hkey (eq_false_iff.mpr halive)
      refine absurd ⟨u, htid.symm, hu.1, ?_⟩ (of_decide_eq_false hno)
      split
      · next hexited => exact absurd ((h.gone u hexited).symm.trans hu.1) (by decide)
      · rfl

theorem lockInv_resume (h : LockInv ids key s) (hinv : Inv s 0)
    (hw : (s.tasks t).phase = .locking w) :
    Post (LockInv ids key) (futexLockPiResume ids s t) := by
  have hself := setPhase_self hw
  have h' : LockInv ids key (s.setPhase t (.locking w)) := by rw [hself]; exact h
  have hinv' : Inv (s.setPhase t (.locking w)) 0 := by rw [hself]; exact hinv
  unfold futexLockPiResume
  simp only [hw]
  split
  · exact lockInv_loop h' hinv' false
  split
  · exact lockInv_leave_error h' _
  · exact lockInv_loop h' hinv' false

omit [DecidableEq K] [DecidableEq T] [Fintype T] in
theorem owns_held (hrun : (s.tasks t).phase = .running) (h : Owns key (s.tasks t)) :
    (s.tasks t).held key = true := by
  rcases h with ⟨_, hheld | ⟨v, hv, _⟩⟩
  · exact hheld
  · exact absurd (hrun.symm.trans hv) (by simp)

omit [Fintype T] in
/-- A running task gives a lock up. -/
theorem lockInv_giveUp (h : LockInv ids key s) (hrun : (s.tasks t).phase = .running) (k : K) :
    LockInv ids key (s.setHeld t k false) := by
  refine lockInv_modifyTask h t _ (fun ho => h.owner t ?_) (fun v hv => ?_)
    (fun uval hu => h.robust t uval hu) fun hu => h.gone t hu
  · rcases ho with ⟨hlive, hheld | hlock⟩
    · refine ⟨hlive, .inl ?_⟩
      by_cases hk : key = k
      · rw [hk] at hheld
        exact absurd ((update_self _ _ _).symm.trans hheld) Bool.false_ne_true
      · exact (update_of_ne hk _ _).symm.trans hheld
    · exact ⟨hlive, .inr hlock⟩
  · exact absurd (hrun.symm.trans hv) (by simp)

omit [Fintype T] in
/-- If the word named it, nobody owns the lock then. -/
theorem giveUp_no_owner (h : LockInv ids key s) (hrun : (s.tasks t).phase = .running) {k : K}
    (hk : k = key) (hword : s.mem key &&& futexTidMask = ids.tid t) (u : T) :
    ¬ Owns key ((s.setHeld t k false).tasks u) := by
  intro hu
  have hut : u = t := ids.tid_inj (((lockInv_giveUp h hrun k).owner u hu).symm.trans hword)
  subst hut
  have hself : ((s.setHeld u k false).tasks u) =
      { s.tasks u with held := Function.update (s.tasks u).held k false } :=
    update_self _ _ _
  have hheld := owns_held (by rw [hself]; exact hrun) hu
  rw [hself, hk] at hheld
  exact absurd ((update_self _ _ _).symm.trans hheld) Bool.false_ne_true

omit [DecidableEq T] [Fintype T] in
/-- A word without an owner and without waiters becomes zero. -/
theorem lockInv_release (h : LockInv ids key s) {k : K}
    (hnone : k = key → ∀ u, ¬ Owns key (s.tasks u)) {id : Nat} {o : FutexObj K T}
    (ho : s.getObj id = some o) (hokey : o.key = k) (hnil : o.piQueue = []) :
    LockInv ids key (s.storeWord k 0) := by
  refine lockInv_storeWord h k 0 (fun hk u hu => absurd hu (hnone hk u)) fun hk p hp hkey hne => ?_
  have hpo : p = o := inj_on_of_nodup_map h.wf.keys hp (getObj_mem ho)
    (hkey.trans (hk.symm.trans hokey.symm))
  rw [hpo] at hne
  exact absurd hnil hne

omit [DecidableEq K] [Fintype T] in
theorem modifyTask_comm {u : T} (hne : t ≠ u) (s : State K T) (f g : Task K → Task K) :
    (s.modifyTask t f).modifyTask u g = (s.modifyTask u g).modifyTask t f := by
  simp only [State.modifyTask, update_of_ne hne, update_of_ne hne.symm]
  rw [update_comm hne]

omit [Fintype T] in
/-- A word without an owner is given to a task on the queue. -/
theorem lockInv_handOver (h : LockInv ids key s) {k : K}
    (hnone : k = key → ∀ u, ¬ Owns key (s.tasks u)) {id : Nat} {o : FutexObj K T}
    (ho : s.getObj id = some o) (hokey : o.key = k) {next : T} {v : PiWait K}
    (hv : (s.tasks next).phase = .locking v) (hid : v.futex = id) :
    LockInv ids key (handOver ((s.storeWord k (ids.tid next ||| futexWaiters)).modifyObj id
      (fun o => { o with piQueue := o.piQueue.erase next, piOwner := ids.tid next })) next) := by
  rcases h.locking next v hv with ⟨hok, hseen⟩
  have hvkey : k = v.key := hokey.symm.trans (hok.2 o (by rw [hid]; exact ho))
  have hstore := lockInv_storeWord h k (ids.tid next ||| futexWaiters)
    (fun hk u hu => absurd hu (hnone hk u)) fun _ _ _ _ _ => or_waiters _
  have hqueue := lockInv_modifyObj hstore id (fun o =>
      { o with piQueue := o.piQueue.erase next, piOwner := ids.tid next }) (fun _ => ⟨rfl, rfl⟩)
    fun p hp _ hkey hne => hstore.waiters p hp hkey fun hnil => hne (by simp [hnil])
  generalize hs₁ : (s.storeWord k _).modifyObj id _ = s₁ at hqueue ⊢
  have hphase : (s₁.tasks next).phase = .locking v := by rw [← hs₁]; exact hv
  refine lockInv_modifyTask hqueue next _ (fun hown => ?_) (fun v' hv' => ?_) (fun uval hu => ?_)
    (fun hu => ?_)
  · simp only [hphase] at hown
    rcases hown with ⟨hlive, hheld | ⟨v', hv', hkey, _⟩⟩
    · exact hqueue.owner next ⟨hlive, .inl hheld⟩
    · rw [← Phase.locking.inj hv'] at hkey
      have hmem : s₁.mem key = (ids.tid next ||| futexWaiters) := by
        rw [← hs₁, ← hvkey.trans hkey]
        exact update_self _ _ _
      rw [hmem, mask_or mask_waiters, tid_mask]
  · simp only [hphase] at hv'
    rw [← Phase.locking.inj hv']
    exact hqueue.locking next v hphase
  · simp only [hphase] at hu ⊢
    exact hqueue.robust next uval hu
  · simp only [hphase] at hu
    cases hu

/-- A release, with or without a handover. -/
theorem lockInv_unlockPi (h : LockInv ids key s) (hinv : Inv s 0)
    (hrun : (s.tasks t).phase = .running) (k : K) (malloc : Bool) :
    Post (LockInv ids key) (futexUnlockPi ids s t k malloc) := by
  have hclosed := closed_lockInv ids key t
  unfold futexUnlockPi
  rcases inv_get hinv k malloc with ⟨s₁, id, o, hget, hinv₁, hframe, ho, hokey⟩ | hget
  swap
  · simp only [hget]
    exact post_some h _
  simp only [hget]
  have h₁ := closed_get hclosed h hget
  have hrun₁ : (s₁.tasks t).phase = .running := by rw [hframe.tasks]; exact hrun
  split
  · exact post_putAndReturn hclosed h₁ _ _
  next val hload =>
  split
  · exact post_putAndReturn hclosed h₁ _ _
  next htid =>
  have hlive := piLive_of_queue hinv₁ ho
  have hrest := piFirst_rest (piIsLive s₁) none hlive
  simp only [ho]
  generalize hfirst : futexPiFirstWaiter (piIsLive s₁) none o.piQueue = first at hrest
  rcases first with ⟨next, rest⟩
  subst hrest
  -- The lock is given up before the word changes, so that nobody owns it in between.
  have hgive := lockInv_giveUp h₁ hrun₁ k
  have hnone : k = key → ∀ u, ¬ Owns key ((s₁.setHeld t k false).tasks u) := by
    intro hk
    refine giveUp_no_owner h₁ hrun₁ hk ?_
    rw [← hk, futexLoad_some hload]
    exact not_not.mp htid
  cases next with
  | none =>
    simp only [modifyObj_piQueue_self h₁.wf ho]
    have hnil := piFirst_none (piIsLive s₁) none hlive
      (fun _ _ => by simp) (by rw [hfirst])
    split
    · exact post_putAndReturn hclosed h₁ _ _
    next s₂ hcas =>
    rw [futexCas_some hcas]
    refine post_putAndReturn hclosed ?_ _ _
    exact lockInv_release hgive hnone ho hokey hnil
  | some next =>
    simp only [modifyObj_piQueue_self h₁.wf ho]
    have hnext : next ∈ o.piQueue := piFirst_mem (piIsLive s₁) none (by rw [hfirst])
    split
    · exact post_putAndReturn hclosed h₁ _ _
    next s₂ hcas =>
    rw [futexCas_some hcas]
    refine post_putAndReturn hclosed ?_ _ _
    rcases locking_of_mem hinv₁ ho hnext with ⟨v, hv, _, hid⟩
    have hne : next ≠ t := by
      rintro rfl
      exact absurd (hrun₁.symm.trans hv) (by simp)
    have hv' : ((s₁.setHeld t k false).tasks next).phase = .locking v := by
      simp only [State.setHeld, State.modifyTask, update_of_ne hne]
      exact hv
    have hover := lockInv_handOver hgive hnone ho hokey hv' hid
    -- The two tasks are changed in the other order.
    unfold handOver State.setHeld at hover ⊢
    rw [modifyTask_comm hne]
    exact hover

end Lock

/-- A step that comes back to the word of a lock finds it as it was, and nothing else
    writes to it. -/
def Undisturbed (ids : Tids T) (key : K) (s : State K T) : Action K T → Prop
  | .store k _ => k ≠ key
  | .wakeOp _ _ k _ _ _ _ _ => k ≠ key
  | .robustWrite t => ∀ uval, (s.tasks t).robust = some (key, uval) → s.mem key = uval
  | .lockPiLooked t _ =>
    ∀ w val alive, (s.tasks t).phase = .locking w → w.key = key → w.stage = .looked val alive →
      -- A task that goes on the queue finds the word as it read it.
      (alive = true → w.queued = false → s.mem key = val) ∧
      -- A task that takes the lock over finds nobody alive under the old number.
      (alive = false → futexPiOwnerAlive ids s (val &&& futexTidMask) = false)
  | _ => True

section Step

variable {ids : Tids T} {key : K} {s : State K T}

variable {t : T}

omit [Fintype T] in
theorem lockInv_userLock (h : LockInv ids key s) (hrun : isRunning (s.tasks t)) {k : K}
    (hzero : s.mem k = 0) : LockInv ids key ((s.storeWord k (ids.tid t)).setHeld t k true) := by
  have hlock : ∀ v, (s.tasks t).phase ≠ .locking v := fun v hv =>
    absurd (hrun.1.symm.trans hv) (by simp)
  by_cases hk : k = key
  · subst hk
    have hno := no_owner h (by rw [hzero]; exact zero_and)
    -- A word of zero has no flag either, so nobody is on the queue.
    have hstore := lockInv_storeWord h k (ids.tid t) (fun _ u hu => absurd hu (hno u)) fun _ o ho
      hkey hne => absurd (by rw [hzero]; exact zero_and) (h.waiters o ho hkey hne)
    refine lockInv_modifyTask hstore t _ (fun _ => ?_) (fun v hv => absurd hv (hlock v))
      (fun uval hu => h.robust t uval hu) fun hu => h.gone t hu
    have hmem : (s.storeWord k (ids.tid t)).mem k = ids.tid t := update_self _ _ _
    rw [hmem, tid_mask]
  · have hstore := lockInv_store_other h hk (ids.tid t)
    refine lockInv_modifyTask hstore t _ (fun hown => hstore.owner t ?_)
      (fun v hv => absurd hv (hlock v)) (fun uval hu => h.robust t uval hu) fun hu => h.gone t hu
    rcases hown with ⟨hlive, hheld | ⟨v, hv, _⟩⟩
    · exact ⟨hlive, .inl ((update_of_ne (Ne.symm hk) _ _).symm.trans hheld)⟩
    · exact absurd hv (hlock v)

omit [Fintype T] in
theorem lockInv_userUnlock (h : LockInv ids key s) (hrun : isRunning (s.tasks t)) {k : K}
    (hword : s.mem k = ids.tid t) : LockInv ids key ((s.storeWord k 0).setHeld t k false) := by
  have hgive := lockInv_giveUp h hrun.1 k
  refine lockInv_storeWord hgive k 0 (fun hk u hu => ?_) fun hk o ho hkey hne => ?_
  · exact absurd hu (giveUp_no_owner h hrun.1 hk (by rw [← hk, hword, tid_mask]) u)
  · -- The word is the bare number of the owner, without the flag.
    refine absurd ?_ (h.waiters o ho hkey hne)
    rw [← hk, hword, ← tid_mask, BitVec.and_assoc]
    exact and_zero

omit [DecidableEq K] [Fintype T] in
theorem lockInv_robustRead (h : LockInv ids key s) (hexit : (s.tasks t).exiting = true) (k : K) :
    LockInv ids key (robustHandleDeathRead ids s t k) := by
  unfold robustHandleDeathRead
  split
  · exact h
  split
  · exact h
  next htid =>
  refine lockInv_modifyTask h t _ (fun hown => ?_) (fun v hv => h.locking t v hv)
    (fun uval hu => ?_) fun hu => h.gone t hu
  · exact absurd (hexit.symm.trans hown.1) (by simp)
  · have heq := (Prod.mk.inj (Option.some.inj hu)).2
    rw [← heq]
    exact ⟨not_not.mp htid, hexit⟩

omit [DecidableEq K] [Fintype T] in
theorem clear_exiting {s₁ : State K T} (h : futexClearRestartPark s t = some s₁) :
    (s₁.tasks t).exiting = (s.tasks t).exiting := by
  unfold futexClearRestartPark at h
  split at h
  · rw [← Option.some.inj h]
  split at h
  · cases h
  next s₂ hput =>
  rw [← Option.some.inj h, ← (futexPutUnlocked_frame hput).tasks]
  simp [State.setPark, State.modifyTask]

omit [Fintype T] in
/-- The write of a dying owner, to a word that still names it. -/
theorem lockInv_robustWrite (h : LockInv ids key s)
    (hsame : ∀ uval, (s.tasks t).robust = some (key, uval) → s.mem key = uval) :
    LockInv ids key (robustHandleDeathWrite s t) := by
  have hcalm : Calm (fun task : Task K => { task with robust := none }) :=
    ⟨fun _ _ ho => ho, fun _ v hv => ⟨v, hv, rfl, rfl, rfl⟩,
      fun _ _ hx => absurd hx (by simp),
      fun _ hu => ⟨hu, fun he => he⟩⟩
  unfold robustHandleDeathWrite
  split
  · exact h
  next k uval hrobust =>
  have hnone := lockInv_calm h t hcalm
  simp only []
  split
  · refine lockInv_storeWord hnone _ _ (fun hk u hu => ?_) fun hk o ho hkey hne => ?_
    · subst hk
      rcases h.robust t uval hrobust with ⟨htid, hexit⟩
      -- The word names the task that is going, so a live one does not own the lock.
      have hut : u = t := ids.tid_inj ((hnone.owner u hu).symm.trans
        ((congrArg (· &&& futexTidMask) (hsame uval hrobust)).trans htid))
      rw [hut] at hu
      have hlive : (s.tasks t).exiting = false := by
        have := hu.1
        simp only [State.modifyTask, update_self] at this
        exact this
      exact absurd (hexit.symm.trans hlive) (by simp)
    · subst hk
      rw [waiters_death, ← hsame uval hrobust]
      exact h.waiters o ho hkey hne
  · exact hnone

/-- An undisturbed step keeps the invariant. -/
theorem lockInv_step (h : LockInv ids key s) (hinv : Inv s 0) {e : Action K T × Option Result}
    {u : State K T} (hstep : Step ids s e u) (hcond : Undisturbed ids key s e.1) :
    LockInv ids key u := by
  rcases e with ⟨a, r⟩
  rcases hstep with ⟨hen, hexec⟩
  by_cases hplain : plain a = true
  · cases ha : actor a with
    | none =>
      cases a with
      | store k val => cases hplain
      | _ => cases ha
    | some t =>
      refine closed_plain ids (closed_lockInv ids key t) ha hplain ?_
        (fun _ _ _ hf hv => lockInv_calm hv t hf) ?_ h hexec
      · intro _ _ _ _ _ _ _ _ v id hv
        exact lockInv_modifyObj hv id _ (fun _ => ⟨rfl, rfl⟩)
          (fun o ho _ hkey hne => hv.waiters o ho hkey hne)
      · rintro _ _ _ _ _ _ _ _ rfl v val hv
        exact lockInv_store_other hv hcond val
  cases a with
  | lockPi t k trylock malloc => exact lockInv_lockPi h hinv hen.1 k trylock malloc u r hexec
  | lockPiLook t =>
    rcases hen with ⟨w, val, hw, hstage⟩
    have hseen := (h.locking t w hw).2
    rw [hstage] at hseen
    simp only [exec, futexLockPiLook, hw, hstage] at hexec
    refine of_some hexec ?_
    exact lockInv_stage (w := w) (by rw [setPhase_self hw]; exact h) rfl rfl rfl hseen
  | lockPiLooked t timedOut =>
    rcases hen with ⟨w, val, alive, hw, hstage⟩
    exact lockInv_looked h hinv hw hstage (fun hkey => (hcond w val alive hw hkey hstage).1)
      (fun hkey => (hcond w val alive hw hkey hstage).2) timedOut u r hexec
  | lockPiResume t =>
    rcases hen with ⟨w, hw, _⟩
    exact lockInv_resume h hinv hw u r hexec
  | unlockPi t k malloc => exact lockInv_unlockPi h hinv hen.1 k malloc u r hexec
  | userLock t k => exact of_some hexec (lockInv_userLock h hen.1 hen.2.2)
  | userUnlock t k => exact of_some hexec (lockInv_userUnlock h hen.1 hen.2.2)
  | store k val => exact of_some hexec (lockInv_store_other h hcond val)
  | robustRead t k => exact of_some hexec (lockInv_robustRead h hen.2 k)
  | robustWrite t => exact of_some hexec (lockInv_robustWrite h hcond)
  | exitEnd t =>
    simp only [exec] at hexec
    split at hexec
    · cases hexec
    next s₁ hclear =>
    have h₁ := closed_clear (closed_lockInv ids key t) (fun _ _ hf hv => lockInv_calm hv t hf) h
      hclear
    have hexit : (s₁.tasks t).exiting = true := (clear_exiting hclear).trans hen.2
    refine of_some hexec (lockInv_modifyTask h₁ t _ (fun hown => ?_) (fun v hv => ?_)
      (fun uval hu => h₁.robust t uval hu) (fun _ => hexit))
    · exact absurd (hexit.symm.trans hown.1) (by simp)
    · cases hv
  | _ => exact absurd rfl hplain

end Step

end IshAok.Futex
