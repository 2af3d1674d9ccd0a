import IshAok.Base.Run
import IshAok.Theory.Futex.Refs

/-!
# Every Operation Keeps the Count

Each operation of the futex code is taken from the references it holds to the
end, where it holds none. `Safe` says that it gets there: no assertion fails, no
object is used after it was freed, and every count is right afterwards.

A lock is followed under the phase that it is about to have. On its first step
the task is not in the lock yet and the reference is the operation's, while later
it is the task's, and `s.setPhase t (.locking w)` is the same state for both.

## Main definitions

* `Safe`: The operation has a result, and no reference is left over.

## Theorems

* `safe_wait`, `safe_waitResume`: Waits.
* `safe_wakelike`, `safe_wakeOp`, `safe_cmpRequeue`, `safe_cmpRequeuePi`: Wakes.
* `safe_lockPi`, `safe_lockPiLooked`, `safe_lockPiResume`, `safe_unlockPi`: Locks.
* `safe_exec`: Every action that can happen.
-/

namespace IshAok.Futex

open List Bool Function

variable {K T : Type} [Fintype T]

/-- An operation that has a result and leaves every count right. -/
def Safe (x : Out K T) : Prop := ∃ s r, x = some (s, r) ∧ Inv s 0

/-- The references of an operation on one object. -/
abbrev one (id : Nat) : Nat → Nat := 0 + Pi.single id 1

/-- The references of an operation on two objects. -/
abbrev two (id id2 : Nat) : Nat → Nat := 0 + Pi.single id 1 + Pi.single id2 1

theorem one_apply (id i : Nat) : one id i = if id = i then 1 else 0 := by
  rw [one, zero_add, Pi.single_apply]
  simp only [eq_comm]

theorem two_pos_left (id id2 : Nat) : 0 < two id id2 id := by
  simp only [two, Pi.add_apply, Pi.single_eq_same, Pi.zero_apply]
  omega

theorem two_pos_right (id id2 : Nat) : 0 < two id id2 id2 := by
  simp only [two, Pi.add_apply, Pi.single_eq_same, Pi.zero_apply]
  omega

variable {s : State K T} {extra : Nat → Nat} {id : Nat} {t : T} {w : PiWait K} {o : FutexObj K T}

section

variable (h : Inv s extra)

include h

/-- An object that the operation has a reference on is there. -/
theorem getObj_of_extra (hpos : 0 < extra id) :
    ∃ o, s.getObj id = some o ∧ o.refcount = refs s id + extra id :=
  getObj_of_refs h id (Nat.add_pos_right _ hpos)

theorem getObj_of_waiting {w : Wait K} (hw : (s.tasks t).phase = .waiting w) :
    ∃ o, s.getObj w.futex = some o := by
  have hpos : 0 < taskRefs (s.tasks t) w.futex := by
    simp only [taskRefs, hw, phaseRefs, if_true]
    omega
  rcases getObj_of_refs h w.futex (Nat.add_pos_left (refs_pos _ t hpos) _) with ⟨o, ho, _⟩
  exact ⟨o, ho⟩

/-- Every waiter on a queue holds a reference. -/
theorem queue_length_le (ho : s.getObj id = some o) : o.queue.length ≤ refs s id := by
  classical
  have hsum := sum_mem_eq_length (h.queueNodup id o ho) 1
  rw [Nat.mul_one] at hsum
  rw [← hsum]
  refine Finset.sum_le_sum fun t _ => ?_
  split
  · next ht =>
    have hone := queuedOn_refs ((h.queue id o ho t).mp ht)
    unfold taskRefs
    omega
  · exact Nat.zero_le _

theorem inv_bumpSeq (id : Nat) : Inv (bumpSeq s id) extra :=
  inv_modifyObj h id _ (fun _ => ⟨rfl, rfl⟩) fun _ _ => ⟨rfl, rfl, rfl⟩

/-- The invariant does not look at memory. -/
theorem inv_mem (mem : K → BitVec 32) (access : T → K → Access) :
    Inv { s with mem := mem, access := access } extra :=
  { h with wf := { h.wf with } }

/-- A task on the lock queue of an object is locking there. -/
theorem locking_of_mem (ho : s.getObj id = some o) (ht : t ∈ o.piQueue) :
    ∃ w, (s.tasks t).phase = .locking w ∧ w.linked = true ∧ w.futex = id := by
  have hq := (h.piQueue id o ho t).mp ht
  cases hphase : (s.tasks t).phase with
  | locking w =>
    rw [hphase] at hq
    simp only [piQueuedOn, and_eq_true, beq_iff_eq] at hq
    exact ⟨w, rfl, hq⟩
  | running | waiting | exited => rw [hphase] at hq; cases hq

theorem piLive_of_queue (ho : s.getObj id = some o) : ∀ t ∈ o.piQueue, piIsLive s t = true := by
  intro t ht
  rcases locking_of_mem h ho ht with ⟨w, hw, _⟩
  unfold piIsLive
  rw [hw]

end

theorem inv_initial (h : Initial s) : Inv s 0 := by
  have hnone : ∀ id, s.getObj id = none := fun id => by
    unfold State.getObj
    rw [h.objs, List.find?_nil]
  have hno : ∀ {P : Prop} id o, s.getObj id = some o → P := fun id o ho => by
    rw [hnone id] at ho
    cases ho
  refine ⟨⟨?_, ?_, ?_⟩, fun id => ?_, fun id o ho => hno id o ho, fun id o ho => hno id o ho,
    fun id o ho => hno id o ho, fun id o ho => hno id o ho, fun id o ho => hno id o ho, fun t => ?_⟩
  · rw [h.objs]; exact nodup_nil
  · rw [h.objs]; exact nodup_nil
  · rw [h.objs]; exact fun o ho => absurd ho not_mem_nil
  · rw [refcountOf_none (hnone id)]
    refine (Finset.sum_eq_zero (fun t _ => ?_)).symm
    rcases h.tasks t with ⟨hphase, hpark, _⟩
    rcases hphase with hphase | ⟨hphase, _⟩
    · simp [taskRefs, hphase, hpark, phaseRefs, parkRefs]
    · simp [taskRefs, hphase, hpark, phaseRefs, parkRefs]
  · rcases h.tasks t with ⟨hphase, hpark, _⟩
    rcases hphase with hphase | ⟨hphase, _⟩
    · simp only [TaskOk, hphase]
    · simp only [TaskOk, hphase, hpark]

variable [DecidableEq T]

theorem safe_putAndReturn (h : Inv s (one id)) (r : Option Result) :
    Safe (putAndReturn s id r) := by
  rcases inv_put h with ⟨s', hput, hinv, _⟩
  exact ⟨s', r, by simp only [putAndReturn, hput], hinv⟩

theorem safe_putBoth {id2 : Nat} (h : Inv s (two id id2)) (r : Result) :
    Safe (putBoth s id2 id r) := by
  rcases inv_put h with ⟨s', hput, hinv, _⟩
  rcases safe_putAndReturn hinv (some r) with ⟨s'', r', hput', hinv'⟩
  exact ⟨s'', r', by simp only [putBoth, hput, hput'], hinv'⟩

omit [Fintype T] in
/-- A put does not look at the tasks. -/
theorem put_modifyTask (s : State K T) (t : T) (f : Task K → Task K) (id : Nat) :
    futexPutUnlocked (s.modifyTask t f) id =
      (futexPutUnlocked s id).map (fun s => s.modifyTask t f) := by
  unfold futexPutUnlocked
  have hget : (s.modifyTask t f).getObj id = s.getObj id := rfl
  rw [hget]
  cases s.getObj id with
  | none => rfl
  | some o =>
    simp only []
    split
    · rfl
    split
    · split <;> rfl
    · rfl

/-- A park given up leaves its reference to the operation. -/
theorem inv_unpark (h : Inv s extra) {p : Park K} (hp : (s.tasks t).park = some p)
    (hrun : (s.tasks t).phase = .running) :
    Inv (s.setPark t none) (extra + Pi.single p.futex 1) := by
  refine inv_modifyTask h t _ (fun i => ⟨rfl, rfl⟩) (fun i => ?_) ?_
  · simp only [taskRefs, hp, parkRefs, Pi.add_apply, Pi.single_apply, eq_comm (a := i)]
    omega
  · simp only [TaskOk, hrun]

theorem inv_clear (h : Inv s extra) (hrun : (s.tasks t).phase = .running) :
    ∃ s', futexClearRestartPark s t = some s' ∧ Inv s' extra ∧
      (s'.tasks t).phase = .running ∧ (s'.tasks t).park = none := by
  unfold futexClearRestartPark
  cases hp : (s.tasks t).park with
  | none => exact ⟨s, rfl, h, hrun, hp⟩
  | some p =>
    -- Dropping the reference before or after the field is cleared is the same.
    rcases inv_put (inv_unpark h hp hrun) with ⟨s', hput, hinv, hframe⟩
    unfold State.setPark at hput
    rw [put_modifyTask] at hput
    rcases Option.map_eq_some_iff.mp hput with ⟨s'', hput', heq⟩
    have htasks := hframe.tasks
    refine ⟨s', by simp only [hput']; exact congrArg some heq, hinv, ?_, ?_⟩
    · rw [htasks]
      simp [State.setPark, State.modifyTask, hrun]
    · rw [htasks]
      simp [State.setPark, State.modifyTask]

/-- Going on the queue of an object takes the operation's reference. -/
theorem inv_enqueue (h : Inv s (one id)) (hrun : (s.tasks t).phase = .running)
    (hpark : (s.tasks t).park = none) (key : K) (bitset : BitVec 32) :
    Inv ((s.modifyObj id (fun o => { o with queue := o.queue ++ [t] })).setPhase t
      (.waiting { futex := id, key := key, bitset := bitset, interrupted := false,
                  linked := true, sleeping := false })) 0 := by
  refine inv_single h t _ id _ (fun _ => ⟨rfl, rfl⟩) (fun _ => rfl)
    (fun o ho => places_snoc (h.queueNodup id o ho) ?_ ?_)
    (fun o ho => places_same (h.piNodup id o ho) ?_) (fun i hi => ⟨?_, ?_⟩) (fun i => ?_) ?_
  · rw [h.queue id o ho, hrun]
    exact Bool.false_ne_true
  · simp [queuedOn]
  · rw [h.piQueue id o ho, hrun]
    rfl
  · simp only [queuedOn, hrun, Bool.true_and, beq_eq_false_iff_ne]
    exact fun heq => hi heq.symm
  · simp only [piQueuedOn, hrun]
  · simp only [taskRefs, phaseRefs, hrun, hpark, parkRefs, one_apply, Pi.zero_apply]
    omega
  · simp only [TaskOk, hpark]

theorem safe_waitQueue (h : Inv s (one id)) (hrun : (s.tasks t).phase = .running)
    (hpark : (s.tasks t).park = none) (key : K) (val bitset : BitVec 32) :
    Safe (futexWaitQueue s t id key val bitset) := by
  unfold futexWaitQueue
  cases futexLoad s t key with
  | none => exact safe_putAndReturn h _
  | some word =>
    simp only []
    split
    · exact safe_putAndReturn h _
    · exact ⟨_, _, rfl, inv_enqueue h hrun hpark key bitset⟩

theorem safe_wait [DecidableEq K] (h : Inv s 0) (hrun : (s.tasks t).phase = .running) (key : K)
    (val bitset : BitVec 32) (malloc : Bool) :
    Safe (futexWaitMasked s t key val bitset malloc) := by
  unfold futexWaitMasked
  rcases inv_get h key malloc with ⟨s₁, id, o, hget, hinv, hframe, _, _⟩ | hget
  · have hrun₁ : (s₁.tasks t).phase = .running := by rw [hframe.tasks]; exact hrun
    simp only [hget]
    cases hp : (s₁.tasks t).park with
    | none => exact safe_waitQueue hinv hrun₁ hp key val bitset
    | some p =>
      simp only []
      by_cases hsame : p.futex = id
      · rw [if_pos hsame]
        -- The second reference goes, and the parked one becomes the operation's.
        rcases inv_put hinv with ⟨s₂, hput, hinv₂, hframe₂⟩
        have hp₂ : (s₂.tasks t).park = some p := by rw [hframe₂.tasks]; exact hp
        have hrun₂ : (s₂.tasks t).phase = .running := by rw [hframe₂.tasks]; exact hrun₁
        have hinv₃ := inv_unpark hinv₂ hp₂ hrun₂
        rw [hsame] at hinv₃
        have hpos : 0 < one id id := by rw [one_apply, if_pos rfl]; exact Nat.one_pos
        rcases getObj_of_extra hinv₃ hpos with ⟨o₂, ho₂, _⟩
        have ho₂' : s₂.getObj id = some o₂ := ho₂
        simp only [hput, ho₂']
        split
        · exact safe_putAndReturn hinv₃ _
        refine safe_waitQueue hinv₃ ?_ ?_ key val bitset
        · simp [State.setPark, State.modifyTask, hrun₂]
        · simp [State.setPark, State.modifyTask]
      · rw [if_neg hsame]
        rcases inv_clear hinv hrun₁ with ⟨s₂, hclear, hinv₂, hrun₂, hp₂⟩
        simp only [hclear]
        exact safe_waitQueue hinv₂ hrun₂ hp₂ key val bitset
  · simp only [hget]
    exact ⟨s, _, rfl, h⟩

/-- Leaving a wait hands its reference to the operation. -/
theorem inv_leave (h : Inv s 0) {w : Wait K} (hw : (s.tasks t).phase = .waiting w) :
    Inv ((s.modifyObj w.futex (fun o => { o with queue := o.queue.erase t })).setPhase t .running)
      (one w.futex) := by
  refine inv_single h t _ w.futex _ (fun _ => ⟨rfl, rfl⟩) (fun _ => rfl)
    (fun o ho => places_erase (h.queueNodup _ o ho) Bool.false_ne_true)
    (fun o ho => places_same (h.piNodup _ o ho) ?_) (fun i hi => ⟨?_, ?_⟩) (fun i => ?_) ?_
  · rw [h.piQueue _ o ho, hw]
    rfl
  · have : ¬ w.futex = i := fun heq => hi heq.symm
    simp [queuedOn, hw, beq_eq_false_iff_ne.mpr this]
  · simp only [piQueuedOn, hw]
  · simp only [taskRefs, phaseRefs, hw, one_apply, Pi.zero_apply]
    omega
  · simp only [TaskOk]

theorem safe_waitPark (h : Inv s 0) {w : Wait K} (hw : (s.tasks t).phase = .waiting w) :
    Safe (futexWaitPark s t w) := by
  unfold futexWaitPark
  rcases getObj_of_waiting h hw with ⟨o, ho⟩
  have hpark := h.task t
  simp only [TaskOk, hw] at hpark
  simp only [ho]
  refine ⟨_, _, rfl, inv_modifyTask (inv_leave h hw) t _ (fun i => ⟨rfl, rfl⟩) (fun i => ?_) ?_⟩
  · simp only [State.setPhase, State.modifyTask, update_self, taskRefs, parkRefs,
      State.modifyObj, hpark, one_apply, Pi.zero_apply]
    omega
  · simp [State.setPhase, State.modifyTask, TaskOk]

theorem safe_waitResume (h : Inv s 0) {w : Wait K} (hw : (s.tasks t).phase = .waiting w)
    (timedOut : Bool) : Safe (futexWaitResume s t timedOut) := by
  unfold futexWaitResume
  simp only [hw]
  have hleave := fun r => safe_putAndReturn (inv_leave h hw) (some r)
  split
  · exact safe_waitPark h hw
  split
  · exact hleave _
  split
  · split
    · exact safe_waitPark h hw
    · exact hleave _
  · refine ⟨_, _, rfl, inv_modifyTask h t _ (fun i => ⟨?_, ?_⟩) (fun i => ?_) ?_⟩
    · simp only [queuedOn, hw]
    · simp only [piQueuedOn, hw]
    · simp only [taskRefs, phaseRefs, hw]
    · have hok := h.task t
      simp only [TaskOk, hw] at hok ⊢
      exact hok

theorem inv_wakeWaiters (h : Inv s extra) (hpos : 0 < extra id) (hit : T → Bool) (max : Nat) :
    ∃ s' n, wakeWaiters s id hit max = some (s', n) ∧ Inv s' extra := by
  rcases getObj_of_extra h hpos with ⟨o, ho, _⟩
  have hperm := walk_perm (waitIsLive s) hit max o.queue (live_of_mem h ho)
  refine ⟨_, _, by simp only [wakeWaiters, ho]; rfl, inv_unlink h ho hperm⟩

theorem inv_requeueWaiters (h : Inv s extra) {target : Nat} (hpos : 0 < extra id)
    (hpos2 : 0 < extra target) (max : Nat) :
    ∃ s' n, futexRequeueWaiters s id target max = some (s', n) ∧ Inv s' extra := by
  rcases getObj_of_extra h hpos with ⟨o, ho, hcount⟩
  rcases getObj_of_extra h hpos2 with ⟨o2, ho2, _⟩
  have hperm := walk_perm (waitIsLive s) (fun _ => true) max o.queue (live_of_mem h ho)
  generalize hw : walk (waitIsLive s) (fun _ => true) max o.queue = split at hperm
  rcases split with ⟨moved, rest⟩
  change (moved ++ rest).Perm o.queue at hperm
  have hlen := hperm.length_eq
  rw [length_append] at hlen
  have hle := queue_length_le h ho
  simp only [futexRequeueWaiters, ho, hw]
  by_cases hne : target = id
  · rw [if_neg (by simp [hne])]
    -- Onto itself the queue is what it was, in the same order or not.
    refine ⟨_, _, rfl, ?_⟩
    have hnone : (s.modifyObj id (fun o => { o with queue := moved ++ rest })).modifyWaits []
        (fun w => { w with linked := false }) =
        s.modifyObj id (fun o => { o with queue := moved ++ rest }) := by
      have htasks : ∀ t, ((s.modifyObj id
          (fun o => { o with queue := moved ++ rest })).modifyWaits []
          (fun w => { w with linked := false })).tasks t = s.tasks t :=
        fun t => modifyWaits_of_not_mem _ _ not_mem_nil
      exact congrArg (fun tasks => { s.modifyObj id
        (fun o => { o with queue := moved ++ rest }) with tasks := tasks }) (funext htasks)
    rw [← hnone]
    exact inv_unlink h ho hperm
  · rw [if_pos hne, if_pos (Or.inr (by omega))]
    exact ⟨_, _, rfl, inv_move h hne ho ho2 hperm (by omega)⟩

/-- Entering a lock takes the operation's reference. -/
theorem inv_lockBegin (h : Inv s (one id)) (hrun : (s.tasks t).phase = .running)
    (hid : w.futex = id) (hl : w.linked = false) (hq : w.queued = false) :
    Inv (s.setPhase t (.locking w)) 0 := by
  refine inv_modifyTask h t _ (fun i => ⟨?_, ?_⟩) (fun i => ?_) ?_
  · simp only [queuedOn, hrun]
  · simp [piQueuedOn, hrun, hl]
  · simp only [taskRefs, phaseRefs, hrun, hid, one_apply, Pi.zero_apply]
    omega
  · simp [TaskOk, hl, hq]

omit [Fintype T] in
theorem setPhase_tasks (s : State K T) (t : T) (p : Phase K) :
    (s.setPhase t p).tasks t = { s.tasks t with phase := p } := by
  simp [State.setPhase, State.modifyTask]

omit [Fintype T] in
theorem setPhase_self {p : Phase K} (h : (s.tasks t).phase = p) : s.setPhase t p = s := by
  have htask : ({ s.tasks t with phase := p } : Task K) = s.tasks t := by rw [← h]
  simp only [State.setPhase, State.modifyTask]
  rw [htask, update_eq_self]

omit [Fintype T] in
theorem setPhase_setPhase (s : State K T) (t : T) (p q : Phase K) :
    (s.setPhase t p).setPhase t q = s.setPhase t q :=
  modifyTask_modifyTask s t _ _

omit [Fintype T] in
/-- With every entry live, looking for a waiter changes nothing. -/
theorem piFirst_rest (live : T → Bool) (self : Option T) {q : List T}
    (hlive : ∀ t ∈ q, live t = true) : (futexPiFirstWaiter live self q).2 = q := by
  induction q with
  | nil => rfl
  | cons t q ih =>
    have hq := ih fun u hu => hlive u (mem_cons_of_mem _ hu)
    unfold futexPiFirstWaiter
    simp only [hlive t mem_cons_self, Bool.not_true, false_eq_true, if_false]
    split
    · rw [hq]
    · rfl

omit [Fintype T] in
theorem piFirst_mem (live : T → Bool) (self : Option T) {q : List T}
    (h : (futexPiFirstWaiter live self q).1 = some t) : t ∈ q := by
  induction q with
  | nil => cases h
  | cons u q ih =>
    unfold futexPiFirstWaiter at h
    split at h
    · exact mem_cons_of_mem _ (ih h)
    split at h
    · exact mem_cons_of_mem _ (ih h)
    · cases h; exact mem_cons_self

section

variable (h : Inv (s.setPhase t (.locking w)) 0)

include h

/-- The entries of a lock queue are live, also while a task that is not among them
    is still about to enter its lock. -/
theorem piLive_of_mem (hl : w.linked = false)
    (ho : s.getObj id = some o) : ∀ u ∈ o.piQueue, piIsLive s u = true := by
  intro u hu
  rcases locking_of_mem h ho hu with ⟨v, hv, hvl, _⟩
  have hne : u ≠ t := by
    rintro rfl
    rw [setPhase_tasks, Phase.locking.injEq] at hv
    rw [← hv, hl] at hvl
    cases hvl
  have hsame : (s.setPhase t (.locking w)).tasks u = s.tasks u := update_of_ne hne _ _
  rw [hsame] at hv
  unfold piIsLive
  rw [hv]

theorem getObj_of_locking : ∃ o, s.getObj w.futex = some o := by
  have hpos : 0 < taskRefs ((s.setPhase t (.locking w)).tasks t) w.futex := by
    simp only [taskRefs, setPhase_tasks, phaseRefs, if_true]
    omega
  rcases getObj_of_refs h w.futex (Nat.add_pos_left (refs_pos _ t hpos) _) with ⟨o, ho, _⟩
  exact ⟨o, ho⟩

/-- A lock changes its stage. -/
theorem inv_stage (stage : PiStage) :
    Inv (s.setPhase t (.locking { w with stage := stage })) 0 := by
  have hok := h.task t
  rw [← setPhase_setPhase s t (.locking w)]
  refine inv_modifyTask h t _ (fun i => ⟨?_, ?_⟩) (fun i => ?_) ?_
  · simp only [setPhase_tasks, queuedOn]
  · simp only [setPhase_tasks, piQueuedOn]
  · simp only [setPhase_tasks, taskRefs, phaseRefs]
  · simp only [setPhase_tasks, TaskOk] at hok ⊢
    exact hok

/-- A task that takes a free lock finds the queue as it is. -/
theorem piOthers_rest (ho : s.getObj w.futex = some o) : (piOthers s t w o).2 = o.piQueue := by
  have hok := h.task t
  simp only [setPhase_tasks, TaskOk] at hok
  unfold piOthers
  split
  · rfl
  next hq =>
  have hl : w.linked = false := by rw [hok, eq_false_iff.mpr hq, Bool.false_and]
  exact piFirst_rest _ _ (piLive_of_mem h hl ho)

/-- Going on the queue of a lock. -/
theorem inv_piEnqueue (howned : w.piOwned = false) (owner : BitVec 32) :
    Inv ((s.modifyObj w.futex (fun o =>
        { o with
          piOwner := owner
          piQueue := if w.queued then o.piQueue else o.piQueue ++ [t] })).setPhase t
      (.locking { w with queued := true, linked := w.linked || !w.queued, stage := .asleep }))
      0 := by
  have hw : ((s.setPhase t (.locking w)).tasks t).phase = .locking w := by rw [setPhase_tasks]
  have hok := h.task t
  simp only [setPhase_tasks, TaskOk, howned, Bool.not_false, Bool.and_true] at hok
  rw [← setPhase_setPhase _ t (.locking w)]
  refine inv_single h t (fun task => { task with phase := .locking _ }) w.futex
    (fun o => { o with
      piOwner := owner
      piQueue := if w.queued then o.piQueue else o.piQueue ++ [t] }) (fun _ => ⟨rfl, rfl⟩)
    (fun _ => rfl) (fun o ho => places_same (h.queueNodup _ o ho) ?_)
    (fun o ho => ?_) (fun i hi => ⟨?_, ?_⟩) (fun i => ?_) ?_
  · rw [h.queue _ o ho, hw]
    rfl
  · have hmem : t ∈ o.piQueue ↔ w.queued = true := by
      rw [h.piQueue _ o ho t, hw]
      simp [piQueuedOn, BEq.rfl, hok]
    cases hq : w.queued with
    | true => exact places_same (h.piNodup _ o ho) (by simp [hmem, hq, piQueuedOn, hok])
    | false => exact places_snoc (h.piNodup _ o ho) (by simp [hmem, hq]) (by simp [piQueuedOn])
  · simp only [queuedOn, hw]
  · have : ¬ w.futex = i := fun heq => hi heq.symm
    simp [piQueuedOn, hw, beq_eq_false_iff_ne.mpr this]
  · simp only [taskRefs, phaseRefs, hw]
  · simp [TaskOk, howned, hok]

end

/-- A lock handed to the first task on its queue. -/
theorem inv_handOver (h : Inv s extra) (ho : s.getObj id = some o) {next : T}
    (hnext : next ∈ o.piQueue) (owner : BitVec 32) :
    Inv (handOver (s.modifyObj id (fun o =>
      { o with piQueue := o.piQueue.erase next, piOwner := owner })) next) extra := by
  rcases locking_of_mem h ho hnext with ⟨w, hw, hl, hid⟩
  have hok := h.task next
  simp only [TaskOk, hw] at hok
  rw [hl] at hok
  have hqueued : w.queued = true := (and_eq_true_iff.mp hok.symm).1
  refine inv_single h next _ id _ (fun _ => ⟨rfl, rfl⟩) (fun _ => rfl)
    (fun p hp => places_same (h.queueNodup _ p hp) ?_)
    (fun p hp => places_erase (h.piNodup _ p hp) ?_) (fun i hi => ⟨?_, ?_⟩) (fun i => ?_) ?_
  · rw [h.queue _ p hp]
    simp only [hw, queuedOn]
  · simp [hw, piQueuedOn]
  · simp only [hw, queuedOn]
  · have : ¬ w.futex = i := fun heq => hi (heq.symm.trans hid)
    simp [hw, piQueuedOn, beq_eq_false_iff_ne.mpr this]
  · simp only [hw, taskRefs, phaseRefs]
  · simp [hw, TaskOk, hqueued]

/-- A change of a task's other fields. -/
theorem inv_fields (h : Inv s 0) (t : T) (g : Task K → Task K)
    (hg : ∀ task, (g task).phase = task.phase ∧ (g task).park = task.park) :
    Inv (s.modifyTask t g) 0 := by
  have hok := h.task t
  refine inv_modifyTask h t g (fun i => ?_) (fun i => ?_) ?_
  · rw [(hg _).1]
    exact ⟨rfl, rfl⟩
  · unfold taskRefs
    rw [(hg _).1, (hg _).2]
  · unfold TaskOk at hok ⊢
    rw [(hg _).1, (hg _).2]
    exact hok

theorem inv_interrupt (h : Inv s 0) (t : T) : Inv (s.modifyTask t interruptTask) 0 := by
  have hok := h.task t
  unfold TaskOk at hok
  cases hphase : (s.tasks t).phase with
  | running | exited =>
    have hsame : interruptTask (s.tasks t) = s.tasks t := by simp only [interruptTask, hphase]
    refine inv_modifyTask h t _ (fun i => ?_) (fun i => ?_) ?_
    all_goals rw [hsame]
    · exact ⟨rfl, rfl⟩
    · exact h.task t
  | waiting | locking =>
    rw [hphase] at hok
    refine inv_modifyTask h t _ (fun i => ?_) (fun i => ?_) ?_
    all_goals simp only [interruptTask, hphase]
    · exact ⟨rfl, rfl⟩
    · simp only [taskRefs, phaseRefs, hphase]
    · exact hok

variable [DecidableEq K] (ids : Tids T)

omit [DecidableEq T] in
theorem inv_cas {s' : State K T} (h : Inv s extra) {key : K} {desired : BitVec 32}
    (hcas : futexCas s t key desired = some s') : Inv s' extra := by
  rw [futexCas_some hcas]
  exact inv_mem h _ _

omit [DecidableEq T] in
/-- Taking the two references of an operation on two words. -/
theorem inv_get_two (h : Inv s (one id)) (key : K) (malloc : Bool) :
    (∃ s' id2, futexGetUnlocked s key malloc = (s', some id2) ∧ Inv s' (two id id2)) ∨
    futexGetUnlocked s key malloc = (s, none) := by
  rcases inv_get h key malloc with ⟨s', id2, _, hget, hinv, _⟩ | hget
  · exact .inl ⟨s', id2, hget, hinv⟩
  · exact .inr hget

theorem safe_wakelike (h : Inv s 0) (key : K) (wakeMax : Nat) (wakeMask : BitVec 32)
    (requeue : Option (K × Nat)) (malloc malloc2 : Bool) :
    Safe (futexWakelike s key wakeMax wakeMask requeue malloc malloc2) := by
  unfold futexWakelike
  rcases inv_get h key malloc with ⟨s₁, id, _, hget, hinv, _⟩ | hget
  · simp only [hget]
    cases requeue with
    | none =>
      have hpos : 0 < one id id := by rw [one_apply, if_pos rfl]; exact Nat.one_pos
      rcases inv_wakeWaiters (inv_bumpSeq hinv id) hpos
        (fun t => waitBitset s₁ t &&& wakeMask != 0) wakeMax with ⟨s₂, n, hwake, hinv₂⟩
      simp only [hwake]
      exact safe_putAndReturn hinv₂ _
    | some target =>
      rcases target with ⟨key2, requeueMax⟩
      rcases inv_get_two hinv key2 malloc2 with ⟨s₂, id2, hget2, hinv₂⟩ | hget2
      · simp only [hget2]
        have hpos := two_pos_left id id2
        rcases inv_wakeWaiters (inv_bumpSeq hinv₂ id) hpos
          (fun t => waitBitset s₂ t &&& wakeMask != 0) wakeMax with ⟨s₃, n, hwake, hinv₃⟩
        rcases inv_requeueWaiters hinv₃ hpos (two_pos_right id id2) requeueMax with
          ⟨s₄, m, hmove, hinv₄⟩
        simp only [hwake, hmove]
        exact safe_putBoth hinv₄ _
      · simp only [hget2]
        exact safe_putAndReturn hinv _
  · simp only [hget]
    exact ⟨s, _, rfl, h⟩

theorem safe_wakeOp (h : Inv s 0) (t : T) (key1 key2 : K) (wakeMax wakeMax2 : Nat)
    (encoded : BitVec 32) (malloc malloc2 : Bool) :
    Safe (futexWakeOp s t key1 key2 wakeMax wakeMax2 encoded malloc malloc2) := by
  unfold futexWakeOp
  cases decodeOp encoded with
  | none => exact ⟨s, _, rfl, h⟩
  | some op =>
    rcases op with ⟨f, cmp⟩
    rcases inv_get h key1 malloc with ⟨s₁, id1, _, hget, hinv, _⟩ | hget
    · simp only [hget]
      rcases inv_get_two hinv key2 malloc2 with ⟨s₂, id2, hget2, hinv₂⟩ | hget2
      · simp only [hget2]
        cases hcas : futexCas s₂ t key2 (f (s₂.mem key2)) with
        | none => exact safe_putBoth hinv₂ _
        | some s₃ =>
          rcases inv_wakeWaiters (inv_cas hinv₂ hcas) (two_pos_left id1 id2) (fun _ => true)
            wakeMax with ⟨s₄, n, hwake, hinv₄⟩
          simp only [hwake]
          split
          · rcases inv_wakeWaiters hinv₄ (two_pos_right id1 id2) (fun _ => true) wakeMax2 with
              ⟨s₅, m, hwake2, hinv₅⟩
            simp only [hwake2]
            exact safe_putBoth hinv₅ _
          · exact safe_putBoth hinv₄ _
      · simp only [hget2]
        exact safe_putAndReturn hinv _
    · simp only [hget]
      exact ⟨s, _, rfl, h⟩

theorem safe_cmpRequeue (h : Inv s 0) (t : T) (key1 key2 : K) (val val2 : Nat) (val3 : BitVec 32)
    (malloc malloc2 : Bool) :
    Safe (futexCmpRequeue s t key1 key2 val val2 val3 malloc malloc2) := by
  unfold futexCmpRequeue
  rcases inv_get h key1 malloc with ⟨s₁, id1, _, hget, hinv, _⟩ | hget
  · simp only [hget]
    rcases inv_get_two hinv key2 malloc2 with ⟨s₂, id2, hget2, hinv₂⟩ | hget2
    · simp only [hget2]
      cases futexLoad s₂ t key1 with
      | none => exact safe_putBoth hinv₂ _
      | some word =>
        simp only []
        split
        · exact safe_putBoth hinv₂ _
        rcases inv_wakeWaiters hinv₂ (two_pos_left id1 id2) (fun _ => true) val with
          ⟨s₃, n, hwake, hinv₃⟩
        rcases inv_requeueWaiters hinv₃ (two_pos_left id1 id2) (two_pos_right id1 id2) val2
          with ⟨s₄, m, hmove, hinv₄⟩
        simp only [hwake, hmove]
        exact safe_putBoth hinv₄ _
    · simp only [hget2]
      exact safe_putAndReturn hinv _
  · simp only [hget]
    exact ⟨s, _, rfl, h⟩

theorem safe_cmpRequeuePi (h : Inv s 0) (t : T) (key1 key2 : K) (val : BitVec 32) (val2 : Nat)
    (malloc malloc2 : Bool) : Safe (futexCmpRequeuePi s t key1 key2 val val2 malloc malloc2) := by
  unfold futexCmpRequeuePi
  rcases inv_get h key1 malloc with ⟨s₁, id1, _, hget, hinv, _⟩ | hget
  · simp only [hget]
    rcases inv_get_two hinv key2 malloc2 with ⟨s₂, id2, hget2, hinv₂⟩ | hget2
    · simp only [hget2]
      cases futexLoad s₂ t key1 with
      | none => exact safe_putBoth hinv₂ _
      | some word =>
        simp only []
        split
        · exact safe_putBoth hinv₂ _
        rcases inv_requeueWaiters hinv₂ (two_pos_left id1 id2) (two_pos_right id1 id2) val2
          with ⟨s₃, m, hmove, hinv₃⟩
        simp only [hmove]
        exact safe_putBoth hinv₃ _
    · simp only [hget2]
      exact safe_putAndReturn hinv _
  · simp only [hget]
    exact ⟨s, _, rfl, h⟩

section

variable (h : Inv (s.setPhase t (.locking w)) 0)

include h

/-- Leaving a lock, with or without having been on its queue. -/
theorem safe_lockPiLeave (r : Result) : Safe (futexLockPiLeave s t w r) := by
  have hw : ((s.setPhase t (.locking w)).tasks t).phase = .locking w := by rw [setPhase_tasks]
  have hleave : Inv (((s.setPhase t (.locking w)).modifyObj w.futex
      (fun o => { o with piQueue := o.piQueue.erase t })).setPhase t .running) (one w.futex) := by
    refine inv_single h t _ w.futex _ (fun _ => ⟨rfl, rfl⟩) (fun _ => rfl)
      (fun o ho => places_same (h.queueNodup _ o ho) ?_)
      (fun o ho => places_erase (h.piNodup _ o ho) Bool.false_ne_true) (fun i hi => ⟨?_, ?_⟩)
      (fun i => ?_) ?_
    · rw [h.queue _ o ho, hw]
      rfl
    · simp only [queuedOn, hw]
    · have : ¬ w.futex = i := fun heq => hi heq.symm
      simp [piQueuedOn, hw, beq_eq_false_iff_ne.mpr this]
    · simp only [taskRefs, phaseRefs, hw, one_apply, Pi.zero_apply]
      omega
    · simp only [TaskOk]
  have hsame : ((s.setPhase t (.locking w)).modifyObj w.futex
      (fun o => { o with piQueue := o.piQueue.erase t })).setPhase t .running =
      (s.modifyObj w.futex (fun o => { o with piQueue := o.piQueue.erase t })).setPhase t
        .running :=
    setPhase_setPhase (s.modifyObj w.futex (fun o => { o with piQueue := o.piQueue.erase t })) t _ _
  rw [hsame] at hleave
  refine safe_putAndReturn (inv_modifyTask hleave t _ (fun i => ⟨rfl, rfl⟩) (fun i => rfl) ?_) _
  simp only [setPhase_tasks, TaskOk]

theorem inv_lock_cas {s' : State K T} {key : K} {desired : BitVec 32}
    (hcas : futexCas s t key desired = some s') : Inv (s'.setPhase t (.locking w)) 0 := by
  rw [futexCas_some hcas]
  exact inv_mem h _ _

theorem safe_lockPiLoop (trylock : Bool) : Safe (futexLockPiLoop ids s t w trylock) := by
  have hleave := fun r => safe_lockPiLeave h r
  unfold futexLockPiLoop
  split
  · exact hleave _
  cases futexLoad s t w.key with
  | none => exact hleave _
  | some val =>
    simp only []
    split
    · rcases getObj_of_locking h with ⟨o, ho⟩
      simp only [ho]
      have hinv : Inv ((s.modifyObj w.futex
          (fun p => { p with piQueue := (piOthers s t w o).2 })).setPhase t (.locking w)) 0 := by
        refine inv_modifyObj h w.futex (fun p => { p with piQueue := (piOthers s t w o).2 })
          (fun _ => ⟨rfl, rfl⟩) fun p hp => ⟨rfl, rfl, ?_⟩
        have hp' : s.getObj w.futex = some p := hp
        rw [← Option.some.inj (ho.symm.trans hp')]
        exact piOthers_rest h ho
      split
      · exact safe_lockPiLeave hinv _
      · next s' hcas => exact safe_lockPiLeave (inv_lock_cas hinv hcas) _
    · split
      · exact hleave _
      split
      · cases hcas : futexCas s t w.key (val ||| futexWaiters) with
        | none => exact hleave _
        | some s' =>
          have hinv := inv_lock_cas h hcas
          simp only []
          split
          · exact safe_lockPiLeave hinv _
          · exact ⟨_, _, rfl, inv_stage hinv _⟩
      · split
        · exact hleave _
        · exact ⟨_, _, rfl, inv_stage h _⟩

end

theorem safe_lockPi (h : Inv s 0) (hrun : (s.tasks t).phase = .running) (key : K)
    (trylock malloc : Bool) : Safe (futexLockPi ids s t key trylock malloc) := by
  unfold futexLockPi
  rcases inv_get h key malloc with ⟨s₁, id, _, hget, hinv, hframe, _⟩ | hget
  · simp only [hget]
    have hrun₁ : (s₁.tasks t).phase = .running := by rw [hframe.tasks]; exact hrun
    exact safe_lockPiLoop ids (inv_lockBegin hinv hrun₁ rfl rfl rfl) trylock
  · simp only [hget]
    exact ⟨s, _, rfl, h⟩

theorem safe_lockPiLooked (h : Inv s 0) (hw : (s.tasks t).phase = .locking w)
    {val : BitVec 32} {alive : Bool} (hstage : w.stage = .looked val alive) (timedOut : Bool) :
    Safe (futexLockPiLooked ids s t timedOut) := by
  have hinv : Inv (s.setPhase t (.locking w)) 0 := by rw [setPhase_self hw]; exact h
  unfold futexLockPiLooked
  simp only [hw, hstage]
  split
  · exact safe_lockPiLoop ids hinv false
  next howned =>
  rw [not_eq_true] at howned
  split
  · have hqueued := inv_piEnqueue hinv howned (val &&& futexTidMask)
    split
    · exact safe_lockPiLeave hqueued _
    · exact ⟨_, _, rfl, hqueued⟩
  · cases futexLoad s t w.key with
    | none => exact safe_lockPiLeave hinv _
    | some now =>
      simp only []
      split
      · exact safe_lockPiLoop ids hinv false
      rcases getObj_of_locking hinv with ⟨o, ho⟩
      simp only [ho]
      split
      · exact safe_lockPiLeave hinv _
      cases hcas : futexCas s t w.key (ids.tid t ||| futexOwnerDied ||| futexWaiters) with
      | none => exact safe_lockPiLeave hinv _
      | some s' => exact safe_lockPiLeave (inv_lock_cas hinv hcas) _

theorem safe_lockPiResume (h : Inv s 0) (hw : (s.tasks t).phase = .locking w) :
    Safe (futexLockPiResume ids s t) := by
  have hinv : Inv (s.setPhase t (.locking w)) 0 := by rw [setPhase_self hw]; exact h
  unfold futexLockPiResume
  simp only [hw]
  split
  · exact safe_lockPiLoop ids hinv false
  split
  · exact safe_lockPiLeave hinv _
  · exact safe_lockPiLoop ids hinv false

theorem inv_setHeld (h : Inv s extra) (t : T) (key : K) (b : Bool) :
    Inv (s.setHeld t key b) extra :=
  inv_modifyTask h t _ (fun _ => ⟨rfl, rfl⟩) (fun _ => rfl) (h.task t)

theorem safe_unlockPi (h : Inv s 0) (t : T) (key : K) (malloc : Bool) :
    Safe (futexUnlockPi ids s t key malloc) := by
  unfold futexUnlockPi
  rcases inv_get h key malloc with ⟨s₁, id, o, hget, hinv, _, ho, _⟩ | hget
  · simp only [hget]
    cases futexLoad s₁ t key with
    | none => exact safe_putAndReturn hinv _
    | some val =>
      simp only []
      split
      · exact safe_putAndReturn hinv _
      simp only [ho]
      have hrest := piFirst_rest (piIsLive s₁) none (piLive_of_queue hinv ho)
      have hsame : Inv (s₁.modifyObj id (fun p => { p with piQueue := o.piQueue })) (one id) :=
        inv_modifyObj hinv id (fun p => { p with piQueue := o.piQueue }) (fun _ => ⟨rfl, rfl⟩)
          (fun p hp => ⟨rfl, rfl, by rw [Option.some.inj (ho.symm.trans hp)]⟩)
      have hself : (s₁.modifyObj id (fun p => { p with piQueue := o.piQueue })).getObj id =
          some o := by
        have hgets := getObj_modifyObj s₁ id id
          (fun p => { p with piQueue := o.piQueue }) fun _ => ⟨rfl, rfl⟩
        rw [hgets, if_pos rfl, ho, Option.map_some]
      generalize hfirst : futexPiFirstWaiter (piIsLive s₁) none o.piQueue = first at hrest
      rcases first with ⟨next, rest⟩
      subst hrest
      cases next with
      | none =>
        simp only []
        split
        · exact safe_putAndReturn hsame _
        next s₂ hcas =>
        exact safe_putAndReturn (inv_setHeld (inv_cas hsame hcas) t key false) _
      | some next =>
        have hnext : next ∈ o.piQueue :=
          piFirst_mem (piIsLive s₁) none (by rw [hfirst])
        simp only []
        split
        · exact safe_putAndReturn hsame _
        next s₂ hcas =>
        have hself₂ : s₂.getObj id = some o := by rw [futexCas_some hcas]; exact hself
        exact safe_putAndReturn (inv_setHeld
          (inv_handOver (inv_cas hsame hcas) hself₂ hnext (ids.tid next)) t key false) _
  · simp only [hget]
    exact ⟨s, _, rfl, h⟩

/-- Every action that can happen has a result, and keeps every count right. -/
theorem safe_exec (h : Inv s 0) (a : Action K T) (hen : Enabled ids s a) :
    Safe (exec ids s a) := by
  cases a with
  | wait t key val bitset malloc => exact safe_wait h hen.1 key val bitset malloc
  | waitResume t timedOut =>
    rcases hen with ⟨w, hw⟩
    exact safe_waitResume h hw timedOut
  | release t =>
    rcases inv_clear h hen with ⟨s', hclear, hinv, _⟩
    exact ⟨s', none, by simp only [exec, futexReleaseRestartPark, hclear], hinv⟩
  | wakelike t key wakeMax wakeMask requeue malloc malloc2 =>
    exact safe_wakelike h key wakeMax wakeMask requeue malloc malloc2
  | wakeOp t key1 key2 wakeMax wakeMax2 encoded malloc malloc2 =>
    exact safe_wakeOp h t key1 key2 wakeMax wakeMax2 encoded malloc malloc2
  | cmpRequeue t key1 key2 val val2 val3 malloc malloc2 =>
    exact safe_cmpRequeue h t key1 key2 val val2 val3 malloc malloc2
  | cmpRequeuePi t key1 key2 val val2 malloc malloc2 =>
    exact safe_cmpRequeuePi h t key1 key2 val val2 malloc malloc2
  | lockPi t key trylock malloc => exact safe_lockPi ids h hen.1 key trylock malloc
  | lockPiLook t =>
    rcases hen with ⟨w, val, hw, hstage⟩
    have hinv : Inv (s.setPhase t (.locking w)) 0 := by rw [setPhase_self hw]; exact h
    exact ⟨_, _, by simp only [exec, futexLockPiLook, hw, hstage]; rfl, inv_stage hinv _⟩
  | lockPiLooked t timedOut =>
    rcases hen with ⟨w, val, alive, hw, hstage⟩
    exact safe_lockPiLooked ids h hw hstage timedOut
  | lockPiResume t =>
    rcases hen with ⟨w, hw, _⟩
    exact safe_lockPiResume ids h hw
  | unlockPi t key malloc => exact safe_unlockPi ids h t key malloc
  | userLock t key => exact ⟨_, _, rfl, inv_setHeld (inv_mem h _ _) t key true⟩
  | userUnlock t key => exact ⟨_, _, rfl, inv_setHeld (inv_mem h _ _) t key false⟩
  | store | protect => exact ⟨_, _, rfl, inv_mem h _ _⟩
  | signal t | exitBegin t => exact ⟨_, _, rfl, inv_fields h t _ (fun _ => ⟨rfl, rfl⟩)⟩
  | interrupt t => exact ⟨_, _, rfl, inv_interrupt h t⟩
  | robustRead t key =>
    refine ⟨_, _, rfl, ?_⟩
    unfold robustHandleDeathRead
    split
    · exact h
    split
    · exact h
    · exact inv_fields h t _ fun _ => ⟨rfl, rfl⟩
  | robustWrite t =>
    refine ⟨_, _, rfl, ?_⟩
    unfold robustHandleDeathWrite
    split
    · exact h
    have hinv := inv_fields h t (fun task => { task with robust := none }) (fun _ => ⟨rfl, rfl⟩)
    simp only []
    split
    · exact inv_mem hinv _ _
    · exact hinv
  | exitEnd t =>
    rcases inv_clear h hen.1 with ⟨s', hclear, hinv, hrun, hpark⟩
    refine ⟨_, _, by simp only [exec, hclear]; rfl, ?_⟩
    refine inv_modifyTask hinv t _ (fun i => ⟨?_, ?_⟩) (fun i => ?_) ?_
    · simp only [queuedOn, hrun]
    · simp only [piQueuedOn, hrun]
    · simp only [taskRefs, phaseRefs, hrun]
    · simp only [TaskOk, hpark]
  | spawn t =>
    have hgone : (s.tasks t).phase = .exited := hen
    have hok := h.task t
    simp only [TaskOk, hgone] at hok
    refine ⟨_, _, rfl, inv_modifyTask h t _ (fun i => ⟨?_, ?_⟩) (fun i => ?_) ?_⟩
    · simp only [newTask, queuedOn, hgone]
    · simp only [newTask, piQueuedOn, hgone]
    · simp only [newTask, taskRefs, phaseRefs, hgone, hok]
    · simp only [newTask, TaskOk]

theorem inv_step {u : State K T} {e : Action K T × Option Result} (h : Inv s 0)
    (hstep : Step ids s e u) : Inv u 0 := by
  rcases safe_exec ids h e.1 hstep.1 with ⟨s', r', heq, hinv⟩
  rw [hstep.2, Option.some.injEq, Prod.mk.injEq] at heq
  rw [heq.1]
  exact hinv

theorem inv_run {u : State K T}
    {tr : List (State K T × (Action K T × Option Result))} (h : Initial s)
    (hrun : Base.Run (Step ids) s tr u) : Inv u 0 :=
  Base.run_invariant (fun s => Inv s 0) hrun (inv_initial h)
    (fun _ _ _ _ hinv hstep => inv_step ids hinv hstep)

end IshAok.Futex
