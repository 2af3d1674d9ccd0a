import Mathlib.Algebra.BigOperators.Group.Finset.Piecewise
import IshAok.Base.Tally
import IshAok.Theory.Futex.Table

/-!
# References on Futexes

Who holds a reference on a futex. A wait and a lock hold one on the object they
are on, from their first step to their last, and a parked wait holds one on the
object it left. An operation holds more while it runs, and these are given
explicitly: `Inv s extra` says that every count is what the tasks hold and what
`extra` says is held besides. Between steps nothing is held besides.

Each operation on the table trades one kind of reference for another. A put
needs one in `extra`, and this is why it never fails: the count is then positive,
and when it is one no task is left to be on a queue.

## Main definitions

* `taskRefs`, `refs`: The references of a task, and of all.
* `queuedOn`, `piQueuedOn`: Whether a task is on a queue of an object.
* `Places`: A queue on which one task may have come or gone.
* `Inv`: The invariant, with the references of the operation that runs.

## Theorems

* `inv_get`, `inv_put`: Taking and dropping a reference.
* `inv_single`: A change of one task together with one object.
-/

namespace IshAok.Futex

open List Option

variable {K T : Type}

def phaseRefs : Phase K → Nat → Nat
  | .waiting w, id => if w.futex = id then 1 else 0
  | .locking w, id => if w.futex = id then 1 else 0
  | _, _ => 0

def parkRefs : Option (Park K) → Nat → Nat
  | some p, id => if p.futex = id then 1 else 0
  | none, _ => 0

/-- The references that a task holds on an object. -/
def taskRefs (task : Task K) (id : Nat) : Nat := phaseRefs task.phase id + parkRefs task.park id

/-- The references that all tasks hold on an object. -/
def refs [Fintype T] (s : State K T) (id : Nat) : Nat := ∑ t, taskRefs (s.tasks t) id

def refcountOf (s : State K T) (id : Nat) : Nat :=
  match s.getObj id with
  | some o => o.refcount
  | none => 0

/-- A wait that is on the queue of an object. -/
def queuedOn : Phase K → Nat → Bool
  | .waiting w, id => w.linked && w.futex == id
  | _, _ => false

/-- A lock that is on the queue of an object. -/
def piQueuedOn : Phase K → Nat → Bool
  | .locking w, id => w.linked && w.futex == id
  | _, _ => false

/-- What holds of one task: a lock is linked until it is handed over, and a wait
    has nothing parked, as has a task that is gone. -/
def TaskOk (task : Task K) : Prop :=
  match task.phase with
  | .waiting _ => task.park = none
  | .locking w => w.linked = (w.queued && !w.piOwned)
  | .exited => task.park = none
  | .running => True

/-- Every count is the references of the tasks and those in `extra`, and the
    queues hold exactly the tasks that are on them. -/
structure Inv [Fintype T] (s : State K T) (extra : Nat → Nat) : Prop where
  wf : Wf s
  count : ∀ id, refcountOf s id = refs s id + extra id
  pos : ∀ id o, s.getObj id = some o → 0 < o.refcount
  queue : ∀ id o, s.getObj id = some o → ∀ t, t ∈ o.queue ↔ queuedOn (s.tasks t).phase id = true
  queueNodup : ∀ id o, s.getObj id = some o → o.queue.Nodup
  piQueue : ∀ id o, s.getObj id = some o →
    ∀ t, t ∈ o.piQueue ↔ piQueuedOn (s.tasks t).phase id = true
  piNodup : ∀ id o, s.getObj id = some o → o.piQueue.Nodup
  task : ∀ t, TaskOk (s.tasks t)

variable {s : State K T} {id : Nat} {o : FutexObj K T} {ts : List T} {extra extra' : Nat → Nat}

theorem refcountOf_some (h : s.getObj id = some o) : refcountOf s id = o.refcount := by
  unfold refcountOf; rw [h]

theorem refcountOf_none (h : s.getObj id = none) : refcountOf s id = 0 := by
  unfold refcountOf; rw [h]

theorem refcountOf_congr {s' : State K T} (h : s'.getObj id = s.getObj id) :
    refcountOf s' id = refcountOf s id := by
  unfold refcountOf; rw [h]

/-- An object after a change of one comes from one before it. -/
theorem getObj_modifyObj_some {f : FutexObj K T → FutexObj K T} (hf : Keeps f) {i : Nat}
    (ho : (s.modifyObj id f).getObj i = some o) :
    (i = id ∧ ∃ p, s.getObj id = some p ∧ o = f p) ∨ (i ≠ id ∧ s.getObj i = some o) := by
  rw [getObj_modifyObj s id i f hf] at ho
  by_cases hi : i = id
  · rw [if_pos hi, hi] at ho
    rcases map_eq_some_iff.mp ho with ⟨p, hp, heq⟩
    exact .inl ⟨hi, p, hp, heq.symm⟩
  · rw [if_neg hi] at ho
    exact .inr ⟨hi, ho⟩

theorem refcountOf_modifyObj {f : FutexObj K T → FutexObj K T} (hf : Keeps f)
    (hsame : ∀ o, s.getObj id = some o → (f o).refcount = o.refcount) (i : Nat) :
    refcountOf (s.modifyObj id f) i = refcountOf s i := by
  have hget := getObj_modifyObj s id i f hf
  by_cases hi : i = id
  · rw [if_pos hi, hi] at hget
    rw [hi]
    cases ho : s.getObj id with
    | none => rw [refcountOf_none ho, refcountOf_none (by rw [hget, ho]; rfl)]
    | some o =>
      rw [refcountOf_some ho, refcountOf_some (hget.trans (by rw [ho]; rfl)), hsame o ho]
  · exact refcountOf_congr (by rw [hget, if_neg hi])

theorem queuedOn_refs {p : Phase K} (h : queuedOn p id = true) : phaseRefs p id = 1 := by
  cases p with
  | waiting w =>
    simp only [queuedOn, Bool.and_eq_true, beq_iff_eq] at h
    exact if_pos h.2
  | running | locking | exited => cases h

theorem piQueuedOn_refs {p : Phase K} (h : piQueuedOn p id = true) : phaseRefs p id = 1 := by
  cases p with
  | locking w =>
    simp only [piQueuedOn, Bool.and_eq_true, beq_iff_eq] at h
    exact if_pos h.2
  | running | waiting | exited => cases h

/-- Two changes of one task are one. -/
theorem modifyTask_modifyTask [DecidableEq T] (s : State K T) (t : T) (f g : Task K → Task K) :
    (s.modifyTask t f).modifyTask t g = s.modifyTask t (fun task => g (f task)) := by
  unfold State.modifyTask
  simp

theorem modifyWaits_of_mem [DecidableEq T] (s : State K T) {t : T} {w : Wait K}
    (f : Wait K → Wait K) (ht : t ∈ ts) (hw : (s.tasks t).phase = .waiting w) :
    (s.modifyWaits ts f).tasks t = { s.tasks t with phase := .waiting (f w) } := by
  unfold State.modifyWaits
  simp only [hw, if_pos ht]

theorem modifyWaits_of_not_mem [DecidableEq T] (s : State K T) {t : T} (f : Wait K → Wait K)
    (ht : t ∉ ts) : (s.modifyWaits ts f).tasks t = s.tasks t := by
  unfold State.modifyWaits
  simp only [if_neg ht]
  split <;> rfl

/-- A queue `q'` that is `q` but for `t`, which is on it if `b` holds. -/
def Places [DecidableEq T] (t : T) (b : Prop) [Decidable b] (q q' : List T) : Prop :=
  q'.Nodup ∧ ∀ u, u ∈ q' ↔ if u = t then b else u ∈ q

section Places

variable [DecidableEq T] {t : T} {b : Prop} [Decidable b] {q : List T}

theorem places_same (hq : q.Nodup) (hb : t ∈ q ↔ b) : Places t b q q := by
  refine ⟨hq, fun u => ?_⟩
  split
  · next hu => rw [hu, hb]
  · rfl

theorem places_erase (hq : q.Nodup) (hb : ¬ b) : Places t b q (q.erase t) := by
  refine ⟨hq.erase t, fun u => ?_⟩
  rw [hq.mem_erase_iff]
  by_cases hu : u = t <;> simp [hu, hb]

theorem places_snoc (hq : q.Nodup) (ht : t ∉ q) (hb : b) : Places t b q (q ++ [t]) := by
  refine ⟨nodup_append.mpr ⟨hq, nodup_singleton t, ?_⟩, fun u => ?_⟩
  · rintro u hu v hv rfl
    exact ht (mem_singleton.mp hv ▸ hu)
  · by_cases hu : u = t <;> simp [hu, hb]

end Places

/-- A walk over live waiters splits the queue. -/
theorem walk_perm (live hit : T → Bool) (max : Nat) (q : List T) (hlive : ∀ t ∈ q, live t = true) :
    ((walk live hit max q).1 ++ (walk live hit max q).2).Perm q := by
  induction q generalizing max with
  | nil => cases max <;> exact List.Perm.refl _
  | cons t q ih =>
    have hq : ∀ u ∈ q, live u = true := fun u hu => hlive u (mem_cons_of_mem _ hu)
    cases max with
    | zero => exact List.Perm.refl _
    | succ n =>
      unfold walk
      cases hhit : hit t with
      | false =>
        exact perm_middle.trans ((ih (n + 1) hq).cons t)
      | true =>
        simp only [Bool.not_true, Bool.false_eq_true, if_false, hlive t mem_cons_self]
        exact (ih n hq).cons t

variable [Fintype T]

theorem refs_pos (id : Nat) (t : T) (h : 0 < taskRefs (s.tasks t) id) : 0 < refs s id :=
  lt_of_lt_of_le h
    (Finset.single_le_sum (f := fun u => taskRefs (s.tasks u) id) (fun _ _ => Nat.zero_le _)
      (Finset.mem_univ t))

/-- An object with a reference left is there. -/
theorem getObj_of_refs (h : Inv s extra) (id : Nat) (hpos : 0 < refs s id + extra id) :
    ∃ o, s.getObj id = some o ∧ o.refcount = refs s id + extra id := by
  have hcount := h.count id
  unfold refcountOf at hcount
  cases ho : s.getObj id with
  | none =>
    rw [ho] at hcount
    simp only [] at hcount
    omega
  | some o =>
    rw [ho] at hcount
    exact ⟨o, rfl, hcount⟩

theorem refs_update [DecidableEq T] (s : State K T) (t : T) (x : Task K) (id : Nat) :
    refs { s with tasks := Function.update s.tasks t x } id + taskRefs (s.tasks t) id =
      refs s id + taskRefs x id :=
  Base.tally_update (fun task => taskRefs task id) s.tasks t x

/-- A task with no reference on an object is on neither of its queues. -/
theorem not_queued_of_refs (h : refs s id = 0) (t : T) :
    queuedOn (s.tasks t).phase id = false ∧ piQueuedOn (s.tasks t).phase id = false := by
  have hzero : phaseRefs (s.tasks t).phase id = 0 := by
    by_contra hne
    have := refs_pos (s := s) id t (by unfold taskRefs; omega)
    omega
  refine ⟨Bool.eq_false_iff.mpr (fun hq => ?_), Bool.eq_false_iff.mpr (fun hq => ?_)⟩
  · rw [queuedOn_refs hq] at hzero
    cases hzero
  · rw [piQueuedOn_refs hq] at hzero
    cases hzero

/-- The invariant, object by object. -/
theorem inv_of_objs (hwf : Wf s) (hcount : ∀ id, refcountOf s id = refs s id + extra id)
    (hobj : ∀ id o, s.getObj id = some o → 0 < o.refcount ∧
      (o.queue.Nodup ∧ ∀ t, t ∈ o.queue ↔ queuedOn (s.tasks t).phase id = true) ∧
      o.piQueue.Nodup ∧ ∀ t, t ∈ o.piQueue ↔ piQueuedOn (s.tasks t).phase id = true)
    (htask : ∀ t, TaskOk (s.tasks t)) : Inv s extra :=
  ⟨hwf, hcount, fun id o ho => (hobj id o ho).1, fun id o ho => (hobj id o ho).2.1.2,
    fun id o ho => (hobj id o ho).2.1.1, fun id o ho => (hobj id o ho).2.2.2,
    fun id o ho => (hobj id o ho).2.2.1, htask⟩

/-- A change of counts only. An object that is new is on nobody's mind. -/
theorem inv_counts {s' : State K T} (h : Inv s extra) (htasks : s'.tasks = s.tasks) (hwf : Wf s')
    (hcount : ∀ id, refcountOf s' id = refs s id + extra' id)
    (hobj : ∀ id o, s'.getObj id = some o → 0 < o.refcount ∧
      ((∃ p, s.getObj id = some p ∧ o.queue = p.queue ∧ o.piQueue = p.piQueue) ∨
        (o.queue = [] ∧ o.piQueue = [] ∧ refs s id = 0))) : Inv s' extra' := by
  have hrefs : ∀ id, refs s' id = refs s id := fun id => by unfold refs; rw [htasks]
  refine inv_of_objs hwf (fun id => by rw [hrefs]; exact hcount id) (fun id o ho => ?_)
    fun t => by rw [htasks]; exact h.task t
  rw [htasks]
  rcases hobj id o ho with ⟨hpos, ⟨p, hp, hq, hpi⟩ | ⟨hq, hpi, hzero⟩⟩
  · rw [hq, hpi]
    exact ⟨hpos, ⟨h.queueNodup id p hp, h.queue id p hp⟩, h.piNodup id p hp, h.piQueue id p hp⟩
  · rw [hq, hpi]
    have hnot := not_queued_of_refs hzero
    exact ⟨hpos, ⟨nodup_nil, fun t => by simp [(hnot t).1]⟩, nodup_nil,
      fun t => by simp [(hnot t).2]⟩

/-- A change of one count. -/
theorem inv_refcount (h : Inv s extra) (ho : s.getObj id = some o) (f : Nat → Nat)
    (hpos : 0 < f o.refcount) (hid : f o.refcount = refs s id + extra' id)
    (hother : ∀ i, i ≠ id → extra' i = extra i) :
    Inv (s.modifyObj id (fun o => { o with refcount := f o.refcount })) extra' := by
  have hkeeps : Keeps (fun o : FutexObj K T => { o with refcount := f o.refcount }) :=
    fun _ => ⟨rfl, rfl⟩
  have hgets := fun i => getObj_modifyObj s id i _ hkeeps
  have hself := hgets id
  rw [if_pos rfl, ho, map_some] at hself
  refine inv_counts h rfl (wf_modifyObj h.wf _ _ hkeeps) (fun i => ?_) fun i p hp => ?_
  · by_cases hi : i = id
    · rw [hi, refcountOf_some hself]; exact hid
    rw [hother i hi, ← h.count i]
    exact refcountOf_congr (by rw [hgets i, if_neg hi])
  · by_cases hi : i = id
    · rw [hi, hself] at hp
      rw [← some.inj hp, hi]
      exact ⟨hpos, .inl ⟨o, ho, rfl, rfl⟩⟩
    · rw [hgets i, if_neg hi] at hp
      exact ⟨h.pos i p hp, .inl ⟨p, hp, rfl, rfl⟩⟩

/-- Taking a reference. -/
theorem inv_get [DecidableEq K] (h : Inv s extra) (key : K) (malloc : Bool) :
    (∃ s' id o, futexGetUnlocked s key malloc = (s', some id) ∧
      Inv s' (extra + Pi.single id 1) ∧ SameOutside s s' ∧ s'.getObj id = some o ∧ o.key = key) ∨
    futexGetUnlocked s key malloc = (s, none) := by
  have hframe := futexGetUnlocked_frame s key malloc
  unfold futexGetUnlocked at hframe ⊢
  cases hfind : s.objs.find? (·.key = key) with
  | some o =>
    left
    rw [hfind] at hframe
    rcases (find_key_iff h.wf key o).mp hfind with ⟨hget, hkey⟩
    have hcount := h.count o.id
    rw [refcountOf_some hget] at hcount
    refine ⟨_, o.id, { o with refcount := o.refcount + 1 }, rfl, ?_, hframe, ?_, hkey⟩
    · refine inv_refcount h hget (fun n => n + 1) (Nat.succ_pos _) ?_ (fun i hi => ?_)
      · rw [Pi.add_apply, Pi.single_eq_same]; omega
      · rw [Pi.add_apply, Pi.single_eq_of_ne hi, Nat.add_zero]
    · have hself := getObj_modifyObj s o.id o.id
        (fun o => { o with refcount := o.refcount + 1 }) fun _ => ⟨rfl, rfl⟩
      rw [hself, if_pos rfl, hget, map_some]
  | none =>
    cases malloc with
    | false => right; rfl
    | true =>
      left
      rw [hfind] at hframe
      -- The next identity is not in the table yet.
      have hfresh : s.getObj s.next = none := by
        cases hnext : s.getObj s.next with
        | none => rfl
        | some p =>
          have := h.wf.bound p (getObj_mem hnext)
          rw [getObj_id hnext] at this
          exact absurd this (lt_irrefl _)
      have hzero : refs s s.next = 0 ∧ extra s.next = 0 := by
        have := h.count s.next
        rw [refcountOf_none hfresh] at this
        omega
      have hself := getObj_cons s
        { id := s.next, key := key, refcount := 1, queue := [], piQueue := [], piOwner := 0,
          wakeSeq := 0 } (s.next + 1)
      refine ⟨_, s.next, _, rfl, ?_, hframe, (hself s.next).trans (if_pos rfl), rfl⟩
      refine inv_counts h rfl (wf_cons h.wf _ rfl hfind) (fun i => ?_) fun i p hp => ?_
      · rw [Pi.add_apply]
        by_cases hi : i = s.next
        · rw [hi, refcountOf_some ((hself s.next).trans (if_pos rfl)), Pi.single_eq_same,
            hzero.1, hzero.2]
        rw [Pi.single_eq_of_ne hi, Nat.add_zero (extra i), ← h.count i]
        exact refcountOf_congr ((hself i).trans (if_neg hi))
      · by_cases hi : i = s.next
        · have hp' := ((hself i).trans (if_pos hi)).symm.trans hp
          rw [← some.inj hp', hi]
          exact ⟨Nat.one_pos, .inr ⟨rfl, rfl, hzero.1⟩⟩
        · have hp' := ((hself i).trans (if_neg hi)).symm.trans hp
          exact ⟨h.pos i p hp', .inl ⟨p, hp', rfl, rfl⟩⟩

/-- Dropping a reference that the operation holds. It cannot fail. -/
theorem inv_put [DecidableEq T] (h : Inv s (extra + Pi.single id 1)) :
    ∃ s', futexPutUnlocked s id = some s' ∧ Inv s' extra ∧ SameOutside s s' := by
  have hextra : (extra + Pi.single id 1 : Nat → Nat) id = extra id + 1 := by
    rw [Pi.add_apply, Pi.single_eq_same]
  have hother : ∀ i, i ≠ id → (extra + Pi.single id 1 : Nat → Nat) i = extra i := fun i hi => by
    rw [Pi.add_apply, Pi.single_eq_of_ne hi, Nat.add_zero]
  rcases getObj_of_refs h id (by rw [hextra]; omega) with ⟨o, ho, hcount⟩
  suffices hex : ∃ s', futexPutUnlocked s id = some s' ∧ Inv s' extra by
    rcases hex with ⟨s', hput, hinv⟩
    exact ⟨s', hput, hinv, futexPutUnlocked_frame hput⟩
  unfold futexPutUnlocked
  simp only [ho]
  rw [if_neg (by omega)]
  by_cases hone : o.refcount = 1
  · -- The last reference: no task is left to be queued.
    have hzero : refs s id = 0 := by omega
    have hqueue : o.queue = [] := eq_nil_iff_forall_not_mem.mpr (fun t ht => by
      rw [h.queue id o ho, (not_queued_of_refs hzero t).1] at ht
      exact absurd ht Bool.false_ne_true)
    have hpi : o.piQueue = [] := eq_nil_iff_forall_not_mem.mpr (fun t ht => by
      rw [h.piQueue id o ho, (not_queued_of_refs hzero t).2] at ht
      exact absurd ht Bool.false_ne_true)
    rw [if_pos hone, if_pos ⟨hqueue, hpi⟩]
    refine ⟨_, rfl, inv_counts h rfl (wf_removeObj h.wf id) (fun i => ?_) (fun i p hp => ?_)⟩
    · by_cases hi : i = id
      · rw [hi, refcountOf_none (by rw [getObj_removeObj, if_pos rfl])]
        omega
      rw [← hother i hi, ← h.count i]
      exact refcountOf_congr (by rw [getObj_removeObj, if_neg hi])
    · rw [getObj_removeObj] at hp
      split at hp
      · cases hp
      · exact ⟨h.pos i p hp, .inl ⟨p, hp, rfl, rfl⟩⟩
  · rw [if_neg hone]
    have hpos := h.pos id o ho
    exact ⟨_, rfl, inv_refcount h ho (fun n => n - 1) (by omega) (by omega)
      (fun i hi => (hother i hi).symm)⟩

section

variable (h : Inv s extra)

include h

/-- A change of one task together with one object, which keeps its count. The
    references that the task gains or loses are those in `extra`. -/
theorem inv_single [DecidableEq T] (t : T) (g : Task K → Task K) (id : Nat)
    (f : FutexObj K T → FutexObj K T) (hf : Keeps f) (hcount : ∀ o, (f o).refcount = o.refcount)
    (hq : ∀ o, s.getObj id = some o →
      Places t (queuedOn (g (s.tasks t)).phase id = true) o.queue (f o).queue)
    (hpi : ∀ o, s.getObj id = some o →
      Places t (piQueuedOn (g (s.tasks t)).phase id = true) o.piQueue (f o).piQueue)
    (hother : ∀ i, i ≠ id → queuedOn (g (s.tasks t)).phase i = queuedOn (s.tasks t).phase i ∧
      piQueuedOn (g (s.tasks t)).phase i = piQueuedOn (s.tasks t).phase i)
    (hrefs : ∀ i, taskRefs (g (s.tasks t)) i + extra' i = taskRefs (s.tasks t) i + extra i)
    (hok : TaskOk (g (s.tasks t))) : Inv ((s.modifyObj id f).modifyTask t g) extra' := by
  have htask : ∀ u, ((s.modifyObj id f).modifyTask t g).tasks u =
      if u = t then g (s.tasks t) else s.tasks u := fun u => by
    by_cases hu : u = t
    · rw [hu, if_pos rfl]; exact Function.update_self _ _ _
    · rw [if_neg hu]; exact Function.update_of_ne hu _ _
  have hwf := wf_modifyObj h.wf id f hf
  refine inv_of_objs ⟨hwf.ids, hwf.keys, hwf.bound⟩ (fun i => ?_) (fun i o ho => ?_) fun u => ?_
  · have hsum : refs ((s.modifyObj id f).modifyTask t g) i + taskRefs (s.tasks t) i =
        refs s i + taskRefs (g (s.tasks t)) i := refs_update s t _ i
    have hold := h.count i
    have hsame : refcountOf ((s.modifyObj id f).modifyTask t g) i = refcountOf s i :=
      refcountOf_modifyObj hf (fun o _ => hcount o) i
    have := hrefs i
    omega
  · rcases getObj_modifyObj_some hf ho with ⟨rfl, p, hp, rfl⟩ | ⟨hi, hp⟩
    · rw [hcount]
      refine ⟨h.pos i p hp, ⟨(hq p hp).1, fun u => ?_⟩, (hpi p hp).1, fun u => ?_⟩
      · rw [htask u, (hq p hp).2 u, h.queue i p hp u]
        split <;> rfl
      · rw [htask u, (hpi p hp).2 u, h.piQueue i p hp u]
        split <;> rfl
    · refine ⟨h.pos i o hp, ⟨h.queueNodup i o hp, fun u => ?_⟩, h.piNodup i o hp, fun u => ?_⟩
      · rw [htask u, h.queue i o hp u]
        split
        · next hu => rw [(hother i hi).1, hu]
        · rfl
      · rw [htask u, h.piQueue i o hp u]
        split
        · next hu => rw [(hother i hi).2, hu]
        · rfl
  · rw [htask u]
    split
    · exact hok
    · exact h.task u

/-- A change of an object that leaves its count and its queues alone. -/
theorem inv_modifyObj (id : Nat) (f : FutexObj K T → FutexObj K T)
    (hf : Keeps f) (hsame : ∀ o, s.getObj id = some o →
      (f o).refcount = o.refcount ∧ (f o).queue = o.queue ∧ (f o).piQueue = o.piQueue) :
    Inv (s.modifyObj id f) extra := by
  refine inv_counts h rfl (wf_modifyObj h.wf id f hf) (fun i => ?_) fun i o ho => ?_
  · rw [← h.count i]
    exact refcountOf_modifyObj hf (fun o ho => (hsame o ho).1) i
  · rcases getObj_modifyObj_some hf ho with ⟨rfl, p, hp, rfl⟩ | ⟨_, hp⟩
    · have hp' := hsame p hp
      exact ⟨by rw [hp'.1]; exact h.pos i p hp, .inl ⟨p, hp, hp'.2.1, hp'.2.2⟩⟩
    · exact ⟨h.pos i o hp, .inl ⟨o, hp, rfl, rfl⟩⟩

/-- A change of one task that leaves it on the queues it was on. -/
theorem inv_modifyTask [DecidableEq T] (t : T) (g : Task K → Task K)
    (hq : ∀ i, queuedOn (g (s.tasks t)).phase i = queuedOn (s.tasks t).phase i ∧
      piQueuedOn (g (s.tasks t)).phase i = piQueuedOn (s.tasks t).phase i)
    (hrefs : ∀ i, taskRefs (g (s.tasks t)) i + extra' i = taskRefs (s.tasks t) i + extra i)
    (hok : TaskOk (g (s.tasks t))) : Inv (s.modifyTask t g) extra' := by
  have hnone : s.modifyObj 0 (fun o => o) = s := by
    unfold State.modifyObj
    simp
  rw [← hnone]
  exact inv_single h t g 0 (fun o => o) (fun _ => ⟨rfl, rfl⟩) (fun _ => rfl)
    (fun o ho => places_same (h.queueNodup 0 o ho) (by rw [(hq 0).1]; exact h.queue 0 o ho t))
    (fun o ho => places_same (h.piNodup 0 o ho) (by rw [(hq 0).2]; exact h.piQueue 0 o ho t))
    (fun i _ => hq i) hrefs hok

/-- A task on the queue of an object is waiting there. -/
theorem waiting_of_mem (ho : s.getObj id = some o) {t : T} (ht : t ∈ o.queue) :
    ∃ w, (s.tasks t).phase = .waiting w ∧ w.linked = true ∧ w.futex = id := by
  have hq := (h.queue id o ho t).mp ht
  cases hphase : (s.tasks t).phase with
  | waiting w =>
    rw [hphase] at hq
    simp only [queuedOn, Bool.and_eq_true, beq_iff_eq] at hq
    exact ⟨w, rfl, hq⟩
  | running | locking | exited => rw [hphase] at hq; cases hq

theorem live_of_mem (ho : s.getObj id = some o) : ∀ t ∈ o.queue, waitIsLive s t = true := by
  intro t ht
  rcases waiting_of_mem h ho ht with ⟨w, hw, _⟩
  unfold waitIsLive
  rw [hw]

/-- Waiters of a queue change, and the other tasks are as they were. -/
theorem modifyWaits_cases [DecidableEq T] {u : State K T} (ho : s.getObj id = some o)
    (htasks : u.tasks = s.tasks) (hts : ts ⊆ o.queue) (f : Wait K → Wait K) (t : T) :
    (t ∈ ts ∧ ∃ w, (s.tasks t).phase = .waiting w ∧ w.linked = true ∧ w.futex = id ∧
      (u.modifyWaits ts f).tasks t = { s.tasks t with phase := .waiting (f w) }) ∨
    (t ∉ ts ∧ (u.modifyWaits ts f).tasks t = s.tasks t) := by
  rw [← htasks]
  by_cases ht : t ∈ ts
  · rcases waiting_of_mem h ho (hts ht) with ⟨w, hw, hl, hid⟩
    rw [← htasks] at hw
    exact .inl ⟨ht, w, hw, hl, hid, modifyWaits_of_mem u f ht hw⟩
  · exact .inr ⟨ht, modifyWaits_of_not_mem u f ht⟩

/-- A change of the waiters of a queue, and of the queues and counts of objects. -/
theorem inv_waits [DecidableEq T] {s₁ : State K T} {f : Wait K → Wait K}
    (hwf : Wf s₁) (ho : s.getObj id = some o) (htasks : s₁.tasks = s.tasks) (hts : ts ⊆ o.queue)
    (hcount : ∀ i, refcountOf s₁ i = refs (s₁.modifyWaits ts f) i + extra i)
    (hobj : ∀ i p, s₁.getObj i = some p → 0 < p.refcount ∧ p.queue.Nodup ∧
      (∀ t, t ∈ p.queue ↔ queuedOn ((s₁.modifyWaits ts f).tasks t).phase i = true) ∧
      ∃ q, s.getObj i = some q ∧ p.piQueue = q.piQueue) : Inv (s₁.modifyWaits ts f) extra := by
  have htask : ∀ t, TaskOk ((s₁.modifyWaits ts f).tasks t) ∧ ∀ i,
      piQueuedOn ((s₁.modifyWaits ts f).tasks t).phase i = piQueuedOn (s.tasks t).phase i := by
    intro t
    have hok := h.task t
    rcases modifyWaits_cases h ho htasks hts f t with ⟨_, w, hw, _, _, heq⟩ | ⟨_, heq⟩
    · rw [heq, hw]
      simp only [TaskOk, hw] at hok ⊢
      exact ⟨hok, fun _ => rfl⟩
    · rw [heq]
      exact ⟨hok, fun _ => rfl⟩
  refine inv_of_objs ⟨hwf.ids, hwf.keys, hwf.bound⟩ hcount (fun i p hp => ?_) fun t => (htask t).1
  rcases hobj i p hp with ⟨hpos, hnodup, hqueue, q, hq, heq⟩
  rw [heq]
  refine ⟨hpos, ⟨hnodup, hqueue⟩, h.piNodup i q hq, fun t => ?_⟩
  rw [(htask t).2 i]
  exact h.piQueue i q hq t

/-- Waiters taken off the queue keep their references. -/
theorem inv_unlink [DecidableEq T] (ho : s.getObj id = some o)
    {woken rest : List T} (hperm : (woken ++ rest).Perm o.queue) :
    Inv ((s.modifyObj id (fun o => { o with queue := rest })).modifyWaits woken
      (fun w => { w with linked := false })) extra := by
  have hdisj := nodup_append.mp (hperm.nodup_iff.mpr (h.queueNodup id o ho))
  have hkeeps : Keeps (fun o : FutexObj K T => { o with queue := rest }) := fun _ => ⟨rfl, rfl⟩
  have hts : woken ⊆ o.queue := fun t ht => hperm.subset (mem_append_left _ ht)
  have hcases := modifyWaits_cases h ho (u := s.modifyObj id fun o => { o with queue := rest })
    rfl hts fun w => { w with linked := false }
  refine inv_waits h (wf_modifyObj h.wf id _ hkeeps) ho rfl hts (fun i => ?_) fun i p hp => ?_
  · rw [refcountOf_modifyObj hkeeps (fun _ _ => rfl) i, h.count i, Nat.add_right_cancel_iff]
    refine Finset.sum_congr rfl fun t _ => ?_
    rcases hcases t with ⟨_, w, hw, _, _, heq⟩ | ⟨_, heq⟩
    · rw [heq]
      simp only [taskRefs, hw, phaseRefs]
    · rw [heq]
  · -- A woken task was on this queue and is on none.
    have hqueued : ∀ t, queuedOn (((s.modifyObj id fun o => { o with queue := rest }).modifyWaits
        woken fun w => { w with linked := false }).tasks t).phase i = true ↔
          queuedOn (s.tasks t).phase i = true ∧ t ∉ woken := by
      intro t
      rcases hcases t with ⟨ht, w, _, _, _, heq⟩ | ⟨ht, heq⟩
      · rw [heq]
        simp [queuedOn, ht]
      · rw [heq]
        simp [ht]
    rcases getObj_modifyObj_some hkeeps hp with ⟨rfl, q, hq, rfl⟩ | ⟨hi, hp⟩
    · rw [ho] at hq
      cases hq
      refine ⟨h.pos i o ho, hdisj.2.1, fun t => ?_, o, ho, rfl⟩
      rw [hqueued t, ← h.queue i o ho t, ← hperm.mem_iff, mem_append]
      constructor
      · intro ht
        exact ⟨.inr ht, fun hw => hdisj.2.2 t hw t ht rfl⟩
      · rintro ⟨hw | hr, hnot⟩
        · exact absurd hw hnot
        · exact hr
    · refine ⟨h.pos i p hp, h.queueNodup i p hp, fun t => ?_, p, hp, rfl⟩
      rw [hqueued t, h.queue i p hp t]
      refine ⟨fun hq => ⟨hq, fun hw => ?_⟩, fun hq => hq.1⟩
      rcases waiting_of_mem h ho (hts hw) with ⟨w, hphase, _, hid⟩
      rw [hphase] at hq
      simp only [queuedOn, Bool.and_eq_true, beq_iff_eq] at hq
      exact hi (hq.2.symm.trans hid)

end

/-- As many references as there are tasks in a list. -/
theorem sum_mem_eq_length [DecidableEq T] (h : ts.Nodup) (c : Nat) :
    (∑ t : T, if t ∈ ts then c else 0) = ts.length * c := by
  have hfin : ∀ t : T, (if t ∈ ts then c else 0) = if t ∈ ts.toFinset then c else 0 := fun t => by
    simp
  rw [Finset.sum_congr rfl (fun t _ => hfin t), Finset.sum_ite_mem, Finset.univ_inter,
    Finset.sum_const, toFinset_card_of_nodup h]
  rfl

/-- Waiters moved to the queue of another object take their references along. -/
theorem inv_move [DecidableEq T] (h : Inv s extra) {target : Nat} (hne : target ≠ id)
    {o2 : FutexObj K T} (ho : s.getObj id = some o) (ho2 : s.getObj target = some o2)
    {moved rest : List T} (hperm : (moved ++ rest).Perm o.queue) (hlt : moved.length < o.refcount) :
    Inv (((s.modifyObj id (fun o =>
        { o with queue := rest, refcount := o.refcount - moved.length })).modifyObj target (fun o =>
        { o with queue := o.queue ++ moved, refcount := o.refcount + moved.length })).modifyWaits
      moved (fun w => { w with futex := target })) extra := by
  have hdisj := nodup_append.mp (hperm.nodup_iff.mpr (h.queueNodup id o ho))
  have hts : moved ⊆ o.queue := fun t ht => hperm.subset (mem_append_left _ ht)
  have hkeeps : Keeps (fun o : FutexObj K T =>
      { o with queue := rest, refcount := o.refcount - moved.length }) := fun _ => ⟨rfl, rfl⟩
  have hkeeps2 : Keeps (fun o : FutexObj K T =>
      { o with queue := o.queue ++ moved, refcount := o.refcount + moved.length }) :=
    fun _ => ⟨rfl, rfl⟩
  have hwf := wf_modifyObj (wf_modifyObj h.wf id _ hkeeps) target _ hkeeps2
  have hgets := fun i => (getObj_modifyObj _ target i _ hkeeps2).trans
    (by rw [getObj_modifyObj s id i _ hkeeps])
  generalize hs₁ : (s.modifyObj id _).modifyObj target _ = s₁ at hwf hgets ⊢
  have htasks : s₁.tasks = s.tasks := by rw [← hs₁]; rfl
  have hcases := modifyWaits_cases h ho htasks hts fun w => { w with futex := target }
  have hrefs : ∀ i, refs (s₁.modifyWaits moved fun w => { w with futex := target }) i +
      moved.length * (if i = id then 1 else 0) =
        refs s i + moved.length * (if i = target then 1 else 0) := by
    intro i
    rw [← sum_mem_eq_length hdisj.1, ← sum_mem_eq_length hdisj.1]
    unfold refs
    rw [← Finset.sum_add_distrib, ← Finset.sum_add_distrib]
    refine Finset.sum_congr rfl fun t _ => ?_
    rcases hcases t with ⟨ht, w, hw, _, hid, heq⟩ | ⟨ht, heq⟩
    · rw [heq, if_pos ht, if_pos ht]
      simp only [taskRefs, hw, phaseRefs, hid, eq_comm (a := target), eq_comm (a := id)]
      omega
    · rw [heq, if_neg ht, if_neg ht]
  have hqueued : ∀ t i, queuedOn ((s₁.modifyWaits moved fun w =>
      { w with futex := target }).tasks t).phase i = true ↔
        if t ∈ moved then i = target else queuedOn (s.tasks t).phase i = true := by
    intro t i
    rcases hcases t with ⟨ht, w, _, hl, _, heq⟩ | ⟨ht, heq⟩
    · rw [heq, if_pos ht]
      simp [queuedOn, hl, eq_comm (a := target)]
    · rw [heq, if_neg ht]
  refine inv_waits h hwf ho htasks hts (fun i => ?_) fun i p hp => ?_
  · have hold := h.count i
    have hshift := hrefs i
    unfold refcountOf at hold ⊢
    rw [hgets i]
    by_cases hi : i = target
    · subst hi
      simp only [if_neg hne, if_true, ho2, map_some] at hold hshift ⊢
      omega
    by_cases hid : i = id
    · subst hid
      simp only [if_neg hi, if_true, ho, map_some] at hold hshift ⊢
      omega
    · simp only [if_neg hi, if_neg hid] at hshift ⊢
      omega
  rw [hgets i] at hp
  by_cases hi : i = target
  · subst hi
    rw [if_pos rfl, if_neg hne, ho2, map_some, some.injEq] at hp
    subst hp
    refine ⟨Nat.add_pos_left (h.pos i o2 ho2) _, ?_, fun t => ?_, o2, ho2, rfl⟩
    · refine nodup_append.mpr ⟨h.queueNodup i o2 ho2, hdisj.1, ?_⟩
      rintro t ht u hu rfl
      -- A task on the target's queue is not on the first one.
      rcases waiting_of_mem h ho2 ht with ⟨w, hw, _, hid⟩
      rcases waiting_of_mem h ho (hts hu) with ⟨v, hv, _, hvid⟩
      rw [hw, Phase.waiting.injEq] at hv
      exact hne (by rw [← hid, ← hvid, hv])
    · rw [hqueued t i, mem_append, h.queue i o2 ho2 t]
      by_cases ht : t ∈ moved <;> simp [ht]
  rw [if_neg hi] at hp
  by_cases hid : i = id
  · subst hid
    rw [if_pos rfl, ho, map_some, some.injEq] at hp
    subst hp
    refine ⟨Nat.sub_pos_of_lt hlt, hdisj.2.1, fun t => ?_, o, ho, rfl⟩
    rw [hqueued t i]
    by_cases ht : t ∈ moved
    · rw [if_pos ht]
      exact ⟨fun hr => absurd rfl (hdisj.2.2 t ht t hr), fun heq => absurd heq.symm hne⟩
    rw [if_neg ht, ← h.queue i o ho t, ← hperm.mem_iff, mem_append]
    simp [ht]
  rw [if_neg hid] at hp
  refine ⟨h.pos i p hp, h.queueNodup i p hp, fun t => ?_, p, hp, rfl⟩
  rw [hqueued t i, h.queue i p hp t]
  by_cases ht : t ∈ moved
  · rcases waiting_of_mem h ho (hts ht) with ⟨w, hw, _, hwid⟩
    rw [if_pos ht, hw]
    simp only [queuedOn, hwid, Bool.and_eq_true, beq_iff_eq]
    exact ⟨fun hq => absurd hq.2.symm hid, fun heq => absurd heq hi⟩
  · rw [if_neg ht]

end IshAok.Futex
