import IshAok.Theory.Futex.Count

/-!
# The Table of Futexes is Consistent

The count of every object, taken apart by who holds the references: the waiters
on its two queues, the waits that are parked on it, and the operations in flight.
An operation is in flight between two of its steps while its task is on neither
queue: a wait that has been woken and has not run yet, and a lock that looks at
its owner or was handed to its task.

## Main definitions

* `linked`, `parkedOn`, `inFlight`: The kinds of references.
* `Consistent`: The table and the tasks agree.

## Theorems

* `refs_eq`: The references on an object by their kinds.
* `futex_table_consistent`: Every state of every run is consistent, and no action
  fails an assertion in it.
-/

namespace IshAok.Futex

open Bool List Finset

variable {K T : Type}

/-- A task that is on a queue. -/
def linked : Phase K → Bool
  | .waiting w => w.linked
  | .locking w => w.linked
  | _ => false

/-- A wait that is parked on an object. -/
def parkedOn (task : Task K) (id : Nat) : Bool :=
  match task.park with
  | some p => p.futex == id
  | none => false

/-- An operation on an object whose task is on no queue. -/
def inFlight : Phase K → Nat → Bool
  | .waiting w, id => !w.linked && w.futex == id
  | .locking w, id => !w.linked && w.futex == id
  | _, _ => false

/-- The table of futexes and the tasks agree. -/
structure Consistent [Fintype T] [DecidableEq T] (s : State K T) : Prop where
  /-- At most one object for a key. -/
  keys : (s.objs.map FutexObj.key).Nodup
  /-- A task that is linked is on one queue of one object, and there once. -/
  queued : ∀ t, linked (s.tasks t).phase = true → ∃! q : FutexObj K T × Bool,
      q.1 ∈ s.objs ∧ (if q.2 then q.1.piQueue else q.1.queue).count t = 1
  /-- Any other task is on none. -/
  unqueued : ∀ t, linked (s.tasks t).phase = false → ∀ o ∈ s.objs, t ∉ o.queue ∧ t ∉ o.piQueue
  /-- The count is the waiters, the parked waits and the operations in flight. -/
  count : ∀ o ∈ s.objs, o.refcount = o.queue.length + o.piQueue.length +
    (Finset.univ.filter (fun t => parkedOn (s.tasks t) o.id = true)).card +
    (Finset.univ.filter (fun t => inFlight (s.tasks t).phase o.id = true)).card
  /-- An object is there as long as it has a reference, and no longer. -/
  freed : ∀ id, (∃ o ∈ s.objs, o.id = id) ↔
    ∃ t, queuedOn (s.tasks t).phase id = true ∨ piQueuedOn (s.tasks t).phase id = true ∨
      parkedOn (s.tasks t) id = true ∨ inFlight (s.tasks t).phase id = true

/-- The references of one task by their kinds. -/
theorem taskRefs_eq (task : Task K) (id : Nat) :
    taskRefs task id = (if queuedOn task.phase id = true then 1 else 0) +
      (if piQueuedOn task.phase id = true then 1 else 0) +
      (if parkedOn task id = true then 1 else 0) +
      (if inFlight task.phase id = true then 1 else 0) := by
  have hpark : parkRefs task.park id = if parkedOn task id = true then 1 else 0 := by
    unfold parkedOn
    cases task.park with
    | none => rfl
    | some p => simp [parkRefs]
  unfold taskRefs
  cases task.phase with
  | running | exited =>
    simp only [phaseRefs, queuedOn, piQueuedOn, inFlight, false_eq_true, if_false]
    omega
  | waiting w | locking w =>
    cases hl : w.linked with
    | true =>
      simp only [phaseRefs, queuedOn, piQueuedOn, inFlight, hl, Bool.true_and, Bool.not_true,
        Bool.false_and, false_eq_true, if_false, beq_iff_eq]
      omega
    | false =>
      simp only [phaseRefs, queuedOn, piQueuedOn, inFlight, hl, Bool.true_and, Bool.not_false,
        Bool.false_and, false_eq_true, if_false, beq_iff_eq]
      omega

variable [Fintype T]

/-- A list without repetition is as long as what it lists. -/
theorem length_eq_card [DecidableEq T] {q : List T} (hq : q.Nodup) (p : T → Bool)
    (h : ∀ t, t ∈ q ↔ p t = true) :
    q.length = (Finset.univ.filter (fun t => p t = true)).card := by
  rw [← toFinset_card_of_nodup hq]
  congr 1
  ext t
  simp [h t]

theorem refs_eq (s : State K T) (id : Nat) :
    refs s id = (Finset.univ.filter (fun t => queuedOn (s.tasks t).phase id = true)).card +
      (Finset.univ.filter (fun t => piQueuedOn (s.tasks t).phase id = true)).card +
      (Finset.univ.filter (fun t => parkedOn (s.tasks t) id = true)).card +
      (Finset.univ.filter (fun t => inFlight (s.tasks t).phase id = true)).card := by
  unfold refs
  rw [sum_congr rfl (fun t _ => taskRefs_eq (s.tasks t) id), sum_add_distrib,
    sum_add_distrib, sum_add_distrib]
  simp

/-- The queue that a linked task is on. -/
theorem queued_unique [DecidableEq T] {s : State K T} (h : Inv s 0) {t : T}
    (hl : linked (s.tasks t).phase = true) :
    ∃! q : FutexObj K T × Bool,
      q.1 ∈ s.objs ∧ (if q.2 then q.1.piQueue else q.1.queue).count t = 1 := by
  have hmem : ∀ (o : FutexObj K T) (b : Bool), o ∈ s.objs →
      (if b then o.piQueue else o.queue).count t = 1 →
      if b then piQueuedOn (s.tasks t).phase o.id = true
      else queuedOn (s.tasks t).phase o.id = true := by
    intro o b ho hc
    have hin : t ∈ (if b then o.piQueue else o.queue) := count_pos_iff.mp (by omega)
    have hget := getObj_of_mem h.wf ho
    cases b with
    | true => exact (h.piQueue o.id o hget t).mp hin
    | false => exact (h.queue o.id o hget t).mp hin
  cases hphase : (s.tasks t).phase with
  | running | exited => rw [hphase] at hl; exact absurd hl Bool.false_ne_true
  | waiting w =>
    rw [hphase] at hl
    change w.linked = true at hl
    rcases getObj_of_waiting h hphase with ⟨o, ho⟩
    have hin : t ∈ o.queue := by
      rw [h.queue _ o ho t, hphase]
      simp [queuedOn, hl, BEq.rfl]
    refine ⟨(o, false), ⟨getObj_mem ho, count_eq_one_of_mem (h.queueNodup _ o ho) hin⟩, ?_⟩
    rintro ⟨p, b⟩ ⟨hp, hc⟩
    have hon := hmem p b hp hc
    rw [hphase] at hon
    cases b with
    | true => cases hon
    | false =>
      simp only [queuedOn, false_eq_true, if_false, and_eq_true, beq_iff_eq] at hon
      have hget := getObj_of_mem h.wf hp
      rw [← hon.2, ho] at hget
      rw [Option.some.inj hget]
  | locking w =>
    rw [hphase] at hl
    change w.linked = true at hl
    have hself : Inv (s.setPhase t (.locking w)) 0 := by rw [setPhase_self hphase]; exact h
    rcases getObj_of_locking hself with ⟨o, ho⟩
    have hin : t ∈ o.piQueue := by
      rw [h.piQueue _ o ho t, hphase]
      simp [piQueuedOn, hl, BEq.rfl]
    refine ⟨(o, true), ⟨getObj_mem ho, count_eq_one_of_mem (h.piNodup _ o ho) hin⟩, ?_⟩
    rintro ⟨p, b⟩ ⟨hp, hc⟩
    have hon := hmem p b hp hc
    rw [hphase] at hon
    cases b with
    | false => cases hon
    | true =>
      simp only [piQueuedOn, if_true, and_eq_true, beq_iff_eq] at hon
      have hget := getObj_of_mem h.wf hp
      rw [← hon.2, ho] at hget
      rw [Option.some.inj hget]

theorem not_on_of_unlinked {p : Phase K} (h : linked p = false) (id : Nat) :
    queuedOn p id = false ∧ piQueuedOn p id = false := by
  cases p with
  | running | exited => exact ⟨rfl, rfl⟩
  | waiting w =>
    change w.linked = false at h
    exact ⟨by simp [queuedOn, h], rfl⟩
  | locking w =>
    change w.linked = false at h
    exact ⟨rfl, by simp [piQueuedOn, h]⟩

theorem consistent_of_inv [DecidableEq T] {s : State K T} (h : Inv s 0) : Consistent s := by
  have hcount : ∀ o ∈ s.objs, o.refcount = refs s o.id := by
    intro o ho
    have := h.count o.id
    rw [refcountOf_some (getObj_of_mem h.wf ho)] at this
    exact this
  refine ⟨h.wf.keys, fun t hl => queued_unique h hl, fun t hl o ho => ?_, fun o ho => ?_,
    fun id => ?_⟩
  · have hget := getObj_of_mem h.wf ho
    have hoff := not_on_of_unlinked hl o.id
    rw [h.queue o.id o hget t, h.piQueue o.id o hget t, hoff.1, hoff.2]
    exact ⟨Bool.false_ne_true, Bool.false_ne_true⟩
  · have hget := getObj_of_mem h.wf ho
    rw [hcount o ho, refs_eq, length_eq_card (h.queueNodup _ o hget) _ (h.queue _ o hget),
      length_eq_card (h.piNodup _ o hget) _ (h.piQueue _ o hget)]
  · have hpos : (∃ o ∈ s.objs, o.id = id) ↔ 0 < refs s id := by
      constructor
      · rintro ⟨o, ho, rfl⟩
        rw [← hcount o ho]
        exact h.pos o.id o (getObj_of_mem h.wf ho)
      · intro hr
        rcases getObj_of_refs h id (Nat.add_pos_left hr _) with ⟨o, ho, _⟩
        exact ⟨o, getObj_mem ho, getObj_id ho⟩
    rw [hpos]
    constructor
    · intro hr
      -- Some task contributes to the sum, by one of the four kinds.
      by_contra hnone
      push Not at hnone
      refine absurd hr (Nat.not_lt.mpr (Nat.le_of_eq (sum_eq_zero (fun t _ => ?_))))
      have ht := hnone t
      simp [taskRefs_eq, if_neg ht.1, if_neg ht.2.1, if_neg ht.2.2.1, if_neg ht.2.2.2]
    · rintro ⟨t, ht⟩
      refine refs_pos id t ?_
      rw [taskRefs_eq]
      rcases ht with ht | ht | ht | ht
      · rw [if_pos ht]; omega
      · rw [if_pos ht]; omega
      · rw [if_pos ht]; omega
      · rw [if_pos ht]; omega

/-- Every state of every run is consistent. Every action that can happen in it has
    a result: no reference is dropped that is not there, and no object is freed
    with a waiter on it or used after it was freed. -/
theorem futex_table_consistent [DecidableEq K] [DecidableEq T] (ids : Tids T) {s u : State K T}
    {tr : List (State K T × (Action K T × Option Result))} (hinit : Initial s)
    (hrun : Base.Run (Step ids) s tr u) :
    Consistent u ∧ ∀ a, Enabled ids u a → ∃ v r, exec ids u a = some (v, r) := by
  have hinv := inv_run ids hinit hrun
  refine ⟨consistent_of_inv hinv, fun a hen => ?_⟩
  rcases safe_exec ids hinv a hen with ⟨v, r, hexec, _⟩
  exact ⟨v, r, hexec⟩

/-- Two tasks, shown as one and two. -/
def pairTids : Tids Bool where
  tid t := if t then 2 else 1
  tid_inj := by decide
  tid_ne_zero := by decide
  tid_masked := by decide

/-- Two tasks that run and two words that hold zero. -/
def pairStart : State Bool Bool where
  objs := []
  next := 0
  mem _ := 0
  access _ _ := .write
  tasks _ := newTask

theorem pairStart_initial : Initial pairStart :=
  ⟨rfl, fun _ => ⟨.inl rfl, rfl, rfl, fun _ => rfl⟩⟩

/-- A wait that is moved to another word while its task sleeps. -/
theorem futex_table_consistent_requeue :
    ∃ tr u, Base.Run (Step pairTids) pairStart tr u ∧ tr.length = 2 ∧ u.objs.length = 1 ∧
      Consistent u := by
  have h0 := Base.Run.start (Step pairTids) pairStart
  have h1 := h0.next (.wait false false 0 1 true, none) ⟨⟨rfl, rfl⟩, rfl⟩
  have h2 := h1.next (.cmpRequeue true false true 0 1 0 true true, some (.value 1))
    ⟨⟨rfl, rfl⟩, rfl⟩
  exact ⟨_, _, h2, rfl, rfl, (futex_table_consistent pairTids pairStart_initial h2).1⟩

end IshAok.Futex
