import IshAok.Theory.Futex.Table

/-!
# Operations as Sequences of Small Changes

Every operation of the futex code is made of a few kinds of changes: an object is
changed or freed or made, a word is stored, waiters are taken off a queue or
moved, a lock is handed over, and the task of the operation changes itself. A
property that all of them keep is kept by every operation, on each of its paths.

Two changes are not among them. The wake counter is advanced by `futexWakelike`
only, and what a task has parked is changed by its waits and its end only.

Most operations have nothing to do with locks. The changes they make are `Calm`:
the task acquires nothing by them and enters no lock. A property that is about
locks is `ClosedCalm`, one that is about something else is `Closed`.

## Main definitions

* `KeepsSeq`: A change of an object that leaves its identity, key and counter.
* `KeepsPark`: A change of a task that leaves what it has parked.
* `Owns`, `Calm`: What a task has acquired, and a change that adds nothing to it.
* `Closed`, `ClosedCalm`: A property that the small changes of a task keep, and one
  that the calm ones keep.
* `Post`: A property of the state after an operation.
* `actor`, `movesPark`: The task that an action belongs to, and whether it may change
  what the task has parked.

## Theorems

* `closed_plain`: What the calm changes keep, every action without locks keeps.
* `closed_exec`: What the small changes keep, every action keeps.
-/

namespace IshAok.Futex

open Option

variable {K T : Type}

/-- A change that keeps identity, key and wake counter. -/
def KeepsSeq (f : FutexObj K T → FutexObj K T) : Prop :=
  ∀ o, (f o).id = o.id ∧ (f o).key = o.key ∧ (f o).wakeSeq = o.wakeSeq

/-- A change of a task that leaves what it has parked. -/
def KeepsPark (f : Task K → Task K) : Prop := ∀ task, (f task).park = task.park

/-- A change of an object that leaves its queue for the lock as well. -/
def KeepsPi (f : FutexObj K T → FutexObj K T) : Prop :=
  ∀ o, (f o).id = o.id ∧ (f o).key = o.key ∧ (f o).wakeSeq = o.wakeSeq ∧ (f o).piQueue = o.piQueue

/-- A live task has acquired a lock and not released it, or was handed it. -/
def Owns (key : K) (task : Task K) : Prop :=
  task.exiting = false ∧
    (task.held key = true ∨ ∃ w, task.phase = .locking w ∧ w.key = key ∧ w.piOwned = true)

/-- A change of a task by which it acquires nothing, enters no lock and does not go. -/
structure Calm (f : Task K → Task K) : Prop where
  owns : ∀ task key, Owns key (f task) → Owns key task
  locking : ∀ task w, (f task).phase = .locking w →
    ∃ w', task.phase = .locking w' ∧ w'.futex = w.futex ∧ w'.key = w.key ∧ w'.stage = w.stage
  robust : ∀ task x, (f task).robust = some x →
    task.robust = some x ∧ (task.exiting = true → (f task).exiting = true)
  gone : ∀ task, (f task).phase = .exited →
    task.phase = .exited ∧ (task.exiting = true → (f task).exiting = true)

/-- A change of fields that have nothing to do with locks. -/
theorem calm_fields {f : Task K → Task K}
    (hf : ∀ task, (f task).phase = task.phase ∧ (f task).held = task.held ∧
      (f task).robust = task.robust ∧ (f task).exiting = task.exiting) : Calm f := by
  refine ⟨fun task key h => ?_, fun task w h => ?_, fun task x h => ?_, fun task h => ?_⟩
  · rcases hf task with ⟨hphase, hheld, _, hexit⟩
    unfold Owns at h
    rw [hphase, hheld, hexit] at h
    exact h
  · rw [(hf task).1] at h
    exact ⟨w, h, rfl, rfl, rfl⟩
  · rw [(hf task).2.2.1] at h
    exact ⟨h, fun he => (hf task).2.2.2.trans he⟩
  · rw [(hf task).1] at h
    exact ⟨h, fun he => (hf task).2.2.2.trans he⟩

/-- Another phase that is no lock, for a task that does not go. -/
theorem calm_phase {f : Task K → Task K}
    (hf : ∀ task, (f task).held = task.held ∧ (f task).robust = task.robust ∧
      (f task).exiting = task.exiting)
    (hlock : ∀ task w, (f task).phase ≠ .locking w) (hgone : ∀ task, (f task).phase ≠ .exited) :
    Calm f := by
  refine ⟨fun task key h => ?_, fun task w h => absurd h (hlock task w), fun task x h => ?_,
    fun task h => absurd h (hgone task)⟩
  · rcases h with ⟨hexit, hheld | ⟨w, hw, _⟩⟩
    · rw [(hf task).1] at hheld
      rw [(hf task).2.2] at hexit
      exact ⟨hexit, .inl hheld⟩
    · exact absurd hw (hlock task w)
  · rw [(hf task).2.1] at h
    exact ⟨h, fun he => (hf task).2.2.trans he⟩

/-- Not in a lock and not gone. -/
def calmPhase : Phase K → Bool
  | .locking _ => false
  | .exited => false
  | _ => true

theorem calm_setPhase {p : Phase K} (hp : calmPhase p = true) :
    Calm (fun task : Task K => { task with phase := p }) := by
  refine calm_phase (fun _ => ⟨rfl, rfl, rfl⟩) (fun task w h => ?_) fun task h => ?_
  · rw [show p = .locking w from h] at hp
    cases hp
  · rw [show p = .exited from h] at hp
    cases hp

theorem calm_setPark {p : Option (Park K)} : Calm (fun task : Task K => { task with park := p }) :=
  calm_fields fun _ => ⟨rfl, rfl, rfl, rfl⟩

theorem calm_pending (b : Bool) : Calm (fun task : Task K => { task with pending := b }) :=
  calm_fields fun _ => ⟨rfl, rfl, rfl, rfl⟩

theorem calm_exiting : Calm (fun task : Task K => { task with exiting := true }) :=
  ⟨fun _ _ h => absurd h.1 (by simp),
    fun _ w h => ⟨w, h, rfl, rfl, rfl⟩, fun _ _ h => ⟨h, fun _ => rfl⟩,
    fun _ h => ⟨h, fun _ => rfl⟩⟩

theorem calm_newTask : Calm (fun _ : Task K => newTask) := by
  refine ⟨fun _ _ h => ?_, fun _ _ h => ?_, fun _ _ h => ?_, fun _ h => ?_⟩
  · rcases h with ⟨_, hheld | ⟨w, hw, _⟩⟩
    · cases hheld
    · cases hw
  · cases h
  · cases h
  · cases h

theorem interruptTask_fields (task : Task K) :
    (interruptTask task).held = task.held ∧ (interruptTask task).robust = task.robust ∧
      (interruptTask task).exiting = task.exiting := by
  unfold interruptTask
  split <;> exact ⟨rfl, rfl, rfl⟩

theorem interruptTask_locking {task : Task K} {w : PiWait K}
    (h : (interruptTask task).phase = .locking w) :
    ∃ w' b, task.phase = .locking w' ∧ w = { w' with interrupted := b } := by
  unfold interruptTask at h
  split at h
  · cases h
  · next w' hphase => exact ⟨w', _, hphase, (Phase.locking.inj h).symm⟩
  · exact ⟨w, _, h, rfl⟩

theorem interruptTask_exited {task : Task K} (h : (interruptTask task).phase = .exited) :
    task.phase = .exited := by
  unfold interruptTask at h
  split at h
  · cases h
  · cases h
  · exact h

theorem calm_interrupt : Calm (K := K) interruptTask := by
  refine ⟨fun task key h => ?_, fun task w h => ?_, fun task x h => ?_, fun task h => ?_⟩
  · rcases interruptTask_fields task with ⟨hheld, _, hexit⟩
    unfold Owns at h
    rw [hheld, hexit] at h
    rcases h with ⟨hlive, hheld | ⟨w, hw, hkey, howned⟩⟩
    · exact ⟨hlive, .inl hheld⟩
    · rcases interruptTask_locking hw with ⟨w', b, hphase, rfl⟩
      exact ⟨hlive, .inr ⟨w', hphase, hkey, howned⟩⟩
  · rcases interruptTask_locking h with ⟨w', b, hphase, rfl⟩
    exact ⟨w', hphase, rfl, rfl, rfl⟩
  · rcases interruptTask_fields task with ⟨_, hrobust, hexit⟩
    rw [hrobust] at h
    exact ⟨h, fun he => hexit.trans he⟩
  · exact ⟨interruptTask_exited h, fun he => (interruptTask_fields task).2.2.trans he⟩

/-- A property of the state after an operation, on every path that has one. -/
def Post (P : State K T → Prop) (x : Out K T) : Prop :=
  ∀ s r, x = some (s, r) → P s

theorem post_none (P : State K T → Prop) : Post P none :=
  fun _ _ h => nomatch h

variable {P : State K T → Prop}

theorem post_some {s : State K T} (h : P s) (r : Option Result) : Post P (some (s, r)) := by
  intro s' r' heq
  cases heq
  exact h

theorem of_some {s s' : State K T} {q r : Option Result} (heq : some (s, q) = some (s', r))
    (h : P s) : P s' :=
  post_some h q s' r heq

theorem interruptTask_keepsPark : KeepsPark (K := K) interruptTask := by
  intro task
  unfold interruptTask
  split <;> rfl

variable [DecidableEq K] [DecidableEq T]

/-- A property that small changes keep: those of objects and of the task that are
    allowed, and those that every operation makes. -/
structure ClosedFor (O : (FutexObj K T → FutexObj K T) → Prop) (W : (Task K → Task K) → Prop)
    (u : T) (P : State K T → Prop) : Prop where
  object : ∀ s id f, O f → P s → P (s.modifyObj id f)
  remove : ∀ s id, P s → P (s.removeObj id)
  fresh : ∀ s key, s.objs.find? (·.key = key) = none → P s → P { s with
        objs :=
          { id := s.next, key := key, refcount := 1, queue := [], piQueue := [], piOwner := 0,
            wakeSeq := 0 } :: s.objs
        next := s.next + 1 }
  own : ∀ s f, W f → P s → P (s.modifyTask u f)
  unlink : ∀ s ts, P s → P (s.modifyWaits ts (fun w => { w with linked := false }))
  move : ∀ s ts target, P s → P (s.modifyWaits ts (fun w => { w with futex := target }))
  access : ∀ s access, P s → P { s with access := access }

/-- The small changes of operations without locks. -/
abbrev ClosedCalm (u : T) (P : State K T → Prop) : Prop :=
  ClosedFor KeepsPi (fun f => Calm f ∧ KeepsPark f) u P

/-- The small changes of all operations. -/
structure Closed (u : T) (P : State K T → Prop) : Prop extends
    ClosedFor KeepsSeq KeepsPark u P where
  handOver : ∀ s x, P s → P (handOver s x)
  store : ∀ s key v, P s → P (s.storeWord key v)

theorem Closed.calm {u : T} (hP : Closed u P) : ClosedCalm u P :=
  { hP.toClosedFor with
    object := fun s id f hf => hP.object s id f fun o => ⟨(hf o).1, (hf o).2.1, (hf o).2.2.1⟩
    own := fun s f hf => hP.own s f hf.2 }

section Paths

variable {u : T} {P : State K T → Prop} (hP : ClosedCalm u P) {s : State K T}

include hP

variable {s' : State K T}

theorem closed_put (h : P s) {id : Nat} (hput : futexPutUnlocked s id = some s') : P s' := by
  unfold futexPutUnlocked at hput
  split at hput
  · cases hput
  split at hput
  · cases hput
  split at hput
  · split at hput
    · cases hput
      exact hP.remove s _ h
    · cases hput
  · cases hput
    exact hP.object s _ _ (by exact fun _ => ⟨rfl, rfl, rfl, rfl⟩) h

theorem post_putAndReturn (h : P s) (id : Nat) (r : Option Result) :
    Post P (putAndReturn s id r) := by
  unfold putAndReturn
  split
  · exact post_none _
  next s' hput =>
  exact post_some (closed_put hP h hput) r

theorem post_putBoth (h : P s) (id2 id : Nat) (r : Result) : Post P (putBoth s id2 id r) := by
  unfold putBoth
  split
  · exact post_none _
  next s' hput =>
  exact post_putAndReturn hP (closed_put hP h hput) id _

theorem closed_wakeWaiters (h : P s) {id max n : Nat} {hit : T → Bool}
    (hwake : wakeWaiters s id hit max = some (s', n)) : P s' := by
  unfold wakeWaiters at hwake
  split at hwake
  · cases hwake
  cases hwake
  exact hP.unlink _ _ (hP.object s id _ (by exact fun _ => ⟨rfl, rfl, rfl, rfl⟩) h)

theorem closed_requeueWaiters (h : P s) {id target max n : Nat}
    (hmove : futexRequeueWaiters s id target max = some (s', n)) : P s' := by
  unfold futexRequeueWaiters at hmove
  split at hmove
  · cases hmove
  simp only [] at hmove
  split at hmove
  · split at hmove
    · cases hmove
      exact hP.move _ _ target (hP.object _ target _ (by exact fun _ => ⟨rfl, rfl, rfl, rfl⟩)
        (hP.object s id _ (by exact fun _ => ⟨rfl, rfl, rfl, rfl⟩) h))
    · cases hmove
  · cases hmove
    exact hP.object s id _ (by exact fun _ => ⟨rfl, rfl, rfl, rfl⟩) h

theorem closed_get (h : P s) {key : K} {malloc : Bool} {id : Option Nat}
    (hget : futexGetUnlocked s key malloc = (s', id)) : P s' := by
  unfold futexGetUnlocked at hget
  split at hget
  · rw [← (Prod.mk.injEq _ _ _ _).mp hget |>.1]
    exact hP.object s _ _ (by exact fun _ => ⟨rfl, rfl, rfl, rfl⟩) h
  next hfind =>
  split at hget
  · rw [← (Prod.mk.injEq _ _ _ _).mp hget |>.1]
    exact hP.fresh s key hfind h
  rw [← (Prod.mk.injEq _ _ _ _).mp hget |>.1]
  exact h

theorem post_wakelike (hbump : ∀ s id, P s → P (bumpSeq s id)) (h : P s) (key : K) (wakeMax : Nat)
    (wakeMask : BitVec 32)
    (requeue : Option (K × Nat)) (malloc malloc2 : Bool) :
    Post P (futexWakelike s key wakeMax wakeMask requeue malloc malloc2) := by
  unfold futexWakelike
  split
  · next s₁ hget => exact post_some (closed_get hP h hget) _
  next s₁ id hget =>
  have h₁ := closed_get hP h hget
  split
  · split
    · exact post_none _
    next s₂ n hwake =>
    exact post_putAndReturn hP (closed_wakeWaiters hP (hbump _ _ h₁) hwake) _ _
  · split
    · next s₂ hget2 => exact post_putAndReturn hP (closed_get hP h₁ hget2) _ _
    next s₂ id2 hget2 =>
    have h₂ := closed_get hP h₁ hget2
    split
    · exact post_none _
    next s₃ n hwake =>
    have h₃ := closed_wakeWaiters hP (hbump _ _ h₂) hwake
    split
    · exact post_none _
    · next s₄ m hmove => exact post_putBoth hP (closed_requeueWaiters hP h₃ hmove) _ _ _

theorem post_wakeOp {key2 : K} (hstore : ∀ s v, P s → P (s.storeWord key2 v)) (h : P s) (x : T)
    (key1 : K) (wakeMax wakeMax2 : Nat) (encoded : BitVec 32) (malloc malloc2 : Bool) :
    Post P (futexWakeOp s x key1 key2 wakeMax wakeMax2 encoded malloc malloc2) := by
  unfold futexWakeOp
  split
  · exact post_some h _
  split
  · next s₁ hget => exact post_some (closed_get hP h hget) _
  next s₁ id1 hget =>
  have h₁ := closed_get hP h hget
  split
  · next s₂ hget2 => exact post_putAndReturn hP (closed_get hP h₁ hget2) _ _
  next s₂ id2 hget2 =>
  have h₂ := closed_get hP h₁ hget2
  split
  · exact post_putBoth hP h₂ _ _ _
  next s₃ hcas =>
  split
  · exact post_none _
  next s₄ n hwake =>
  have h₄ := closed_wakeWaiters hP (by rw [futexCas_some hcas]; exact hstore _ _ h₂) hwake
  split
  · split
    · exact post_none _
    next s₅ m hwake2 =>
    exact post_putBoth hP (closed_wakeWaiters hP h₄ hwake2) _ _ _
  · exact post_putBoth hP h₄ _ _ _

theorem post_cmpRequeue (h : P s) (x : T) (key1 key2 : K) (val val2 : Nat)
    (val3 : BitVec 32) (malloc malloc2 : Bool) :
    Post P (futexCmpRequeue s x key1 key2 val val2 val3 malloc malloc2) := by
  unfold futexCmpRequeue
  split
  · next s₁ hget => exact post_some (closed_get hP h hget) _
  next s₁ id1 hget =>
  have h₁ := closed_get hP h hget
  split
  · next s₂ hget2 => exact post_putAndReturn hP (closed_get hP h₁ hget2) _ _
  next s₂ id2 hget2 =>
  have h₂ := closed_get hP h₁ hget2
  split
  · exact post_putBoth hP h₂ _ _ _
  split
  · exact post_putBoth hP h₂ _ _ _
  split
  · exact post_none _
  next s₃ n hwake =>
  have h₃ := closed_wakeWaiters hP h₂ hwake
  split
  · exact post_none _
  next s₄ m hmove =>
  exact post_putBoth hP (closed_requeueWaiters hP h₃ hmove) _ _ _

theorem post_cmpRequeuePi (h : P s) (x : T) (key1 key2 : K) (val : BitVec 32)
    (val2 : Nat) (malloc malloc2 : Bool) :
    Post P (futexCmpRequeuePi s x key1 key2 val val2 malloc malloc2) := by
  unfold futexCmpRequeuePi
  split
  · next s₁ hget => exact post_some (closed_get hP h hget) _
  next s₁ id1 hget =>
  have h₁ := closed_get hP h hget
  split
  · next s₂ hget2 => exact post_putAndReturn hP (closed_get hP h₁ hget2) _ _
  next s₂ id2 hget2 =>
  have h₂ := closed_get hP h₁ hget2
  split
  · exact post_putBoth hP h₂ _ _ _
  split
  · exact post_putBoth hP h₂ _ _ _
  split
  · exact post_none _
  · next s₃ n hmove => exact post_putBoth hP (closed_requeueWaiters hP h₂ hmove) _ _ _

theorem post_waitQueue (h : P s) (id : Nat) (key : K) (val bitset : BitVec 32) :
    Post P (futexWaitQueue s u id key val bitset) := by
  unfold futexWaitQueue
  split
  · exact post_putAndReturn hP h _ _
  split
  · exact post_putAndReturn hP h _ _
  exact post_some (hP.own _ _ ⟨calm_setPhase rfl, fun _ => rfl⟩
    (hP.object s id _ (by exact fun _ => ⟨rfl, rfl, rfl, rfl⟩) h)) _

section

variable (hown : ∀ s f, Calm f → P s → P (s.modifyTask u f))

include hown

theorem closed_clear (h : P s) (hclear : futexClearRestartPark s u = some s') : P s' := by
  unfold futexClearRestartPark at hclear
  split at hclear
  · cases hclear
    exact h
  split at hclear
  · cases hclear
  next s₁ hput =>
  cases hclear
  exact hown _ _ calm_setPark (closed_put hP h hput)

theorem post_wait (h : P s) (key : K) (val bitset : BitVec 32) (malloc : Bool) :
    Post P (futexWaitMasked s u key val bitset malloc) := by
  unfold futexWaitMasked
  split
  · next s₁ hget => exact post_some (closed_get hP h hget) _
  next s₁ id hget =>
  have h₁ := closed_get hP h hget
  split
  · exact post_waitQueue hP h₁ _ _ _ _
  split
  · split
    · exact post_none _
    next s₂ hput =>
    have h₃ : P (s₂.setPark u none) := hown _ _ calm_setPark (closed_put hP h₁ hput)
    split
    · exact post_none _
    split
    · exact post_putAndReturn hP h₃ _ _
    · exact post_waitQueue hP h₃ _ _ _ _
  · split
    · exact post_none _
    · next s₂ hclear => exact post_waitQueue hP (closed_clear hP hown h₁ hclear) _ _ _ _

theorem post_waitResume (h : P s) (timedOut : Bool) : Post P (futexWaitResume s u timedOut) := by
  have hpark : ∀ w, Post P (futexWaitPark s u w) := by
    intro w
    unfold futexWaitPark
    split
    · exact post_none _
    exact post_some (hown _ _ calm_setPark (hown _ _ (calm_setPhase rfl)
      (hP.object s w.futex _ (by exact fun _ => ⟨rfl, rfl, rfl, rfl⟩) h))) _
  have hleave : ∀ w r, Post P (futexWaitLeave s u w r) := fun w r =>
    post_putAndReturn hP (hP.own _ _ ⟨calm_setPhase rfl, fun _ => rfl⟩
      (hP.object s w.futex _ (by exact fun _ => ⟨rfl, rfl, rfl, rfl⟩) h)) _ _
  unfold futexWaitResume
  split
  · split
    · exact hpark _
    split
    · exact hleave _ _
    split
    · split
      · exact hpark _
      · exact hleave _ _
    · exact post_some (hP.own _ _ ⟨calm_setPhase rfl, fun _ => rfl⟩ h) _
  · exact post_none _

end

end Paths

section Locks

variable {u : T} {P : State K T → Prop} (hP : Closed u P) {s : State K T}

include hP

section

variable (h : P s)

include h

theorem closed_cas {s' : State K T} {x : T} {key : K} {desired : BitVec 32}
    (hcas : futexCas s x key desired = some s') : P s' := by
  rw [futexCas_some hcas]
  exact hP.store s key desired h

theorem post_lockPiLeave (w : PiWait K) (r : Result) : Post P (futexLockPiLeave s u w r) :=
  post_putAndReturn hP.calm (hP.own _ _ (by exact fun _ => rfl) (hP.own _ _ (by exact fun _ => rfl)
    (hP.object s w.futex _ (by exact fun _ => ⟨rfl, rfl, rfl⟩) h))) _ _

theorem post_setPhase (p : Phase K) (r : Option Result) : Post P (some (s.setPhase u p, r)) :=
  post_some (hP.own _ _ (by exact fun _ => rfl) h) r

theorem post_lockPiLoop (ids : Tids T) (w : PiWait K) (trylock : Bool) :
    Post P (futexLockPiLoop ids s u w trylock) := by
  have hleave := fun r => post_lockPiLeave hP h w r
  unfold futexLockPiLoop
  split
  · exact hleave _
  split
  · exact hleave _
  split
  · split
    · exact post_none _
    simp only []
    split
    · exact post_lockPiLeave hP (hP.object s w.futex _ (by exact fun _ => ⟨rfl, rfl, rfl⟩) h) w _
    next s' hcas =>
    exact post_lockPiLeave hP (closed_cas hP
      (hP.object s w.futex _ (by exact fun _ => ⟨rfl, rfl, rfl⟩) h) hcas) w _
  · split
    · exact hleave _
    split
    · split
      · exact hleave _
      next s' hcas =>
      have h₁ := closed_cas hP h hcas
      split
      · exact post_lockPiLeave hP h₁ w _
      · exact post_setPhase hP h₁ _ _
    · split
      · exact hleave _
      · exact post_setPhase hP h _ _

theorem post_lockPi (ids : Tids T) (key : K) (trylock malloc : Bool) :
    Post P (futexLockPi ids s u key trylock malloc) := by
  unfold futexLockPi
  split
  · next s₁ hget => exact post_some (closed_get hP.calm h hget) _
  · next s₁ id hget => exact post_lockPiLoop hP (closed_get hP.calm h hget) ids _ _

theorem post_lockPiLooked (ids : Tids T) (timedOut : Bool) :
    Post P (futexLockPiLooked ids s u timedOut) := by
  unfold futexLockPiLooked
  split
  · next w _ =>
    split
    · split
      · exact post_lockPiLoop hP h ids w _
      split
      · simp only []
        split
        · exact post_lockPiLeave hP
            (hP.object s w.futex _ (by exact fun _ => ⟨rfl, rfl, rfl⟩) h) _ _
        · exact post_setPhase hP (hP.object s w.futex _ (by exact fun _ => ⟨rfl, rfl, rfl⟩) h) _ _
      · split
        · exact post_lockPiLeave hP h w _
        split
        · exact post_lockPiLoop hP h ids w _
        split
        · exact post_none _
        split
        · exact post_lockPiLeave hP h w _
        split
        · exact post_lockPiLeave hP h w _
        · next s' hcas => exact post_lockPiLeave hP (closed_cas hP h hcas) w _
    · exact post_none _
  · exact post_none _

theorem post_lockPiResume (ids : Tids T) : Post P (futexLockPiResume ids s u) := by
  unfold futexLockPiResume
  split
  · next w _ =>
    split
    · exact post_lockPiLoop hP h ids w _
    split
    · exact post_lockPiLeave hP h w _
    · exact post_lockPiLoop hP h ids w _
  · exact post_none _

theorem post_unlockPi (ids : Tids T) (key : K) (malloc : Bool) :
    Post P (futexUnlockPi ids s u key malloc) := by
  unfold futexUnlockPi
  split
  · next s₁ hget => exact post_some (closed_get hP.calm h hget) _
  next s₁ id hget =>
  have h₁ := closed_get hP.calm h hget
  split
  · exact post_putAndReturn hP.calm h₁ _ _
  split
  · exact post_putAndReturn hP.calm h₁ _ _
  split
  · exact post_none _
  split
  · simp only []
    split
    · exact post_putAndReturn hP.calm (hP.object s₁ id _ (by exact fun _ => ⟨rfl, rfl, rfl⟩) h₁) _ _
    next s₂ hcas =>
    exact post_putAndReturn hP.calm (hP.own _ _ (by exact fun _ => rfl) (closed_cas hP
      (hP.object s₁ id _ (by exact fun _ => ⟨rfl, rfl, rfl⟩) h₁) hcas)) _ _
  · simp only []
    split
    · exact post_putAndReturn hP.calm (hP.object s₁ id _ (by exact fun _ => ⟨rfl, rfl, rfl⟩) h₁) _ _
    next s₂ hcas =>
    have h₂ := closed_cas hP
      (hP.object s₁ id _ (by exact fun _ => ⟨rfl, rfl, rfl⟩) h₁) hcas
    exact post_putAndReturn hP.calm (hP.own _ _ (by exact fun _ => rfl) (hP.handOver _ _
      (hP.object s₂ id _ (by exact fun _ => ⟨rfl, rfl, rfl⟩) h₂))) _ _

end

end Locks

/-- The task that an action belongs to. -/
def actor : Action K T → Option T
  | .wait t _ _ _ _ => some t
  | .waitResume t _ => some t
  | .release t => some t
  | .wakelike t _ _ _ _ _ _ => some t
  | .wakeOp t _ _ _ _ _ _ _ => some t
  | .cmpRequeue t _ _ _ _ _ _ _ => some t
  | .cmpRequeuePi t _ _ _ _ _ _ => some t
  | .lockPi t _ _ _ => some t
  | .lockPiLook t => some t
  | .lockPiLooked t _ => some t
  | .lockPiResume t => some t
  | .unlockPi t _ _ => some t
  | .userLock t _ => some t
  | .userUnlock t _ => some t
  | .store _ _ => none
  | .protect t _ _ => some t
  | .signal t _ => some t
  | .interrupt t => some t
  | .exitBegin t => some t
  | .robustRead t _ => some t
  | .robustWrite t => some t
  | .exitEnd t => some t
  | .spawn t => some t

/-- The actions that may change what their task has parked. -/
def movesPark : Action K T → Bool
  | .wait _ _ _ _ _ => true
  | .waitResume _ _ => true
  | .release _ => true
  | .exitEnd _ => true
  | .spawn _ => true
  | _ => false

/-- The actions that have nothing to do with locks and the end of a task. -/
def plain : Action K T → Bool
  | .wait _ _ _ _ _ => true
  | .waitResume _ _ => true
  | .release _ => true
  | .wakelike _ _ _ _ _ _ _ => true
  | .wakeOp _ _ _ _ _ _ _ _ => true
  | .cmpRequeue _ _ _ _ _ _ _ _ => true
  | .cmpRequeuePi _ _ _ _ _ _ _ => true
  | .protect _ _ _ => true
  | .signal _ _ => true
  | .interrupt _ => true
  | .exitBegin _ => true
  | .spawn _ => true
  | _ => false

/-- What the calm changes of a task keep, each of its actions without locks keeps. An
    action that advances a wake counter, may change what is parked or writes to a word
    must be allowed to. -/
theorem closed_plain [Fintype T] (ids : Tids T) {u : T} (hP : ClosedCalm u P) {s s' : State K T}
    {a : Action K T} {r : Option Result} (ha : actor a = some u) (hplain : plain a = true)
    (hbump : ∀ t key max mask requeue b c, a = .wakelike t key max mask requeue b c →
      ∀ s id, P s → P (bumpSeq s id))
    (hpark : movesPark a = true → ∀ s f, Calm f → P s → P (s.modifyTask u f))
    (hstore : ∀ t key1 key2 max max2 enc b c, a = .wakeOp t key1 key2 max max2 enc b c →
      ∀ s v, P s → P (s.storeWord key2 v)) (h : P s) (hexec : exec ids s a = some (s', r)) :
    P s' := by
  cases a with
  | wait x key val bitset malloc =>
    cases ha
    exact post_wait hP (hpark rfl) h _ _ _ _ s' r hexec
  | waitResume x timedOut =>
    cases ha
    exact post_waitResume hP (hpark rfl) h _ s' r hexec
  | release x =>
    cases ha
    simp only [exec, futexReleaseRestartPark] at hexec
    split at hexec
    · cases hexec
    · next s₁ hclear => exact of_some hexec (closed_clear hP (hpark rfl) h hclear)
  | wakelike x key wakeMax wakeMask requeue malloc malloc2 =>
    exact post_wakelike hP (hbump _ _ _ _ _ _ _ rfl) h _ _ _ _ _ _ s' r hexec
  | wakeOp x key1 key2 wakeMax wakeMax2 encoded malloc malloc2 =>
    exact post_wakeOp hP (hstore _ _ _ _ _ _ _ _ rfl) h _ _ _ _ _ _ _ s' r hexec
  | cmpRequeue x key1 key2 val val2 val3 malloc malloc2 =>
    exact post_cmpRequeue hP h _ _ _ _ _ _ _ _ s' r hexec
  | cmpRequeuePi x key1 key2 val val2 malloc malloc2 =>
    exact post_cmpRequeuePi hP h _ _ _ _ _ _ _ s' r hexec
  | protect x key access => exact of_some hexec (hP.access _ _ h)
  | signal x pending =>
    cases ha
    exact of_some hexec (hP.own _ _ ⟨calm_pending pending, fun _ => rfl⟩ h)
  | interrupt x =>
    cases ha
    exact of_some hexec (hP.own _ _ ⟨calm_interrupt, interruptTask_keepsPark⟩ h)
  | exitBegin x =>
    cases ha
    exact of_some hexec (hP.own _ _ ⟨calm_exiting, fun _ => rfl⟩ h)
  | spawn x =>
    cases ha
    exact of_some hexec (hpark rfl _ _ calm_newTask h)
  | _ => cases hplain

/-- What the small changes of a task keep, each of its actions keeps. An action that
    advances a wake counter or may change what is parked must be allowed to. -/
theorem closed_exec [Fintype T] (ids : Tids T) {u : T} (hP : Closed u P) {s s' : State K T}
    {a : Action K T} {r : Option Result} (ha : actor a = some u)
    (hbump : ∀ t key max mask requeue b c, a = .wakelike t key max mask requeue b c →
      ∀ s id, P s → P (bumpSeq s id))
    (hpark : movesPark a = true → ∀ s f, P s → P (s.modifyTask u f)) (h : P s)
    (hexec : exec ids s a = some (s', r)) : P s' := by
  by_cases hplain : plain a = true
  · exact closed_plain ids hP.calm ha hplain hbump (fun hm s f _ => hpark hm s f)
      (fun _ _ _ _ _ _ _ _ _ s v => hP.store s _ v) h hexec
  cases a with
  | lockPi x key trylock malloc =>
    cases ha
    exact post_lockPi hP h _ _ _ _ s' r hexec
  | lockPiLook x =>
    cases ha
    simp only [exec, futexLockPiLook] at hexec
    split at hexec
    · split at hexec
      · exact of_some hexec (hP.own _ _ (by exact fun _ => rfl) h)
      · cases hexec
    · cases hexec
  | lockPiLooked x timedOut =>
    cases ha
    exact post_lockPiLooked hP h _ _ s' r hexec
  | lockPiResume x =>
    cases ha
    exact post_lockPiResume hP h _ s' r hexec
  | unlockPi x key malloc =>
    cases ha
    exact post_unlockPi hP h _ _ _ s' r hexec
  | userLock | userUnlock =>
    cases ha
    exact of_some hexec (hP.own _ _ (by exact fun _ => rfl) (hP.store _ _ _ h))
  | store key val => cases ha
  | robustRead x key =>
    cases ha
    refine of_some hexec ?_
    unfold robustHandleDeathRead
    split
    · exact h
    split
    · exact h
    · exact hP.own _ _ (by exact fun _ => rfl) h
  | robustWrite x =>
    cases ha
    refine of_some hexec ?_
    unfold robustHandleDeathWrite
    split
    · exact h
    simp only []
    split
    · exact hP.store _ _ _ (hP.own _ _ (by exact fun _ => rfl) h)
    · exact hP.own _ _ (by exact fun _ => rfl) h
  | exitEnd x =>
    cases ha
    simp only [exec] at hexec
    split at hexec
    · cases hexec
    next s₁ hclear =>
      exact of_some hexec (hP.own _ _ (by exact fun _ => rfl)
        (closed_clear hP.calm (fun s f _ => hpark rfl s f) h hclear))
  | _ => exact absurd rfl hplain

end IshAok.Futex
