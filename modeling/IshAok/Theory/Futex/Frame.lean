import IshAok.Theory.Futex.Count
import IshAok.Theory.Futex.Moves

/-!
# What One Task Leaves of Another

An operation of one task changes another task in two ways only: it takes a wait
off its queue or moves it to another, and it hands a lock over. Everything else
about the other task stays, and in particular a wait that is off its queue cannot
come back to one before it runs again.

This is one relation between states, `Untouched`, which the small changes of any
other task keep.

## Main definitions

* `PhaseKept`, `Untouched`: What is left of a task.

## Theorems

* `closed_untouched`: The changes of one task leave another.
* `busy_action`: A task in a call does nothing but go on with it.
* `waiting_action`: A task in a wait does nothing but run again.
* `untouched_exec`: An action leaves the tasks it does not belong to.
-/

namespace IshAok.Futex

open Option

variable {K T : Type}

/-- What an operation of another task leaves of a phase. -/
def PhaseKept : Phase K → Phase K → Prop
  | .running, p => p = .running
  | .exited, p => p = .exited
  | .waiting w, p =>
    ∃ w', p = .waiting w' ∧ w'.key = w.key ∧ w'.bitset = w.bitset ∧
      w'.interrupted = w.interrupted ∧ w'.sleeping = w.sleeping ∧
      (w.linked = false → w'.linked = false)
  | .locking w, p => p = .locking w ∨ p = .locking { w with piOwned := true, linked := false }

theorem phaseKept_refl (p : Phase K) : PhaseKept p p := by
  cases p with
  | running | exited => rfl
  | waiting w => exact ⟨w, rfl, rfl, rfl, rfl, rfl, fun h => h⟩
  | locking w => exact .inl rfl

theorem phaseKept_trans {p q r : Phase K} (h : PhaseKept p q) (h' : PhaseKept q r) :
    PhaseKept p r := by
  cases p with
  | running =>
    have hq : q = .running := h
    rw [hq] at h'
    exact h'
  | exited =>
    have hq : q = .exited := h
    rw [hq] at h'
    exact h'
  | waiting w =>
    rcases h with ⟨w', rfl, hkey, hbits, hint, hsleep, hlink⟩
    rcases h' with ⟨w'', rfl, hkey', hbits', hint', hsleep', hlink'⟩
    exact ⟨w'', rfl, hkey'.trans hkey, hbits'.trans hbits, hint'.trans hint,
      hsleep'.trans hsleep, fun hl => hlink' (hlink hl)⟩
  | locking w =>
    -- A lock is handed over once; a second time changes nothing.
    rcases h with rfl | rfl
    · exact h'
    · rcases h' with rfl | rfl
      · exact .inr rfl
      · exact .inr rfl

/-- What an operation of another task leaves of a task. -/
structure Untouched (t : T) (s s' : State K T) : Prop where
  park : (s'.tasks t).park = (s.tasks t).park
  pending : (s'.tasks t).pending = (s.tasks t).pending
  exiting : (s'.tasks t).exiting = (s.tasks t).exiting
  robust : (s'.tasks t).robust = (s.tasks t).robust
  held : (s'.tasks t).held = (s.tasks t).held
  phase : PhaseKept (s.tasks t).phase (s'.tasks t).phase

variable {t : T} {s : State K T} {a : Action K T}

theorem untouched_of_eq {s' : State K T} (h : s'.tasks t = s.tasks t) : Untouched t s s' := by
  refine ⟨by rw [h], by rw [h], by rw [h], by rw [h], by rw [h], ?_⟩
  rw [h]
  exact phaseKept_refl _

theorem untouched_trans {s' s'' : State K T} (h : Untouched t s s') (h' : Untouched t s' s'') :
    Untouched t s s'' :=
  ⟨h'.park.trans h.park, h'.pending.trans h.pending, h'.exiting.trans h.exiting,
    h'.robust.trans h.robust, h'.held.trans h.held, phaseKept_trans h.phase h'.phase⟩

/-- A task in a call does nothing but go on with it. What else belongs to it is done
    to it: its signals and its memory. -/
theorem busy_action (ids : Tids T) (hen : Enabled ids s a) (ha : actor a = some t)
    (hrun : (s.tasks t).phase ≠ .running) (hgone : (s.tasks t).phase ≠ .exited) :
    (∃ b, a = .waitResume t b) ∨ a = .lockPiLook t ∨ (∃ b, a = .lockPiLooked t b) ∨
      a = .lockPiResume t ∨ (∃ b, a = .signal t b) ∨ a = .interrupt t ∨
      ∃ key access, a = .protect t key access := by
  cases a with
  | waitResume x b => exact .inl ⟨b, by rw [some.inj ha]⟩
  | lockPiLook x => exact .inr (.inl (by rw [some.inj ha]))
  | lockPiLooked x b => exact .inr (.inr (.inl ⟨b, by rw [some.inj ha]⟩))
  | lockPiResume x => exact .inr (.inr (.inr (.inl (by rw [some.inj ha]))))
  | signal x b =>
    exact .inr (.inr (.inr (.inr (.inl ⟨b, by rw [some.inj ha]⟩))))
  | interrupt x =>
    exact .inr (.inr (.inr (.inr (.inr (.inl (by rw [some.inj ha]))))))
  | protect x key access =>
    exact .inr (.inr (.inr (.inr (.inr (.inr ⟨key, access, by rw [some.inj ha]⟩)))))
  | store key val => cases ha
  | spawn x => rw [some.inj ha] at hen; exact absurd hen hgone
  | wait | wakeOp | cmpRequeue
  | cmpRequeuePi | lockPi | unlockPi | exitBegin | robustRead
  | robustWrite | exitEnd => rw [some.inj ha] at hen; exact absurd hen.1 hrun
  | release | wakelike => rw [some.inj ha] at hen; exact absurd hen hrun
  | userLock | userUnlock => rw [some.inj ha] at hen; exact absurd hen.1.1 hrun

/-- A task in a wait does nothing but run again. -/
theorem waiting_action (ids : Tids T) {w : Wait K} (hen : Enabled ids s a) (ha : actor a = some t)
    (hw : (s.tasks t).phase = .waiting w) :
    (∃ b, a = .waitResume t b) ∨ (∃ b, a = .signal t b) ∨ a = .interrupt t ∨
      ∃ key access, a = .protect t key access := by
  have hlock : ∀ v, (s.tasks t).phase ≠ .locking v := fun v => by
    rw [hw]
    simp
  rcases busy_action ids hen ha (by rw [hw]; simp only [ne_eq, reduceCtorEq, not_false_eq_true])
    (by rw [hw]; simp only [ne_eq, reduceCtorEq, not_false_eq_true])
    with h | rfl | ⟨b, rfl⟩ | rfl | h
  · exact .inl h
  · rcases hen with ⟨v, _, hv, _⟩
    exact absurd hv (hlock v)
  · rcases hen with ⟨v, _, _, hv, _⟩
    exact absurd hv (hlock v)
  · rcases hen with ⟨v, hv, _⟩
    exact absurd hv (hlock v)
  · exact .inr h

variable [DecidableEq T]

theorem untouched_modifyTask {u : T} (hne : t ≠ u) (s : State K T) (f : Task K → Task K) :
    Untouched t s (s.modifyTask u f) :=
  untouched_of_eq (Function.update_of_ne hne _ _)

/-- Waits taken off a queue or moved to another. -/
theorem untouched_modifyWaits (t : T) (s : State K T) (ts : List T) (f : Wait K → Wait K)
    (hf : ∀ w, (f w).key = w.key ∧ (f w).bitset = w.bitset ∧
      (f w).interrupted = w.interrupted ∧ (f w).sleeping = w.sleeping ∧
      (w.linked = false → (f w).linked = false)) :
    Untouched t s (s.modifyWaits ts f) := by
  by_cases ht : t ∈ ts
  · cases hphase : (s.tasks t).phase with
    | waiting w =>
      have htask := modifyWaits_of_mem s f ht hphase
      refine ⟨by rw [htask], by rw [htask], by rw [htask], by rw [htask], by rw [htask], ?_⟩
      rw [htask, hphase]
      exact ⟨f w, rfl, hf w⟩
    | running | locking | exited =>
      exact untouched_of_eq (by simp only [State.modifyWaits, hphase])
  · exact untouched_of_eq (modifyWaits_of_not_mem s f ht)

theorem untouched_handOver (t u : T) (s : State K T) : Untouched t s (handOver s u) := by
  by_cases hne : t = u
  · subst hne
    have htask : (handOver s t).tasks t = _ := Function.update_self _ _ _
    cases hphase : (s.tasks t).phase with
    | locking w =>
      rw [hphase] at htask
      refine ⟨by rw [htask], by rw [htask], by rw [htask], by rw [htask], by rw [htask], ?_⟩
      rw [htask, hphase]
      exact .inr rfl
    | running | waiting | exited => rw [hphase] at htask; exact untouched_of_eq htask
  · exact untouched_modifyTask hne s _

/-- The small changes of one task leave another. -/
theorem closed_untouched [DecidableEq K] {u : T} (hne : t ≠ u) (s₀ : State K T) :
    Closed u (Untouched t s₀) where
  object _ _ _ _ h := untouched_trans h (untouched_of_eq rfl)
  remove _ _ h := untouched_trans h (untouched_of_eq rfl)
  fresh _ _ _ h := untouched_trans h (untouched_of_eq rfl)
  own s f _ h := untouched_trans h (untouched_modifyTask hne s f)
  unlink s ts h := untouched_trans h (untouched_modifyWaits t s ts _
    (fun _ => ⟨rfl, rfl, rfl, rfl, fun _ => rfl⟩))
  move s ts target h := untouched_trans h (untouched_modifyWaits t s ts
    (fun w => { w with futex := target }) (fun _ => ⟨rfl, rfl, rfl, rfl, fun hl => hl⟩))
  handOver s x h := untouched_trans h (untouched_handOver t x s)
  store _ _ _ h := untouched_trans h (untouched_of_eq rfl)
  access _ _ h := untouched_trans h (untouched_of_eq rfl)

/-- An action leaves the tasks that it does not belong to. -/
theorem untouched_exec [DecidableEq K] [Fintype T] (ids : Tids T) {s' : State K T}
    {r : Option Result} (hexec : exec ids s a = some (s', r)) (ht : actor a ≠ some t) :
    Untouched t s s' := by
  cases ha : actor a with
  | none =>
    -- Only a store belongs to no task.
    cases a with
    | store key val =>
      simp only [exec, some.injEq, Prod.mk.injEq] at hexec
      rw [← hexec.1]
      exact untouched_of_eq rfl
    | _ => cases ha
  | some u =>
    have hne : t ≠ u := fun heq => ht (by rw [ha, heq])
    exact closed_exec ids (closed_untouched hne s) ha
      (fun _ _ _ _ _ _ _ _ _ _ h => untouched_trans h (untouched_of_eq rfl))
      (fun _ s f h => untouched_trans h (untouched_modifyTask hne s f))
      (untouched_of_eq rfl) hexec

end IshAok.Futex
