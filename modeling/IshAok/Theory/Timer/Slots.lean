import IshAok.Core.PosixTimer
import IshAok.Theory.Timer.Moves

/-!
# Slots of POSIX Timers

What each action does to the slots, the timers and the queues of a process,
one constructor for each outcome.

`Linked` ties slots to timers: a slot in use has a timer made for it, and only
the timer a slot has is armed. A deleted timer can still be in a callback, but
it decides nothing any more.

## Main definitions

* `Effect`: What an action does.
* `Linked`: Only the timer a slot has is armed.

## Theorems

* `exec_effect`: Every action does what `Effect` has for it.
* `linked_step`, `linked_run`: Slots and timers stay tied.
-/

namespace IshAok.PosixTimers

open Base Option List
open Timers (TimerSpec Move)

/-- What an action does, with its answer. -/
inductive Effect (s : State) : Action → Answer → State → Prop
  | refused (a e) : Effect s a (.error e) s
  | created (signal k method slot) (hslot : s.slots[k]? = some slot) (hfree : slot.timer = none) :
      Effect s (.create signal method) (.created k s.objects.length) { s with
          slots := s.slots.set k
            (({ slot with timer := some s.objects.length, signal := signal } : Slot).setMethod
              method)
          objects := s.objects ++ [⟨k, Timers.timerNew, none⟩] }
  | armed (k j spec now made slot o ans) (hslot : s.slots[k]? = some slot)
      (htimer : slot.timer = some j) (hobj : s.objects[j]? = some o) :
      Effect s (.settime k spec now made) ans
        (s.setObject j { o with st := (Timers.timerSet o.st spec now made).1 })
  | deleted (k j slot o) (hslot : s.slots[k]? = some slot) (htimer : slot.timer = some j)
      (hobj : s.objects[j]? = some o) :
      Effect s (.delete k) .ok { s.setObject j { o with st := timerFree o.st } with
          slots := s.slots.set k { slot with timer := none }
          disowning := k :: s.disowning }
  | disowned (k) (hmem : k ∈ s.disowning) : Effect s (.disown k) .ok
        { s with
          queue := signalTimerDisown s.queue k
          disowning := s.disowning.erase k }
  | moved (j now o st) (hobj : s.objects[j]? = some o) (hmove : Move now o.st st) :
      Effect s (.thread j now) .ok (s.setObject j { o with st := st })
  | silent (j n a o) (hobj : s.objects[j]? = some o) :
      Effect s (.count j) .ok (s.setObject j (o.callbackDone a n))
  | counted (j n a o slot queue) (hobj : s.objects[j]? = some o)
      (hphase : o.st.phase = .firing a n) (hslot : s.slots[o.slot]? = some slot)
      (hcount : signalTimerCountOverrun s.queue slot.task slot.signal o.slot n = some queue) :
      Effect s (.count j) (.delivered n) { s.setObject j (o.callbackDone a n) with queue := queue }
  | looked (j n a o slot) (hobj : s.objects[j]? = some o) (hphase : o.st.phase = .firing a n)
      (hslot : s.slots[o.slot]? = some slot)
      (hcount : signalTimerCountOverrun s.queue slot.task slot.signal o.slot n = none) :
      Effect s (.count j) .ok (s.setObject j { o with looked := some slot.task })
  | sent (j n task a o slot) (hobj : s.objects[j]? = some o) (hphase : o.st.phase = .firing a n)
      (hslot : s.slots[o.slot]? = some slot) (hlooked : o.looked = some task) :
      Effect s (.send j) (.delivered n) { s.setObject j (o.callbackDone a n) with
          queue := s.queue ++ [⟨if slot.threadPid.isSome then some task else none,
            slot.signal, o.slot, firstOverrun n, true⟩] }
  | took (i e) (hentry : s.queue[i]? = some e) :
      Effect s (.take i) (.took e) { s with queue := s.queue.eraseIdx i }
  | posted (e) :
      Effect s (.post e) .ok { s with queue := s.queue ++ [{ e with fromTimer := false }] }

section

variable {s s' : State} {a : Action} {ans : Answer}

theorem create_effect (signal : Nat) (method : Method) :
    Effect s (.create signal method) (timerCreate s signal method).2
      (timerCreate s signal method).1 := by
  unfold timerCreate
  cases hfind : s.slots.findIdx? (fun slot => slot.timer = none) with
  | none => exact .refused _ _
  | some k =>
    rcases findIdx?_eq_some_iff_getElem.mp hfind with ⟨hlt, hfree, -⟩
    have hslot := getElem?_eq_getElem hlt
    dsimp only
    rw [modify_eq_set, hslot, getD_some]
    exact .created signal k method _ hslot (of_decide_eq_true hfree)

theorem settime_effect {k : Nat} {spec : TimerSpec} {now : Timespec} {made : Bool}
    (h : timerSettime s k spec now made = some (s', ans)) :
    Effect s (.settime k spec now made) ans s' := by
  unfold timerSettime at h
  split at h
  · cases h
    exact .refused _ _
  next j htimer =>
  rcases bind_eq_some_iff.mp htimer with ⟨slot, hslot, htimer⟩
  split at h
  · cases h
  next o hobj =>
  rcases ite_none_left_eq_some.mp h with ⟨-, h⟩
  cases h
  exact .armed k j spec now made slot o _ hslot htimer hobj

theorem delete_effect {k : Nat} (h : timerDelete s k = some (s', ans)) :
    Effect s (.delete k) ans s' := by
  unfold timerDelete at h
  split at h
  · cases h
    exact .refused _ _
  next slot hslot =>
  split at h
  · cases h
    exact .refused _ _
  next j htimer =>
  split at h
  · cases h
  next o hobj =>
  rcases ite_none_left_eq_some.mp h with ⟨-, h⟩
  cases h
  exact .deleted k j slot o hslot htimer hobj

theorem thread_effect {j : Nat} {now : Timespec} (h : runThread s j now = some (s', ans)) :
    Effect s (.thread j now) ans s' := by
  unfold runThread at h
  split at h
  · cases h
  next o hobj =>
  split at h
  · cases h
  rcases map_eq_some_iff.mp h with ⟨st, hst, h⟩
  cases h
  exact .moved j now o st hobj (Timers.threadStep_move hst)

theorem count_effect {j : Nat} (h : callbackCount s j = some (s', ans)) :
    Effect s (.count j) ans s' := by
  unfold callbackCount at h
  split at h
  · cases h
  next o hobj =>
  split at h
  · next b n slot hphase hslot hlooked =>
    split at h
    · cases h
      exact .silent j n b o hobj
    split at h
    · next queue hcount =>
      cases h
      exact .counted j n b o slot queue hobj hphase hslot hcount
    · next hcount =>
      cases h
      exact .looked j n b o slot hobj hphase hslot hcount
  · cases h

theorem send_effect {j : Nat} (h : callbackSend s j = some (s', ans)) :
    Effect s (.send j) ans s' := by
  unfold callbackSend at h
  split at h
  · cases h
  next o hobj =>
  split at h
  · next b n slot task hphase hslot hlooked =>
    cases h
    exact .sent j n task b o slot hobj hphase hslot hlooked
  · cases h

/-- Every action does what `Effect` has for it. -/
theorem exec_effect (h : exec s a = some (s', ans)) : Effect s a ans s' := by
  cases a with
  | create signal method =>
    rcases Prod.mk.inj (some.inj h) with ⟨rfl, rfl⟩
    exact create_effect signal method
  | settime k spec now made => exact settime_effect h
  | delete k => exact delete_effect h
  | disown k =>
    rcases ite_none_right_eq_some.mp h with ⟨hmem, h⟩
    cases h
    exact .disowned k hmem
  | thread j now => exact thread_effect h
  | count j => exact count_effect h
  | send j => exact send_effect h
  | take i =>
    simp only [exec] at h
    split at h
    · cases h
    next e hentry =>
    cases h
    exact .took i e hentry
  | post e =>
    cases h
    exact .posted e

end

/-! ### Slots and their timers -/

/-- Slot `k` has timer `j`. -/
def State.holds (s : State) (k j : Nat) : Prop :=
  ∃ slot, s.slots[k]? = some slot ∧ slot.timer = some j

instance (s : State) (k j : Nat) : Decidable (s.holds k j) :=
  decidable_of_iff (((s.slots[k]?).bind Slot.timer) = some j) bind_eq_some_iff

/-- A slot in use has a timer made for it, and only the timer a slot has is
    armed. -/
structure Linked (s : State) : Prop where
  made : ∀ k j, s.holds k j → ∃ o, s.objects[j]? = some o ∧ o.slot = k
  armed : ∀ j o, s.objects[j]? = some o → o.st.timer.active = true → s.holds o.slot j

theorem Slot.setMethod_timer (slot : Slot) (method : Method) :
    (slot.setMethod method).timer = slot.timer := by
  cases method <;> rfl

section

variable {s s' : State}

variable {slot slot' : Slot} {j k : Nat} {o o' : Object}

/-- What a slot has after another value is put in slot `k`. -/
theorem holds_set {k' : Nat} (hslot : s.slots[k]? = some slot)
    (hslots : s'.slots = s.slots.set k slot') :
    s'.holds k' j ↔ if k' = k then slot'.timer = some j else s.holds k' j := by
  have hlt := (List.getElem?_eq_some_iff.mp hslot).1
  unfold State.holds
  rw [hslots, getElem?_set]
  by_cases hk : k' = k
  · rw [if_pos hk, if_pos hk.symm, if_pos (hk ▸ hlt)]
    exact ⟨fun ⟨x, hx, ht⟩ => (some.inj hx) ▸ ht, fun ht => ⟨slot', rfl, ht⟩⟩
  · rw [if_neg hk, if_neg fun h => hk h.symm]

/-- After a change of timer `j` a timer is the changed one or what it was. -/
theorem object_cases {i : Nat} {x : Object} (hobj : s.objects[j]? = some o)
    (hobjects : s'.objects = s.objects.set j o') (hx : s'.objects[i]? = some x) :
    (j = i ∧ x = o') ∨ (j ≠ i ∧ s.objects[i]? = some x) := by
  rw [hobjects, getElem?_set] at hx
  by_cases hij : j = i
  · rw [if_pos hij, if_pos (hij ▸ (List.getElem?_eq_some_iff.mp hobj).1)] at hx
    exact .inl ⟨hij, (some.inj hx).symm⟩
  · rw [if_neg hij] at hx
    exact .inr ⟨hij, hx⟩

/-- The change leaves each timer made for the slot it was made for. -/
theorem object_slot {i : Nat} (hobj : s.objects[j]? = some o)
    (hobjects : s'.objects = s.objects.set j o') (hsame : o'.slot = o.slot)
    (h : ∃ x, s.objects[i]? = some x ∧ x.slot = k) : ∃ x, s'.objects[i]? = some x ∧ x.slot = k := by
  rcases h with ⟨x, hx, hk⟩
  rw [hobjects]
  by_cases hij : j = i
  · subst hij
    rw [hobj] at hx
    cases hx
    exact ⟨o', getElem?_set_self (List.getElem?_eq_some_iff.mp hobj).1, hsame.trans hk⟩
  · exact ⟨x, (getElem?_set_ne hij).trans hx, hk⟩

theorem Linked.slot_eq (h : Linked s) (hslot : s.slots[k]? = some slot)
    (htimer : slot.timer = some j) (hobj : s.objects[j]? = some o) : o.slot = k := by
  rcases h.made k j ⟨slot, hslot, htimer⟩ with ⟨x, hx, hk⟩
  rw [hobj] at hx
  exact some.inj hx ▸ hk

/-- A change of one timer that arms it only if its slot has it. -/
theorem linked_object (h : Linked s) (hobj : s.objects[j]? = some o) (hslots : s'.slots = s.slots)
    (hobjects : s'.objects = s.objects.set j o') (hsame : o'.slot = o.slot)
    (harmed : o'.st.timer.active = true → o.st.timer.active = true ∨ s.holds o.slot j) :
    Linked s' := by
  have hholds : ∀ k i, s'.holds k i ↔ s.holds k i := fun k i => by
    unfold State.holds
    rw [hslots]
  constructor
  · intro k i hi
    exact object_slot hobj hobjects hsame (h.made k i ((hholds k i).mp hi))
  · intro i x hx hactive
    rw [hholds]
    rcases object_cases hobj hobjects hx with ⟨rfl, rfl⟩ | ⟨-, hx⟩
    · rw [hsame]
      rcases harmed hactive with hold | hheld
      · exact h.armed j o hobj hold
      · exact hheld
    · exact h.armed i x hx hactive

theorem linked_create (h : Linked s) (hslot : s.slots[k]? = some slot) (hfree : slot.timer = none)
    (htimer : slot'.timer = some s.objects.length) (hslots : s'.slots = s.slots.set k slot')
    (hobjects : s'.objects = s.objects ++ [⟨k, Timers.timerNew, none⟩]) : Linked s' := by
  have hempty : ∀ j, ¬s.holds k j := by
    rintro j ⟨x, hx, hj⟩
    rw [hslot] at hx
    rw [← some.inj hx, hfree] at hj
    cases hj
  constructor
  · intro k' j hj
    rw [holds_set hslot hslots] at hj
    rw [hobjects]
    by_cases hk : k' = k
    · rw [if_pos hk, htimer] at hj
      rw [← some.inj hj, hk]
      exact ⟨_, getElem?_concat_length, rfl⟩
    · rw [if_neg hk] at hj
      rcases h.made k' j hj with ⟨o, ho, hslot'⟩
      exact ⟨o, getElem?_append_left (List.getElem?_eq_some_iff.mp ho).1 ▸ ho, hslot'⟩
  · intro j o ho hactive
    rw [hobjects] at ho
    by_cases hlt : j < s.objects.length
    · rw [getElem?_append_left hlt] at ho
      have hj := h.armed j o ho hactive
      rw [holds_set hslot hslots, if_neg fun hk : o.slot = k => hempty j (hk ▸ hj)]
      exact hj
    · -- The new timer is not armed.
      rw [getElem?_append_right (Nat.le_of_not_lt hlt)] at ho
      rw [mem_singleton.mp (mem_of_getElem? ho)] at hactive
      cases hactive

theorem linked_delete (h : Linked s) (hslot : s.slots[k]? = some slot)
    (htimer : slot.timer = some j) (hobj : s.objects[j]? = some o) (hempty : slot'.timer = none)
    (hslots : s'.slots = s.slots.set k slot') (hobjects : s'.objects = s.objects.set j o')
    (hactive : o'.st.timer.active = false) : Linked s' := by
  constructor
  · intro k' i hi
    rw [holds_set hslot hslots] at hi
    by_cases hk : k' = k
    · rw [if_pos hk, hempty] at hi
      cases hi
    rw [if_neg hk] at hi
    rcases h.made k' i hi with ⟨y, hy, hyk⟩
    -- The deleted timer was made for slot `k`, so it is another one.
    have hij : j ≠ i := by
      rintro rfl
      exact hk (hyk.symm.trans (h.slot_eq hslot htimer hy))
    rw [hobjects, getElem?_set_ne hij]
    exact ⟨y, hy, hyk⟩
  · intro i y hy hyactive
    rcases object_cases hobj hobjects hy with ⟨-, rfl⟩ | ⟨hij, hy⟩
    · rw [hactive] at hyactive
      cases hyactive
    · have hi := h.armed i y hy hyactive
      rw [holds_set hslot hslots]
      by_cases hk : y.slot = k
      · rcases hi with ⟨slot₂, hslot₂, htimer₂⟩
        rw [hk, hslot] at hslot₂
        rw [← some.inj hslot₂, htimer] at htimer₂
        exact absurd (some.inj htimer₂) hij
      · rw [if_neg hk]
        exact hi

theorem linked_step {l : Action × Answer} (h : Linked s) (hstep : Step s l s') : Linked s' := by
  rcases l with ⟨a, ans⟩
  cases exec_effect hstep with
  | refused a e => exact h
  | created signal k method slot hslot hfree =>
    exact linked_create h hslot hfree (Slot.setMethod_timer _ _) rfl rfl
  | armed k j spec now made slot o ans hslot htimer hobj =>
    have hk := h.slot_eq hslot htimer hobj
    exact linked_object h hobj rfl rfl rfl fun _ => .inr (hk ▸ ⟨slot, hslot, htimer⟩)
  | deleted k j slot o hslot htimer hobj => exact linked_delete h hslot htimer hobj rfl rfl rfl rfl
  | disowned | took | posted => exact ⟨h.made, h.armed⟩
  | moved j now o st hobj hmove =>
    exact linked_object h hobj rfl rfl rfl fun hactive =>
      .inl ((Timers.move_same hmove).2.1 ▸ hactive)
  | silent _ _ _ _ hobj | looked _ _ _ _ _ hobj => exact linked_object h hobj rfl rfl rfl .inl
  | counted _ _ _ _ _ _ hobj | sent _ _ _ _ _ _ hobj =>
    exact linked_object h hobj rfl rfl rfl .inl

end

theorem linked_initial : Linked initial := by
  refine ⟨fun k j hheld => ?_, fun j o ho _ => by cases ho⟩
  rcases hheld with ⟨slot, hslot, htimer⟩
  rw [eq_of_mem_replicate (mem_of_getElem? hslot)] at htimer
  cases htimer

theorem linked_run {s : State} {tr : List (State × Action × Answer)}
    (hrun : Run Step initial tr s) : Linked s :=
  run_invariant Linked hrun linked_initial fun _ _ _ _ h hstep => linked_step h hstep

end IshAok.PosixTimers
