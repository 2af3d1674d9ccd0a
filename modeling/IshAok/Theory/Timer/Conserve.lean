import IshAok.Theory.Timer.Slots

/-!
# Expiries and Signals of POSIX Timers

Every expiry a POSIX timer delivers is found again: as the signal queued for
it, or in the count of overruns on one that was queued already. The entries of
a timer are told from others by its slot and a mark. That is enough if nothing
of the slot's earlier timers is left when the timer is made: no callback of
theirs in progress, no queued entry with the mark, and no deletion that has
yet to come to the queues.

With one of them left, an expiry of the old timer is counted as the new one's.
`timer_conserved` has the law for a timer that starts clean.

## Main definitions

* `marked`, `total`: The queued entries of a slot, and the expiries in them.
* `delivered`, `taken`: Expiries delivered and taken in a run.
* `Clean`: Nothing of a slot's earlier timers is left.
* `Kept`: What holds of a slot while its timer lives.

## Theorems

* `kept_step`: Each action keeps the law.
* `timer_conserved`: The law in every run of a timer that starts clean.
-/

namespace IshAok.PosixTimers

open Base List Option Bool
open Timers (TimerSpec Move)

/-! ### Entries of a slot -/

/-- Whether an entry is marked as that of the timer in slot `k`. -/
def Entry.ownedBy (k : Nat) (e : Entry) : Bool :=
  e.fromTimer && e.timer = k

/-- The expiries an entry stands for. -/
def Entry.weight (e : Entry) : Nat :=
  1 + e.overrun

/-- The queued entries of slot `k`. -/
def marked (k : Nat) (queue : List Entry) : List Entry :=
  queue.filter (Entry.ownedBy k)

/-- The expiries the queued entries of slot `k` stand for. -/
def total (k : Nat) (queue : List Entry) : Nat :=
  ((marked k queue).map Entry.weight).sum

@[simp] theorem marked_append (k : Nat) (l l' : List Entry) :
    marked k (l ++ l') = marked k l ++ marked k l' :=
  filter_append l l'

@[simp] theorem marked_nil (k : Nat) : marked k [] = [] := rfl

variable {k : Nat} {e : Entry}

theorem marked_cons_pos (h : e.ownedBy k = true) (l : List Entry) :
    marked k (e :: l) = e :: marked k l :=
  filter_cons_of_pos h

theorem marked_cons_neg (h : e.ownedBy k = false) (l : List Entry) :
    marked k (e :: l) = marked k l :=
  filter_cons_of_neg (by rw [h]; exact Bool.false_ne_true)

theorem Entry.isFor_iff {sig : Nat} : e.isFor sig k = true ↔ e.ownedBy k = true ∧ e.sig = sig := by
  simp only [Entry.isFor, Entry.ownedBy, and_eq_true, decide_eq_true_eq]
  exact and_right_comm

/-- An entry of one slot is of no other. -/
theorem Entry.ownedBy_other {k' : Nat} (h : e.ownedBy k' = true) (hne : k' ≠ k) :
    e.ownedBy k = false := by
  simp only [Entry.ownedBy, and_eq_true, decide_eq_true_eq] at h
  simp only [Entry.ownedBy, and_eq_false_iff, decide_eq_false_iff_not]
  exact .inr fun hk => hne (h.2.symm.trans hk)

/-- A pass finds nothing, or counts on one entry of its queue. -/
theorem countIn_cases (place : Option Nat) (sig timer n : Nat) (queue : List Entry) :
    (countIn place sig timer n queue = none ∧
      ∀ e ∈ queue, e.place = place → e.isFor sig timer = false) ∨
    ∃ l e l', queue = l ++ e :: l' ∧ e.place = place ∧ e.isFor sig timer = true ∧
      countIn place sig timer n queue =
        some (l ++ { e with overrun := timerOverrunAdd e.overrun n } :: l') := by
  induction queue with
  | nil => exact .inl ⟨rfl, fun e he => by cases he⟩
  | cons e rest ih =>
    unfold countIn
    by_cases hhere : e.place = place ∧ e.isFor sig timer = true
    · rw [if_pos hhere]
      exact .inr ⟨[], e, rest, rfl, hhere.1, hhere.2, rfl⟩
    rw [if_neg hhere]
    rcases ih with ⟨hnone, hall⟩ | ⟨l, x, l', hsplit, hplace, hfor, hcount⟩
    · rw [hnone]
      refine .inl ⟨rfl, fun x hx hplace => ?_⟩
      rcases mem_cons.mp hx with rfl | hx
      · exact not_eq_true _ ▸ fun hfor => hhere ⟨hplace, hfor⟩
      · exact hall x hx hplace
    · rw [hcount]
      exact .inr ⟨e :: l, x, l', by rw [hsplit]; rfl, hplace, hfor, rfl⟩

/-- `signal_timer_count_overrun` finds nothing on either queue, or counts on
    one entry. -/
theorem countOverrun_cases (queue : List Entry) (task sig timer n : Nat) :
    (signalTimerCountOverrun queue task sig timer n = none ∧
      ∀ e ∈ queue, e.place = some task ∨ e.place = none → e.isFor sig timer = false) ∨
    ∃ l e l', queue = l ++ e :: l' ∧ e.isFor sig timer = true ∧
      signalTimerCountOverrun queue task sig timer n =
        some (l ++ { e with overrun := timerOverrunAdd e.overrun n } :: l') := by
  unfold signalTimerCountOverrun
  rcases countIn_cases (some task) sig timer n queue with
    ⟨hnone, hall⟩ | ⟨l, e, l', hsplit, -, hfor, hcount⟩
  · rw [hnone]
    rcases countIn_cases none sig timer n queue with
      ⟨hnone', hall'⟩ | ⟨l, e, l', hsplit, -, hfor, hcount⟩
    · refine .inl ⟨hnone', fun e he hplace => ?_⟩
      rcases hplace with hplace | hplace
      · exact hall e he hplace
      · exact hall' e he hplace
    · exact .inr ⟨l, e, l', hsplit, hfor, hcount⟩
  · rw [hcount]
    exact .inr ⟨l, e, l', hsplit, hfor, rfl⟩

/-- Disowning a slot leaves the entries of the others. -/
theorem marked_disown {k' : Nat} (hne : k' ≠ k) (queue : List Entry) :
    marked k (signalTimerDisown queue k') = marked k queue := by
  induction queue with
  | nil => rfl
  | cons e rest ih =>
    show marked k (e.disown k' :: signalTimerDisown rest k') = _
    by_cases hhere : e.fromTimer = true ∧ e.timer = k'
    · have hother : e.ownedBy k = false := by
        refine Entry.ownedBy_other ?_ hne
        rw [Entry.ownedBy, hhere.1, hhere.2]
        exact decide_eq_true rfl
      rw [Entry.disown, if_pos hhere, marked_cons_neg hother, marked_cons_neg rfl, ih]
    · rw [Entry.disown, if_neg hhere]
      cases hown : e.ownedBy k with
      | false => rw [marked_cons_neg hown, marked_cons_neg hown, ih]
      | true => rw [marked_cons_pos hown, marked_cons_pos hown, ih]

/-! ### Counts of a run -/

/-- The expiries of timer `b` that an action delivers. -/
def delivers (b : Nat) : Action × Answer → Nat
  | (.count j, .delivered n) => if j = b then n else 0
  | (.send j, .delivered n) => if j = b then n else 0
  | _ => 0

/-- The expiries of slot `k` that an action takes. -/
def takes (k : Nat) : Action × Answer → Nat
  | (.take _, .took e) => if e.ownedBy k then e.weight else 0
  | _ => 0

/-- The expiries timer `b` delivers in a run. -/
def delivered (b : Nat) (tr : List (State × Action × Answer)) : Nat :=
  (tr.map fun p => delivers b p.2).sum

/-- The expiries of slot `k` taken in a run. -/
def taken (k : Nat) (tr : List (State × Action × Answer)) : Nat :=
  (tr.map fun p => takes k p.2).sum

/-- Nothing of the earlier timers of slot `k` is left: no callback in progress,
    no queued entry, and no deletion that has yet to come to the queues. -/
structure Clean (s : State) (k : Nat) : Prop where
  calm : ∀ o ∈ s.objects, o.slot = k → ∀ a n, o.st.phase ≠ .firing a n
  unmarked : marked k s.queue = []
  disowned : k ∉ s.disowning

/-- A deleted timer that is in no callback. -/
def Idle (o : Object) : Prop :=
  o.st.timer.active = false ∧ ∀ a n, o.st.phase ≠ .firing a n

/-- What the queue owes to slot `k`, after `d` expiries delivered and `t` taken. -/
structure Accounts (slot : Slot) (k d t : Nat) (queue : List Entry) : Prop where
  places : ∀ e ∈ marked k queue, e.sig = slot.signal ∧ e.place = slot.threadPid
  single : (marked k queue).length ≤ 1
  sum : d < intMax → total k queue + t = d

/-- What holds of slot `k` while it has timer `b`. -/
structure Kept (slot : Slot) (k b d t : Nat) (s : State) : Prop where
  fields : s.slots[k]? = some slot
  object : ∃ o, s.objects[b]? = some o ∧ o.slot = k
  full : ∀ o, s.objects[b]? = some o → ∀ a n, o.st.phase = .firing a n → 1 ≤ n
  looked : ∀ o, s.objects[b]? = some o → ∀ task, o.looked = some task →
    task = slot.task ∧ marked k s.queue = []
  others : ∀ j o, j ≠ b → s.objects[j]? = some o → o.slot = k → Idle o
  undisowned : k ∉ s.disowning
  accounts : Accounts slot k d t s.queue

section

variable {slot : Slot} {k b d t n : Nat} {queue queue' : List Entry}

/-- A queue with the same entries for the slot. -/
theorem Accounts.congr (h : Accounts slot k d t queue) (hsame : marked k queue' = marked k queue) :
    Accounts slot k d t queue' := by
  refine ⟨hsame ▸ h.places, hsame ▸ h.single, fun hd => ?_⟩
  rw [total, hsame]
  exact h.sum hd

theorem total_split {l l' : List Entry} {e : Entry} (h : e.ownedBy k = true) :
    total k (l ++ e :: l') = total k l + e.weight + total k l' := by
  simp only [total, marked_append, marked_cons_pos h, map_append, map_cons,
    sum_append, sum_cons, Nat.add_assoc]

/-- Expiries counted on an entry of the slot. -/
theorem accounts_count (h : Accounts slot k d t queue) {sig : Nat} {task : Nat}
    (hcount : signalTimerCountOverrun queue task sig k n = some queue') :
    Accounts slot k (d + n) t queue' := by
  rcases countOverrun_cases queue task sig k n with ⟨hnone, -⟩ | ⟨l, e, l', hsplit, hfor, hsome⟩
  · rw [hnone] at hcount
    cases hcount
  rw [hsome] at hcount
  rcases some.inj hcount with rfl
  have hown := (Entry.isFor_iff.mp hfor).1
  have hown' : ({ e with overrun := timerOverrunAdd e.overrun n } : Entry).ownedBy k = true :=
    hown
  have hplaces := h.places
  have hsingle := h.single
  rw [hsplit, marked_append, marked_cons_pos hown] at hplaces hsingle
  refine ⟨fun x hx => ?_, ?_, fun hd => ?_⟩
  · rw [marked_append, marked_cons_pos hown'] at hx
    rcases mem_append.mp hx with hx | hx
    · exact hplaces x (mem_append_left _ hx)
    rcases mem_cons.mp hx with rfl | hx
    · exact hplaces e (mem_append_right _ mem_cons_self)
    · exact hplaces x (mem_append_right _ (mem_cons_of_mem _ hx))
  · rw [marked_append, marked_cons_pos hown']
    simp only [length_append, length_cons] at hsingle ⊢
    exact hsingle
  · -- The sum so far bounds the count on the entry, so it does not saturate.
    have hsum := h.sum (by omega)
    rw [hsplit, total_split hown] at hsum
    rw [total_split hown']
    simp only [Entry.weight, timerOverrunAdd] at hsum ⊢
    rw [if_neg (by omega)]
    omega

/-- Expiries counted on an entry of another slot. -/
theorem marked_count_other {k' sig task : Nat} (hne : k' ≠ k)
    (hcount : signalTimerCountOverrun queue task sig k' n = some queue') :
    marked k queue' = marked k queue := by
  rcases countOverrun_cases queue task sig k' n with ⟨hnone, -⟩ | ⟨l, e, l', hsplit, hfor, hsome⟩
  · rw [hnone] at hcount
    cases hcount
  rw [hsome] at hcount
  have hown := Entry.ownedBy_other (Entry.isFor_iff.mp hfor).1 hne
  rw [← some.inj hcount, hsplit, marked_append, marked_append, marked_cons_neg hown,
    marked_cons_neg (show ({ e with overrun := timerOverrunAdd e.overrun n } : Entry).ownedBy k
      = false from hown)]

/-- Where nothing is found to count on there is no entry of the slot. -/
theorem accounts_none (h : Accounts slot k d t queue)
    (hcount : signalTimerCountOverrun queue slot.task slot.signal k n = none) :
    marked k queue = [] := by
  rcases countOverrun_cases queue slot.task slot.signal k n with
    ⟨-, hall⟩ | ⟨l, e, l', hsplit, hfor, hsome⟩
  · refine eq_nil_iff_forall_not_mem.mpr fun e he => ?_
    rcases h.places e he with ⟨hsig, hplace⟩
    rcases mem_filter.mp he with ⟨hmem, hown⟩
    have hhere : e.place = some slot.task ∨ e.place = none := by
      rw [hplace, Slot.task]
      cases slot.threadPid with
      | none => exact .inr rfl
      | some tid => exact .inl rfl
    have hnot := hall e hmem hhere
    rw [Entry.isFor_iff.mpr ⟨hown, hsig⟩] at hnot
    cases hnot
  · rw [hsome] at hcount
    cases hcount

/-- A signal queued where there was none. -/
theorem accounts_send (h : Accounts slot k d t queue) (hempty : marked k queue = [])
    (hn : 1 ≤ n) :
    Accounts slot k (d + n) t
      (queue ++ [⟨slot.threadPid, slot.signal, k, firstOverrun n, true⟩]) := by
  have hown : (⟨slot.threadPid, slot.signal, k, firstOverrun n, true⟩ : Entry).ownedBy k = true :=
    decide_eq_true rfl
  have hmarked : marked k (queue ++ [⟨slot.threadPid, slot.signal, k, firstOverrun n, true⟩]) =
      [⟨slot.threadPid, slot.signal, k, firstOverrun n, true⟩] := by
    rw [marked_append, hempty, marked_cons_pos hown]
    rfl
  refine ⟨fun e he => ?_, ?_, fun hd => ?_⟩
  · rw [hmarked] at he
    rw [mem_singleton.mp he]
    exact ⟨rfl, rfl⟩
  · rw [hmarked]
    exact Nat.le_refl 1
  · have hsum := h.sum (by omega)
    rw [total, hempty] at hsum
    rw [total, hmarked]
    simp only [map_cons, map_nil, sum_cons, sum_nil, Entry.weight,
      firstOverrun] at hsum ⊢
    rw [if_neg (by omega)]
    omega

/-- An entry taken. -/
theorem accounts_take (h : Accounts slot k d t queue) {i : Nat} {e : Entry}
    (hentry : queue[i]? = some e) :
    Accounts slot k d (t + if e.ownedBy k then e.weight else 0) (queue.eraseIdx i) := by
  rcases List.getElem?_eq_some_iff.mp hentry with ⟨hlt, hget⟩
  have hsplit : queue = queue.take i ++ e :: queue.drop (i + 1) := by
    rw [← hget, getElem_cons_drop, take_append_drop]
  have herase : queue.eraseIdx i = queue.take i ++ queue.drop (i + 1) :=
    eraseIdx_eq_take_drop_succ queue i
  generalize queue.take i = l at hsplit herase
  generalize queue.drop (i + 1) = l' at hsplit herase
  rw [herase]
  cases hown : e.ownedBy k with
  | false =>
    refine h.congr ?_
    rw [hsplit, marked_append, marked_append, marked_cons_neg hown]
  | true =>
    have hplaces := h.places
    have hsingle := h.single
    rw [hsplit, marked_append, marked_cons_pos hown] at hplaces hsingle
    refine ⟨fun x hx => ?_, ?_, fun hd => ?_⟩
    · rw [marked_append] at hx
      rcases mem_append.mp hx with hx | hx
      · exact hplaces x (mem_append_left _ hx)
      · exact hplaces x (mem_append_right _ (mem_cons_of_mem _ hx))
    · rw [marked_append]
      simp only [length_append, length_cons] at hsingle ⊢
      omega
    · have hsum := h.sum hd
      rw [hsplit, total_split hown] at hsum
      simp only [total, marked_append, map_append, sum_append, if_true] at hsum ⊢
      omega

end

/-! ### A slot while its timer lives -/

section

variable {slot : Slot} {k b d t d' t' : Nat} {s s' : State}

variable {j : Nat} {o : Object} {l : Action × Answer}

section

variable (h : Kept slot k b d t s)

include h

/-- A change of one timer and of the queues. -/
theorem kept_object {o' : Object} (hobj : s.objects[j]? = some o)
    (hslots : s'.slots[k]? = s.slots[k]?) (hobjects : s'.objects = s.objects.set j o')
    (hsame : o'.slot = o.slot) (hdisowning : k ∉ s'.disowning)
    (hother : j ≠ b → o.slot = k → Idle o')
    (hfull : j = b → ∀ a n, o'.st.phase = .firing a n → 1 ≤ n)
    (hlooked : j = b → ∀ task, o'.looked = some task →
      task = slot.task ∧ marked k s'.queue = [])
    (hempty : j ≠ b → marked k s.queue = [] → marked k s'.queue = [])
    (haccounts : Accounts slot k d' t' s'.queue) : Kept slot k b d' t' s' := by
  refine ⟨hslots.trans h.fields, object_slot hobj hobjects hsame h.object, ?_, ?_, ?_, hdisowning,
    haccounts⟩
  · intro x hx
    rcases object_cases hobj hobjects hx with ⟨hj, rfl⟩ | ⟨hj, hx⟩
    · exact hfull hj
    · exact h.full x hx
  · intro x hx task htask
    rcases object_cases hobj hobjects hx with ⟨hj, rfl⟩ | ⟨hj, hx⟩
    · exact hlooked hj task htask
    rcases h.looked x hx task htask with ⟨hsame, hnone⟩
    exact ⟨hsame, hempty hj hnone⟩
  · intro i x hi hx hk
    rcases object_cases hobj hobjects hx with ⟨rfl, rfl⟩ | ⟨-, hx⟩
    · exact hother hi (hsame ▸ hk)
    · exact h.others i x hi hx hk

/-- A change of the queues alone. -/
theorem kept_queue (hslots : s'.slots = s.slots) (hobjects : s'.objects = s.objects)
    (hdisowning : k ∉ s'.disowning) (hempty : marked k s.queue = [] → marked k s'.queue = [])
    (haccounts : Accounts slot k d' t' s'.queue) : Kept slot k b d' t' s' := by
  refine ⟨hslots ▸ h.fields, hobjects ▸ h.object, hobjects ▸ h.full, fun o ho task htask => ?_,
    hobjects ▸ h.others, hdisowning, haccounts⟩
  rcases h.looked o (hobjects ▸ ho) task htask with ⟨hsame, hnone⟩
  exact ⟨hsame, hempty hnone⟩

/-- A timer in a callback for the slot is the slot's timer. -/
theorem kept_firing {n : Nat} {a : Timers.Arming} (hobj : s.objects[j]? = some o)
    (hphase : o.st.phase = .firing a n) : (j = b ∧ o.slot = k) ∨ (j ≠ b ∧ o.slot ≠ k) := by
  by_cases hj : j = b
  · rcases h.object with ⟨x, hx, hk⟩
    rw [← hj, hobj] at hx
    exact .inl ⟨hj, (some.inj hx) ▸ hk⟩
  · exact .inr ⟨hj, fun hk => (h.others j o hj hobj hk).2 a n hphase⟩

theorem kept_create {k' : Nat} {slot₁ slot₂ : Slot}
    (hlive : slot.timer = some b) (hslot : s.slots[k']? = some slot₁)
    (hfree : slot₁.timer = none) (hslots : s'.slots = s.slots.set k' slot₂)
    (hobjects : s'.objects = s.objects ++ [⟨k', Timers.timerNew, none⟩])
    (hqueue : s'.queue = s.queue) (hdisowning : s'.disowning = s.disowning) :
    Kept slot k b d t s' := by
  have hne : k' ≠ k := by
    intro hk
    rw [hk, h.fields] at hslot
    rw [← some.inj hslot, hlive] at hfree
    cases hfree
  rcases h.object with ⟨o, ho, hok⟩
  have hb : s'.objects[b]? = s.objects[b]? := by
    rw [hobjects, getElem?_append_left (List.getElem?_eq_some_iff.mp ho).1]
  refine ⟨?_, ⟨o, hb.trans ho, hok⟩, hb ▸ h.full, ?_, ?_, hdisowning ▸ h.undisowned,
    hqueue ▸ h.accounts⟩
  · rw [hslots, getElem?_set_ne hne]
    exact h.fields
  · rw [hb, hqueue]
    exact h.looked
  · intro j x hj hx hxk
    rw [hobjects] at hx
    by_cases hlt : j < s.objects.length
    · rw [getElem?_append_left hlt] at hx
      exact h.others j x hj hx hxk
    rw [getElem?_append_right (Nat.le_of_not_lt hlt)] at hx
    rw [mem_singleton.mp (mem_of_getElem? hx)] at hxk
    exact absurd hxk hne

/-- The thread of a timer goes on outside its callbacks. -/
theorem kept_move {now : Timespec} {st : Timers.State} (hobj : s.objects[j]? = some o)
    (hmove : Move now o.st st) : Kept slot k b d t (s.setObject j { o with st := st }) := by
  refine kept_object h hobj rfl rfl rfl h.undisowned (fun hj hk => ?_) (fun hj a n hfiring => ?_)
    (fun hj => h.looked o (hj ▸ hobj)) (fun _ hnone => hnone) h.accounts
  · have hidle := h.others j o hj hobj hk
    have hactive := (Timers.move_same hmove).2.1
    refine ⟨hactive.trans hidle.1, fun a n hfiring => ?_⟩
    -- Only an armed timer decides to fire.
    have harmed := (Timers.move_decides hmove hfiring).2.1
    rw [hidle.1] at harmed
    cases harmed
  · have hn := (Timers.move_decides hmove hfiring).2.2.2.2
    omega

/-- A timer is armed or disarmed. -/
theorem kept_arm {k' : Nat} {spec : TimerSpec} {now : Timespec} {made : Bool} {slot' : Slot}
    (hlinked : Linked s) (hlive : slot.timer = some b) (hslot : s.slots[k']? = some slot')
    (htimer : slot'.timer = some j) (hobj : s.objects[j]? = some o) :
    Kept slot k b d t (s.setObject j { o with st := (Timers.timerSet o.st spec now made).1 }) := by
  rcases Timers.timerSet_cases o.st spec now made with ⟨-, hphase⟩
  refine kept_object h hobj rfl rfl rfl h.undisowned (fun hj hk => ?_) (fun hj a n hfiring => ?_)
    (fun hj => h.looked o (hj ▸ hobj)) (fun _ hnone => hnone) h.accounts
  · -- The slot's timer is `b`, and `j` is that of the slot it was made for.
    rw [← hlinked.slot_eq hslot htimer hobj, hk, h.fields] at hslot
    rw [← some.inj hslot, hlive] at htimer
    exact absurd (some.inj htimer).symm hj
  · rcases hphase with ⟨-, hphase, -⟩ | ⟨hphase, -⟩
    · rw [hphase] at hfiring
      cases hfiring
    rw [hphase] at hfiring
    exact h.full o (hj ▸ hobj) a n hfiring

/-- The timer of another slot is deleted. -/
theorem kept_delete {k' : Nat} {slot' : Slot} (hlinked : Linked s)
    (hne : k' ≠ k) (hslot : s.slots[k']? = some slot') (htimer : slot'.timer = some j)
    (hobj : s.objects[j]? = some o) :
    Kept slot k b d t { s.setObject j { o with st := timerFree o.st } with
        slots := s.slots.set k' { slot' with timer := none }
        disowning := k' :: s.disowning } := by
  have hxk := hlinked.slot_eq hslot htimer hobj
  refine kept_object h hobj (getElem?_set_ne hne) rfl rfl
    (not_mem_cons_of_ne_of_not_mem hne.symm h.undisowned)
    (fun _ hk => absurd (hxk.symm.trans hk) hne) (fun hj => h.full o (hj ▸ hobj))
    (fun hj => h.looked o (hj ▸ hobj)) (fun _ hnone => hnone) h.accounts

/-- A callback ends without a signal, or for another slot. -/
theorem kept_done {n : Nat} {a : Timers.Arming} (hobj : s.objects[j]? = some o)
    (hslots : s'.slots = s.slots) (hobjects : s'.objects = s.objects.set j (o.callbackDone a n))
    (hdisowning : s'.disowning = s.disowning)
    (hempty : j ≠ b → marked k s.queue = [] → marked k s'.queue = [])
    (haccounts : Accounts slot k d' t' s'.queue) : Kept slot k b d' t' s' := by
  refine kept_object h hobj (by rw [hslots]) hobjects rfl (hdisowning ▸ h.undisowned)
    (fun hj hk => ?_) nofun fun _ task htask => by cases htask
    hempty haccounts
  exact ⟨(h.others j o hj hobj hk).1, nofun⟩

/-- Each action keeps the law of a slot whose timer outlives it. -/
theorem kept_step (hlinked : Linked s) (hlive : slot.timer = some b) (hstep : Step s l s')
    (hafter : s'.holds k b) : Kept slot k b (d + delivers b l) (t + takes k l) s' := by
  rcases l with ⟨act, ans⟩
  cases exec_effect hstep with
  | refused act e =>
    have hd : delivers b (act, .error e) = 0 := by cases act <;> rfl
    have ht : takes k (act, .error e) = 0 := by cases act <;> rfl
    rw [hd, ht]
    exact h
  | created signal k' method slot' hslot hfree =>
    exact kept_create h hlive hslot hfree rfl rfl rfl rfl
  | armed k' j spec now made slot' o ans hslot htimer hobj =>
    exact kept_arm h hlinked hlive hslot htimer hobj
  | deleted k' j slot' o hslot htimer hobj =>
    have hne : k' ≠ k := by
      rintro rfl
      rw [holds_set hslot rfl, if_pos rfl] at hafter
      cases hafter
    exact kept_delete h hlinked hne hslot htimer hobj
  | disowned k' hmem =>
    have hne : k' ≠ k := fun hk => h.undisowned (hk ▸ hmem)
    have hsame := marked_disown hne s.queue
    exact kept_queue h rfl rfl (fun hk => h.undisowned (mem_of_mem_erase hk))
      (fun hnone => hsame.trans hnone) (h.accounts.congr hsame)
  | moved j now o st hobj hmove => exact kept_move h hobj hmove
  | silent j n a o hobj =>
    exact kept_done h hobj rfl rfl rfl (fun _ hnone => hnone) h.accounts
  | counted j n a o slot' queue hobj hphase hslot hcount =>
    rcases kept_firing h hobj hphase with ⟨hj, hk⟩ | ⟨hj, hk⟩
    · rw [hk, h.fields] at hslot
      rw [hk, ← some.inj hslot] at hcount
      have haccounts := accounts_count h.accounts hcount
      rw [show delivers b (.count j, .delivered n) = n from if_pos hj]
      exact kept_done h hobj rfl rfl rfl (fun hne => absurd hj hne) haccounts
    · have hsame := marked_count_other hk hcount
      rw [show delivers b (.count j, .delivered n) = 0 from if_neg hj]
      exact kept_done h hobj rfl rfl rfl (fun _ hnone => hsame.trans hnone)
        (h.accounts.congr hsame)
  | looked j n a o slot' hobj hphase hslot hcount =>
    refine kept_object h hobj rfl rfl rfl h.undisowned (fun hj hk => ?_)
      (fun hj => h.full o (hj ▸ hobj)) (fun hj task htask => ?_) (fun _ hnone => hnone)
      h.accounts
    · exact absurd hphase ((h.others j o hj hobj hk).2 a n)
    · rcases kept_firing h hobj hphase with ⟨-, hk⟩ | ⟨hne, -⟩
      · rw [hk, h.fields] at hslot
        rw [hk, ← some.inj hslot] at hcount
        rw [← some.inj hslot] at htask
        exact ⟨(some.inj htask).symm, accounts_none h.accounts hcount⟩
      · exact absurd hj hne
  | sent j n task a o slot' hobj hphase hslot hlooked =>
    rcases kept_firing h hobj hphase with ⟨hj, hk⟩ | ⟨hj, hk⟩
    · rw [hk, h.fields] at hslot
      rcases some.inj hslot with rfl
      rcases h.looked o (hj ▸ hobj) task hlooked with ⟨htask, hnone⟩
      have hplace : (if slot.threadPid.isSome then some task else none) = slot.threadPid := by
        rw [htask, Slot.task]
        cases slot.threadPid <;> rfl
      have haccounts := accounts_send h.accounts hnone (h.full o (hj ▸ hobj) a n hphase)
      rw [show delivers b (.send j, .delivered n) = n from if_pos hj, hplace, hk]
      exact kept_done h hobj rfl rfl rfl (fun hne => absurd hj hne) haccounts
    · have hown : (⟨if slot'.threadPid.isSome then some task else none, slot'.signal, o.slot,
          firstOverrun n, true⟩ : Entry).ownedBy k = false := decide_eq_false hk
      rw [show delivers b (.send j, .delivered n) = 0 from if_neg hj]
      refine kept_done h hobj rfl rfl rfl (fun _ hnone => ?_) (h.accounts.congr ?_)
      · rw [marked_append, hnone, marked_cons_neg hown]
        rfl
      · rw [marked_append, marked_cons_neg hown, marked_nil, append_nil]
  | took i e hentry =>
    have haccounts := accounts_take h.accounts hentry
    refine kept_queue h rfl rfl h.undisowned (fun hnone => ?_) haccounts
    exact eq_nil_of_sublist_nil (hnone ▸ (eraseIdx_sublist _ i).filter _)
  | posted e =>
    have hsame : marked k (s.queue ++ [{ e with fromTimer := false }]) = marked k s.queue := by
      rw [marked_append, marked_cons_neg rfl, marked_nil, append_nil]
    exact kept_queue h rfl rfl h.undisowned (fun hnone => hsame.trans hnone)
      (h.accounts.congr hsame)

end

/-- No timer is forgotten. -/
theorem objects_le (hstep : Step s l s') : s.objects.length ≤ s'.objects.length := by
  rcases l with ⟨act, ans⟩
  cases exec_effect hstep with
  | created =>
    rw [length_append]
    exact Nat.le_add_right _ _
  | armed | moved | silent | looked | deleted | counted | sent =>
    exact Nat.le_of_eq (length_set ..).symm
  | refused | disowned | took | posted => exact Nat.le_refl _

/-- A slot gets no timer that exists already. -/
theorem holds_before (hstep : Step s l s') (hb : b < s.objects.length) (hafter : s'.holds k b) :
    s.holds k b := by
  rcases l with ⟨act, ans⟩
  cases exec_effect hstep with
  | created signal k' method slot' hslot hfree =>
    rw [holds_set hslot rfl] at hafter
    by_cases hk : k = k'
    · rw [if_pos hk, Slot.setMethod_timer] at hafter
      have hfresh := some.inj hafter
      omega
    · rw [if_neg hk] at hafter
      exact hafter
  | deleted k' j slot' o hslot htimer hobj =>
    rw [holds_set hslot rfl] at hafter
    by_cases hk : k = k'
    · rw [if_pos hk] at hafter
      cases hafter
    rw [if_neg hk] at hafter
    exact hafter
  | _ => exact hafter

/-- A timer made in a clean slot has nothing to account for. -/
theorem kept_clean {signal : Nat} {method : Method} (hlinked : Linked s) (hclean : Clean s k)
    (hstep : Step s (.create signal method, .created k b) s') :
    b < s'.objects.length ∧ ∃ slot : Slot, slot.timer = some b ∧ Kept slot k b 0 0 s' := by
  cases exec_effect hstep with
  | created signal k method slot' hslot hfree =>
    refine ⟨by simp only [length_append, length_singleton]; omega,
      ({ slot' with timer := some s.objects.length, signal := signal } : Slot).setMethod method,
      Slot.setMethod_timer _ method, ?_⟩
    have hlt := (List.getElem?_eq_some_iff.mp hslot).1
    have hnew : (s.objects ++ [⟨k, Timers.timerNew, none⟩])[s.objects.length]? =
        some ⟨k, Timers.timerNew, none⟩ := getElem?_concat_length
    refine ⟨getElem?_set_self hlt, ⟨_, hnew, rfl⟩, ?_, ?_, ?_, hclean.disowned, ?_⟩
    · intro o ho a n hfiring
      rw [hnew] at ho
      rw [← some.inj ho] at hfiring
      cases hfiring
    · intro o ho task htask
      rw [hnew] at ho
      rw [← some.inj ho] at htask
      cases htask
    · intro j o hj ho hk
      -- An armed timer would be the one its slot has, and this slot had none.
      have hlt : j < s.objects.length := by
        have hbound := (List.getElem?_eq_some_iff.mp ho).1
        simp only [length_append, length_singleton] at hbound
        omega
      rw [getElem?_append_left hlt] at ho
      refine ⟨not_eq_true _ ▸ fun hactive => ?_,
        hclean.calm o (mem_of_getElem? ho) hk⟩
      rcases hlinked.armed j o ho hactive with ⟨slot₁, hslot₁, htimer⟩
      rw [hk, hslot] at hslot₁
      rw [← some.inj hslot₁, hfree] at htimer
      cases htimer
    · refine ⟨?_, ?_, fun _ => ?_⟩
      · rw [hclean.unmarked]
        intro e he
        cases he
      · rw [hclean.unmarked]
        exact Nat.zero_le _
      · rw [total, hclean.unmarked]
        rfl

end

/-- For every timer made in a clean slot and every run while it lives: at most
    one queued entry is marked as its own, and the expiries in its entries, queued
    or taken, are those it delivered. -/
theorem timer_conserved {tr₀ tr : List (State × Action × Answer)} {s₀ s₁ s : State}
    {signal k b : Nat} {method : Method} (hbefore : Run Step initial tr₀ s₀)
    (hclean : Clean s₀ k) (hcreate : Step s₀ (.create signal method, .created k b) s₁)
    (hrun : Run Step s₁ tr s) (hlive : s.holds k b) :
    (marked k s.queue).length ≤ 1 ∧
      (delivered b tr < intMax → total k s.queue + taken k tr = delivered b tr) := by
  have hlinked₀ := linked_run hbefore
  rcases kept_clean hlinked₀ hclean hcreate with ⟨hb, slot, htimer, hkept⟩
  have hinv : Linked s ∧ b < s.objects.length ∧
      (s.holds k b → Kept slot k b (delivered b tr) (taken k tr) s) := by
    clear hlive
    induction hrun with
    | nil => exact ⟨linked_step hlinked₀ hcreate, hb, fun _ => hkept⟩
    | snoc u v l tr hrun hstep ih =>
      rcases ih with ⟨hlinked, hexists, hkept⟩
      refine ⟨linked_step hlinked hstep, Nat.lt_of_lt_of_le hexists (objects_le hstep),
        fun hafter => ?_⟩
      have hu := hkept (holds_before hstep hexists hafter)
      have hv := kept_step hu hlinked htimer hstep hafter
      simp only [delivered, taken, map_append, map_cons, map_nil,
        sum_append, sum_cons, sum_nil, Nat.add_zero] at hv ⊢
      exact hv
  have hend := (hinv.2.2 hlive).accounts
  exact ⟨hend.single, hend.sum⟩

/-- A process without timers is clean. -/
theorem clean_initial (k : Nat) : Clean initial k :=
  ⟨fun o ho => (by cases ho), rfl, fun hk => by cases hk⟩

/-- A timer of one second fires twice before its signal is taken and once after
    that. -/
theorem timer_conserved_overrun :
    ∃ s₁ tr s, Clean initial 0 ∧ Step initial (.create 14 .process, .created 0 0) s₁ ∧
      Run Step s₁ tr s ∧ s.holds 0 0 ∧ delivered 0 tr = 3 ∧ taken 0 tr = 2 ∧
      (marked 0 s.queue).length ≤ 1 ∧ total 0 s.queue + taken 0 tr = 3 := by
  have hcomputed : (runList exec (timerCreate initial 14 .process).1
      [.settime 0 ⟨⟨1, 0⟩, ⟨1, 0⟩⟩ ⟨0, 0⟩ true, .thread 0 ⟨1, 0⟩, .thread 0 ⟨1, 0⟩,
        .thread 0 ⟨1, 0⟩, .count 0, .send 0, .thread 0 ⟨2, 0⟩, .thread 0 ⟨2, 0⟩,
        .thread 0 ⟨2, 0⟩, .count 0, .thread 0 ⟨3, 0⟩, .take 0, .thread 0 ⟨3, 0⟩,
        .thread 0 ⟨3, 0⟩, .count 0, .send 0]).map
      (fun r => (decide (r.2.holds 0 0), delivered 0 r.1, taken 0 r.1)) = some (true, 3, 2) := by
    decide +kernel
  rcases map_eq_some_iff.mp hcomputed with ⟨⟨tr, s⟩, htr, hval⟩
  simp only [Prod.mk.injEq, decide_eq_true_eq] at hval
  rcases hval with ⟨hlive, hdelivered, htaken⟩
  have hrun : Run Step _ tr s := run_of_runList _ _ _ _ htr
  have hlaw := timer_conserved Run.nil (clean_initial 0)
    (show Step initial (.create 14 .process, .created 0 0) _ from rfl) hrun hlive
  refine ⟨_, tr, s, clean_initial 0, rfl, hrun, hlive, hdelivered, htaken, hlaw.1, ?_⟩
  rw [← hdelivered]
  exact hlaw.2 (hdelivered ▸ by decide)

/-- A timer is deleted while its callback is on its way, and another is made in
    its slot. The callback's signal and the one the new timer queues are both marked
    as the new timer's, which has delivered one expiry. -/
theorem callback_outlives_timer : ∃ tr₀ s₀ s₁ tr s, Run Step initial tr₀ s₀ ∧
      Step s₀ (.create 14 .process, .created 0 1) s₁ ∧ Run Step s₁ tr s ∧ s.holds 0 1 ∧
      delivered 1 tr = 1 ∧ (marked 0 s.queue).length = 2 ∧
      total 0 s.queue + taken 0 tr = 2 := by
  have hcomputed : (runList exec initial
      [.create 14 .process, .settime 0 ⟨⟨1, 0⟩, ⟨0, 0⟩⟩ ⟨0, 0⟩ true, .thread 0 ⟨1, 0⟩,
        .thread 0 ⟨1, 0⟩, .thread 0 ⟨1, 0⟩, .delete 0, .disown 0]).bind
      (fun r => (runList exec (timerCreate r.2 14 .process).1
        [.settime 0 ⟨⟨1, 0⟩, ⟨0, 0⟩⟩ ⟨1, 0⟩ true, .thread 1 ⟨2, 0⟩, .thread 1 ⟨2, 0⟩,
          .thread 1 ⟨2, 0⟩, .count 0, .count 1, .send 0, .send 1]).map
        (fun q => (decide ((timerCreate r.2 14 .process).2 = .created 0 1),
          decide (q.2.holds 0 1), delivered 1 q.1, (marked 0 q.2.queue).length,
          total 0 q.2.queue + taken 0 q.1))) = some (true, true, 1, 2, 2) := by
    decide +kernel
  rcases bind_eq_some_iff.mp hcomputed with ⟨⟨tr₀, s₀⟩, hfirst, hrest⟩
  rcases map_eq_some_iff.mp hrest with ⟨⟨tr, s⟩, htr, hval⟩
  simp only [Prod.mk.injEq, decide_eq_true_eq] at hval
  rcases hval with ⟨hcreated, hlive, hdelivered, hmarked, htotal⟩
  refine ⟨tr₀, s₀, (timerCreate s₀ 14 .process).1, tr, s, run_of_runList _ _ _ _ hfirst, ?_,
    run_of_runList _ _ _ _ htr, hlive, hdelivered, hmarked, htotal⟩
  exact congrArg some (Prod.ext rfl hcreated)

end IshAok.PosixTimers
