import IshAok.Core.Inotify

/-!
# The Queue of an Inotify Descriptor

At the cap an event is dropped, and the first time a record that tells of the
loss is queued. `overflowed` says that this has been done. It is cleared when
the queue runs empty, not when that record is read, so a reader that takes the
record and leaves others behind it hears of no later loss.

`loss_told` has what the queue promises: its bounds always, and a record of
every loss if no read takes that record without emptying the queue.

## Main definitions

* `Bounded`: The counter, the cap and the one record of a loss.
* `Told`: The flag is set only while the record is queued.
* `Whole`: A buffer that has room for the record of a loss has room for all.

## Theorems

* `exec_posted`: A notification passes its records to the queue one by one.
* `bounded_step`, `told_step`: Each action keeps the two.
* `loss_told`: What a reader hears of losses.
-/

namespace IshAok.Inotify

open Base List

/-! ### Reading -/

/-- The bytes of records in a reader's buffer. -/
def bytes (l : List Record) : Nat :=
  (l.map Record.size).sum

theorem header_le_size (r : Record) : headerSize ≤ r.size :=
  Nat.le_add_right _ _

/-- A read takes records from the front. -/
theorem takeRecords_append (n : Nat) (l : List Record) :
    (takeRecords n l).1 ++ (takeRecords n l).2 = l := by
  induction l generalizing n with
  | nil => rfl
  | cons r rest ih =>
    unfold takeRecords
    split
    · exact congrArg (r :: ·) (ih _)
    · rfl

theorem takeRecords_bytes (n : Nat) (l : List Record) : bytes (takeRecords n l).1 ≤ n := by
  induction l generalizing n with
  | nil => exact Nat.zero_le n
  | cons r rest ih =>
    unfold takeRecords
    split
    · next hroom =>
      have hrest := ih (n - r.size)
      have hsize := hroom.2
      simp only [bytes, map_cons, sum_cons] at hrest ⊢
      omega
    · exact Nat.zero_le n

/-- A buffer with room for all records empties the queue. -/
theorem takeRecords_all {n : Nat} {l : List Record} (h : bytes l ≤ n) :
    (takeRecords n l).2 = [] := by
  induction l generalizing n with
  | nil => rfl
  | cons r rest ih =>
    have hheader := header_le_size r
    simp only [bytes, map_cons, sum_cons] at h
    unfold takeRecords
    rw [if_pos ⟨by omega, by omega⟩]
    exact ih (show bytes rest ≤ n - r.size by simp only [bytes]; omega)

/-! ### What a notification does to the queue -/

/-- The queue is the one before with the answered records passed to it, none of
    which tells of a loss. -/
structure Posted (s : State) (r : State × List Record) : Prop where
  queue : r.1.queue = r.2.foldl queueEvent s.queue
  ordinary : ∀ c ∈ r.2, c.isOverflow = false

section

variable {s : State} (mnt : Nat)

theorem posted_none : Posted s (s, []) :=
  ⟨rfl, fun c hc => by cases hc⟩

variable {s' : State} {mask : UInt32}

/-- Two notifications one after the other. -/
theorem Posted.append {x y : State × List Record} (hx : Posted s x)
    (hsame : s'.queue = x.1.queue) (hy : Posted s' y) : Posted s (y.1, x.2 ++ y.2) := by
  refine ⟨?_, fun c hc => ?_⟩
  · rw [foldl_append, ← hx.queue, ← hsame]
    exact hy.queue
  · rcases mem_append.mp hc with hc | hc
    · exact hx.ordinary c hc
    · exact hy.ordinary c hc

/-- Records passed on one by one, whatever happens to the watches. -/
theorem posted_list {calls : List Record} (hqueue : s'.queue = calls.foldl queueEvent s.queue)
    (hmasks : ∀ c ∈ calls, c.mask ≠ inQOverflow) : Posted s (s', calls) :=
  ⟨hqueue, fun c hc => decide_eq_false (hmasks c hc)⟩

theorem ignored_ordinary : inIgnored ≠ inQOverflow := by
  decide

theorem deliver_posted (watch : Watch) (cookie : UInt32) (name : Text)
    (hmask : mask ≠ inQOverflow) : Posted s (deliver s watch mask cookie name) := by
  unfold deliver
  split
  · refine posted_list rfl fun c hc => ?_
    rcases mem_cons.mp hc with rfl | hc
    · exact hmask
    · rw [mem_singleton.mp hc]
      exact ignored_ordinary
  · refine posted_list rfl fun c hc => ?_
    rw [mem_singleton.mp hc]
    exact hmask

theorem notifyExact_posted (path : Text) (cookie : UInt32)
    (hmask : mask ≠ inQOverflow) : Posted s (notifyExact s mnt path mask cookie) := by
  unfold notifyExact
  split
  · exact posted_none
  split
  · exact posted_none
  · exact deliver_posted _ _ _ hmask

theorem notifyParent_posted (path : Text) (cookie : UInt32)
    (hmask : mask ≠ inQOverflow) : Posted s (notifyParent s mnt path mask cookie) := by
  unfold notifyParent
  split
  · exact posted_none
  split
  · exact posted_none
  split
  · exact posted_none
  · exact deliver_posted _ _ _ hmask

theorem emitIgnored_posted (path : Text) : Posted s (emitIgnored s mnt path) := by
  unfold emitIgnored
  split
  · exact posted_none
  refine posted_list rfl fun c hc => ?_
  rw [mem_singleton.mp hc]
  exact ignored_ordinary

theorem moveSubtree_queue (oldPath newPath : Text) :
    (moveSubtree s mnt oldPath newPath).queue = s.queue := by
  unfold moveSubtree
  split <;> rfl

theorem emitMove_posted (oldPath newPath : Text) (isDir : Bool) (cookie : UInt32) :
    Posted s (emitMove s mnt oldPath newPath isDir cookie) := by
  have hfrom : inMovedFrom ||| dirMask isDir ≠ inQOverflow := by cases isDir <;> decide
  have hto : inMovedTo ||| dirMask isDir ≠ inQOverflow := by cases isDir <;> decide
  have hx : Posted s (notifyParent s mnt oldPath (inMovedFrom ||| dirMask isDir) cookie) :=
    notifyParent_posted mnt oldPath cookie hfrom
  have hxy := hx.append rfl (notifyParent_posted mnt newPath cookie hto)
  unfold emitMove
  dsimp only
  split
  · exact ⟨(moveSubtree_queue ..).trans hxy.queue, hxy.ordinary⟩
  split
  · exact ⟨(moveSubtree_queue ..).trans hxy.queue, hxy.ordinary⟩
  next watch hwatch hself =>
  refine hxy.append (moveSubtree_queue mnt oldPath newPath) (posted_list rfl fun c hc => ?_)
  rw [mem_singleton.mp hc]
  show inMoveSelf ≠ inQOverflow
  decide

/-- Every action that answers with records passed on has passed those on. -/
theorem exec_posted {a : Action} {calls : List Record}
    (h : Step s (a, .told calls) s') : Posted s (s', calls) := by
  have hanswered : ∀ r : State × List Record, answered r = (s', .told calls) → r = (s', calls) := by
    rintro ⟨u, l⟩ hr
    cases hr
    rfl
  cases a with
  | add mnt path mask => cases h
  | remove wd =>
    simp only [Step, exec, rmWatch] at h
    cases hfind : findWatchByWd s wd with
    | none =>
      rw [hfind] at h
      cases h
    | some watch =>
      rw [hfind] at h
      rw [← hanswered _ h]
      refine posted_list rfl fun c hc => ?_
      rw [mem_singleton.mp hc]
      exact ignored_ordinary
  | touch t mnt path =>
    have hmask : t.mask ≠ inQOverflow := by cases t <;> decide
    rw [← hanswered _ h]
    exact (notifyExact_posted mnt path 0 hmask).append rfl (notifyParent_posted mnt path 0 hmask)
  | create isDir mnt path =>
    rw [← hanswered _ h]
    exact notifyParent_posted mnt path 0 (by cases isDir <;> decide)
  | delete pass mnt path =>
    cases pass with
    | parent isDir =>
      rw [← hanswered _ h]
      exact notifyParent_posted mnt path 0 (by cases isDir <;> decide)
    | attrib =>
      rw [← hanswered _ h]
      exact notifyExact_posted mnt path 0 (by decide)
    | self =>
      rw [← hanswered _ h]
      exact notifyExact_posted mnt path 0 (by decide)
    | ignored =>
      rw [← hanswered _ h]
      exact emitIgnored_posted mnt path
  | move mnt oldPath newPath isDir cookie =>
    rw [← hanswered _ h]
    exact emitMove_posted mnt oldPath newPath isDir cookie
  | read bufsize =>
    simp only [Step, exec] at h
    split_ifs at h <;> cases h

/-- What a step does to the queue: it passes records on, reads, or leaves it. -/
inductive QueueStep (q : Queue) : Action × Answer → Queue → Prop
  | posted (a calls) (hordinary : ∀ c ∈ calls, c.isOverflow = false) :
      QueueStep q (a, .told calls) (calls.foldl queueEvent q)
  | read (n) : QueueStep q (.read n, .records (takeRecords n q.events).1) (readRecords q n).1
  | same (a ans) (hcalls : ∀ calls, ans ≠ .told calls) : QueueStep q (a, ans) q

theorem exec_queueStep {l : Action × Answer} (h : Step s l s') : QueueStep s.queue l s'.queue := by
  rcases l with ⟨a, ans⟩
  cases ans with
  | told calls =>
    have hposted := exec_posted h
    rw [hposted.queue]
    exact .posted a calls hposted.ordinary
  | wd wd =>
    cases a with
    | add mnt path mask =>
      have hqueue : (addWatch s mnt path mask).1.queue = s.queue := by
        unfold addWatch
        split <;> rfl
      cases h
      rw [hqueue]
      exact .same _ _ fun calls => by simp
    | remove wd =>
      simp only [Step, exec] at h
      split at h <;> cases h
    | touch | create | move => cases h
    | delete pass => cases pass <;> cases h
    | read n =>
      simp only [Step, exec] at h
      split_ifs at h <;> cases h
  | records l =>
    cases a with
    | read n =>
      simp only [Step, exec] at h
      split_ifs at h
      · cases h
      · cases h
      · cases h
        exact .read n
    | remove wd =>
      simp only [Step, exec] at h
      split at h <;> cases h
    | add | touch | create | move => cases h
    | delete pass => cases pass <;> cases h
  | error e =>
    have hsame : s'.queue = s.queue := by
      cases a with
      | remove wd =>
        simp only [Step, exec] at h
        split at h <;> cases h
        rfl
      | add | touch | create | move => cases h
      | delete pass => cases pass <;> cases h
      | read n =>
        simp only [Step, exec] at h
        split_ifs at h <;> cases h <;> rfl
    rw [hsame]
    exact .same _ _ fun calls => by simp

end

/-! ### Invariants -/

/-- Whether a record that tells of a loss is queued. -/
def Pending (q : Queue) : Prop :=
  ∃ r ∈ q.events, r.isOverflow = true

/-- The counter is right, the queue is within its cap, and at most one record
    tells of a loss. -/
structure Bounded (q : Queue) : Prop where
  counted : q.queued = q.events.length
  cap : q.events.length ≤ maxQueuedEvents + 1
  fresh : q.overflowed = false →
    q.events.length ≤ maxQueuedEvents ∧ ∀ r ∈ q.events, r.isOverflow = false
  single : (q.events.filter Record.isOverflow).length ≤ 1

/-- The flag is set only while the record of a loss is queued. -/
def Told (q : Queue) : Prop :=
  q.overflowed = true → Pending q

/-- A buffer that has room up to the record of a loss has room for all. -/
def Whole (q : Queue) (bufsize : Nat) : Prop :=
  ∀ l r l', q.events = l ++ r :: l' → r.isOverflow = true → bytes (l ++ [r]) ≤ bufsize →
    bytes q.events ≤ bufsize

/-- No read takes the record of a loss and leaves others. -/
def ReadsWhole (s : State) : Action → Prop
  | .read bufsize => Whole s.queue bufsize
  | _ => True

section

variable {q : Queue}

theorem filter_ordinary {l : List Record} (h : ∀ r ∈ l, r.isOverflow = false) :
    l.filter Record.isOverflow = [] :=
  filter_eq_nil_iff.mpr fun r hr => by
    rw [h r hr]
    exact Bool.false_ne_true

theorem bounded_event {r : Record} (h : Bounded q) (hr : r.isOverflow = false) :
    Bounded (queueEvent q r) := by
  have hcounted := h.counted
  unfold queueEvent
  split
  · next hfull =>
    split
    · exact h
    next hfirst =>
    -- The queue is at its cap and has no such record, so one more fits.
    rcases h.fresh (Bool.not_eq_true _ ▸ hfirst) with ⟨hcap, hnone⟩
    refine ⟨?_, ?_, fun hover => (by cases hover), ?_⟩
    · show q.queued + 1 = (q.events ++ [overflowRecord]).length
      rw [hcounted, length_append, length_singleton]
    · show (q.events ++ [overflowRecord]).length ≤ _
      rw [length_append, length_singleton]
      omega
    · show ((q.events ++ [overflowRecord]).filter Record.isOverflow).length ≤ 1
      rw [filter_append, filter_ordinary hnone]
      decide
  · next hroom =>
    refine ⟨?_, ?_, fun hover => ⟨?_, fun x hx => ?_⟩, ?_⟩
    · show q.queued + 1 = (q.events ++ [r]).length
      rw [hcounted, length_append, length_singleton]
    · show (q.events ++ [r]).length ≤ _
      rw [length_append, length_singleton]
      omega
    · show (q.events ++ [r]).length ≤ _
      rw [length_append, length_singleton]
      omega
    · rcases mem_append.mp hx with hx | hx
      · exact (h.fresh hover).2 x hx
      · rw [mem_singleton.mp hx]
        exact hr
    · show ((q.events ++ [r]).filter Record.isOverflow).length ≤ 1
      rw [filter_append, filter_ordinary (l := [r]) (by simpa using hr), append_nil]
      exact h.single

/-- A queued record stays until it is read. -/
theorem queueEvent_subset (q : Queue) (r : Record) : q.events ⊆ (queueEvent q r).events := by
  unfold queueEvent
  split
  · split
    · exact List.Subset.refl _
    · exact subset_append_left _ _
  · exact subset_append_left _ _

theorem Pending.event (h : Pending q) (r : Record) : Pending (queueEvent q r) := by
  rcases h with ⟨x, hx, hover⟩
  exact ⟨x, queueEvent_subset q r hx, hover⟩

theorem Pending.events (h : Pending q) (calls : List Record) :
    Pending (calls.foldl queueEvent q) := by
  induction calls generalizing q with
  | nil => exact h
  | cons r rest ih => exact ih (h.event r)

/-- At the cap a record of the loss is queued already, or is now. -/
theorem told_full (h : Told q) (hfull : maxQueuedEvents ≤ q.queued) (r : Record) :
    Pending (queueEvent q r) := by
  unfold queueEvent
  rw [if_pos hfull]
  split
  · next hover => exact h hover
  · exact ⟨overflowRecord, mem_append_right _ (mem_singleton.mpr rfl), rfl⟩

theorem told_event (h : Told q) (r : Record) : Told (queueEvent q r) := by
  by_cases hfull : maxQueuedEvents ≤ q.queued
  · exact fun _ => told_full h hfull r
  intro hover
  unfold queueEvent at hover
  rw [if_neg hfull] at hover
  exact (h hover).event r

theorem bounded_events {calls : List Record} (h : Bounded q)
    (hcalls : ∀ c ∈ calls, c.isOverflow = false) : Bounded (calls.foldl queueEvent q) := by
  induction calls generalizing q with
  | nil => exact h
  | cons r rest ih =>
    exact ih (bounded_event h (hcalls r mem_cons_self))
      fun c hc => hcalls c (mem_cons_of_mem _ hc)

theorem told_events (h : Told q) (calls : List Record) : Told (calls.foldl queueEvent q) := by
  induction calls generalizing q with
  | nil => exact h
  | cons r rest ih => exact ih (told_event h r)

theorem bounded_read (h : Bounded q) (n : Nat) : Bounded (readRecords q n).1 := by
  have hsplit := takeRecords_append n q.events
  have hlength := congrArg List.length hsplit
  rw [length_append] at hlength
  have hsub : (takeRecords n q.events).2.Sublist q.events := by
    conv => rhs; rw [← hsplit]
    exact sublist_append_right _ _
  have hcounted := h.counted
  have hcap := h.cap
  refine ⟨?_, ?_, fun hover => ?_, ?_⟩
  · show q.queued - (takeRecords n q.events).1.length = (takeRecords n q.events).2.length
    omega
  · show (takeRecords n q.events).2.length ≤ _
    omega
  · show (takeRecords n q.events).2.length ≤ _ ∧ ∀ r ∈ (takeRecords n q.events).2, _
    by_cases hempty : (takeRecords n q.events).2 = []
    · rw [hempty]
      exact ⟨Nat.zero_le _, fun r hr => by cases hr⟩
    rcases h.fresh ((if_neg hempty).symm.trans hover) with ⟨hroom, hnone⟩
    exact ⟨by omega, fun r hr => hnone r (hsub.subset hr)⟩
  · exact Nat.le_trans (hsub.filter _).length_le h.single

theorem told_read (h : Told q) {n : Nat} (hwhole : Whole q n) : Told (readRecords q n).1 := by
  have hsplit := takeRecords_append n q.events
  intro hover
  by_cases hempty : (takeRecords n q.events).2 = []
  · exact absurd ((if_pos hempty).symm.trans hover) Bool.false_ne_true
  rcases h ((if_neg hempty).symm.trans hover) with ⟨r, hr, hloss⟩
  rw [← hsplit] at hr
  rcases mem_append.mp hr with hr | hr
  · -- It has been read, so there was room for all that is queued.
    rcases append_of_mem hr with ⟨l, l', htaken⟩
    have hevents := hsplit.symm
    rw [htaken, append_assoc, cons_append] at hevents
    have hroom := takeRecords_bytes n q.events
    rw [htaken] at hroom
    have hfits : bytes (l ++ [r]) ≤ n := by
      simp only [bytes, map_append, map_cons, map_nil, sum_append,
        sum_cons, sum_nil] at hroom ⊢
      omega
    exact absurd (takeRecords_all (hwhole _ _ _ hevents hloss hfits)) hempty
  · exact ⟨r, hr, hloss⟩

end

/-! ### Runs -/

section

variable {s s' : State} {l : Action × Answer}

theorem bounded_step (h : Bounded s.queue) (hstep : Step s l s') : Bounded s'.queue := by
  have hqueue := exec_queueStep hstep
  generalize s.queue = q at h hqueue
  generalize s'.queue = q' at hqueue ⊢
  cases hqueue with
  | posted a calls hordinary => exact bounded_events h hordinary
  | read n => exact bounded_read h n
  | same a ans => exact h

theorem told_step (h : Told s.queue) (hread : ReadsWhole s l.1) (hstep : Step s l s') :
    Told s'.queue := by
  have hqueue := exec_queueStep hstep
  unfold ReadsWhole at hread
  generalize s.queue = q at h hqueue hread
  generalize s'.queue = q' at hqueue ⊢
  cases hqueue with
  | posted a calls hordinary => exact told_events h calls
  | read n => exact told_read h hread
  | same a ans => exact h

/-- Whether a read has taken a record of a loss. -/
def hears (l : Action × Answer) : Prop :=
  ∃ records, l.2 = .records records ∧ ∃ r ∈ records, r.isOverflow = true

/-- A pending record stays pending until a read takes it. -/
theorem pending_step (h : Pending s.queue) (hstep : Step s l s') : Pending s'.queue ∨ hears l := by
  have hqueue := exec_queueStep hstep
  generalize s.queue = q at h hqueue
  generalize s'.queue = q' at hqueue ⊢
  cases hqueue with
  | posted a calls hordinary => exact .inl (h.events calls)
  | read n =>
    rcases h with ⟨r, hr, hloss⟩
    rw [← takeRecords_append n q.events] at hr
    rcases mem_append.mp hr with hr | hr
    · exact .inr ⟨_, rfl, r, hr, hloss⟩
    · exact .inl ⟨r, hr, hloss⟩
  | same a ans => exact .inl h

theorem pending_run {tr : List (State × Action × Answer)} (h : Pending s.queue)
    (hrun : Run Step s tr s') : Pending s'.queue ∨ ∃ p ∈ tr, hears p.2 := by
  induction hrun with
  | nil => exact .inl h
  | snoc u v l tr hrun hstep ih =>
    rcases ih with hpending | ⟨p, hp, hheard⟩
    · rcases pending_step hpending hstep with hpending | hheard
      · exact .inl hpending
      · exact .inr ⟨(u, l), mem_append_right _ (mem_singleton.mpr rfl), hheard⟩
    · exact .inr ⟨p, mem_append_left _ hp, hheard⟩

end

/-- For every run of a descriptor: its queue is within its bounds. If no read
    takes the record of a loss and leaves others queued, then whenever a record is
    passed on at the cap a record of the loss is queued afterwards, and a reader
    that goes on to empty the queue reads it. -/
theorem loss_told {tr : List (State × Action × Answer)} {s : State} (hrun : Run Step initial tr s) :
    (s.queue.events.length ≤ maxQueuedEvents + 1 ∧
      (s.queue.events.filter Record.isOverflow).length ≤ 1) ∧
    ((∀ p ∈ tr, ReadsWhole p.1 p.2.1) →
      ∀ a calls s', Step s (a, .told calls) s' → ∀ l r l', calls = l ++ r :: l' →
        maxQueuedEvents ≤ (l.foldl queueEvent s.queue).queued →
        Pending (queueEvent (l.foldl queueEvent s.queue) r) ∧
          ∀ tr' w, Run Step s' tr' w → w.queue.events = [] → ∃ p ∈ tr', hears p.2) := by
  have hbounded : Bounded s.queue :=
    run_invariant (fun s => Bounded s.queue) hrun
      ⟨rfl, Nat.zero_le _, fun _ => ⟨Nat.zero_le _, fun r hr => by cases hr⟩, Nat.zero_le _⟩
      fun _ _ _ _ h hstep => bounded_step h hstep
  refine ⟨⟨hbounded.cap, hbounded.single⟩, fun hreads a calls s' hstep l r l' hcalls hfull => ?_⟩
  have htold : Told s.queue :=
    run_invariant (fun s => Told s.queue) hrun (fun hover => by cases hover)
      fun _ _ _ hmem h hstep => told_step h (hreads _ hmem) hstep
  have hpending := told_full (told_events htold l) hfull r
  refine ⟨hpending, fun tr' w hrest hempty => ?_⟩
  -- The record outlasts the rest of the notification.
  have hafter : Pending s'.queue := by
    rw [(exec_posted hstep).queue, hcalls, foldl_append]
    exact hpending.events l'
  rcases pending_run hafter hrest with ⟨x, hx, -⟩ | hheard
  · rw [hempty] at hx
    cases hx
  · exact hheard

/-! ### A file that is modified again and again -/

/-- The record of a modification of the watched file. -/
def modified : Record :=
  ⟨1, inModify, 0, []⟩

/-- A descriptor with one watch, on the modifications of a file. -/
def watching (q : Queue) : State :=
  { nextWd := 2, watches := [⟨1, inModify, 0, ['/', 'f']⟩], queue := q }

theorem watching_add :
    Step initial (.add 0 ['/', 'f'] inModify, .wd 1) (watching ⟨[], 0, false⟩) := by
  unfold Step
  decide

theorem watching_touch (q : Queue) :
    Step (watching q) (.touch .modify 0 ['/', 'f'], .told [modified])
      (watching (queueEvent q modified)) :=
  rfl

/-- Modifications below the cap are queued. -/
theorem watching_touches (l : List Record) (n k : Nat) (b : Bool)
    (hroom : n + k ≤ maxQueuedEvents) :
    ∃ tr, Run Step (watching ⟨l, n, b⟩) tr (watching ⟨l ++ List.replicate k modified, n + k, b⟩) ∧
      ∀ p ∈ tr, p.2.1 = .touch .modify 0 ['/', 'f'] := by
  induction k with
  | zero =>
    refine ⟨[], ?_, fun p hp => by cases hp⟩
    rw [replicate_zero, append_nil]
    exact Run.nil
  | succ k ih =>
    rcases ih (by omega) with ⟨tr, hrun, htouch⟩
    have hstep := watching_touch ⟨l ++ List.replicate k modified, n + k, b⟩
    have hqueue : queueEvent ⟨l ++ List.replicate k modified, n + k, b⟩ modified =
        ⟨l ++ List.replicate (k + 1) modified, n + (k + 1), b⟩ := by
      unfold queueEvent
      rw [if_neg (show ¬n + k ≥ maxQueuedEvents by omega), replicate_succ',
        ← append_assoc]
      rfl
    rw [hqueue] at hstep
    refine ⟨_, Run.snoc _ _ _ tr hrun hstep, fun p hp => ?_⟩
    rcases mem_append.mp hp with hp | hp
    · exact htouch p hp
    · rw [mem_singleton.mp hp]

/-- A read with room for so many modifications, and some more room. -/
theorem takeRecords_modified (k m : Nat) (l : List Record) :
    takeRecords (16 * k + m) (List.replicate k modified ++ l) =
      (List.replicate k modified ++ (takeRecords m l).1, (takeRecords m l).2) := by
  induction k with
  | zero =>
    rw [Nat.mul_zero, Nat.zero_add]
    rfl
  | succ k ih =>
    have hsize : modified.size = 16 := by decide
    rw [replicate_succ, cons_append, takeRecords, hsize,
      if_pos ⟨by rw [headerSize]; omega, by omega⟩,
      show 16 * (k + 1) + m - 16 = 16 * k + m by omega, ih]
    rfl

/-- A queue that is full hears of its first loss. -/
theorem loss_told_first :
    ∃ tr s s', Run Step initial tr s ∧ (∀ p ∈ tr, ReadsWhole p.1 p.2.1) ∧
      Step s (.touch .modify 0 ['/', 'f'], .told [modified]) s' ∧
      s.queue.queued = maxQueuedEvents ∧ Pending s'.queue ∧
      ∀ tr' w, Run Step s' tr' w → w.queue.events = [] → ∃ p ∈ tr', hears p.2 := by
  rcases watching_touches [] 0 maxQueuedEvents false (by omega) with ⟨tr, hrun, htouch⟩
  have hadd := Run.snoc _ _ _ [] Run.nil watching_add
  have hall := run_append hadd hrun
  have hreads : ∀ p ∈ [(initial, (Action.add 0 ['/', 'f'] inModify, Answer.wd 1))] ++ tr,
      ReadsWhole p.1 p.2.1 := by
    intro p hp
    rcases mem_append.mp hp with hp | hp
    · rw [mem_singleton.mp hp]
      exact True.intro
    · rw [htouch p hp]
      exact True.intro
  have hstep := watching_touch ⟨[] ++ List.replicate maxQueuedEvents modified,
    0 + maxQueuedEvents, false⟩
  have htold := (loss_told hall).2 hreads _ _ _ hstep [] modified [] rfl (Nat.le_refl _)
  exact ⟨_, _, _, hall, hreads, hstep, Nat.zero_add _, htold.1, htold.2⟩

theorem takeRecords_zero (l : List Record) : takeRecords 0 l = ([], l) := by
  cases l with
  | nil => rfl
  | cons r rest => exact if_neg fun h => absurd h.1 (by decide)

/-- A read of the descriptor, with what it takes and what it leaves. -/
theorem watching_read {q : Queue} {n : Nat} {taken left : List Record} (hn : headerSize ≤ n)
    (htake : takeRecords n q.events = (taken, left)) (hempty : q.events ≠ [])
    (hleft : left ≠ []) :
    Step (watching q) (.read n, .records taken)
      (watching ⟨left, q.queued - taken.length, q.overflowed⟩) := by
  have hread : readRecords q n = (⟨left, q.queued - taken.length, q.overflowed⟩, taken) := by
    unfold readRecords
    rw [htake]
    dsimp only
    rw [if_neg hleft]
  unfold Step exec
  dsimp only
  rw [if_neg (by omega), if_neg (show (watching q).queue.events ≠ [] from hempty),
    show (watching q).queue = q from rfl, hread]
  rfl

/-- A read takes the record of a loss and leaves one behind it. The queue fills
    up again, and of the next loss there is no record. -/
theorem second_loss_untold : ∃ tr s s', Run Step initial tr s ∧
      Step s (.touch .modify 0 ['/', 'f'], .told [modified]) s' ∧
      maxQueuedEvents ≤ s.queue.queued ∧ ¬Pending s'.queue := by
  rcases (⟨16382, rfl⟩ : ∃ k, maxQueuedEvents = k + 2) with ⟨k, hk⟩
  -- The queue is filled, and one more modification is lost.
  rcases watching_touches [] 0 (k + 2) false (by omega) with ⟨tr₁, hrun₁, -⟩
  rw [nil_append, Nat.zero_add] at hrun₁
  have hlost := watching_touch ⟨List.replicate (k + 2) modified, k + 2, false⟩
  rw [queueEvent, if_pos (show k + 2 ≥ maxQueuedEvents by omega),
    if_neg Bool.false_ne_true] at hlost
  -- Two records are read, and one comes behind that of the loss.
  have htake : takeRecords 32 (List.replicate (k + 2) modified ++ [overflowRecord]) =
      ([modified, modified], List.replicate k modified ++ [overflowRecord]) := by
    have hsplit : List.replicate (k + 2) modified ++ [overflowRecord] =
        List.replicate 2 modified ++ (List.replicate k modified ++ [overflowRecord]) := by
      rw [← append_assoc, replicate_append_replicate, Nat.add_comm]
    rw [hsplit, show 32 = 16 * 2 + 0 from rfl, takeRecords_modified, takeRecords_zero]
    rfl
  have hread₁ := watching_read (q := ⟨_, k + 2 + 1, true⟩) (by decide) htake (by simp) (by simp)
  have htouch := watching_touch ⟨List.replicate k modified ++ [overflowRecord], k + 1, true⟩
  rw [queueEvent, if_neg (show ¬k + 1 ≥ maxQueuedEvents by omega)] at htouch
  -- The next read takes all but that one.
  have htake' : takeRecords (16 * k + 16)
      (List.replicate k modified ++ [overflowRecord] ++ [modified]) =
      (List.replicate k modified ++ [overflowRecord], [modified]) := by
    rw [append_assoc, takeRecords_modified]
    rfl
  have hread₂ := watching_read (q := ⟨_, k + 1 + 1, true⟩)
    (show 16 ≤ 16 * k + 16 by omega) htake' (by simp) (by simp)
  have hcount : k + 1 + 1 - (List.replicate k modified ++ [overflowRecord]).length = 1 := by
    rw [length_append, length_replicate, length_singleton]
    omega
  rw [show (⟨List.replicate k modified ++ [overflowRecord] ++ [modified], k + 1 + 1, true⟩ :
    Queue).queued = k + 1 + 1 from rfl, hcount] at hread₂
  -- The queue is filled again with the flag still set.
  rcases watching_touches [modified] 1 (k + 1) true (by omega) with ⟨tr₂, hrun₂, -⟩
  have hfull : queueEvent ⟨[modified] ++ List.replicate (k + 1) modified, 1 + (k + 1), true⟩
      modified = ⟨[modified] ++ List.replicate (k + 1) modified, 1 + (k + 1), true⟩ :=
    (if_pos (show 1 + (k + 1) ≥ maxQueuedEvents by omega)).trans (if_pos rfl)
  have hlast := watching_touch ⟨[modified] ++ List.replicate (k + 1) modified, 1 + (k + 1), true⟩
  rw [hfull] at hlast
  have hstart := run_append (Run.snoc _ _ _ [] Run.nil watching_add) hrun₁
  have hmiddle := Run.snoc _ _ _ _ (Run.snoc _ _ _ _ (Run.snoc _ _ _ _ (hstart.next _
    hlost) hread₁) htouch) hread₂
  refine ⟨_, _, _, run_append hmiddle hrun₂, hlast, by show _ ≤ 1 + (k + 1); omega, ?_⟩
  rintro ⟨r, hr, hloss⟩
  have hmodified : r = modified := by
    rcases mem_append.mp hr with hr | hr
    · exact mem_singleton.mp hr
    · exact eq_of_mem_replicate hr
  rw [hmodified] at hloss
  cases hloss

end IshAok.Inotify
