import IshAok.Base.Table
import IshAok.Base.Tally
import IshAok.Theory.PosixMq.Step

/-!
# The Invariant of a Queue

The counters of a queue are what its list says, and the list is sorted. Its references
are its name and its open descriptions, and a task that sleeps does so in a description
that is open. The count of receivers is the number of tasks that sleep in a receive,
since a receive that does not sleep counts itself in and out in one step.

The three parts are kept separately, each by every change. So they hold in every run.

## Main definitions

* `Ok`: What holds of a queue by itself.
* `Refs`: The references of a queue and who holds them.
* `Inv`: The invariant.

## Theorems

* `change_queueOk`, `change_waiting`, `change_refs`: The parts are kept.
* `ok_run`: The counters and the order are right in every run.
* `inv_initial`, `inv_step`, `inv_run`: The invariant holds in every run.
-/

namespace IshAok.PosixMq

open Base List Option

variable {T P : Type}

section Invariant

/-- What holds of a queue by itself. -/
structure Ok (q : Mqueue P) : Prop where
  curmsgs : q.curmsgs = q.msgs.length
  qsize : q.qsize = (q.msgs.map MqMsg.len).sum
  room : q.curmsgs ≤ q.maxmsg
  sorted : Descending MqMsg.prio q.msgs

/-- Whether a task is inside a receive. -/
def receives : Phase → Nat
  | .receiving _ => 1
  | _ => 0

/-- The open descriptions. -/
def State.ids (s : State T P) : List Nat := s.files.map MqFile.id

/-- The references of a queue and who holds them. -/
structure Refs (s : State T P) : Prop where
  refs : ∀ q, s.queue = some q → q.refs = q.linked.toNat + s.ids.length ∧ 0 < q.refs
  freed : s.queue = none → s.ids = []
  nodup : s.ids.Nodup
  fresh : ∀ id ∈ s.ids, id < s.nextFile
  held : ∀ t id, (s.tasks t).file = some id → id ∈ s.ids

/-- The invariant. -/
structure Inv [Fintype T] (s : State T P) : Prop where
  ok : ∀ q, s.queue = some q → Ok q
  waiting : ∀ q, s.queue = some q → q.receiversWaiting = tally receives s.tasks
  refs : Refs s

theorem mqRelease_some {q q' : Mqueue P} (h : mqRelease q = some q') :
    q' = { q with refs := q.refs - 1 } ∧ q.refs ≠ 1 := by
  unfold mqRelease at h
  split at h
  · cases h
  · next hne => exact ⟨(some.inj h).symm, hne⟩

theorem mqRelease_none {q : Mqueue P} (h : mqRelease q = none) : q.refs = 1 := by
  unfold mqRelease at h
  split at h
  · next heq => exact heq
  · cases h

/-- Besides the message, a send changes only the registration. -/
theorem enqueue_queue (q : Mqueue P) (msg : MqMsg) :
    (enqueue q msg).1 = { putMsg q msg with notify := (enqueue q msg).1.notify } := by
  unfold enqueue
  split
  · rw [take_notify]
  · rfl

/-- A queue stays right while its messages and their counters stay. -/
theorem ok_same {q q' : Mqueue P} (h : Ok q) (hmsgs : q'.msgs = q.msgs)
    (hcur : q'.curmsgs = q.curmsgs) (hsize : q'.qsize = q.qsize) (hmax : q'.maxmsg = q.maxmsg) :
    Ok q' :=
  ⟨by rw [hmsgs, hcur, h.curmsgs], by rw [hmsgs, hsize, h.qsize], by rw [hcur, hmax]; exact h.room,
    by rw [hmsgs]; exact h.sorted⟩

/-- A send keeps a queue right. -/
theorem ok_enqueue {q : Mqueue P} (h : Ok q) (msg : MqMsg) (hroom : q.curmsgs < q.maxmsg) :
    Ok (enqueue q msg).1 := by
  have hput : Ok (putMsg q msg) :=
    { curmsgs := by
        change q.curmsgs + 1 = (insertMsg msg q.msgs).length
        rw [insertMsg, insertBehind_length, h.curmsgs]
      qsize := by
        change q.qsize + msg.len = ((insertMsg msg q.msgs).map MqMsg.len).sum
        rw [insertMsg, insertBehind_sum, h.qsize]
      room := hroom
      sorted := sorted_insertBehind MqMsg.prio msg h.sorted }
  rw [enqueue_queue]
  exact ok_same hput rfl rfl rfl rfl

variable {s : State T P}

/-- A reference is dropped: of the name, or of a description that is closed. -/
theorem refs_release (h : Refs s) {q q' : Mqueue P} {files : List MqFile}
    (hq : s.queue = some q) (hrefs : q'.refs = q.refs)
    (hcount : q.linked.toNat + s.ids.length = q'.linked.toNat + (files.map MqFile.id).length + 1)
    (hsub : (files.map MqFile.id).Sublist s.ids)
    (hheld : ∀ t id, (s.tasks t).file = some id → id ∈ files.map MqFile.id) :
    Refs { s with queue := mqRelease q', files := files } := by
  rcases h.refs q hq with ⟨heq, _⟩
  refine
    { refs := ?_, freed := ?_, nodup := h.nodup.sublist hsub,
      fresh := fun id hid => h.fresh id (hsub.subset hid), held := hheld }
  · intro x hx
    rcases mqRelease_some hx with ⟨rfl, hne⟩
    change q'.refs - 1 = q'.linked.toNat + (files.map MqFile.id).length ∧ 0 < q'.refs - 1
    omega
  · intro hnone
    have hone := mqRelease_none hnone
    refine eq_nil_of_length_eq_zero ?_
    change (files.map MqFile.id).length = 0
    omega

/-- A new queue is empty, and its name is its only reference. -/
theorem mqCreateLocked_empty {ns : Limits} {capable : Bool} {attr : Option (Int × Int)}
    {charge : Option Errno} {malloc : Bool} {q : Mqueue P}
    (hcreate : mqCreateLocked ns capable attr charge malloc = .ok q) :
    q.msgs = [] ∧ q.curmsgs = 0 ∧ q.qsize = 0 ∧ q.receiversWaiting = 0 ∧ q.refs = 1 ∧
      q.linked = true := by
  unfold mqCreateLocked at hcreate
  split at hcreate
  · cases hcreate
  split at hcreate
  next maxmsg msgsize _ =>
  split at hcreate
  · cases hcreate
  split at hcreate
  · cases hcreate
  split at hcreate
  · cases hcreate
  split at hcreate
  · cases hcreate
  split at hcreate
  · cases hcreate
  cases hcreate
  exact ⟨rfl, rfl, rfl, rfl, rfl, rfl⟩

theorem ok_initial (h : Initial s) : ∀ q, s.queue = some q → Ok q := by
  rcases h.queue with ⟨ns, capable, attr, charge, malloc, q, hcreate, hq⟩
  rcases mqCreateLocked_empty hcreate with ⟨hmsgs, hcur, hsize, _⟩
  intro x hx
  rw [hq] at hx
  cases hx
  refine ⟨by rw [hcur, hmsgs]; rfl, by rw [hsize, hmsgs]; rfl, ?_, ?_⟩
  · rw [hcur]
    exact Nat.zero_le _
  · rw [hmsgs]
    exact List.Pairwise.nil

variable [DecidableEq T] {tgid : T → P}

theorem change_queueOk (h : ∀ q, s.queue = some q → Ok q) {u : State T P}
    {e : Action T × Option (Result P)} (hc : Change tgid s e u) :
    ∀ q, u.queue = some q → Ok q := by
  intro q' hq'
  cases hc with
  | quiet | sendSlept | sendLeft => exact h q' hq'
  | sent a t msg q ha hq hroom =>
    cases hq'
    exact ok_enqueue (h q hq) msg hroom
  | receiveSlept _ _ _ q _ hq | receiveLeft _ _ q _ _ hq | registered _ q _ hq
  | withdrew _ q _ hq | opened _ q _ hq =>
    cases hq'
    exact ok_same (h q hq) rfl rfl rfl rfl
  | taken a t q msg msgs r ha hq hmsgs hsome hr =>
    cases hq'
    have hok := h q hq
    have hcur : q.curmsgs = msgs.length + 1 := by rw [hok.curmsgs, hmsgs, length_cons]
    have hsize : q.qsize = msg.len + (msgs.map MqMsg.len).sum := by
      rw [hok.qsize, hmsgs, map_cons, sum_cons]
    have hroom := hok.room
    have hsorted := hok.sorted
    rw [hmsgs] at hsorted
    refine ⟨?_, ?_, ?_, (pairwise_cons.mp hsorted).2⟩
    · change q.curmsgs - 1 = msgs.length
      omega
    · change q.qsize - msg.len = (msgs.map MqMsg.len).sum
      omega
    · change q.curmsgs - 1 ≤ q.maxmsg
      omega
  | unlinked _ q hq | closed _ _ q _ hq =>
    rw [(mqRelease_some hq').1]
    exact ok_same (h q hq) rfl rfl rfl rfl

omit [DecidableEq T] in
theorem mem_ids {id : Nat} (h : (s.getFile id).isSome) : id ∈ s.ids := by
  rcases isSome_iff_exists.mp h with ⟨file, hfile⟩
  refine mem_map.mpr ⟨file, mem_of_find?_eq_some hfile, ?_⟩
  exact find_ident hfile

/-- A task moves, to sleep in a description that is open or out of its sleep. -/
theorem held_setPhase (h : Refs s) {t : T} {phase : Phase}
    (hphase : ∀ id, phase.file = some id → id ∈ s.ids) :
    ∀ u id, (Function.update s.tasks t phase u).file = some id → id ∈ s.ids := by
  intro u id hid
  by_cases hut : u = t
  · rw [hut, Function.update_self] at hid
    exact hphase id hid
  rw [Function.update_of_ne hut] at hid
  exact h.held u id hid

/-- The references are kept by a change of the queue that leaves them alone. -/
theorem refs_same (h : Refs s) {q q' : Mqueue P} {t : T} {phase : Phase}
    (hq : s.queue = some q) (hrefs : q'.refs = q.refs) (hlinked : q'.linked = q.linked)
    (hphase : ∀ id, phase.file = some id → id ∈ s.ids) :
    Refs ({ s with queue := some q' }.setPhase t phase) :=
  { refs := by
      intro x hx
      rw [← some.inj hx, hrefs, hlinked]
      exact h.refs q hq
    freed := fun hnone => nomatch hnone
    nodup := h.nodup
    fresh := h.fresh
    held := held_setPhase h hphase }

theorem change_refs (h : Refs s) {u : State T P} {e : Action T × Option (Result P)}
    (hc : Change tgid s e u) : Refs u := by
  have hrunning : ∀ id, Phase.running.file = some id → id ∈ s.ids := fun id hid =>
    nomatch hid
  cases hc with
  | quiet a r files hids hr =>
    have hsame : (State.ids { s with files := files }) = s.ids := hids
    exact
      { refs := fun q hq => by rw [hsame]; exact h.refs q hq
        freed := fun hnone => by rw [hsame]; exact h.freed hnone
        nodup := by rw [hsame]; exact h.nodup
        fresh := fun id hid => h.fresh id (by rw [← hsame]; exact hid)
        held := fun t id hid => by rw [hsame]; exact h.held t id hid }
  | sendSlept a t w q ha hq hfile =>
    have hfiles : ∀ id, (Phase.sending w).file = some id → id ∈ s.ids := by
      intro id hid
      cases hid
      exact mem_ids hfile
    exact
      { h with held := held_setPhase h hfiles }
  | sendLeft a t e ha =>
    exact
      { h with held := held_setPhase h hrunning }
  | sent a t msg q ha hq hroom =>
    rw [enqueue_queue]
    exact refs_same h hq rfl rfl hrunning
  | receiveSlept a t w q ha hq hempty hfile =>
    refine refs_same h hq rfl rfl fun id hid => ?_
    cases hid
    exact mem_ids hfile
  | receiveLeft _ _ _ _ _ hq | taken _ _ _ _ _ _ _ hq =>
    exact refs_same h hq rfl rfl hrunning
  | registered _ q _ hq | withdrew _ q _ hq =>
    exact
      { h with
        refs := fun x hx => by cases hx; exact h.refs q hq
        freed := fun hx => nomatch hx }
  | opened a q file hq hid ha =>
    have hids : State.ids { s with files := s.files ++ [file] } = s.ids ++ [s.nextFile] := by
      unfold State.ids
      rw [map_append, ← hid]
      rfl
    rcases h.refs q hq with ⟨heq, hpos⟩
    refine { refs := ?_, freed := ?_, nodup := ?_, fresh := ?_, held := ?_ }
    · intro x hx
      cases hx
      change q.refs + 1 = q.linked.toNat + (State.ids { s with files := s.files ++ [file] }).length
        ∧ 0 < q.refs + 1
      rw [hids, length_append, heq]
      exact ⟨rfl, Nat.succ_pos _⟩
    · intro hx
      cases hx
    · change (State.ids { s with files := s.files ++ [file] }).Nodup
      rw [hids]
      refine nodup_append.mpr ⟨h.nodup, nodup_singleton _, fun x hx y hy => ?_⟩
      rw [mem_singleton.mp hy]
      exact (h.fresh x hx).ne
    · intro id hmem
      change id ∈ State.ids { s with files := s.files ++ [file] } at hmem
      rw [hids] at hmem
      change id < s.nextFile + 1
      rcases mem_append.mp hmem with hmem | hmem
      · have hlt := h.fresh id hmem
        omega
      · rw [mem_singleton.mp hmem]
        omega
    · intro t id hheld
      change id ∈ State.ids { s with files := s.files ++ [file] }
      rw [hids]
      exact mem_append_left _ (h.held t id hheld)
  | unlinked a q hq hlinked ha =>
    refine refs_release h hq rfl ?_ (List.Sublist.refl _) h.held
    rw [hlinked]
    change 1 + s.ids.length = 0 + s.ids.length + 1
    omega
  | closed t id q notify hq hfile hheld hnotify =>
    have herase : (s.files.filter (fun file => file.id ≠ id)).map MqFile.id = s.ids.erase id :=
      map_remove MqFile.id h.nodup id
    have hmem : id ∈ s.ids := by
      rcases hfile with ⟨file, hfile, rfl⟩
      exact mem_map_of_mem hfile
    have hpos := length_pos_of_mem hmem
    refine refs_release h hq rfl ?_ ?_ ?_
    · rw [herase, length_erase_of_mem hmem]
      change q.linked.toNat + s.ids.length = q.linked.toNat + (s.ids.length - 1) + 1
      omega
    · rw [herase]
      exact erase_sublist
    · intro u k hk
      rw [herase]
      have hne : k ≠ id := by
        intro heq
        rw [heq] at hk
        exact hheld u hk
      exact (mem_erase_of_ne hne).mpr (h.held u k hk)

variable [Fintype T]

omit [DecidableEq T] in
theorem counted_eq (t : T) (q : Mqueue P) (h : q.receiversWaiting = tally receives s.tasks) :
    counted s t q + receives (s.tasks t) = tally receives s.tasks + 1 := by
  unfold counted receives
  rw [h]
  cases s.tasks t with
  | running | sending | receiving => rfl

/-- A task that is not inside a receive, before or after, does not change the count. -/
theorem tally_setPhase {t : T} {phase : Phase} (hold : receives (s.tasks t) = 0)
    (hnew : receives phase = 0) :
    tally receives (Function.update s.tasks t phase) = tally receives s.tasks := by
  have hup := tally_update receives s.tasks t phase
  omega

theorem change_waiting (h : ∀ q, s.queue = some q → q.receiversWaiting =
    tally receives s.tasks) {u : State T P} {e : Action T × Option (Result P)}
    (hsender : ∀ t, e.1.sender = some t → receives (s.tasks t) = 0)
    (hc : Change tgid s e u) :
    ∀ q, u.queue = some q → q.receiversWaiting = tally receives u.tasks := by
  intro q' hq'
  cases hc with
  | quiet a r files hids hr => exact h q' hq'
  | sendSlept _ t _ _ ha | sendLeft _ t _ ha =>
    rw [h q' hq']
    exact (tally_setPhase (hsender t ha) rfl).symm
  | sent a t msg q ha hq hroom =>
    rw [← some.inj hq', enqueue_queue]
    refine (h q hq).trans ?_
    exact (tally_setPhase (hsender t ha) rfl).symm
  | receiveSlept a t w q ha hq hempty hfile =>
    rw [← some.inj hq']
    have hcount := counted_eq t q (h q hq)
    have hup := tally_update receives s.tasks t (.receiving w)
    change counted s t q = tally receives (Function.update s.tasks t (.receiving w))
    have hone : receives (.receiving w) = 1 := rfl
    omega
  | receiveLeft _ t q _ _ hq | taken _ t q _ _ _ _ hq =>
    rw [← some.inj hq']
    have hcount := counted_eq t q (h q hq)
    have hup := tally_update receives s.tasks t .running
    change counted s t q - 1 = tally receives (Function.update s.tasks t .running)
    have hzero : receives .running = 0 := rfl
    omega
  | registered _ q _ hq | withdrew _ q _ hq | opened _ q _ hq =>
    rw [← some.inj hq']
    exact h q hq
  | unlinked _ q hq | closed _ _ q _ hq =>
    rw [(mqRelease_some hq').1]
    exact h q hq

omit [DecidableEq T] in
theorem inv_initial (h : Initial s) : Inv s := by
  rcases h.queue with ⟨ns, capable, attr, charge, malloc, q, hcreate, hq⟩
  rcases mqCreateLocked_empty hcreate with ⟨_, _, _, hwaiting, hrefs, hlinked⟩
  have hids : s.ids = [] := by
    unfold State.ids
    rw [h.files]
    rfl
  refine { ok := ok_initial h, waiting := ?_, refs := ?_ }
  · intro x hx
    rw [hq] at hx
    rw [← some.inj hx, hwaiting]
    exact (tally_eq_zero receives (fun t => by rw [h.tasks t]; rfl)).symm
  · refine { refs := ?_, freed := ?_, nodup := ?_, fresh := ?_, held := ?_ }
    · intro x hx
      rw [hq] at hx
      rw [← some.inj hx, hrefs, hlinked, hids]
      exact ⟨rfl, Nat.one_pos⟩
    · exact fun _ => hids
    · rw [hids]
      exact nodup_nil
    · intro id hid
      rw [hids] at hid
      cases hid
    · intro t id hid
      rw [h.tasks t] at hid
      cases hid

variable [DecidableEq P] {u : State T P}

omit [Fintype T] in
/-- Who sends was not inside a receive. -/
theorem sender_outside {e : Action T × Option (Result P)}
    (h : Step tgid s e u) {t : T} (ht : e.1.sender = some t) : receives (s.tasks t) = 0 := by
  rcases e with ⟨a, r⟩
  have hen := h.1
  cases a with
  | send t' id data prio deadline malloc fault expired =>
    rw [← some.inj ht, hen]
    rfl
  | sendResume t' wake expired =>
    rcases hen with ⟨w, hw⟩
    rw [← some.inj ht, hw]
    rfl
  | receive | receiveResume | notify => cases ht
  | «open» => cases ht
  | unlink | getsetattr | close => cases ht

omit [Fintype T] in
/-- The queue is right in every run. -/
theorem ok_run (h : ∀ q, s.queue = some q → Ok q)
    {tr : List (State T P × (Action T × Option (Result P)))}
    (hrun : Run (Step tgid) s tr u) : ∀ q, u.queue = some q → Ok q :=
  run_invariant (fun x => ∀ q, x.queue = some q → Ok q) hrun h
    (fun _ _ _ _ hx hstep => change_queueOk hx (step_change hstep))

theorem inv_step (h : Inv s) {e : Action T × Option (Result P)} (hstep : Step tgid s e u) : Inv u :=
  { ok := change_queueOk h.ok (step_change hstep)
    waiting := change_waiting h.waiting (fun _ => sender_outside hstep) (step_change hstep)
    refs := change_refs h.refs (step_change hstep) }

theorem inv_run (h : Inv s) {tr : List (State T P × (Action T × Option (Result P)))}
    (hrun : Run (Step tgid) s tr u) : Inv u :=
  run_invariant Inv hrun h fun _ _ _ _ hx hstep => inv_step hx hstep

end Invariant

end IshAok.PosixMq
