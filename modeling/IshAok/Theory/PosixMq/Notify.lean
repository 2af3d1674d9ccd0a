import IshAok.Theory.PosixMq.Refine

/-!
# Notifications

A process that registers is told once, when a message comes into the empty queue. The
source leaves the notification out when a receiver is waiting, since that receiver takes
the message. But a receiver that waits has only been counted: the message is queued, and
the receiver takes it when it has the lock again. Until then a second message can come,
which does not find the queue empty, and the receiver can leave by its deadline or a
signal without a look at the queue. In both cases a message stays behind, no receiver is
left, and the process was not told.

The law that does hold needs the messages to stay below the receivers. While a
registration that was made on an empty queue is pending, each send has to find no
receiver or more receivers than messages, and a receiver that gives up has to leave
enough others behind. Then a registration is pending only as long as there is a receiver
for each message.

## Main definitions

* `fired`: The notification of a registration.
* `Guarded`: The condition on a step.
* `Pending`: A registration that waits, with a receiver for each message.
* `Delivered`: A send of a run made the notification.

## Theorems

* `change_pending`: A guarded step delivers, or the registration stays pending.
* `notify_not_lost`: In a guarded run a notification is not lost.
* `second_send_unnoticed`: Two sends to one receiver lose it.
-/

namespace IshAok.PosixMq

open Base List

variable {T P : Type}

/-- The notification of a registration. -/
def fired (note : MqNote P) : MqNote P := { note with method := note.method.ended notifyWokenup }

/-- The condition on a step. While there is a registration, a send finds no receiver or
    more receivers than messages, and a receiver that gives up leaves as many receivers as
    there are messages. -/
def Guarded (s : State T P) (a : Action T) : Prop :=
  ∀ q, s.queue = some q → q.notify.isSome →
    (a.sender.isSome → q.receiversWaiting = 0 ∨ q.curmsgs < q.receiversWaiting) ∧
    (a.givesUp → q.curmsgs < q.receiversWaiting)

/-- The registration waits, and there is a receiver for each message. -/
def Pending (note : MqNote P) (s : State T P) : Prop :=
  ∀ q, s.queue = some q → q.notify = some note ∧ q.curmsgs ≤ q.receiversWaiting

section Steps

/-- A message that comes into an empty queue with nobody waiting is told. -/
theorem enqueue_fires {q : Mqueue P} {note : MqNote P} (msg : MqMsg)
    (hwaiting : q.receiversWaiting = 0) (hcur : q.curmsgs = 0) (hnote : q.notify = some note) :
    (enqueue q msg).2 = some (fired note) ∧ (enqueue q msg).1.notify = none := by
  have hput : (putMsg q msg).notify = some note := hnote
  have hfirst : (putMsg q msg).curmsgs = 1 := by
    change q.curmsgs + 1 = 1
    rw [hcur]
  have htake : enqueue q msg = mqNotifyTakeLocked (putMsg q msg) notifyWokenup := by
    unfold enqueue
    rw [if_pos ⟨hwaiting, hfirst⟩]
  rw [htake]
  unfold mqNotifyTakeLocked
  rw [hput]
  exact ⟨rfl, rfl⟩

/-- With a receiver waiting nothing is told. -/
theorem enqueue_quiet {q : Mqueue P} (msg : MqMsg) (hwaiting : q.receiversWaiting ≠ 0) :
    enqueue q msg = (putMsg q msg, none) := by
  unfold enqueue
  rw [if_neg (fun h => hwaiting h.1)]

theorem le_counted (s : State T P) (t : T) (q : Mqueue P) : q.receiversWaiting ≤ counted s t q := by
  unfold counted
  split
  · exact le_rfl
  · exact Nat.le_succ _

variable [DecidableEq T] {tgid : T → P} {s : State T P} {note : MqNote P}

/-- A guarded step delivers the notification, or the registration stays pending. -/
theorem change_pending (h : Pending note s) {u : State T P} {e : Action T × Option (Result P)}
    (hc : Change tgid s e u) (hguard : Guarded s e.1)
    (hkept : e.1.withdraws tgid ≠ some note.tgid) :
    (∃ msg q, e.2 = some (.sent msg (some (fired note))) ∧ u.queue = some q ∧ q.notify = none) ∨
      Pending note u := by
  cases hc with
  | quiet | sendSlept | sendLeft => exact Or.inr h
  | sent a t msg q ha hq hroom =>
    rcases h q hq with ⟨hnote, hle⟩
    have hsends := (hguard q hq (by rw [hnote]; rfl)).1 (by rw [ha]; rfl)
    by_cases hzero : q.receiversWaiting = 0
    · -- Nobody waits, so there is no message yet and this one is told.
      have hcur : q.curmsgs = 0 := by omega
      rcases enqueue_fires msg hzero hcur hnote with ⟨hfired, hnone⟩
      rw [hfired]
      exact Or.inl ⟨msg, _, rfl, rfl, hnone⟩
    · have hlt : q.curmsgs < q.receiversWaiting := by
        rcases hsends with hsends | hsends
        · exact absurd hsends hzero
        · exact hsends
      rw [enqueue_quiet msg hzero]
      refine Or.inr fun x hx => ?_
      cases hx
      exact ⟨hnote, hlt⟩
  | receiveSlept a t w q ha hq hempty hfile =>
    refine Or.inr fun x hx => ?_
    cases hx
    exact ⟨(h q hq).1, (h q hq).2.trans (le_counted s t q)⟩
  | receiveLeft a t q e ha hq hleft =>
    refine Or.inr fun x hx => ?_
    cases hx
    refine ⟨(h q hq).1, ?_⟩
    change q.curmsgs ≤ counted s t q - 1
    have hcount := le_counted s t q
    rcases hleft with hempty | hgives
    · omega
    · have hlt := (hguard q hq (by rw [(h q hq).1]; rfl)).2 hgives
      omega
  | taken a t q msg msgs r ha hq hmsgs hsome hr =>
    refine Or.inr fun x hx => ?_
    cases hx
    refine ⟨(h q hq).1, ?_⟩
    change q.curmsgs - 1 ≤ counted s t q - 1
    have hcount := le_counted s t q
    have hle := (h q hq).2
    omega
  | registered a q note' hq hnone ha =>
    -- A second registration is refused while there is one.
    rw [(h q hq).1] at hnone
    cases hnone
  | withdrew a q p hq ha hp =>
    rw [(h q hq).1] at hp
    rw [← Option.some.inj hp] at ha
    exact absurd ha hkept
  | opened a q file hq hid ha =>
    refine Or.inr fun x hx => ?_
    cases hx
    exact h q hq
  | unlinked a q hq hlinked ha =>
    refine Or.inr fun x hx => ?_
    rw [(mqRelease_some hx).1]
    exact h q hq
  | closed t id q notify hq hfile hheld hnotify =>
    refine Or.inr fun x hx => ?_
    rw [(mqRelease_some hx).1]
    rcases hnotify with rfl | ⟨_, p, hp, hown⟩
    · exact h q hq
    · rw [(h q hq).1] at hown
      rw [← Option.some.inj hown] at hp
      exact absurd hp hkept

end Steps

section Runs

variable [Fintype T] [DecidableEq T] [DecidableEq P] {tgid : T → P}

omit [Fintype T] in
/-- Some send of a run made the notification, and used the registration up. -/
def Delivered (tgid : T → P) (note : MqNote P) (tr : Trace T P) : Prop :=
  ∃ x e y msg q, (x, e) ∈ tr ∧ Step tgid x e y ∧
    e.2 = some (.sent msg (some (fired note))) ∧ y.queue = some q ∧ q.notify = none

omit [Fintype T] in
/-- Along a guarded run the notification is delivered, or the registration is pending. -/
theorem run_pending {note : MqNote P} {s u : State T P} {tr : Trace T P}
    (hrun : Run (Step tgid) s tr u) (h : Pending note s)
    (hguard : ∀ x e, (x, e) ∈ tr → Guarded x e.1)
    (hkept : ∀ x e, (x, e) ∈ tr → e.1.withdraws tgid ≠ some note.tgid) :
    Delivered tgid note tr ∨ Pending note u := by
  induction hrun with
  | nil => exact .inr h
  | snoc x y e tr hrun hstep ih =>
    have hlast : (x, e) ∈ tr ++ [(x, e)] :=
      mem_append_right _ (mem_singleton_self _)
    rcases ih (fun z b hz => hguard z b (mem_append_left _ hz))
      (fun z b hz => hkept z b (mem_append_left _ hz)) with hdone | hpending
    · rcases hdone with ⟨z, b, w, msg, q, hmem, hrest⟩
      exact .inl ⟨z, b, w, msg, q, mem_append_left _ hmem, hrest⟩
    · rcases change_pending hpending (step_change hstep) (hguard x e hlast)
        (hkept x e hlast) with ⟨msg, q, hsent, hq, hnone⟩ | hpending
      · exact .inl ⟨x, e, y, msg, q, hlast, hstep, hsent, hq, hnone⟩
      · exact .inr hpending

omit [Fintype T] in
/-- What a call that registers leaves behind. -/
theorem notify_registers {s s' : State T P} {t : T} {execGen id : Nat} {method : Method}
    {signo : Int} {value : BitVec 64}
    (hstep : Step tgid s (.notify t execGen id (.event method signo value), some .done) s') :
    ∃ q note, s.queue = some q ∧ s'.queue = some { q with notify := some note } ∧
      note.tgid = tgid t := by
  have hex := hstep.2
  change mqNotify s (tgid t) execGen id (.event method signo value) = some (s', some .done) at hex
  unfold mqNotify at hex
  dsimp only at hex
  split at hex
  · cases hex
  split at hex
  · cases hex
  split at hex
  · cases hex
  next q hq =>
  split at hex
  · cases hex
  cases hex
  exact ⟨q, _, hq, rfl, rfl⟩

/-- In a guarded run a notification is not lost. A process registers while the queue is
    empty, and does not take that back. Whenever the queue is then not empty and no task is
    inside a receive, a send has made the notification and used the registration up. -/
theorem notify_not_lost {s₀ s s' u : State T P} {tr₀ tr : Trace T P} (h0 : Initial s₀)
    (hrun₀ : Run (Step tgid) s₀ tr₀ s) {t : T} {execGen id : Nat} {method : Method}
    {signo : Int} {value : BitVec 64}
    (hregister : Step tgid s (.notify t execGen id (.event method signo value), some .done) s')
    (hempty : ∀ q, s.queue = some q → q.msgs = [])
    (hrun : Run (Step tgid) s' tr u)
    (hkept : ∀ x e, (x, e) ∈ tr → e.1.withdraws tgid ≠ some (tgid t))
    (hguard : ∀ x e, (x, e) ∈ tr → Guarded x e.1) {q : Mqueue P} (hq : u.queue = some q)
    (hsome : q.msgs ≠ []) (hnobody : ∀ r w, u.tasks r ≠ .receiving w) :
    ∃ q' note, s'.queue = some q' ∧ q'.notify = some note ∧ note.tgid = tgid t ∧
      Delivered tgid note tr := by
  have hinv : Inv s := inv_run (inv_initial h0) hrun₀
  have hinv' : Inv u := inv_run (inv_step hinv hregister) hrun
  rcases notify_registers hregister with ⟨q₀, note, hq₀, hq', howner⟩
  have hpending : Pending note s' := by
    intro x hx
    rw [hq'] at hx
    cases hx
    refine ⟨rfl, ?_⟩
    rw [(hinv.ok q₀ hq₀).curmsgs, hempty q₀ hq₀]
    exact Nat.zero_le _
  rw [← howner] at hkept
  rcases run_pending hrun hpending hguard hkept with hdone | hlater
  · exact ⟨_, note, hq', rfl, howner, hdone⟩
  · -- Still pending, there would be a receiver for the message that is there.
    have hzero : q.receiversWaiting = 0 := by
      rw [hinv'.waiting q hq]
      refine tally_eq_zero receives fun r => ?_
      cases hr : u.tasks r with
      | running | sending => rfl
      | receiving w => exact absurd hr (hnobody r w)
    have hle := (hlater q hq).2
    rw [hzero, (hinv'.ok q hq).curmsgs] at hle
    exact absurd (eq_nil_of_length_eq_zero (Nat.le_zero.mp hle)) hsome

end Runs

section Examples

/-- The queue after a task opened it. -/
def openedStart : State Bool Unit :=
  { smallStart Bool with
    queue := some { smallQueue with refs := 2 }
    files := [{ id := 0, acc := .rdwr, nonblock := false }]
    nextFile := 1 }

/-- What the task registers. -/
def signalNote : MqNote Unit :=
  { method := .signal, tgid := (), signo := 10, value := 0, execGen := 0 }

/-- The queue after the task registered. -/
def registeredStart : State Bool Unit :=
  { openedStart with queue := some { smallQueue with refs := 2, notify := some signalNote } }

theorem openedStart_run : Run (Step (fun _ : Bool => ())) (smallStart Bool)
      [(smallStart Bool, (Action.open false .rdwr false false none true, some (.fd 0)))]
      openedStart :=
  Run.snoc _ _ _ [] Run.nil ⟨rfl, rfl⟩

theorem registeredStart_step : Step (fun _ : Bool => ()) openedStart
      (.notify false 0 0 (.event .signal 10 0), some .done) registeredStart :=
  ⟨rfl, rfl⟩

/-- With nobody waiting, a message is told. -/
theorem notify_not_lost_told : ∃ tr u q note, Run (Step (fun _ : Bool => ())) registeredStart tr u ∧
      u.queue = some q ∧ q.msgs = [hello] ∧ note.tgid = () ∧
      Delivered (fun _ : Bool => ()) note tr := by
  have h0 := Run.start (Step (fun _ : Bool => ())) registeredStart
  have h1 := h0.next
      (.send false 0 [7] 3 .none true false false, some (.sent hello (some signalNote))) ⟨rfl, rfl⟩
  have hkept : ∀ x e, (x, e) ∈ [(registeredStart, (Action.send false 0 [7] 3 .none true false false,
        some (Result.sent hello (some signalNote))))] →
      e.1.withdraws (fun _ : Bool => ()) ≠ some () := by
    intro x e hmem
    cases mem_singleton.mp hmem
    simp [Action.withdraws]
  have hguard : ∀ x e, (x, e) ∈ [(registeredStart,
      (Action.send false 0 [7] 3 .none true false false,
        some (Result.sent hello (some signalNote))))] → Guarded x e.1 := by
    intro x e hmem
    cases mem_singleton.mp hmem
    intro q hq _
    cases hq
    exact ⟨fun _ => .inl rfl, fun h => Bool.noConfusion h⟩
  have hempty : ∀ q, openedStart.queue = some q → q.msgs = [] := by
    intro q hq
    cases hq
    rfl
  rcases notify_not_lost (smallStart_initial Bool) openedStart_run registeredStart_step hempty h1
    hkept hguard rfl (by decide) (fun r w => by cases r <;> exact fun h => Phase.noConfusion h) with
    ⟨_, note, _, _, howner, hdone⟩
  exact ⟨_, _, _, note, h1, rfl, rfl, howner, hdone⟩

/-- Two messages come while one receiver waits. It takes one, the other stays behind with
    nobody inside a receive, and the process that registered is not told. -/
theorem second_send_unnoticed : ∃ tr₀ tr u q, Initial (smallStart Bool) ∧
      Run (Step (fun _ : Bool => ())) (smallStart Bool) tr₀ openedStart ∧
      Step (fun _ : Bool => ()) openedStart
        (.notify false 0 0 (.event .signal 10 0), some .done) registeredStart ∧
      Run (Step (fun _ : Bool => ())) registeredStart tr u ∧
      (∀ x e, (x, e) ∈ tr → e.1.withdraws (fun _ : Bool => ()) ≠ some ()) ∧
      u.queue = some q ∧ q.msgs = [hello] ∧ (∀ r w, u.tasks r ≠ .receiving w) ∧
      q.notify = some signalNote ∧
      ∀ x e, (x, e) ∈ tr → ∀ msg note, e.2 ≠ some (.sent msg (some note)) := by
  have h0 := Run.start (Step (fun _ : Bool => ())) registeredStart
  have h1 := h0.next (.receive true 0 4 .none ⟨false, false⟩ false, none) ⟨rfl, rfl⟩
  have h2 := h1.next
      (.send false 0 [7] 3 .none true false false, some (.sent hello none)) ⟨rfl, rfl⟩
  have h3 := h2.next
      (.send false 0 [7] 3 .none true false false, some (.sent hello none)) ⟨rfl, rfl⟩
  have h4 := h3.next (.receiveResume true .woken ⟨false, false⟩ false, some (.received hello))
    ⟨⟨_, rfl⟩, rfl⟩
  refine ⟨_, _, _, _, smallStart_initial Bool, openedStart_run, registeredStart_step, h4, ?_, rfl,
    rfl, ?_, rfl, ?_⟩
  · intro x e hmem
    simp only [nil_append, cons_append, mem_cons, not_mem_nil, or_false,
      Prod.mk.injEq] at hmem
    rcases hmem with ⟨_, rfl⟩ | ⟨_, rfl⟩ | ⟨_, rfl⟩ | ⟨_, rfl⟩ <;> simp [Action.withdraws]
  · intro r w
    cases r <;> exact fun h => Phase.noConfusion h
  · intro x e hmem msg note
    simp only [nil_append, cons_append, mem_cons, not_mem_nil, or_false,
      Prod.mk.injEq] at hmem
    rcases hmem with ⟨_, rfl⟩ | ⟨_, rfl⟩ | ⟨_, rfl⟩ | ⟨_, rfl⟩ <;> simp [Result.sent.injEq]

end Examples

end IshAok.PosixMq
