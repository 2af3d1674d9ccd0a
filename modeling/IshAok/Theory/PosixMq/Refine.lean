import IshAok.Base.LaneQueue
import IshAok.Base.Simulation
import IshAok.Theory.PosixMq.Inv

/-!
# A Queue is a Priority Queue

The system simulates the abstract priority queue: a send that succeeds puts its message,
a receive that gets one takes it, and every other step is silent. What sleeps, how a
sleep ends, and who opens, closes or unlinks does not show. So the order inside each
priority, and that no message is taken twice, are facts of the abstract queue.

A receive takes its message off the queue before it copies it. When the copy fails the
call fails and the message is lost. So a message that was sent is taken at most once, and
is still there otherwise, but what is taken is not always received.

## Main definitions

* `opOf`: What a step is in the abstract queue.
* `sentIn`, `takenIn`, `receivedIn`: The messages of a run.

## Theorems

* `change_msgs`: What a step does to the messages.
* `queue_refines`: A queue is a priority queue, and its counters are right.
* `fault_loses_message`: A failed copy loses a message.
-/

namespace IshAok.PosixMq

open Base Option List

variable {T P : Type}

section Operations

/-- What a step is in the abstract queue. -/
def opOf : Action T × Option (Result P) → Option (QueueOp MqMsg)
  | (_, some (.sent msg _)) => some (.put msg)
  | (_, some (.received msg)) => some (.take msg)
  | (_, some (.lost msg)) => some (.take msg)
  | _ => none

def sentOf : Action T × Option (Result P) → Option MqMsg
  | (_, some (.sent msg _)) => some msg
  | _ => none

def receivedOf : Action T × Option (Result P) → Option MqMsg
  | (_, some (.received msg)) => some msg
  | _ => none

/-- The message that a step takes off the queue, received or lost. -/
def takenOf : Action T × Option (Result P) → Option MqMsg
  | (_, some (.received msg)) => some msg
  | (_, some (.lost msg)) => some msg
  | _ => none

/-- A recorded run. -/
abbrev Trace (T P : Type) := List (State T P × (Action T × Option (Result P)))

variable (tr : Trace T P)

/-- The messages that were sent, in order. -/
def sentIn : List MqMsg := operations sentOf tr

/-- The messages that were received, in order. -/
def receivedIn : List MqMsg := operations receivedOf tr

/-- The messages that were taken off the queue, in order. -/
def takenIn : List MqMsg := operations takenOf tr

theorem puts_operations : puts (operations opOf tr) = sentIn tr := by
  unfold puts sentIn operations
  rw [filterMap_filterMap]
  refine filterMap_congr fun x _ => ?_
  rcases x with ⟨_, a, r⟩
  rcases r with _ | r
  · rfl
  · cases r <;> rfl

theorem takes_operations : takes (operations opOf tr) = takenIn tr := by
  unfold takes takenIn operations
  rw [filterMap_filterMap]
  refine filterMap_congr fun x _ => ?_
  rcases x with ⟨_, a, r⟩
  rcases r with _ | r
  · rfl
  · cases r <;> rfl

theorem opOf_plain {a : Action T} {r : Result P} (h : Plain r) : opOf (a, some r) = none := by
  cases r with
  | sent msg note => exact absurd rfl (h msg note).1
  | received msg => exact absurd rfl (h msg none).2.1
  | lost msg => exact absurd rfl (h msg none).2.2
  | fd | attr | done | error => rfl

end Operations

section Messages

variable [DecidableEq T]

/-- What a step does to the messages of a queue that is there. -/
inductive MsgsAfter (s : State T P) (e : Action T × Option (Result P)) (u : State T P) : Prop
  | same (hop : opOf e = none)
      (hsame : ∀ q', u.queue = some q' → ∃ q, s.queue = some q ∧ q'.msgs = q.msgs)
  | put (msg : MqMsg) (q q' : Mqueue P) (hop : opOf e = some (.put msg))
      (hq : s.queue = some q) (hq' : u.queue = some q')
      (hmsgs : q'.msgs = insertMsg msg q.msgs)
  | take (msg : MqMsg) (q q' : Mqueue P) (hop : opOf e = some (.take msg))
      (hq : s.queue = some q) (hq' : u.queue = some q') (hmsgs : q.msgs = msg :: q'.msgs)

variable {tgid : T → P} {s : State T P}

variable {u : State T P} {e : Action T × Option (Result P)}

theorem change_msgs (hc : Change tgid s e u) : MsgsAfter s e u := by
  cases hc with
  | quiet a r files hids hr =>
    exact .same (opOf_plain hr) fun q' hq' => ⟨q', hq', rfl⟩
  | sendSlept | sendLeft => exact .same rfl (fun q' hq' => ⟨q', hq', rfl⟩)
  | sent a t msg q ha hq hroom =>
    refine .put msg q _ rfl hq rfl ?_
    rw [enqueue_queue]
    rfl
  | receiveSlept _ _ _ q _ hq | receiveLeft _ _ q _ _ hq | registered _ q _ hq
  | withdrew _ q _ hq | opened _ q _ hq =>
    exact .same rfl fun q' hq' => ⟨q, hq, by rw [← some.inj hq']⟩
  | taken a t q msg msgs r ha hq hmsgs hsome hr =>
    -- Received or lost, the message is off the queue.
    rcases hr with rfl | rfl
    · exact .take msg q _ rfl hq rfl hmsgs
    · exact .take msg q _ rfl hq rfl hmsgs
  | unlinked _ q hq | closed _ _ q _ hq =>
    exact .same rfl fun q' hq' => ⟨q, hq, by rw [(mqRelease_some hq').1]⟩

/-- The abstract queue of a state. Once the queue is freed nothing more is said. -/
def Abstracts (s : State T P) (L : Nat → List MqMsg) : Prop :=
  ∀ q, s.queue = some q → L = lanes MqMsg.prio q.msgs

variable [DecidableEq P]

theorem step_silent (L : Nat → List MqMsg) (hL : Abstracts s L) (hstep : Step tgid s e u)
    (hop : opOf e = none) : Abstracts u L := by
  intro q' hq'
  cases change_msgs (step_change hstep) with
  | same _ hsame =>
    rcases hsame q' hq' with ⟨q, hq, hmsgs⟩
    rw [hL q hq, hmsgs]
  | put _ _ _ hsome | take _ _ _ hsome =>
    rw [hop] at hsome
    cases hsome

theorem step_queueStep (h : ∀ q, s.queue = some q → Ok q) (L : Nat → List MqMsg)
    (hL : Abstracts s L) (hstep : Step tgid s e u) {op : QueueOp MqMsg}
    (hop : opOf e = some op) : ∃ N, QueueStep MqMsg.prio L op N ∧ Abstracts u N := by
  cases change_msgs (step_change hstep) with
  | same hnone =>
    rw [hop] at hnone
    cases hnone
  | put msg q q' hput hq hq' hmsgs =>
    rw [hop] at hput
    rw [some.inj hput, hL q hq]
    refine ⟨_, queueStep_insertBehind MqMsg.prio msg (h q hq).sorted, fun x hx => ?_⟩
    rw [hq'] at hx
    rw [← some.inj hx, hmsgs]
    rfl
  | take msg q q' htake hq hq' hmsgs =>
    rw [hop] at htake
    have hsorted := (h q hq).sorted
    rw [hmsgs] at hsorted
    rw [some.inj htake, hL q hq, hmsgs]
    refine ⟨_, queueStep_head MqMsg.prio hsorted, fun x hx => ?_⟩
    rw [hq'] at hx
    rw [← some.inj hx]

end Messages

section Refinement

theorem abstracts_initial {s : State T P} (h : Initial s) : Abstracts s (fun _ => []) := by
  rcases h.queue with ⟨ns, capable, attr, charge, malloc, q, hcreate, hq⟩
  intro x hx
  rw [hq] at hx
  rw [← some.inj hx, (mqCreateLocked_empty hcreate).1]
  rfl

variable [DecidableEq T] [DecidableEq P] {tgid : T → P}

/-- What is taken was the first of the queue, and of the highest priority. -/
theorem step_takes_highest {s u : State T P}
    (h : ∀ q, s.queue = some q → Ok q) {e : Action T × Option (Result P)}
    (hstep : Step tgid s e u) {msg : MqMsg} (hop : takenOf e = some msg) :
    ∃ q q', s.queue = some q ∧ u.queue = some q' ∧ q.msgs = msg :: q'.msgs ∧
      ∀ m ∈ q.msgs, m.prio ≤ msg.prio := by
  have htake : opOf e = some (.take msg) := by
    rcases e with ⟨a, r⟩
    rcases r with _ | r
    · cases hop
    · cases r with
      | received | lost => cases hop; rfl
      | _ => cases hop
  cases change_msgs (step_change hstep) with
  | same hnone | put _ _ _ hnone =>
    rw [htake] at hnone
    cases hnone
  | take x q q' hx hq hq' hmsgs =>
    rw [htake] at hx
    cases hx
    refine ⟨q, q', hq, hq', hmsgs, fun m hm => ?_⟩
    have hsorted := (h q hq).sorted
    rw [hmsgs] at hsorted hm
    rcases mem_cons.mp hm with rfl | hm
    · exact le_rfl
    · exact (pairwise_cons.mp hsorted).1 m hm

/-- In every run a queue is a priority queue with order of arrival inside each priority.
    The sends that succeeded and the receives that took a message are a run of the
    abstract queue. In every priority, what was sent is what was taken followed by what
    waits: the messages of the queue, as long as it is there. What a receive takes is the
    head of the list, with no higher priority queued. The counters are those of the list. -/
theorem queue_refines {s u : State T P} {tr : Trace T P} (h0 : Initial s)
    (hrun : Run (Step tgid) s tr u) :
    (∃ tr' L, Run (QueueStep MqMsg.prio) (fun _ => []) tr' L ∧
      tr'.map Prod.snd = operations opOf tr ∧
      (∀ q, u.queue = some q → ∀ k, L k = lane MqMsg.prio k q.msgs) ∧
      ∀ k, lane MqMsg.prio k (sentIn tr) = lane MqMsg.prio k (takenIn tr) ++ L k) ∧
    (∀ x e, (x, e) ∈ tr → ∀ msg, takenOf e = some msg →
      ∃ q msgs, x.queue = some q ∧ q.msgs = msg :: msgs ∧ ∀ m ∈ q.msgs, m.prio ≤ msg.prio) ∧
    (∀ q, u.queue = some q → q.curmsgs = q.msgs.length ∧
      q.qsize = (q.msgs.map MqMsg.len).sum ∧ q.curmsgs ≤ q.maxmsg) := by
  have hok := ok_run (ok_initial h0) hrun
  refine ⟨?_, ?_, fun q hq => ⟨(hok q hq).curmsgs, (hok q hq).qsize, (hok q hq).room⟩⟩
  · -- The relation is carried along the run together with the order of the list.
    have hsim := run_simulation
      (fun x L => (∀ q, x.queue = some q → Ok q) ∧ Abstracts x L) opOf hrun
      ⟨ok_initial h0, abstracts_initial h0⟩
      (fun x e y L _ hx hstep hop =>
        ⟨change_queueOk hx.1 (step_change hstep), step_silent L hx.2 hstep hop⟩)
      (fun x e y L op _ hx hstep hop => by
        rcases step_queueStep hx.1 L hx.2 hstep hop with ⟨N, hN, hy⟩
        exact ⟨N, hN, change_queueOk hx.1 (step_change hstep), hy⟩)
    rcases hsim with ⟨tr', L, hrun', hops, _, hL⟩
    refine ⟨tr', L, hrun', hops, fun q hq k => by rw [hL q hq]; rfl, fun k => ?_⟩
    have hconserve := lanes_conserve MqMsg.prio hrun' k
    rw [hops, puts_operations, takes_operations] at hconserve
    exact hconserve
  · intro x e hmem msg htaken
    rcases run_split hrun x e hmem with ⟨tr₁, tr₂, y, _, hbefore, hstep, _⟩
    rcases step_takes_highest (ok_run (ok_initial h0) hbefore) hstep htaken with
      ⟨q, q', hq, _, hmsgs, hle⟩
    exact ⟨q, q'.msgs, hq, hmsgs, hle⟩

end Refinement

section Examples

/-- The limits of a namespace as it starts. -/
def freshLimits : Limits :=
  { queuesCount := 0, queuesMax := 256, msgMax := 10, msgDefault := 10, msgsizeMax := 8192,
    msgsizeDefault := 8192 }

/-- A new queue for two messages of at most four bytes. -/
def smallQueue : Mqueue Unit :=
  { refs := 1, linked := true, maxmsg := 2, msgsize := 4, curmsgs := 0, qsize := 0, msgs := [],
    receiversWaiting := 0, notify := none }

/-- The queue with tasks that have not used it yet. -/
def smallStart (T : Type) : State T Unit :=
  { queue := some smallQueue, files := [], nextFile := 0, tasks := fun _ => .running }

theorem smallStart_initial (T : Type) : Initial (smallStart T) :=
  { queue := ⟨freshLimits, false, some (2, 4), none, true, smallQueue, rfl, rfl⟩
    files := rfl
    tasks := fun _ => rfl }

/-- Messages of one byte, and of two priorities. -/
def hello : MqMsg := { prio := 3, data := [7] }

def later : MqMsg := { prio := 1, data := [8] }

/-- Of two messages the one with the higher priority is received first, and both have
    their place in the abstract queue. -/
theorem queue_refines_two :
    ∃ tr u q, Run (Step (fun _ : Unit => ())) (smallStart Unit) tr u ∧ u.queue = some q ∧
      sentIn tr = [later, hello] ∧ receivedIn tr = [hello] ∧
      q.curmsgs = 1 ∧ ∀ k, lane MqMsg.prio k (sentIn tr) =
        lane MqMsg.prio k (takenIn tr) ++ lane MqMsg.prio k q.msgs := by
  have h0 := Run.start (Step (fun _ : Unit => ())) (smallStart Unit)
  have h1 := h0.next (.open () .rdwr false false none true, some (.fd 0)) ⟨rfl, rfl⟩
  have h2 := h1.next (.send () 0 [8] 1 .none true false false, some (.sent later none)) ⟨rfl, rfl⟩
  have h3 := h2.next (.send () 0 [7] 3 .none true false false, some (.sent hello none)) ⟨rfl, rfl⟩
  have h4 := h3.next
    (.receive () 0 4 .none ⟨false, false⟩ false, some (.received hello)) ⟨rfl, rfl⟩
  rcases queue_refines (smallStart_initial Unit) h4 with ⟨⟨tr', L, _, _, hL, hlanes⟩, _, hcount⟩
  refine ⟨_, _, _, h4, rfl, rfl, rfl, (hcount _ rfl).1, fun k => ?_⟩
  rw [hlanes k, hL _ rfl k]

/-- A failed copy loses a message: it was sent, it was never received, and it is no
    longer in the queue. -/
theorem fault_loses_message : ∃ tr u q, Initial (smallStart Unit) ∧
      Run (Step (fun _ : Unit => ())) (smallStart Unit) tr u ∧ u.queue = some q ∧
      sentIn tr = [hello] ∧ receivedIn tr = [] ∧ hello ∉ q.msgs := by
  have h0 := Run.start (Step (fun _ : Unit => ())) (smallStart Unit)
  have h1 := h0.next (.open () .rdwr false false none true, some (.fd 0)) ⟨rfl, rfl⟩
  have h2 := h1.next (.send () 0 [7] 3 .none true false false, some (.sent hello none)) ⟨rfl, rfl⟩
  have h3 := h2.next (.receive () 0 4 .none ⟨false, true⟩ false, some (.lost hello)) ⟨rfl, rfl⟩
  exact ⟨_, _, _, smallStart_initial Unit, h3, rfl, rfl, rfl, not_mem_nil⟩

end Examples

end IshAok.PosixMq
