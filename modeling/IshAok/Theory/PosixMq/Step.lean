import IshAok.Base.Run
import IshAok.Core.PosixMq

/-!
# What a Step Does to a Queue

Every step of the system is one of a few changes, and `Change` lists them with what is
known when they happen. A receiver is counted while it is inside its call, so its first
look at the queue and a later one differ only in whether it was counted before. `counted`
is the count with the caller in it, and covers both.

A call that is refused, a command that only reads, and a change of the flags of a
description are all `quiet`: they leave the queue and the tasks as they were.

## Main definitions

* `counted`: The receivers, with a given task as one of them.
* `Change`: What a step can be.

## Theorems

* `step_change`: Every step is one of the changes.
* `take_notify`: A registration that is taken is gone.
-/

namespace IshAok.PosixMq

variable {T P : Type}

section Changes

/-- The task that sends. -/
def Action.sender : Action T → Option T
  | .send t _ _ _ _ _ _ _ => some t
  | .sendResume t _ _ => some t
  | _ => none

/-- The task that receives. -/
def Action.receiver : Action T → Option T
  | .receive t _ _ _ _ _ => some t
  | .receiveResume t _ _ _ => some t
  | _ => none

/-- A receiver whose sleep ends by its deadline or a signal. It leaves without a look at
    the queue. -/
def Action.givesUp : Action T → Bool
  | .receiveResume _ wake _ _ => wake.error.isSome
  | _ => false

/-- The receivers, with a given task as one of them. -/
def counted (s : State T P) (t : T) (q : Mqueue P) : Nat :=
  match s.tasks t with
  | .receiving _ => q.receiversWaiting
  | _ => q.receiversWaiting + 1

/-- An action that takes the registration of its process back. -/
def Action.withdraws (tgid : T → P) : Action T → Option P
  | .notify t _ _ .none => some (tgid t)
  | .close t _ => t.map tgid
  | _ => none

/-- A result that neither puts nor takes a message. -/
def Plain (r : Result P) : Prop :=
  ∀ msg note, r ≠ .sent msg note ∧ r ≠ .received msg ∧ r ≠ .lost msg

theorem plain_error (e : Errno) : Plain (.error e : Result P) := by
  intro msg note
  simp

theorem plain_done : Plain (.done : Result P) := by
  intro msg note
  simp

/-- A registration that is taken is gone. -/
theorem take_notify (q : Mqueue P) (why : BitVec 8) :
    (mqNotifyTakeLocked q why).1 = { q with notify := none } := by
  unfold mqNotifyTakeLocked
  split
  · next hnone => rw [← hnone]
  · rfl

variable [DecidableEq T]

/-- What a step can be. -/
inductive Change (tgid : T → P) (s : State T P) :
    Action T × Option (Result P) → State T P → Prop
  /-- Nothing that matters to the queue. -/
  | quiet (a r files) (hids : files.map MqFile.id = s.files.map MqFile.id) (hr : Plain r) :
      Change tgid s (a, some r) { s with files := files }
  | sendSlept (a t w q) (ha : a.sender = some t) (hq : s.queue = some q)
      (hfile : (s.getFile w.file).isSome) : Change tgid s (a, none) (s.setPhase t (.sending w))
  | sendLeft (a t e) (ha : a.sender = some t) :
      Change tgid s (a, some (.error e)) (s.setPhase t .running)
  | sent (a t msg q) (ha : a.sender = some t) (hq : s.queue = some q)
      (hroom : q.curmsgs < q.maxmsg) : Change tgid s (a, some (.sent msg (enqueue q msg).2))
        ({ s with queue := some (enqueue q msg).1 }.setPhase t .running)
  | receiveSlept (a t w q) (ha : a.receiver = some t) (hq : s.queue = some q)
      (hempty : q.curmsgs = 0) (hfile : (s.getFile w.file).isSome) : Change tgid s (a, none)
        ({ s with queue := some { q with receiversWaiting := counted s t q } }.setPhase t
          (.receiving w))
  | receiveLeft (a t q e) (ha : a.receiver = some t) (hq : s.queue = some q)
      (hleft : q.curmsgs = 0 ∨ a.givesUp = true) : Change tgid s (a, some (.error e))
        ({ s with queue := some { q with receiversWaiting := counted s t q - 1 } }.setPhase t
          .running)
  | taken (a t q msg msgs r) (ha : a.receiver = some t) (hq : s.queue = some q)
      (hmsgs : q.msgs = msg :: msgs) (hsome : q.curmsgs ≠ 0)
      (hr : r = .received msg ∨ r = .lost msg) : Change tgid s (a, some r) ({ s with
            queue := some { q with
                msgs := msgs
                curmsgs := q.curmsgs - 1
                qsize := q.qsize - msg.len
                receiversWaiting := counted s t q - 1 } }.setPhase t .running)
  | registered (a q note) (hq : s.queue = some q) (hnone : q.notify = none)
      (ha : a.sender = none ∧ a.receiver = none) :
      Change tgid s (a, some .done) { s with queue := some { q with notify := some note } }
  | withdrew (a q p) (hq : s.queue = some q) (ha : a.withdraws tgid = some p)
      (hp : q.notify.map MqNote.tgid = some p) :
      Change tgid s (a, some .done) { s with queue := some { q with notify := none } }
  | opened (a q file) (hq : s.queue = some q) (hid : file.id = s.nextFile)
      (ha : a.sender = none ∧ a.receiver = none) : Change tgid s (a, some (.fd s.nextFile)) { s with
          queue := some { q with refs := q.refs + 1 }
          files := s.files ++ [file]
          nextFile := s.nextFile + 1 }
  | unlinked (a q) (hq : s.queue = some q) (hlinked : q.linked = true)
      (ha : a.sender = none ∧ a.receiver = none) :
      Change tgid s (a, some .done) { s with queue := mqRelease { q with linked := false } }
  | closed (t id q notify) (hq : s.queue = some q) (hfile : ∃ file ∈ s.files, file.id = id)
      (hheld : ∀ u, (s.tasks u).file ≠ some id)
      (hnotify : notify = q.notify ∨
        notify = none ∧ ∃ p, t.map tgid = some p ∧ q.notify.map MqNote.tgid = some p) :
      Change tgid s (.close t id, some .done) { s with
          queue := mqRelease { q with notify := notify }
          files := s.files.filter (fun file => file.id ≠ id) }

variable {tgid : T → P} {s : State T P}

/-- The result of a call as one of the changes. -/
def Covered (tgid : T → P) (s : State T P) (a : Action T)
    (x : Out T P) : Prop :=
  ∀ u r, x = some (u, r) → Change tgid s (a, r) u

variable {a : Action T} {t : T} {expired : Bool}

theorem change_refused (e : Errno) : Covered tgid s a (some (s, some (.error e))) := by
  intro u r heq
  cases heq
  exact Change.quiet a (.error e) s.files rfl (plain_error e)

theorem change_none : Covered tgid s a none := nofun

theorem change_sendRound (w : Send) (expired : Bool) (ha : a.sender = some t) :
    Covered tgid s a (sendRound s t w expired) := by
  intro u r heq
  unfold sendRound at heq
  split at heq
  · next q file hq hfile =>
    have hsome : (s.getFile w.file).isSome := by rw [hfile]; rfl
    split at heq
    · split at heq
      · cases heq
        exact Change.sendLeft a t .eagain ha
      split at heq
      · cases heq
        exact Change.sendLeft a t .etimedout ha
      cases heq
      exact Change.sendSlept a t w q ha hq hsome
    · next hroom =>
      cases heq
      exact Change.sent a t w.msg q ha hq (Nat.lt_of_not_le hroom)
  · cases heq

/-- The loop of a receive, from a state where the caller is counted. -/
theorem change_receiveRound {q : Mqueue P} (w : Receive) (faults : Faults) (expired : Bool)
    (ha : a.receiver = some t) (hq : s.queue = some q) :
    Covered tgid s a
      (receiveRound { s with queue := some { q with receiversWaiting := counted s t q } } t w
        faults expired) := by
  intro u r heq
  unfold receiveRound at heq
  split at heq
  · next q' file hq' hfile =>
    cases hq'
    have hsome : (s.getFile w.file).isSome := by
      change s.getFile w.file = some file at hfile
      rw [hfile]; rfl
    split at heq
    · next hempty =>
      split at heq
      · cases heq
        exact Change.receiveLeft a t q .eagain ha hq (Or.inl hempty)
      split at heq
      · cases heq
        exact Change.receiveLeft a t q .etimedout ha hq (Or.inl hempty)
      cases heq
      exact Change.receiveSlept a t w q ha hq hempty hsome
    · next hne =>
      unfold takeMsg at heq
      split at heq
      · cases heq
      next msg msgs hmsgs =>
      cases heq
      refine Change.taken a t q msg msgs _ ha hq hmsgs hne ?_
      split
      · exact Or.inr rfl
      · exact Or.inl rfl
  · cases heq

theorem change_timedsend {id prio : Nat} {data : List (BitVec 8)} {deadline : Deadline}
    {malloc fault : Bool} :
    Covered tgid s (.send t id data prio deadline malloc fault expired)
      (mqTimedsend s t id data prio deadline malloc fault expired) := by
  unfold mqTimedsend
  split
  · exact change_refused _
  split
  · exact change_refused _
  split
  · exact change_refused _
  split
  · exact change_none
  -- The checks in the order of the source, and then the loop.
  split
  · exact change_refused _
  split
  · exact change_refused _
  split
  · exact change_refused _
  split
  · exact change_refused _
  exact change_sendRound _ expired rfl

theorem change_timedreceive {id len : Nat} {deadline : Deadline} {faults : Faults}
    (hrunning : s.tasks t = .running) :
    Covered tgid s (.receive t id len deadline faults expired)
      (mqTimedreceive s t id len deadline faults expired) := by
  unfold mqTimedreceive
  split
  · exact change_refused _
  split
  · exact change_refused _
  split
  · exact change_none
  next q hq =>
  split
  · exact change_refused _
  split
  · exact change_refused _
  have hcounted : counted s t q = q.receiversWaiting + 1 := by
    unfold counted
    rw [hrunning]
  rw [← hcounted]
  exact change_receiveRound _ faults expired rfl hq

theorem change_sendResume {wake : Wake} :
    Covered tgid s (.sendResume t wake expired) (sendResume s t wake expired) := by
  intro u r heq
  unfold sendResume at heq
  split at heq
  · split at heq
    · cases heq
      exact Change.sendLeft _ t _ rfl
    · exact change_sendRound _ expired rfl u r heq
  · cases heq

theorem change_receiveResume {wake : Wake} {faults : Faults} :
    Covered tgid s (.receiveResume t wake faults expired)
      (receiveResume s t wake faults expired) := by
  intro u r heq
  unfold receiveResume at heq
  split at heq
  · next w hphase =>
    have hcounted : ∀ q : Mqueue P, counted s t q = q.receiversWaiting := fun q => by
      unfold counted
      rw [hphase]
    split at heq
    · next e he =>
      split at heq
      · cases heq
      next q hq =>
      cases heq
      have hgives : wake.error.isSome = true := by
        rw [he]
        rfl
      have hleft : Change tgid s (.receiveResume t wake faults expired, _) _ :=
        Change.receiveLeft _ t q e rfl hq (.inr hgives)
      rw [hcounted q] at hleft
      exact hleft
    · cases hq : s.queue with
      | none =>
        unfold receiveRound at heq
        rw [hq] at heq
        cases heq
      | some q =>
        have hround : Covered tgid s (.receiveResume t wake faults expired) _ :=
          change_receiveRound w faults expired rfl hq
        have hsame : { s with queue := some q } = s := by rw [← hq]
        rw [hcounted q, hsame] at hround
        exact hround u r heq
  · cases heq

theorem change_open {acc : Acc} {nonblock excl : Bool} {access : Option Errno} {malloc : Bool} :
    Covered tgid s (.open t acc nonblock excl access malloc)
      (mqOpen s acc nonblock excl access malloc) := by
  unfold mqOpen
  split
  · exact change_refused _
  next q hq =>
  split
  · exact change_refused _
  split
  · exact change_refused _
  split
  · exact change_refused _
  split
  · exact change_refused _
  intro u r heq
  cases heq
  exact Change.opened _ q _ hq rfl ⟨rfl, rfl⟩

theorem change_unlink {allowed : Bool} :
    Covered tgid s (.unlink t allowed) (some (mqUnlinkName s allowed)) := by
  unfold mqUnlinkName
  split
  · exact change_refused _
  next q hq =>
  split
  · exact change_refused _
  next hlinked =>
  split
  · exact change_refused _
  intro u r heq
  cases heq
  exact Change.unlinked _ q hq (by simpa using hlinked) ⟨rfl, rfl⟩

theorem change_getsetattr {id : Nat} {bad : Option Errno} {new : Option Bool} {fault : Bool} :
    Covered tgid s (.getsetattr t id bad new fault) (mqGetsetattr s id bad new fault) := by
  unfold mqGetsetattr
  split
  · exact change_refused _
  split
  · exact change_refused _
  split
  · exact change_none
  intro u r heq
  cases heq
  refine Change.quiet _ _ _ ?_ ?_
  · cases new with
    | none => rfl
    | some nonblock =>
      rw [List.map_map]
      refine List.map_congr_left fun file _ => ?_
      change (if file.id = id then { file with nonblock := nonblock } else file).id = file.id
      split <;> rfl
  · intro msg note
    split
    · exact plain_error .efault msg note
    · simp

section Others

variable [DecidableEq P]

theorem change_notify {t : T} {execGen id : Nat} {sev : Sigevent} :
    Covered tgid s (.notify t execGen id sev) (mqNotify s (tgid t) execGen id sev) := by
  have hquiet : Covered tgid s (.notify t execGen id sev) (some (s, some .done)) := by
    intro u r heq
    cases heq
    exact Change.quiet _ .done s.files rfl plain_done
  unfold mqNotify
  split
  · exact change_refused _
  · split
    · exact change_refused _
    split
    · exact change_none
    next q hq =>
    split
    · next hp =>
      intro u r heq
      cases heq
      rw [take_notify]
      exact Change.withdrew _ q (tgid t) hq rfl hp
    · exact hquiet
  · split
    · exact change_refused _
    split
    · exact change_refused _
    split
    · exact change_none
    next q hq =>
    split
    · exact change_refused _
    next hnone =>
    intro u r heq
    cases heq
    exact Change.registered _ q _ hq (Option.not_isSome_iff_eq_none.mp hnone) ⟨rfl, rfl⟩

theorem change_close {t : Option T} {id : Nat} (hfile : ∃ file ∈ s.files, file.id = id)
    (hheld : ∀ u, (s.tasks u).file ≠ some id) :
    Covered tgid s (.close t id) (mqClose s (t.map tgid) id) := by
  intro u r heq
  unfold mqClose at heq
  split at heq
  · cases heq
  next q hq =>
  split at heq
  · next hown =>
    cases heq
    rcases Option.isSome_iff_exists.mp hown.1 with ⟨note, hnote⟩
    rw [take_notify]
    refine Change.closed t id q none hq hfile hheld (.inr ⟨rfl, note.tgid, ?_, ?_⟩)
    · rw [← hown.2, hnote]
      rfl
    · rw [hnote]
      rfl
  · cases heq
    exact Change.closed t id q q.notify hq hfile hheld (.inl rfl)

/-- Every step is one of the changes. -/
theorem step_change {u : State T P} {e : Action T × Option (Result P)} (h : Step tgid s e u) :
    Change tgid s e u := by
  rcases e with ⟨a, r⟩
  rcases h with ⟨hen, hex⟩
  cases a with
  | send => exact change_timedsend u r hex
  | sendResume => exact change_sendResume u r hex
  | receive => exact change_timedreceive hen u r hex
  | receiveResume => exact change_receiveResume u r hex
  | notify => exact change_notify u r hex
  | «open» => exact change_open u r hex
  | unlink => exact change_unlink u r hex
  | getsetattr => exact change_getsetattr u r hex
  | close => exact change_close hen.2.1 hen.2.2 u r hex

end Others

end Changes

end IshAok.PosixMq
