import IshAok.Theory.Signal.Queue

/-!
# Stop and Continue Signals

A stop signal that is sent cancels a pending `SIGCONT`, and `SIGCONT` cancels the pending stop
signals, on the queue of the process and on that of every thread. A signal to the process is
queued where it cancels. One to a thread is not: `signal_prepare_stop_cont_threads` cancels on
every thread, and `send_signal` queues the signal in a critical section of its own, in which it
cancels on the target and on the process only. Two such sends of opposite kinds to different
threads can both cancel before either queues, and then both signals are pending.

A snapshot of the threads leaves out those that exit, and one that can not be taken for want of
memory cancels nothing.

Where the sends to threads do not cross, every snapshot is taken and no exiting thread has a
signal of the other kind on its queue, the two kinds are never pending together. For everything
else that happens to a process only takes signals off queues.

## Main definitions

* `Pending`: A signal is pending on one of the queues of the process.
* `Drains`: No signal has become pending on any queue.
* `Apart`: The invariant.
* `Orderly`: A step of a send that crosses no other.

## Theorems

* `exec_drains`: A step that is not a send only takes signals off.
* `exec_apart`: Every orderly step keeps the invariant.
* `stop_cont_apart`: `SIGCONT` and a stop signal are never pending together.
* `sends_cross`: Two sends to threads that cross leave both.
-/

namespace IshAok.Signal

open Base List Bool
open Option (ite_none_right_eq_some)

variable {n : Nat} {s s' : Proc n} {sig : Sig} {t : Fin n}

/-! ## Which signals cancel which -/

/-- A signal cancels another. -/
def Cancels (a b : Sig) : Prop :=
  has (stopContCancels a) b = true

theorem cancels_iff (a b : Sig) :
    Cancels a b ↔ (a = sigcont ∧ has stopMask b = true) ∨
      (has stopMask a = true ∧ b = sigcont) := by
  have hcont : has stopMask sigcont = false := by decide
  rw [Cancels, stopContCancels]
  by_cases ha : a = sigcont
  · rw [if_pos ha, ha, hcont]
    simp
  cases hstop : has stopMask a with
  | true | false => simp [ha]

variable {a b : Sig}

theorem Cancels.symm (h : Cancels a b) : Cancels b a := by
  rw [cancels_iff] at h ⊢
  exact h.symm.imp (fun h => ⟨h.2, h.1⟩) fun h => ⟨h.2, h.1⟩

theorem not_cancels_self (a : Sig) : ¬ Cancels a a := by
  have hcont : has stopMask sigcont = false := by decide
  rw [cancels_iff]
  rintro (⟨rfl, hstop⟩ | ⟨hstop, rfl⟩) <;>
    · cases hstop

/-! ## What is pending -/

/-- A signal is pending on one of the queues of the process. -/
def Pending (s : Proc n) (sig : Sig) : Prop :=
  has s.shared.pending sig = true ∨ ∃ t, has (s.threads t).own.pending sig = true

/-- No signal has become pending on any queue, and none was put on its way. -/
structure Drains (s s' : Proc n) : Prop where
  shared : Shrinks s.shared s'.shared
  own : ∀ t, Shrinks (s.threads t).own (s'.threads t).own
  sending : s'.sending = s.sending

theorem Drains.refl (s : Proc n) : Drains s s :=
  ⟨Shrinks.refl _, fun _ => Shrinks.refl _, rfl⟩

theorem Drains.trans {s'' : Proc n} (h : Drains s s') (h' : Drains s' s'') : Drains s s'' :=
  ⟨h.shared.trans h'.shared, fun t => (h.own t).trans (h'.own t), h'.sending.trans h.sending⟩

theorem Drains.pending (h : Drains s s') (hp : Pending s' sig) : Pending s sig :=
  hp.imp (h.shared sig) fun ⟨t, ht⟩ => ⟨t, h.own t sig ht⟩

/-- A thread changes, and its queue does not grow. -/
theorem drains_modify (f : Thread n → Thread n)
    (hown : Shrinks (s.threads t).own (f (s.threads t)).own) : Drains s (s.modify t f) := by
  refine ⟨Shrinks.refl _, fun u => ?_, rfl⟩
  by_cases hut : u = t
  · rw [hut, modify_self]
    exact hown
  rw [modify_other s f hut]
  exact Shrinks.refl _

/-- What the queues do not show has changed. -/
theorem Drains.of_eq (h : Drains s s') {m : Proc n} (hshared : m.shared = s'.shared)
    (hthreads : m.threads = s'.threads) (hsending : m.sending = s'.sending) : Drains s m := by
  refine ⟨?_, fun u => ?_, hsending.trans h.sending⟩
  · rw [hshared]
    exact h.shared
  · rw [hthreads]
    exact h.own u

theorem drains_prepare (s : Proc n) (sig : Sig) (l : List (Fin n)) :
    Drains s (prepareStopCont s sig l) := by
  rw [prepareStopCont]
  split
  · exact Drains.refl s
  refine ⟨shrinks_flush _ _, fun u => ?_, rfl⟩
  dsimp only
  split
  · exact shrinks_flush _ _
  · exact Shrinks.refl _

theorem drains_takeOff (s : Proc n) (t : Fin n) (r : Bool × Nat × SigQueue) :
    Drains s (takeOff s t r) := by
  rcases r with ⟨fromShared, i, e⟩
  cases fromShared with
  | true => exact ⟨shrinks_removeAt _ _ _, fun _ => Shrinks.refl _, rfl⟩
  | false =>
    exact drains_modify (fun th => { th with own := th.own.removeAt i e.sig })
      (shrinks_removeAt _ _ _)

theorem drains_recalc (s : Proc n) (t : Fin n) : Drains s (pendingRecalc s t) :=
  drains_modify _ (Shrinks.refl _)

theorem drains_maskChanged (s : Proc n) (t : Fin n) (old : SigSet) :
    Drains s (maskChanged s t old) := by
  refine Drains.trans (drains_modify _ ?_) (drains_recalc _ t)
  split <;> exact Shrinks.refl _

theorem drains_tell (s : Proc n) (t : Fin n) : Drains s (groupSignalTell s t) :=
  drains_modify _ (Shrinks.refl _)

theorem drains_setPlace (s : Proc n) (t : Fin n) (p : Place n) : Drains s (s.setPlace t p) :=
  drains_modify _ (Shrinks.refl _)

theorem drains_takeNext (s : Proc n) (t : Fin n) (mask : SigSet) :
    Drains s (takeNext s t mask).1 := by
  rw [takeNext]
  split
  · exact Drains.refl s
  · next i e _ => exact (drains_takeOff s t (true, i, e)).trans (drains_recalc _ t)
  · next i e _ => exact drains_takeOff s t (false, i, e)

theorem drains_signalfd (t : Fin n) (mask : SigSet) (room : Nat) :
    ∀ s : Proc n, Drains s (signalfdRead s t mask room) := by
  induction room with
  | zero => exact fun s => Drains.refl s
  | succ room ih =>
    intro s
    have htake := drains_takeNext s t mask
    rw [signalfdRead]
    split
    · next m e heq =>
      rw [heq] at htake
      exact htake.trans (ih m)
    · next m heq =>
      rw [heq] at htake
      exact htake

theorem drains_receiveSignal (s : Proc n) (t : Fin n) (sig : Sig) (frame : Frame) :
    Drains s (receiveSignal s t sig frame) := by
  have hends : ∀ m : Proc n, Drains s m → Drains s (ends m t) := fun m hm =>
    (hm.trans (drains_setPlace m t .ending)).of_eq rfl rfl rfl
  rw [receiveSignal]
  split
  · exact hends s (Drains.refl s)
  · next mask nodefer resethand _ _ =>
    have hmask : Drains s (s.modify t (fun th => handlerMaskSet th mask nodefer sig)) :=
      drains_modify _ (Shrinks.refl _)
    split
    · exact hends s (Drains.refl s)
    split
    · exact hends _ hmask
    split
    · exact hmask.of_eq rfl rfl rfl
    · exact hmask
  · exact Drains.refl s

theorem drains_receiveTurn (s : Proc n) (t : Fin n) (entry : SigSet) (frame : Frame) :
    Drains s (receiveTurn s t entry frame) := by
  rw [receiveTurn]
  split
  · split
    · exact drains_modify _ (Shrinks.refl _)
    · exact ((drains_maskChanged s t entry).trans (drains_setPlace _ t .running)).of_eq rfl rfl rfl
  · next r _ =>
    have htake := drains_takeOff s t r
    dsimp only
    split
    · exact htake.of_eq rfl rfl rfl
    refine htake.trans (Drains.trans ?_ (drains_receiveSignal _ t _ frame))
    split
    · exact drains_modify _ (Shrinks.refl _)
    · exact Drains.refl _

theorem drains_handOn (s : Proc n) (t : Fin n) (set : SigSet) (rest : List (Fin n)) :
    Drains s (handOn s t set rest) := by
  rw [handOn.eq_def]
  split
  · exact (drains_setPlace s t _).of_eq rfl rfl rfl
  split
  · exact (drains_setPlace s t _).of_eq rfl rfl rfl
  split
  · exact drains_setPlace s t _
  rw [handTo]
  dsimp only
  split
  · exact drains_setPlace s t _
  split
  · exact drains_setPlace s t _
  · exact ((drains_setPlace s t _).trans (drains_tell _ _)).of_eq rfl rfl rfl

/-- A step that sends nothing. -/
def Action.isQuiet : Action n → Bool
  | .kill _ _ _ => false
  | .tkill _ _ _ => false
  | .send _ => false
  | _ => true

/-- A step that sends nothing only takes signals off queues. -/
theorem exec_drains {a : Action n} (hquiet : a.isQuiet = true) (h : Step s a s') :
    Drains s s' := by
  rw [Step, exec.eq_def] at h
  cases a with
  | kill | tkill | send =>
    cases hquiet
  | tell i =>
    rcases ite_none_right_eq_some.mp h with ⟨_, hturn⟩
    rw [tellTurn] at hturn
    split at hturn
    · cases hturn
    · cases hturn
      exact (Drains.refl s).of_eq rfl rfl rfl
    · cases hturn
      split
      · exact (drains_tell s _).of_eq rfl rfl rfl
      · exact (Drains.refl s).of_eq rfl rfl rfl
  | mask t how =>
    rcases critical_some h with ⟨_, _, rfl⟩
    rw [sigmaskSet]
    split
    · exact Drains.refl s
    refine Drains.trans (drains_modify _ ?_) (drains_maskChanged _ t _)
    cases how with
    | clearTemp =>
      rw [How.apply]
      split <;> exact Shrinks.refl _
    | _ => exact Shrinks.refl _
  | wait t set =>
    rcases critical_some h with ⟨_, _, rfl⟩
    have htake := drains_takeNext s t set
    rw [sigtimedwaitBegin]
    split
    · next m e heq =>
      rw [heq] at htake
      exact htake
    · next m heq =>
      rw [heq] at htake
      exact htake.trans (drains_modify _ (Shrinks.refl _))
  | waitEnd t =>
    rcases critical_some h with ⟨_, _, rfl⟩
    exact ((drains_modify (fun th => { th with waiting := 0#64, place := .running })
      (Shrinks.refl _)).trans (drains_takeNext _ t _)).trans (drains_maskChanged _ t _)
  | signalfd t mask room =>
    rcases critical_some h with ⟨_, _, rfl⟩
    exact drains_signalfd t mask room s
  | receive t =>
    rcases critical_some h with ⟨_, _, rfl⟩
    exact (drains_setPlace s t _).of_eq rfl rfl rfl
  | handoff | exit =>
    rcases ite_none_right_eq_some.mp h with ⟨_, ⟨⟩⟩
    exact drains_modify _ (Shrinks.refl _)
  | exitHandoff t =>
    rcases critical_some h with ⟨_, _, rfl⟩
    rw [exitHandoff]
    exact drains_modify _ (Shrinks.refl _)
  | ptrace t traced stopped deliverSig =>
    cases h
    exact drains_modify _ (Shrinks.refl _)
  | sigaction sig handler =>
    rcases ite_none_right_eq_some.mp h with ⟨_, ⟨⟩⟩
    exact (Drains.refl s).of_eq rfl rfl rfl
  | receiveTurn t frame =>
    dsimp only [execLoop] at h
    split at h
    · rcases ite_none_right_eq_some.mp h with ⟨_, ⟨⟩⟩
      exact drains_receiveTurn s t _ frame
    · cases h
  | trapStop t =>
    dsimp only [execLoop] at h
    split at h
    · rcases ite_none_right_eq_some.mp h with ⟨_, ⟨⟩⟩
      exact (Drains.refl s).of_eq rfl rfl rfl
    · cases h
  | relock t =>
    dsimp only [execLoop] at h
    split at h
    · rcases ite_none_right_eq_some.mp h with ⟨_, ⟨⟩⟩
      exact (Drains.refl s).of_eq rfl rfl rfl
    · rcases ite_none_right_eq_some.mp h with ⟨_, ⟨⟩⟩
      exact (Drains.refl s).of_eq rfl rfl rfl
    · cases h
  | retarget t taken =>
    dsimp only [execLoop] at h
    split at h
    · rcases ite_none_right_eq_some.mp h with ⟨_, ⟨⟩⟩
      rw [retargetBegin]
      split
      · exact (drains_setPlace s t _).of_eq rfl rfl rfl
      · exact drains_setPlace s t _
    · cases h
  | handOn t =>
    dsimp only [execLoop] at h
    split at h
    · rcases ite_none_right_eq_some.mp h with ⟨_, ⟨⟩⟩
      exact drains_handOn s t _ _
    · cases h

/-! ## The invariant -/

/-- No two signals are pending of which one cancels the other, and a signal on its way to a thread
    cancels nothing on the queues of the other threads. -/
structure Apart (s : Proc n) : Prop where
  clash : ∀ a b, Cancels a b → Pending s a → ¬ Pending s b
  sending : ∀ x ∈ s.sending, ∀ u, u ≠ x.1 → ∀ b, Cancels x.2.sig b →
    has (s.threads u).own.pending b = false

theorem Shrinks.not_has {q q' : Queue} (h : Shrinks q q') (hno : has q.pending sig = false) :
    has q'.pending sig = false := by
  cases hb : has q'.pending sig with
  | false => rfl
  | true =>
    rw [h sig hb] at hno
    exact hno

theorem Apart.drains (hs : Apart s) (h : Drains s s') : Apart s' := by
  refine ⟨fun a b hab ha hb => hs.clash a b hab (h.pending ha) (h.pending hb),
    fun x hx u hu b hb => ?_⟩
  rw [h.sending] at hx
  exact (h.own u).not_has (hs.sending x hx u hu b hb)

/-- A signal comes that cancels nothing that is pending. -/
theorem Apart.clash_of_add {m : Proc n} {x : Sig} (hm : Apart m)
    (hadd : ∀ sig, Pending s' sig → Pending m sig ∨ sig = x)
    (hnone : ∀ b, Cancels x b → ¬ Pending m b) :
    ∀ a b, Cancels a b → Pending s' a → ¬ Pending s' b := by
  intro a b hab ha hb
  rcases hadd a ha with ha | rfl
  · rcases hadd b hb with hb | rfl
    · exact hm.clash a b hab ha hb
    · exact hnone a hab.symm ha
  · rcases hadd b hb with hb | rfl
    · exact hnone b hab hb
    · exact not_cancels_self _ hab

theorem flush_none {q : Queue} (h : Cancels a b) :
    has (q.flush (stopContCancels a)).pending b = false := by
  rw [Queue.flush, has_and, has_not, show has (stopContCancels a) b = true from h, Bool.not_true,
    Bool.and_false]

theorem cancels_ne_zero (h : Cancels a b) : stopContCancels a ≠ 0#64 :=
  ne_zero_iff.mpr ⟨b, h⟩

/-- What a signal cancels is gone from the process and from the threads that were looked at. -/
theorem prepare_shared {l : List (Fin n)} (h : Cancels a b) :
    has (prepareStopCont s a l).shared.pending b = false := by
  rw [prepareStopCont]
  rw [if_neg (cancels_ne_zero h)]
  exact flush_none h

theorem prepare_own {l : List (Fin n)} {u : Fin n} (h : Cancels a b) (hu : u ∈ l) :
    has ((prepareStopCont s a l).threads u).own.pending b = false := by
  rw [prepareStopCont]
  rw [if_neg (cancels_ne_zero h)]
  dsimp only
  rw [if_pos hu]
  exact flush_none h

/-- The exiting threads have nothing that the signal cancels. -/
def ExitingClear (s : Proc n) (a : Sig) : Prop :=
  ∀ u, (s.threads u).exiting = true → ∀ b, Cancels a b → has (s.threads u).own.pending b = false

/-- Then a snapshot reaches every thread that matters. -/
theorem prepare_members (hclear : ExitingClear s a) (h : Cancels a b) (u : Fin n) :
    has ((prepareStopCont s a s.members).threads u).own.pending b = false := by
  cases hexits : (s.threads u).exiting with
  | true => exact ((drains_prepare s a s.members).own u).not_has (hclear u hexits b h)
  | false =>
    refine prepare_own h ?_
    rw [Proc.members, mem_filter, hexits]
    exact ⟨mem_finRange u, rfl⟩

/-- What a step of a send must be like: its snapshot is taken and reaches every thread with a
    signal to cancel, and a signal is not queued on a thread while one that cancels it is on its
    way to another. -/
def Orderly (s : Proc n) : Action n → Prop
  | .kill _ e _ => ExitingClear s e.sig
  | .tkill _ e taken => ExitingClear s e.sig ∧ (taken = true ∨ stopContCancels e.sig = 0#64)
  | .send i =>
    ∀ t e, s.sending[i]? = some (t, e) → ∀ j u e', j ≠ i → s.sending[j]? = some (u, e') →
      u = t ∨ ¬ Cancels e'.sig e.sig
  | _ => True

/-! ## Sends -/

theorem tellFirst_drains (sig : Sig) (members : List (Fin n)) (s : Proc n) :
    Drains s (tellFirst s sig members) := by
  induction members with
  | nil => exact Drains.refl s
  | cons m rest ih =>
    rw [tellFirst]
    split
    · exact (drains_tell s m).of_eq rfl rfl rfl
    · exact ih

/-- A signal to the process is queued on it, or not at all. -/
theorem deliverToGroup_drains (target : Fin n) (e : SigQueue) (members : List (Fin n)) :
    Drains s (deliverToGroup s target e members) ∨
      Drains { s with shared := s.shared.enqueue e } (deliverToGroup s target e members) := by
  have htold : ∀ (m : Proc n) (taker : Fin n),
      Drains m (if groupSignalFatal m taker e.sig then tellFirst m e.sig members
        else groupSignalTell m taker) := by
    intro m taker
    split
    · exact tellFirst_drains e.sig members m
    · exact drains_tell m _
  rw [deliverToGroup]
  split
  · exact .inl (Drains.refl s)
  dsimp only
  generalize hm : (if (!(!isRealtime e.sig && has s.shared.pending e.sig) || e.fromTimer) = true
    then ({ s with shared := s.shared.enqueue e } : Proc n) else s) = m
  split at hm
  · rw [← hm]
    right
    split
    · exact Drains.refl _
    · exact htold _ _
  · rw [← hm]
    left
    split
    · exact Drains.refl _
    · exact htold _ _

theorem apart_kill (target : Fin n) (e : SigQueue) (taken : Bool) (hs : Apart s)
    (hclear : ExitingClear s e.sig) : Apart (sendProcessSignal s target e taken) := by
  rw [sendProcessSignal]
  split
  · have hm : Apart (prepareStopCont s e.sig s.members) := hs.drains (drains_prepare _ _ _)
    have hnone : ∀ b, Cancels e.sig b → ¬ Pending (prepareStopCont s e.sig s.members) b := by
      rintro b hb (hshared | ⟨u, hown⟩)
      · rw [prepare_shared hb] at hshared
        cases hshared
      · rw [prepare_members hclear hb u] at hown
        cases hown
    generalize prepareStopCont s e.sig s.members = m at hm hnone ⊢
    rcases deliverToGroup_drains (s := m) target e s.members with hdrains | hdrains
    · exact hm.drains hdrains
    -- Nothing but the signal itself is new, and on no thread.
    refine ⟨hm.clash_of_add (fun sig hsig => ?_) hnone, fun x hx u hu b hb => ?_⟩
    · rcases hdrains.pending hsig with hshared | hown
      · rw [has_enqueue, or_eq_true, decide_eq_true_eq] at hshared
        exact hshared.imp_left .inl
      · exact .inl (.inr hown)
    · rw [hdrains.sending] at hx
      exact (hdrains.own u).not_has (hm.sending x hx u hu b hb)
  · exact hs

theorem apart_tkill (t : Fin n) (e : SigQueue) (taken : Bool) (hs : Apart s)
    (hclear : ExitingClear s e.sig) (htaken : taken = true ∨ stopContCancels e.sig = 0#64) :
    Apart (prepareThreads s t e taken) := by
  -- After the first half nothing that the signal cancels is on any thread.
  have hfirst : ∃ m : Proc n, prepareThreads s t e taken =
        { m with sending := s.sending ++ [(t, e)] } ∧ Drains s m ∧
      ∀ u b, Cancels e.sig b → has (m.threads u).own.pending b = false := by
    rw [prepareThreads]
    split
    · next hyes =>
      refine ⟨prepareStopCont s e.sig s.members, ?_, drains_prepare _ _ _,
        fun u b hb => prepare_members hclear hb u⟩
      rw [(drains_prepare s e.sig s.members).sending]
    · next hno =>
      refine ⟨s, rfl, Drains.refl s, fun u b hb => ?_⟩
      rcases htaken with rfl | hzero
      · rw [Bool.true_and, not_eq_true', not_eq_false] at hno
        refine hclear u ?_ b hb
        cases hexits : (s.threads u).exiting with
        | true => rfl
        | false =>
          have hmem : u ∈ s.members := by
            rw [Proc.members, mem_filter, hexits]
            exact ⟨mem_finRange u, rfl⟩
          rw [isEmpty_iff.mp hno] at hmem
          cases hmem
      · exact absurd hzero (cancels_ne_zero hb)
  rcases hfirst with ⟨m, heq, hdrains, hclean⟩
  have hm := hs.drains hdrains
  rw [heq]
  refine ⟨hm.clash, fun x hx u hu b hb => ?_⟩
  rcases mem_append.mp hx with hx | hx
  · rw [← hdrains.sending] at hx
    exact hm.sending x hx u hu b hb
  rw [mem_singleton.mp hx] at hb
  exact hclean u b hb

/-- The second half of a send queues the signal on its thread, or does nothing new. -/
theorem sendSignal_cases (t : Fin n) (e : SigQueue) : Drains s (sendSignal s t e) ∨
      sendSignal s t e = (prepareStopCont s e.sig [t]).modify t
        (fun th => { th with own := th.own.enqueue e }) := by
  rw [sendSignal]
  split
  · exact .inl (Drains.refl s)
  dsimp only
  split
  · exact .inl (drains_prepare _ _ _)
  rw [deliverToThread]
  split
  · exact .inr rfl
  · exact .inl (drains_prepare _ _ _)

theorem apart_send {i : Nat} {t : Fin n} {e : SigQueue} (hs : Apart s)
    (hi : s.sending[i]? = some (t, e))
    (hcross : ∀ j u e', j ≠ i → s.sending[j]? = some (u, e') → u = t ∨ ¬ Cancels e'.sig e.sig) :
    Apart { sendSignal s t e with sending := s.sending.eraseIdx i } := by
  have hmem : (t, e) ∈ s.sending := mem_of_getElem? hi
  rcases sendSignal_cases (s := s) t e with hdrains | heq
  · have hm := hs.drains hdrains
    refine ⟨hm.clash, fun x hx u hu b hb => ?_⟩
    refine hm.sending x ?_ u hu b hb
    rw [hdrains.sending]
    exact mem_of_mem_eraseIdx hx
  · rw [heq]
    have hprep := drains_prepare s e.sig [t]
    have hm := hs.drains hprep
    have hsending := hprep.sending
    -- The target and the process were cleared now, the other threads in the first half.
    have hnone : ∀ b, Cancels e.sig b → ¬ Pending (prepareStopCont s e.sig [t]) b := by
      rintro b hb (hshared | ⟨u, hown⟩)
      · rw [prepare_shared hb] at hshared
        cases hshared
      · by_cases hut : u = t
        · rw [hut, prepare_own hb (mem_singleton_self t)] at hown
          cases hown
        rw [(hprep.own u).not_has (hs.sending (t, e) hmem u hut b hb)] at hown
        cases hown
    generalize prepareStopCont s e.sig [t] = m at hm hnone hsending ⊢
    have hself := modify_self m t fun th => { th with own := th.own.enqueue e }
    have hother := fun u (hu : u ≠ t) =>
      modify_other m (fun th => { th with own := th.own.enqueue e }) hu
    refine ⟨hm.clash_of_add (fun sig hsig => ?_) hnone, fun x hx u hu b hb => ?_⟩
    · rcases hsig with hshared | ⟨u, hown⟩
      · exact .inl (.inl hshared)
      by_cases hut : u = t
      · rw [hut, hself, has_enqueue, or_eq_true, decide_eq_true_eq] at hown
        exact hown.imp_left fun hown => .inr ⟨t, hown⟩
      rw [hother u hut] at hown
      exact .inl (.inr ⟨u, hown⟩)
    · have hold : has (m.threads u).own.pending b = false := by
        refine hm.sending x ?_ u hu b hb
        rw [hsending]
        exact mem_of_mem_eraseIdx hx
      by_cases hut : u = t
      · -- The other send does not cancel what was queued.
        rcases mem_eraseIdx_iff_getElem?.mp hx with ⟨j, hji, hj⟩
        rcases hcross j x.1 x.2 hji hj with hxt | hnot
        · exact absurd (hut.trans hxt.symm) hu
        rw [hut] at hold ⊢
        rw [hself, has_enqueue, hold, Bool.false_or, decide_eq_false_iff_not]
        rintro rfl
        exact hnot hb
      · rw [hother u hut]
        exact hold

/-- Every orderly step keeps the two kinds apart. -/
theorem exec_apart {a : Action n} (hs : Apart s) (horder : Orderly s a) (h : Step s a s') :
    Apart s' := by
  by_cases hquiet : a.isQuiet = true
  · exact hs.drains (exec_drains hquiet h)
  rw [Step, exec.eq_def] at h
  cases a with
  | kill target e taken =>
    rcases ite_none_right_eq_some.mp h with ⟨_, ⟨⟩⟩
    exact apart_kill target e taken hs horder
  | tkill t e taken =>
    rcases ite_none_right_eq_some.mp h with ⟨_, ⟨⟩⟩
    exact apart_tkill t e taken hs horder.1 horder.2
  | send i =>
    dsimp only at h
    split at h
    · next t e hi =>
      rcases ite_none_right_eq_some.mp h with ⟨_, ⟨⟩⟩
      exact apart_send hs hi (horder t e hi)
    · cases h
  | _ => exact absurd rfl hquiet

/-! ## Runs -/

/-- Nothing is pending, and nothing is on its way. -/
structure Quiet (s : Proc n) : Prop where
  pending : ∀ sig, ¬ Pending s sig
  sending : s.sending = []

theorem Quiet.apart (h : Quiet s) : Apart s := by
  refine ⟨fun a _ _ ha => absurd ha (h.pending a), fun x hx => ?_⟩
  rw [h.sending] at hx
  cases hx

/-- In every run of orderly steps, `SIGCONT` and a stop signal are never pending together, on
    whichever of the queues of the process. -/
theorem stop_cont_apart {tr : List (Proc n × Action n)} (hquiet : Quiet s)
    (hrun : Run Step s tr s') (horder : ∀ u a, (u, a) ∈ tr → Orderly u a) :
    ∀ stop ∈ [sigstop, sigtstp, sigttin, sigttou], ¬ (Pending s' sigcont ∧ Pending s' stop) := by
  have happart : Apart s' := run_invariant Apart hrun hquiet.apart
    (fun u a v hmem hu hstep => exec_apart hu (horder u a hmem) hstep)
  intro stop hstop
  have hcancels : Cancels sigcont stop := by
    rw [cancels_iff]
    refine .inl ⟨rfl, ?_⟩
    have hall : ∀ x ∈ [sigstop, sigtstp, sigttin, sigttou], has stopMask x = true := by decide
    exact hall stop hstop
  exact fun ⟨hcont, hpend⟩ => happart.clash sigcont stop hcancels hcont hpend

instance (s : Proc n) (sig : Sig) : Decidable (Pending s sig) :=
  inferInstanceAs (Decidable (_ ∨ _))

theorem quiet_idle (blocked : Fin n → SigSet) : Quiet (idle blocked) := by
  refine ⟨?_, rfl⟩
  rintro sig (hshared | ⟨t, hown⟩)
  · exact absurd hshared (by simp [idle, has_zero])
  · exact absurd hown (by simp [idle, has_zero])

/-- A step that is orderly since no thread exits and at most one signal is on its way. -/
def orderlyCheck (s : Proc n) : Action n → Bool
  | .kill _ _ _ => decide (∀ u, (s.threads u).exiting = false)
  | .tkill _ _ taken => taken && decide (∀ u, (s.threads u).exiting = false)
  | .send _ => s.sending.length ≤ 1
  | _ => true

theorem exitingClear_of_none (h : ∀ u, (s.threads u).exiting = false) : ExitingClear s sig := by
  intro u hexits
  rw [h u] at hexits
  cases hexits

theorem orderly_of_check {a : Action n} (h : orderlyCheck s a = true) : Orderly s a := by
  cases a with
  | kill target e taken => exact exitingClear_of_none (of_decide_eq_true h)
  | tkill t e taken =>
    rw [orderlyCheck, and_eq_true, decide_eq_true_eq] at h
    exact ⟨exitingClear_of_none h.2, .inl h.1⟩
  | send i =>
    intro t e hi j u e' hji hj
    have hone := of_decide_eq_true h
    rcases List.getElem?_eq_some_iff.mp hi with ⟨hilt, _⟩
    rcases List.getElem?_eq_some_iff.mp hj with ⟨hjlt, _⟩
    omega
  | _ => trivial

/-- A stop signal to a thread, and then `SIGCONT` to the process. -/
theorem stop_cont_apart_cancelled :
    ∃ (tr : List (Proc 2 × Action 2)) (u : Proc 2), Run Step (idle fun _ => 0#64) tr u ∧
      (∀ v a, (v, a) ∈ tr → Orderly v a) ∧ Pending u sigcont ∧
      ∀ stop ∈ [sigstop, sigtstp, sigttin, sigttou], ¬ (Pending u sigcont ∧ Pending u stop) := by
  have heval : (runActions exec (idle fun _ => 0#64 : Proc 2)
      [.tkill 0 (plain sigtstp) true, .send 0, .kill 1 (plain sigcont) true]).map (fun r =>
        (r.1.all (fun x => orderlyCheck x.1 x.2), decide (Pending r.2 sigcont))) =
      some (true, true) := by
    decide +kernel
  rcases Option.map_eq_some_iff.mp heval with ⟨⟨tr, u⟩, hrun, hchecks⟩
  simp only [Prod.mk.injEq, decide_eq_true_eq, all_eq_true] at hchecks
  have hruns := run_of_runActions _ _ _ _ hrun
  have horder : ∀ v a, (v, a) ∈ tr → Orderly v a := fun v a hva =>
    orderly_of_check (hchecks.1 (v, a) hva)
  exact ⟨tr, u, hruns, horder, hchecks.2, stop_cont_apart (quiet_idle _) hruns horder⟩

/-- `SIGCONT` is sent to one thread and `SIGTSTP` to another. Both cancel, then both queue. -/
theorem sends_cross :
    ∃ (tr : List (Proc 2 × Action 2)) (u : Proc 2), Quiet (idle fun _ : Fin 2 => 0#64) ∧
      Run Step (idle fun _ => 0#64) tr u ∧ Pending u sigcont ∧ Pending u sigtstp := by
  have heval : (runActions exec (idle fun _ => 0#64 : Proc 2)
      [.tkill 0 (plain sigcont) true, .tkill 1 (plain sigtstp) true, .send 0, .send 0]).map
        (fun r => decide (Pending r.2 sigcont ∧ Pending r.2 sigtstp)) = some true := by
    decide +kernel
  rcases Option.map_eq_some_iff.mp heval with ⟨⟨tr, u⟩, hrun, hchecks⟩
  rw [decide_eq_true_eq] at hchecks
  exact ⟨tr, u, quiet_idle _, run_of_runActions _ _ _ _ hrun, hchecks⟩

end IshAok.Signal
