import IshAok.Core.LockWait
import IshAok.Theory.FileLock.Setlk

/-!
# The Invariant of Waiting Threads

What holds of every thread in `F_SETLKW`, whatever the interleaving. The
threads that have an inode locked are known from their phase, so two of them
are never on the same inode, and as long as a thread has the inode locked the
lock that blocks it stays where it is.

A sleeping thread has given the inode up. Its blocker's lock may go away
then, but only by a step that notifies the sleepers: a step that notifies
nobody takes no byte from anyone (`placeLock_quiet`). So a waiter that has
not been notified is still blocked by the owner it names.

## Main definitions

* `Stands`: The named blocker holds a lock that conflicts.
* `PhaseOk`: What a thread in a given phase knows.
* `Phase.listed`: The waiter a thread has in the list.
* `WaitInv`: The invariant.

## Theorems

* `stands_of_placeLock`, `stands_of_remove`: Quiet changes keep blockers.
* `inv_setLocks`: Changing an inode's locks keeps the invariant.
* `inv_move`: A thread moving on keeps it.
* `waitStep_inv`, `run_waitInv`: The invariant along every run.
-/

namespace IshAok.FileLock

open List Function

variable {Tid Ino Owner : Type}

/-- The owner a request is said to be blocked by holds a conflicting lock. -/
def Stands (locks : List (Lock Owner)) (q : Lock Owner) (blocker : Option Owner) : Prop :=
  ∃ l ∈ locks, blocker = some l.owner ∧ fileLocksConflict l q

/-- What a thread in a phase may rely on: its hold on the inode, and the lock
    that is in its way unless it has been notified since. -/
def PhaseOk (holder : Ino → Option Tid) (locks : Ino → List (Lock Owner)) (t : Tid) :
    Phase Ino Owner → Prop
  | .idle => True
  | .trying ino q _ => holder ino = some t ∧ q.Valid
  | .conflicted ino q b => holder ino = some t ∧ q.Valid ∧ Stands (locks ino) q b
  | .checked ino q b => holder ino = some t ∧ q.Valid ∧ Stands (locks ino) q b
  | .registered ino q b => holder ino = some t ∧ q.Valid ∧ Stands (locks ino) q b
  | .asleep ino q b notified => q.Valid ∧ (notified = false → Stands (locks ino) q b)
  | .awake ino q b notified _ =>
    holder ino = some t ∧ q.Valid ∧ (notified = false → Stands (locks ino) q b)

/-- The waiter of a thread, as owner and blocker. -/
def Phase.listed : Phase Ino Owner → Option (Owner × Option Owner)
  | .registered _ q b => some (q.owner, b)
  | .asleep _ q b _ => some (q.owner, b)
  | .awake _ q b _ _ => some (q.owner, b)
  | _ => none

/-- The invariant of the system. -/
structure WaitInv (s : WaitState Tid Ino Owner) : Prop where
  kept : ∀ ino, Kept (s.locks ino)
  threads : ∀ t, PhaseOk s.holder s.locks t (s.phase t)
  listed : ∀ w ∈ s.waiters, (s.phase w.tid).listed = some (w.owner, w.blockedOn)

theorem waitInv_initial : WaitInv (WaitState.initial : WaitState Tid Ino Owner) :=
  ⟨fun _ => kept_nil, fun _ => trivial, fun _ hw => absurd hw not_mem_nil⟩

/-- A thread only depends on its own holds. -/
theorem phaseOk_holder (holder holder' : Ino → Option Tid) (locks : Ino → List (Lock Owner))
    (t : Tid) (p : Phase Ino Owner)
    (hh : ∀ ino, holder ino = some t → holder' ino = some t)
    (h : PhaseOk holder locks t p) : PhaseOk holder' locks t p := by
  cases p with
  | idle => trivial
  | trying ino | conflicted ino | checked ino | registered ino
  | awake ino => exact ⟨hh ino h.1, h.2⟩
  | asleep ino q b n => exact h

/-- A thread that is not listed has no waiter in the list. -/
theorem not_listed (s : WaitState Tid Ino Owner) (h : WaitInv s) (t : Tid)
    (hp : (s.phase t).listed = none) (w : Waiter Tid Owner) (hw : w ∈ s.waiters) : w.tid ≠ t := by
  intro ht
  have hl := h.listed w hw
  rw [ht, hp] at hl
  cases hl

theorem resolveCall_valid (call : SetlkCall Owner) (q : Lock Owner)
    (h : resolveCall call = some q) : q.Valid ∧ q.owner = call.owner := by
  unfold resolveCall at h
  cases ht : lockTypeOf call.flock.type with
  | none => rw [ht] at h; exact nomatch h
  | some type =>
    rw [ht] at h
    simp only [] at h
    split at h
    · cases h
    cases hb : flockBase call.fd call.flock.whence with
    | error e =>
      unfold fileLockFromFlock at h
      rw [hb] at h
      cases h
    | ok base =>
      rcases fileLockFromFlock_cases call type base hb with ⟨e, he, -⟩ | ⟨r, hr, -, ho, hv, -⟩
      · rw [he] at h
        cases h
      · rw [hr] at h
        cases h
        exact ⟨hv, ho⟩

/-- A thread moves on: nobody else loses a hold, and the list of waiters
    agrees with the new phase. -/
theorem inv_move [DecidableEq Tid] (s s' : WaitState Tid Ino Owner) (t : Tid)
    (p : Phase Ino Owner) (h : WaitInv s) (hlocks : s'.locks = s.locks)
      (hphase : s'.phase = Function.update s.phase t p)
    (hholder : ∀ ino t', t' ≠ t → s.holder ino = some t' → s'.holder ino = some t')
    (hp : PhaseOk s'.holder s.locks t p)
    (hmine : ∀ w ∈ s'.waiters, w.tid = t → p.listed = some (w.owner, w.blockedOn))
    (hothers : ∀ w ∈ s'.waiters, w.tid ≠ t → w ∈ s.waiters) : WaitInv s' := by
  refine ⟨fun i => ?_, fun t' => ?_, fun w hw => ?_⟩
  · rw [hlocks]
    exact h.kept i
  · rw [hlocks, hphase]
    by_cases ht : t' = t
    · subst ht
      rw [update_self]
      exact hp
    · rw [update_of_ne ht]
      exact phaseOk_holder _ _ _ _ _ (fun ino => hholder ino t' ht) (h.threads t')
  · rw [hphase]
    by_cases ht : w.tid = t
    · rw [ht, update_self]
      exact hmine w hw ht
    · rw [update_of_ne ht]
      exact h.listed w (hothers w hw ht)

/-- A thread moves on and keeps its waiter, or goes on without one. -/
theorem inv_keep [DecidableEq Tid] (s s' : WaitState Tid Ino Owner) (t : Tid)
    (p : Phase Ino Owner) (h : WaitInv s) (hlocks : s'.locks = s.locks)
    (hwaiters : s'.waiters = s.waiters) (hphase : s'.phase = Function.update s.phase t p)
    (hholder : ∀ ino t', t' ≠ t → s.holder ino = some t' → s'.holder ino = some t')
    (hp : PhaseOk s'.holder s.locks t p) (hl : p.listed = (s.phase t).listed) : WaitInv s' := by
  refine inv_move s s' t p h hlocks hphase hholder hp (fun w hw ht => ?_) fun w hw _ => ?_
  · rw [hl, ← ht]
    exact h.listed w (hwaiters ▸ hw)
  · exact hwaiters ▸ hw

/-- What a thread in a known phase may rely on. -/
theorem phaseOk_of_phase {s : WaitState Tid Ino Owner} {t : Tid} {p : Phase Ino Owner}
    (h : WaitInv s) (hp : s.phase t = p) : PhaseOk s.holder s.locks t p :=
  hp ▸ h.threads t

variable [DecidableEq Ino]

@[simp]
theorem listed_notify (ino : Ino) (p : Phase Ino Owner) : (p.notify ino).listed = p.listed := by
  cases p <;> rfl

/-- What one thread sees when another, or nobody, changes the locks of an
    inode: it has no hold on that inode, so only sleeping threads notice. -/
theorem phaseOk_setLocks (holder : Ino → Option Tid) (locks : Ino → List (Lock Owner)) (t : Tid)
    (p : Phase Ino Owner) (ino : Ino) (change : List (Lock Owner) × Bool)
    (hno : holder ino ≠ some t)
    (hquiet : change.2 = false → ∀ q b, q.Valid → Stands (locks ino) q b → Stands change.1 q b)
    (h : PhaseOk holder locks t p) :
    PhaseOk holder (Function.update locks ino change.1) t
      (if change.2 then p.notify ino else p) := by
  have hother : ∀ i, holder i = some t → Function.update locks ino change.1 i = locks i := by
    intro i hi
    refine update_of_ne (fun he => hno ?_) _ _
    rw [← he]
    exact hi
  have hsleep : ∀ i q b n, q.Valid → (n = false → Stands (locks i) q b) →
      PhaseOk holder (Function.update locks ino change.1) t
        (if change.2 then (Phase.asleep i q b n).notify ino else .asleep i q b n) := by
    intro i q b n hq hst
    by_cases hc : change.2 = true
    · rw [if_pos hc]
      refine ⟨hq, fun hn => ?_⟩
      rw [Bool.or_eq_false_iff, decide_eq_false_iff_not] at hn
      rw [update_of_ne hn.2]
      exact hst hn.1
    · rw [if_neg hc]
      refine ⟨hq, fun hn => ?_⟩
      by_cases hi : i = ino
      · subst hi
        rw [update_self]
        exact hquiet (Bool.eq_false_iff.mpr hc) q b hq (hst hn)
      · rw [update_of_ne hi]
        exact hst hn
  cases p with
  | asleep i q b n => exact hsleep i q b n h.1 h.2
  | idle => simp only [Phase.notify, ite_self]; trivial
  | trying i q b => simp only [Phase.notify, ite_self]; exact h
  | conflicted i | checked i | registered i | awake i =>
    simp only [Phase.notify, ite_self, PhaseOk, hother i h.1]
    exact h

/-- Changing the locks of an inode, by the thread that has it locked or while
    nobody has. -/
theorem inv_setLocks (s : WaitState Tid Ino Owner) (ino : Ino)
    (change : List (Lock Owner) × Bool) (h : WaitInv s) (hkept : Kept change.1)
    (hquiet : change.2 = false → ∀ q b, q.Valid → Stands (s.locks ino) q b → Stands change.1 q b)
    (hholder : ∀ t, s.holder ino = some t → ∃ q blocking, s.phase t = .trying ino q blocking) :
    WaitInv (s.setLocks ino change) := by
  refine ⟨fun i => ?_, fun t => ?_, fun w hw => ?_⟩
  · unfold WaitState.setLocks
    by_cases hi : i = ino
    · subst hi
      simp only [update_self]
      exact hkept
    · simp only [update_of_ne hi]
      exact h.kept i
  · by_cases ht : s.holder ino = some t
    · obtain ⟨q, blocking, hp⟩ := hholder t ht
      have hok := h.threads t
      rw [hp] at hok
      simp only [WaitState.setLocks, hp, Phase.notify, ite_self]
      exact hok
    · exact phaseOk_setLocks s.holder s.locks t (s.phase t) ino change ht hquiet (h.threads t)
  · have hl := h.listed w hw
    simp only [WaitState.setLocks]
    split
    · rw [listed_notify]
      exact hl
    · exact hl

/-- Taking a free inode takes no hold from anyone. -/
theorem holder_enter (holder : Ino → Option Tid) (ino : Ino) (t : Tid) (h : holder ino = none)
    (i : Ino) (t' : Tid) (ht : holder i = some t') :
    Function.update holder ino (some t) i = some t' := by
  rw [update_of_ne (fun he => by
    rw [he, h] at ht
    exact absurd ht (by simp))]
  exact ht

/-- Giving an inode up takes no hold from anyone else. -/
theorem holder_leave (holder : Ino → Option Tid) (ino : Ino) (t : Tid) (h : holder ino = some t)
    (i : Ino) (t' : Tid) (hne : t' ≠ t) (ht : holder i = some t') :
    Function.update holder ino none i = some t' := by
  rw [update_of_ne (fun he => by
    rw [he, h] at ht
    exact hne (Option.some.inj ht).symm)]
  exact ht

variable [DecidableEq Owner]

/-- A lock that blocks survives a pass that notifies nobody. -/
theorem stands_of_placeLock (locks : List (Lock Owner)) (r q : Lock Owner) (b : Option Owner)
    (h : Kept locks) (hr : r.Valid) (hq : q.Valid) (hquiet : (placeLock false r locks).2 = false)
    (hs : Stands locks q b) : Stands (placeLock false r locks).1 q b := by
  obtain ⟨l, hl, hb, hne, hover, hwr⟩ := hs
  obtain ⟨x, hlx, hqx⟩ := covers_of_overlap l q (h.valid l hl) hq hover
  have hat := lockAt_of_mem locks h l x hl hlx
  have hheld : lockAt locks l.owner x ≠ .unlck := by
    rw [hat]
    exact h.locked l hl
  have hsame := placeLock_quiet locks r h hr hquiet l.owner x hheld
  obtain ⟨k, hk, hko, hkx, hkt⟩ := exists_of_lockAt (placeLock false r locks).1 l.owner x (by
    rw [hsame]
    exact hheld)
  rw [hsame, hat] at hkt
  refine ⟨k, hk, ?_, ?_, overlap_of_covers k q x hkx hqx, ?_⟩
  · rw [hko]
    exact hb
  · rw [hko]
    exact hne
  · rw [hkt]
    exact hwr

/-- Dropping the locks of an owner that has none changes nothing. -/
theorem stands_of_remove (locks : List (Lock Owner)) (o : Owner) (q : Lock Owner)
    (b : Option Owner) (hquiet : (fileLockRemoveOwnedBy locks o).2 = false)
    (hs : Stands locks q b) : Stands (fileLockRemoveOwnedBy locks o).1 q b := by
  obtain ⟨l, hl, hb, hc⟩ := hs
  refine ⟨l, mem_filter.mpr ⟨hl, decide_eq_true (fun ho => ?_)⟩, hb, hc⟩
  exact absurd hquiet (by
    rw [Bool.not_eq_false]
    exact decide_eq_true ⟨l, hl, ho⟩)

/-- An attempt that fails has found a lock that conflicts. -/
theorem stands_of_error (locks : List (Lock Owner)) (q : Lock Owner) (e : Errno)
    (h : fileLockAcquire locks q = .error e) :
    Stands locks q ((fileLockTest locks q).map Lock.owner) := by
  unfold fileLockAcquire at h
  split at h
  · rename_i hc
    obtain ⟨-, l, hl, hlc⟩ := hc
    unfold fileLockTest
    cases hf : locks.find? (fun lock => decide (fileLocksConflict lock q)) with
    | none => exact absurd (decide_eq_true hlc) (List.find?_eq_none.mp hf l hl)
    | some k =>
      have hk := List.find?_some hf
      rw [decide_eq_true_eq] at hk
      exact ⟨k, mem_of_find?_eq_some hf, rfl, hk⟩
  · cases h

variable [DecidableEq Tid]

theorem waitStep_inv (s s' : WaitState Tid Ino Owner) (e : WaitEvent Tid Ino Owner) (h : WaitInv s)
    (hs : WaitStep s e s') : WaitInv s' := by
  cases hs with
  | start t ino call q hidle hfree hq =>
    exact inv_keep s _ t _ h rfl rfl rfl (fun i t' _ => holder_enter _ _ _ hfree i t')
      ⟨update_self _ _ _, (resolveCall_valid call q hq).1⟩ (by rw [hidle]; rfl)
  | granted t ino q blocking change hp hacq =>
    have hok := phaseOk_of_phase h hp
    have hchange : change = placeLock false q (s.locks ino) := by
      unfold fileLockAcquire at hacq
      split at hacq
      · cases hacq
      · exact (Except.ok.inj hacq).symm
    subst hchange
    have hinv := inv_setLocks s ino _ h (placeLock_kept _ q (h.kept ino) hok.2)
      (fun hquiet r b hr => stands_of_placeLock _ q r b (h.kept ino) hok.2 hr hquiet)
      (fun t' ht' => by
        rw [hok.1] at ht'
        cases ht'
        exact ⟨q, blocking, hp⟩)
    refine inv_keep _ _ t _ hinv rfl rfl rfl (fun i t' => holder_leave _ _ _ hok.1 i t') trivial ?_
    simp only [WaitState.setLocks, hp, Phase.notify, ite_self]
    rfl
  | refused t _ _ _ hp | deadlock t _ _ _ hp =>
    exact inv_keep s _ t _ h rfl rfl rfl
      (fun i t' => holder_leave _ _ _ (phaseOk_of_phase h hp).1 i t') trivial (by rw [hp]; rfl)
  | conflicted t ino q e hp hacq =>
    have hok := phaseOk_of_phase h hp
    exact inv_keep s _ t _ h rfl rfl rfl (fun i t' _ hi => hi)
      ⟨hok.1, hok.2, stands_of_error _ q e hacq⟩ (by rw [hp]; rfl)
  | clear t ino q b hp hd =>
    have hok := phaseOk_of_phase h hp
    exact inv_keep s _ t _ h rfl rfl rfl (fun i t' _ hi => hi) hok (by rw [hp]; rfl)
  | register t ino q b hp =>
    have hok := phaseOk_of_phase h hp
    refine inv_move s _ t _ h rfl rfl (fun i t' _ hi => hi) hok ?_ ?_
    · intro w hw ht
      rcases mem_cons.mp hw with rfl | hw
      · rfl
      · exact absurd ht (not_listed s h t (by rw [hp]; rfl) w hw)
    · intro w hw ht
      rcases mem_cons.mp hw with rfl | hw
      · exact absurd rfl ht
      · exact hw
  | sleep t ino q b hp =>
    have hok := phaseOk_of_phase h hp
    exact inv_keep s _ t _ h rfl rfl rfl (fun i t' => holder_leave _ _ _ hok.1 i t')
      ⟨hok.2.1, fun _ => hok.2.2⟩ (by rw [hp]; rfl)
  | wake t ino q b n i hp hfree =>
    exact inv_keep s _ t _ h rfl rfl rfl (fun j t' _ => holder_enter _ _ _ hfree j t')
      ⟨update_self _ _ _, phaseOk_of_phase h hp⟩ (by rw [hp]; rfl)
  | retry t ino q b n hp =>
    have hok := phaseOk_of_phase h hp
    refine inv_move s _ t _ h rfl rfl (fun i t' _ hi => hi) ⟨hok.1, hok.2.1⟩ ?_
      (fun w hw _ => (mem_filter.mp hw).1)
    intro w hw ht
    exact absurd ht (of_decide_eq_true (mem_filter.mp hw).2)
  | interrupted t ino q b n hp =>
    refine inv_move s _ t _ h rfl rfl
      (fun i t' => holder_leave _ _ _ (phaseOk_of_phase h hp).1 i t') trivial ?_
      (fun w hw _ => (mem_filter.mp hw).1)
    intro w hw ht
    exact absurd ht (of_decide_eq_true (mem_filter.mp hw).2)
  | removeOwnedBy ino o hfree =>
    refine inv_setLocks s ino _ h (remove_kept _ o (h.kept ino))
      (fun hquiet q b _ => stands_of_remove _ o q b hquiet) fun t ht => ?_
    rw [hfree] at ht
    cases ht

theorem run_waitInv (tr : List (WaitState Tid Ino Owner × WaitEvent Tid Ino Owner))
    (s : WaitState Tid Ino Owner) (hr : Base.Run WaitStep WaitState.initial tr s) : WaitInv s :=
  Base.run_invariant WaitInv hr waitInv_initial fun u a v _ h hs => waitStep_inv u v a h hs

end IshAok.FileLock
