import Mathlib.Data.Fintype.Basic
import IshAok.Theory.FileLock.Wait

/-!
# Deadlock Detection of Record Locks

The walk of `posix_lock_would_deadlock` against two questions: does it keep
the recorded wait-for graph free of cycles, and does it report only real
deadlocks.

With one `F_SETLKW` per owner the recorded graph has one edge per owner, and
below 1024 waiters the walk sees all of a path, so a check that finds nothing
is right at that moment. It is not right for long: the waiter is added in
another critical section. Two threads that check one after the other and then
both add their waiters close a cycle that neither of them has seen. If nobody
registers between a thread's check and its registration, what it found still
holds when its edge is added, and the graph stays acyclic.

A waiter stays in the list until its thread runs again, so the walk may follow
an edge whose lock is gone. Where all the waiters it follows are still waiting
every edge is a conflict that exists, and the deadlock reported is real.

## Main definitions

* `WaitsFor`: The recorded graph.
* `OneCallPerOwner`: No owner has two threads in `F_SETLKW`.
* `BlockedBy`: The real graph, from pending requests and held locks.
* `FreshChain`: The waiters a walk follows are still waiting.

## Theorems

* `check_complete`: A check misses no cycle that exists.
* `waits_acyclic_of_windows`: No cycle is recorded if checks are not overtaken.
* `two_checks_close_cycle`: Two checks in a row and a recorded cycle.
* `edeadlk_real_of_fresh`: A deadlock found over fresh edges is real.
* `stale_edge_edeadlk`: A deadlock reported over a stale edge.
-/

namespace IshAok.FileLock

open Base List Function Option Relation

variable {Tid Ino Owner : Type}

/-- An edge of the recorded graph. -/
def WaitsFor (waiters : List (Waiter Tid Owner)) (o o' : Owner) : Prop :=
  ∃ w ∈ waiters, w.owner = o ∧ w.blockedOn = some o'

/-- The owner whose `F_SETLKW` a thread is in. -/
def Phase.setlkw : Phase Ino Owner → Option Owner
  | .idle => none
  | .trying _ q blocking => if blocking then some q.owner else none
  | .conflicted _ q _ => some q.owner
  | .checked _ q _ => some q.owner
  | .registered _ q _ => some q.owner
  | .asleep _ q _ _ => some q.owner
  | .awake _ q _ _ _ => some q.owner

/-- No two threads are in `F_SETLKW` for one owner. -/
def OneCallPerOwner (s : WaitState Tid Ino Owner) : Prop :=
  ∀ t t', t ≠ t' → (s.phase t).setlkw ≠ none → (s.phase t).setlkw ≠ (s.phase t').setlkw

/-- A thread is between its check and its registration. -/
def Phase.InWindow : Phase Ino Owner → Prop
  | .checked _ _ _ => True
  | _ => False

theorem setlkw_of_listed (p : Phase Ino Owner) (o : Owner) (b : Option Owner)
    (h : p.listed = some (o, b)) : p.setlkw = some o := by
  cases p <;> simp only [Phase.listed, reduceCtorEq, some.injEq, Prod.mk.injEq] at h <;>
    simp only [Phase.setlkw, h.1]

theorem checked_of_update [DecidableEq Tid] (phase : Tid → Phase Ino Owner) (t t' : Tid)
    (p r : Phase Ino Owner) (h : Function.update phase t p t' = r) (hr : r.InWindow)
    (hp : ¬ p.InWindow) : phase t' = r := by
  by_cases ht : t' = t
  · rw [ht, update_self] at h
    rw [h] at hp
    exact absurd hr hp
  · rw [update_of_ne ht] at h
    exact h

theorem checked_of_notify [DecidableEq Ino] (ino : Ino) (p r : Phase Ino Owner) (c : Bool)
    (hr : r.InWindow) (h : (if c then p.notify ino else p) = r) : p = r := by
  cases c with
  | false => exact h
  | true =>
    cases p with
    | asleep i q b n =>
      rw [← h] at hr
      exact absurd hr id
    | _ => exact h

variable [DecidableEq Owner]

theorem nextOwner_eq (waiters : List (Waiter Tid Owner)) (x y : Owner)
    (h : nextOwner waiters x = some y) :
    ∃ w, waiters.find? (fun w => decide (w.owner = x)) = some w ∧ w ∈ waiters ∧ w.owner = x ∧
      w.blockedOn = some y := by
  unfold nextOwner at h
  rw [bind_eq_some_iff] at h
  obtain ⟨w, hw, hb⟩ := h
  have ho := find?_some hw
  rw [decide_eq_true_eq] at ho
  exact ⟨w, hw, mem_of_find?_eq_some hw, ho, hb⟩

/-- With one call per owner the walk follows every recorded edge. -/
theorem nextOwner_of_waitsFor (s : WaitState Tid Ino Owner) (h : WaitInv s)
    (hone : OneCallPerOwner s) (x y : Owner) (hxy : WaitsFor s.waiters x y) :
    nextOwner s.waiters x = some y := by
  obtain ⟨w, hw, rfl, hb⟩ := hxy
  unfold nextOwner
  cases hf : s.waiters.find? (fun v => decide (v.owner = w.owner)) with
  | none => exact absurd (decide_eq_true rfl) (find?_eq_none.mp hf w hw)
  | some v =>
    have hv := find?_some hf
    rw [decide_eq_true_eq] at hv
    have hlv := h.listed v (mem_of_find?_eq_some hf)
    have hlw := h.listed w hw
    have htid : v.tid = w.tid := by
      by_contra hne
      have hsv := setlkw_of_listed _ _ _ hlv
      have hsw := setlkw_of_listed _ _ _ hlw
      refine hone v.tid w.tid hne (by simp [hsv]) ?_
      rw [hsv, hsw, hv]
    rw [htid, hlw] at hlv
    simp only [some.injEq, Prod.mk.injEq] at hlv
    rw [bind_some, ← hlv.2, hb]

/-- The walk sees everything a blocker waits for. -/
theorem seek_complete (s : WaitState Tid Ino Owner) (h : WaitInv s) (hone : OneCallPerOwner s)
    (hfew : s.waiters.length < walkDepth) (o self : Owner)
    (hreach : ReflTransGen (WaitsFor s.waiters) o self) :
    seek (nextOwner s.waiters) self walkDepth (some o) = true := by
  refine seek_of_reaches (nextOwner s.waiters) (s.waiters.map Waiter.owner) ?_ o self walkDepth
    (by rw [length_map]; exact hfew) ?_
  · intro x y hxy
    obtain ⟨w, -, hw, ho, -⟩ := nextOwner_eq s.waiters x y hxy
    exact mem_map.mpr ⟨w, hw, ho⟩
  · exact ReflTransGen.mono (nextOwner_of_waitsFor s h hone) _ _ hreach

/-- The blocker of a thread that has failed is another owner, so the check
    does walk. -/
theorem wouldDeadlock_eq (waiters : List (Waiter Tid Owner)) (locks : List (Lock Owner))
    (q : Lock Owner) (o : Owner) (h : Stands locks q (some o)) :
    posixLockWouldDeadlock waiters q.owner (some o) =
      seek (nextOwner waiters) q.owner walkDepth (some o) := by
  obtain ⟨l, -, ho, hne, -⟩ := h
  have hself : q.owner ≠ o := by
    cases ho
    exact fun he => hne he.symm
  simp only [posixLockWouldDeadlock, if_neg hself]

/-- A wait that would close a cycle is found by the check. -/
theorem check_complete (s : WaitState Tid Ino Owner) (h : WaitInv s) (hone : OneCallPerOwner s)
    (hfew : s.waiters.length < walkDepth) (t : Tid) (ino : Ino) (q : Lock Owner) (o : Owner)
    (hp : s.phase t = .conflicted ino q (some o))
    (hreach : ReflTransGen (WaitsFor s.waiters) o q.owner) :
    posixLockWouldDeadlock s.waiters q.owner (some o) = true := by
  have hok := h.threads t
  rw [hp] at hok
  rw [wouldDeadlock_eq s.waiters _ q o hok.2.2]
  exact seek_complete s h hone hfew o q.owner hreach

/-- No cycle is recorded, and none will be by a thread that has made its
    check. -/
structure Ordered (s : WaitState Tid Ino Owner) : Prop where
  inv : WaitInv s
  acyclic : Acyclic (WaitsFor s.waiters)
  safe : ∀ t ino q o, s.phase t = .checked ino q (some o) →
    ¬ ReflTransGen (WaitsFor s.waiters) o q.owner

omit [DecidableEq Owner] in
/-- Waiters that go away, and threads that leave their window, do no harm. -/
theorem ordered_shrink (s s' : WaitState Tid Ino Owner) (h : Ordered s) (hinv : WaitInv s')
    (hw : ∀ w ∈ s'.waiters, w ∈ s.waiters)
    (hp : ∀ t ino q b, s'.phase t = .checked ino q b → s.phase t = .checked ino q b) :
    Ordered s' := by
  have hsub : ∀ x y, WaitsFor s'.waiters x y → WaitsFor s.waiters x y := by
    rintro x y ⟨w, hmem, hxy⟩
    exact ⟨w, hw w hmem, hxy⟩
  refine ⟨hinv, acyclic_mono _ _ h.acyclic hsub, fun t ino q o ht hreach => ?_⟩
  exact h.safe t ino q o (hp t ino q (some o) ht) (ReflTransGen.mono hsub _ _ hreach)

variable [DecidableEq Tid] [DecidableEq Ino]

/-- One step of a run in which the windows are not overtaken. -/
theorem waitStep_ordered (s s' : WaitState Tid Ino Owner) (e : WaitEvent Tid Ino Owner)
    (h : Ordered s) (hone : OneCallPerOwner s) (hfew : s.waiters.length < walkDepth)
    (hwin : ∀ t, e = .register t → ∀ t', t' ≠ t → ¬ (s.phase t').InWindow)
    (hs : WaitStep s e s') : Ordered s' := by
  have hinv := waitStep_inv s s' e h.inv hs
  cases hs with
  | clear t ino q b hp hd =>
    -- The check has looked at the list as it is now.
    refine ⟨hinv, h.acyclic, fun t' ino' q' o ht' hreach => ?_⟩
    by_cases ht : t' = t
    · simp only [WaitState.setPhase, ht, update_self, Phase.checked.injEq] at ht'
      obtain ⟨rfl, rfl, rfl⟩ := ht'
      rw [check_complete s h.inv hone hfew t ino q o hp hreach] at hd
      cases hd
    · simp only [WaitState.setPhase, update_of_ne ht] at ht'
      exact h.safe t' ino' q' o ht' hreach
  | register t ino q b hp =>
    have hok := h.inv.threads t
    rw [hp] at hok
    obtain ⟨l, -, hb, -⟩ := hok.2.2
    refine ⟨hinv, ?_, fun t' ino' q' o ht' => ?_⟩
    · refine acyclic_insert _ _ q.owner l.owner h.acyclic ?_
        (h.safe t ino q l.owner (by rw [hp, hb]))
      rintro x y ⟨w, hw, rfl, hwy⟩
      rcases mem_cons.mp hw with rfl | hw
      · right
        simp only [hb, some.injEq] at hwy
        exact ⟨rfl, hwy.symm⟩
      · exact .inl ⟨w, hw, rfl, hwy⟩
    · -- Nobody else is in its window, and this thread has left its own.
      have hprev := checked_of_update _ _ _ _ _ ht' trivial id
      by_cases ht : t' = t
      · simp only [WaitState.setPhase, ht, update_self, reduceCtorEq] at ht'
      · exact absurd (by rw [hprev]; trivial) (hwin t rfl t' ht)
  | granted t ino q blocking change hp hacq =>
    refine ordered_shrink s _ h hinv (fun w hw => hw) fun t' i r b ht' => ?_
    have hleft := checked_of_update (s.setLocks ino change).phase _ _ _ _ ht' trivial id
    exact checked_of_notify ino _ _ _ trivial hleft
  | removeOwnedBy ino o hfree =>
    refine ordered_shrink s _ h hinv (fun w hw => hw) fun t' i r b ht' => ?_
    exact checked_of_notify ino _ _ _ trivial ht'
  | retry _ _ _ b | interrupted _ _ _ b =>
    refine ordered_shrink s _ h hinv (fun w hw => (mem_filter.mp hw).1) fun t' i r b ht' => ?_
    exact checked_of_update _ _ _ _ _ ht' trivial id
  | _ =>
    refine ordered_shrink s _ h hinv (fun w hw => hw) fun t' i r b ht' => ?_
    exact checked_of_update _ _ _ _ _ ht' trivial id

/-- What is assumed of the callers at every step: one `F_SETLKW` per owner, and
    fewer waiters than the walk is long. -/
structure Callers (s : WaitState Tid Ino Owner) : Prop where
  one : OneCallPerOwner s
  few : s.waiters.length < walkDepth

instance [Fintype Tid] (s : WaitState Tid Ino Owner) : Decidable (Callers s) :=
  decidable_of_iff ((∀ t t', t ≠ t' → (s.phase t).setlkw ≠ none →
    (s.phase t).setlkw ≠ (s.phase t').setlkw) ∧ s.waiters.length < walkDepth)
    ⟨fun h => ⟨h.1, h.2⟩, fun h => ⟨h.one, h.few⟩⟩

/-- If no thread registers while another is between its check and its
    registration, the recorded graph never has a cycle, and a wait that would
    close one is refused at its check. -/
theorem waits_acyclic_of_windows (tr : List (WaitState Tid Ino Owner × WaitEvent Tid Ino Owner))
    (s : WaitState Tid Ino Owner) (hr : Run WaitStep WaitState.initial tr s)
    (hcallers : ∀ x ∈ tr, Callers x.1)
    (hwin : ∀ u t, (u, .register t) ∈ tr → ∀ t', t' ≠ t → ¬ (u.phase t').InWindow) :
    Acyclic (WaitsFor s.waiters) ∧
    ∀ u e, (u, e) ∈ tr → Acyclic (WaitsFor u.waiters) ∧
      ∀ t ino q o, u.phase t = .conflicted ino q (some o) →
        ReflTransGen (WaitsFor u.waiters) o q.owner →
        posixLockWouldDeadlock u.waiters q.owner (some o) = true := by
  have h0 : Ordered (WaitState.initial : WaitState Tid Ino Owner) := by
    have hnone : ∀ x y, ¬ WaitsFor ([] : List (Waiter Tid Owner)) x y := by
      rintro x y ⟨w, hw, -⟩
      cases hw
    refine ⟨waitInv_initial, fun x hx => ?_, fun t ino q o ht => ?_⟩
    · obtain ⟨y, hxy, -⟩ := TransGen.head'_iff.mp hx
      exact hnone x y hxy
    · cases ht
  have hstep : ∀ u e v, (u, e) ∈ tr → Ordered u → WaitStep u e v → Ordered v := by
    intro u e v hmem hu hs
    refine waitStep_ordered u v e hu (hcallers (u, e) hmem).one (hcallers (u, e) hmem).few ?_ hs
    rintro t rfl
    exact hwin u t hmem
  refine ⟨(run_invariant Ordered hr h0 hstep).acyclic, fun u e hmem => ?_⟩
  have hu := run_mem_invariant Ordered hr h0 hstep hmem
  exact ⟨hu.acyclic, fun t ino q o hp hreach => check_complete u hu.inv (hcallers (u, e) hmem).one
    (hcallers (u, e) hmem).few t ino q o hp hreach⟩

/-- A request for the first ten bytes of a file opened for both. -/
def tenBytes (type : UInt16) (blocking : Bool) (owner : Fin 2) : SetlkCall (Fin 2) :=
  { fd := openAt 0, flock := ⟨type, 0, 0, 10⟩, blocking := blocking, owner := owner }

theorem resolve_tenBytes_write : ∀ (blocking : Bool) (owner : Fin 2),
    resolveCall (tenBytes 1 blocking owner) = some ⟨0, 9, .wrlck, owner⟩ := by
  decide

theorem resolve_tenBytes_unlock : ∀ (blocking : Bool) (owner : Fin 2),
    resolveCall (tenBytes 2 blocking owner) = some ⟨0, 9, .unlck, owner⟩ := by
  decide

/-- One owner waits for the other. -/
theorem waits_acyclic_of_windows_one :
    ∃ tr s, Run WaitStep (WaitState.initial : WaitState (Fin 2) (Fin 2) (Fin 2)) tr s ∧
      s.waiters = [⟨0, 0, some 1⟩] ∧ Acyclic (WaitsFor s.waiters) := by
  have hten := resolve_tenBytes_write
  have h0 := Run.start WaitStep (WaitState.initial : WaitState (Fin 2) (Fin 2) (Fin 2))
  have h1 := h0.next _ (.start _ 1 1 _ _ rfl rfl (hten false 1))
  have h2 := h1.next _ (.granted _ 1 1 _ _ _ rfl rfl)
  have h3 := h2.next _ (.start _ 0 1 _ _ rfl rfl (hten true 0))
  have h4 := h3.next _ (.conflicted _ 0 1 _ _ rfl rfl)
  have h5 := h4.next _ (.clear _ 0 1 _ _ rfl rfl)
  have h6 := h5.next _ (.register _ 0 1 _ _ rfl)
  refine ⟨_, _, h6, rfl, (waits_acyclic_of_windows _ _ h6 (by decide) ?_).1⟩
  intro u t hmem t' ht'
  simp only [nil_append, cons_append, mem_cons, Prod.mk.injEq, reduceCtorEq,
    and_false, not_mem_nil, or_false, false_or, WaitEvent.register.injEq] at hmem
  obtain ⟨rfl, rfl⟩ := hmem
  have h1 : t' = 1 := by omega
  subst h1
  exact id

/-- Two owners that each hold what the other wants, and check one after the
    other before either registers, end up waiting for each other. -/
theorem two_checks_close_cycle :
    ∃ tr s, Run WaitStep (WaitState.initial : WaitState (Fin 2) (Fin 2) (Fin 2)) tr s ∧
      (∀ x ∈ tr, Callers x.1) ∧ Callers s ∧ TransGen (WaitsFor s.waiters) 0 0 := by
  have hten := resolve_tenBytes_write
  have h0 := Run.start WaitStep (WaitState.initial : WaitState (Fin 2) (Fin 2) (Fin 2))
  -- Each owner write-locks a file of its own.
  have h1 := h0.next _ (.start _ 0 0 _ _ rfl rfl (hten false 0))
  have h2 := h1.next _ (.granted _ 0 0 _ _ _ rfl rfl)
  have h3 := h2.next _ (.start _ 1 1 _ _ rfl rfl (hten false 1))
  have h4 := h3.next _ (.granted _ 1 1 _ _ _ rfl rfl)
  -- Each asks for the other's file and finds nobody waiting.
  have h5 := h4.next _ (.start _ 0 1 _ _ rfl rfl (hten true 0))
  have h6 := h5.next _ (.conflicted _ 0 1 _ _ rfl rfl)
  have h7 := h6.next _ (.start _ 1 0 _ _ rfl rfl (hten true 1))
  have h8 := h7.next _ (.conflicted _ 1 0 _ _ rfl rfl)
  have h9 := h8.next _ (.clear _ 0 1 _ _ rfl rfl)
  have h10 := h9.next _ (.clear _ 1 0 _ _ rfl rfl)
  -- Both register.
  have h11 := h10.next _ (.register _ 0 1 _ _ rfl)
  have h12 := h11.next _ (.register _ 1 0 _ _ rfl)
  refine ⟨_, _, h12, by decide, by decide, ?_⟩
  have hab : WaitsFor [(⟨1, 1, some 0⟩ : Waiter (Fin 2) (Fin 2)), ⟨0, 0, some 1⟩] 0 1 :=
    ⟨⟨0, 0, some 1⟩, by decide, rfl, rfl⟩
  have hba : WaitsFor [(⟨1, 1, some 0⟩ : Waiter (Fin 2) (Fin 2)), ⟨0, 0, some 1⟩] 1 0 :=
    ⟨⟨1, 1, some 0⟩, by decide, rfl, rfl⟩
  exact (TransGen.single hab).tail hba

/-- The request a thread in `F_SETLKW` has not been given, on its inode. A
    thread that a signal has woken is not asking any more. -/
def Phase.pending : Phase Ino Owner → Option (Ino × Lock Owner)
  | .idle => none
  | .trying ino q blocking => if blocking then some (ino, q) else none
  | .conflicted ino q _ => some (ino, q)
  | .checked ino q _ => some (ino, q)
  | .registered ino q _ => some (ino, q)
  | .asleep ino q _ _ => some (ino, q)
  | .awake ino q _ _ interrupted => if interrupted then none else some (ino, q)

/-- An owner has a pending request that conflicts with a lock another owner
    holds now. -/
def BlockedBy (s : WaitState Tid Ino Owner) (o o' : Owner) : Prop :=
  ∃ t ino q, (s.phase t).pending = some (ino, q) ∧ q.owner = o ∧
    ∃ l ∈ s.locks ino, l.owner = o' ∧ fileLocksConflict l q

/-- A listed thread for which no wake is on its way and no signal has come. -/
def Phase.StillWaiting : Phase Ino Owner → Prop
  | .registered _ _ _ => True
  | .asleep _ _ _ notified => notified = false
  | .awake _ _ _ notified interrupted => notified = false ∧ interrupted = false
  | _ => False

/-- All the waiters the walk from a blocker follows are still waiting. -/
def FreshChain (s : WaitState Tid Ino Owner) (self blocker : Owner) : Prop :=
  ∀ o ∈ trail (nextOwner s.waiters) self walkDepth (some blocker), ∀ w,
    s.waiters.find? (fun w => decide (w.owner = o)) = some w → (s.phase w.tid).StillWaiting

omit [DecidableEq Tid] [DecidableEq Ino] [DecidableEq Owner] in
/-- The edge of a waiter that is still waiting is a conflict that exists. -/
theorem blockedBy_of_fresh (s : WaitState Tid Ino Owner) (h : WaitInv s) (w : Waiter Tid Owner)
    (o : Owner) (hw : w ∈ s.waiters) (hb : w.blockedOn = some o)
    (hstill : (s.phase w.tid).StillWaiting) : BlockedBy s w.owner o := by
  have hl := h.listed w hw
  have hok := h.threads w.tid
  -- Each listed phase has the request, and the lock that stands in its way.
  have hgoal : ∀ ino q, (s.phase w.tid).pending = some (ino, q) → q.owner = w.owner →
      Stands (s.locks ino) q w.blockedOn → BlockedBy s w.owner o := by
    rintro ino q hp ho ⟨l, hlm, hlo, hc⟩
    rw [hb, some.injEq] at hlo
    exact ⟨w.tid, ino, q, hp, ho, l, hlm, hlo.symm, hc⟩
  cases hp : s.phase w.tid with
  | registered ino q b =>
    rw [hp] at hl hok hgoal
    simp only [Phase.listed, some.injEq, Prod.mk.injEq] at hl
    exact hgoal ino q rfl hl.1 (hl.2 ▸ hok.2.2)
  | asleep ino q b n =>
    rw [hp] at hl hok hgoal hstill
    simp only [Phase.listed, some.injEq, Prod.mk.injEq] at hl
    exact hgoal ino q rfl hl.1 (hl.2 ▸ hok.2 hstill)
  | awake ino q b n i =>
    rw [hp] at hl hok hgoal hstill
    simp only [Phase.listed, some.injEq, Prod.mk.injEq] at hl
    refine hgoal ino q ?_ hl.1 (hl.2 ▸ hok.2.2 hstill.1)
    simp [Phase.pending, hstill.2]
  | _ =>
    rw [hp] at hstill
    exact absurd hstill id

/-- In every reachable state, a check that ends in `EDEADLK` over waiters that
    are all still waiting has found a cycle of owners, starting at the caller,
    each blocked by a lock the next one holds. -/
theorem edeadlk_real_of_fresh (tr : List (WaitState Tid Ino Owner × WaitEvent Tid Ino Owner))
    (s : WaitState Tid Ino Owner) (hr : Run WaitStep WaitState.initial tr s) (t : Tid) (ino : Ino)
    (q : Lock Owner) (o : Owner) (hp : s.phase t = .conflicted ino q (some o))
    (hd : posixLockWouldDeadlock s.waiters q.owner (some o) = true)
    (hfresh : FreshChain s q.owner o) : TransGen (BlockedBy s) q.owner q.owner := by
  have h := run_waitInv tr s hr
  have hok := h.threads t
  rw [hp] at hok
  rw [wouldDeadlock_eq s.waiters _ q o hok.2.2] at hd
  have hfirst : BlockedBy s q.owner o := by
    obtain ⟨l, hl, hlo, hc⟩ := hok.2.2
    exact ⟨t, ino, q, by rw [hp]; rfl, rfl, l, hl, (some.inj hlo).symm, hc⟩
  have hrest : ReflTransGen (BlockedBy s) o q.owner := by
    refine reaches_of_seek (nextOwner s.waiters) (BlockedBy s) q.owner walkDepth o hd ?_
    intro x hx y hxy
    obtain ⟨w, hf, hw, rfl, hb⟩ := nextOwner_eq s.waiters x y hxy
    exact blockedBy_of_fresh s h w y hw hb (hfresh _ hx w hf)
  exact TransGen.head' hfirst hrest

/-- The second of two owners to ask for what the other holds. -/
theorem edeadlk_real_of_fresh_two :
    ∃ tr s, Run WaitStep (WaitState.initial : WaitState (Fin 2) (Fin 2) (Fin 2)) tr s ∧
      posixLockWouldDeadlock s.waiters 1 (some 0) = true ∧
      TransGen (BlockedBy s) 1 1 := by
  have hten := resolve_tenBytes_write
  have h0 := Run.start WaitStep (WaitState.initial : WaitState (Fin 2) (Fin 2) (Fin 2))
  have h1 := h0.next _ (.start _ 0 0 _ _ rfl rfl (hten false 0))
  have h2 := h1.next _ (.granted _ 0 0 _ _ _ rfl rfl)
  have h3 := h2.next _ (.start _ 1 1 _ _ rfl rfl (hten false 1))
  have h4 := h3.next _ (.granted _ 1 1 _ _ _ rfl rfl)
  have h5 := h4.next _ (.start _ 0 1 _ _ rfl rfl (hten true 0))
  have h6 := h5.next _ (.conflicted _ 0 1 _ _ rfl rfl)
  have h7 := h6.next _ (.clear _ 0 1 _ _ rfl rfl)
  have h8 := h7.next _ (.register _ 0 1 _ _ rfl)
  have h9 := h8.next _ (.sleep _ 0 1 _ _ rfl)
  have h10 := h9.next _ (.start _ 1 0 _ _ rfl rfl (hten true 1))
  have h11 := h10.next _ (.conflicted _ 1 0 _ _ rfl rfl)
  refine ⟨_, _, h11, rfl, edeadlk_real_of_fresh _ _ h11 1 0 ⟨0, 9, .wrlck, 1⟩ 0 rfl rfl ?_⟩
  intro o ho w hw
  have ho' : o ∈ [(0 : Fin 2)] := ho
  rw [mem_singleton] at ho'
  subst ho'
  cases hw
  rfl

/-- An owner unlocks what another waits for, and asks for what the other holds
    before the sleeper has run: it is told of a deadlock although it holds
    nothing at all. -/
theorem stale_edge_edeadlk :
    ∃ tr s ino q o, Run WaitStep (WaitState.initial : WaitState (Fin 2) (Fin 2) (Fin 2)) tr s ∧
      s.phase 1 = .conflicted ino q (some o) ∧
      posixLockWouldDeadlock s.waiters q.owner (some o) = true ∧
      ¬ TransGen (BlockedBy s) q.owner q.owner := by
  have hten := resolve_tenBytes_write
  have h0 := Run.start WaitStep (WaitState.initial : WaitState (Fin 2) (Fin 2) (Fin 2))
  -- Each owner write-locks a file of its own, and owner 0 waits for owner 1.
  have h1 := h0.next _ (.start _ 0 0 _ _ rfl rfl (hten false 0))
  have h2 := h1.next _ (.granted _ 0 0 _ _ _ rfl rfl)
  have h3 := h2.next _ (.start _ 1 1 _ _ rfl rfl (hten false 1))
  have h4 := h3.next _ (.granted _ 1 1 _ _ _ rfl rfl)
  have h5 := h4.next _ (.start _ 0 1 _ _ rfl rfl (hten true 0))
  have h6 := h5.next _ (.conflicted _ 0 1 _ _ rfl rfl)
  have h7 := h6.next _ (.clear _ 0 1 _ _ rfl rfl)
  have h8 := h7.next _ (.register _ 0 1 _ _ rfl)
  have h9 := h8.next _ (.sleep _ 0 1 _ _ rfl)
  -- Owner 1 unlocks its file, which sends the wake.
  have h10 := h9.next _
    (.start _ 1 1 _ _ rfl rfl (resolve_tenBytes_unlock false 1))
  have h11 := h10.next _ (.granted _ 1 1 _ _ _ rfl rfl)
  -- It then asks for the file of owner 0.
  have h12 := h11.next _ (.start _ 1 0 _ _ rfl rfl (hten true 1))
  have h13 := h12.next _ (.conflicted _ 1 0 _ _ rfl rfl)
  refine ⟨_, _, 0, ⟨0, 9, .wrlck, 1⟩, 0, h13, rfl, rfl, fun hcycle => ?_⟩
  -- The last edge of a cycle would end at a lock of owner 1, and there is none.
  obtain ⟨x, -, t, ino, q, -, -, l, hl, hlo, -⟩ := TransGen.tail'_iff.mp hcycle
  have hino : ino = 0 ∨ ino = 1 := by omega
  rcases hino with rfl | rfl
  · have hmem : l ∈ [(⟨0, 9, .wrlck, 0⟩ : Lock (Fin 2))] := hl
    rw [mem_singleton] at hmem
    rw [hmem] at hlo
    cases hlo
  · have hmem : l ∈ ([] : List (Lock (Fin 2))) := hl
    cases hmem

end IshAok.FileLock
