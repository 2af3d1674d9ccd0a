import IshAok.Theory.FileLock.Deadlock

/-!
# No Waiter Sleeps on a Free Lock

A thread in `F_SETLKW` looks at the list of locks once and then sleeps until it is
notified. That is enough if nothing it waits for goes away in silence. The loop that
places a lock merges, trims, splits and deletes, but whenever it leaves some byte
with less than before it has notified, and so has the removal of an owner.

## Main definitions

* `Weakened`: A byte is held by less than before.

## Theorems

* `weakened_notifies`: A step that weakens a lock notifies every sleeper.
* `setlkw_never_stranded`: Both halves, along every run.
-/

namespace IshAok.FileLock

open Base Function

/-- A lock is removed, or a write lock turned into a read lock. -/
def Weakened (before after : LockType) : Prop :=
  (before = .wrlck ∧ after ≠ .wrlck) ∨ (before = .rdlck ∧ after = .unlck)

theorem Weakened.held {before after : LockType} (h : Weakened before after) :
    before ≠ .unlck ∧ after ≠ before := by
  rcases h with ⟨rfl, hne⟩ | ⟨rfl, rfl⟩
  · exact ⟨by decide, hne⟩
  · exact ⟨by decide, by decide⟩

variable {Tid Ino Owner : Type} [DecidableEq Tid] [DecidableEq Ino] [DecidableEq Owner]
  {s s' : WaitState Tid Ino Owner}

omit [DecidableEq Tid] in
/-- A change that weakens nothing unless it notifies, with a sleeper to hear it. -/
theorem asleep_setLocks {ino i : Ino} {change : List (Lock Owner) × Bool} {o : Owner} {b : Int}
    (hquiet : change.2 = false → ∀ o b, lockAt (s.locks ino) o b ≠ .unlck →
      lockAt change.1 o b = lockAt (s.locks ino) o b)
    (hweak : Weakened (lockAt (s.locks i) o b) (lockAt ((s.setLocks ino change).locks i) o b))
    {t : Tid} {q : Lock Owner} {blocker : Option Owner} {n : Bool}
    (hsleep : s.phase t = .asleep i q blocker n) :
    (s.setLocks ino change).phase t = .asleep i q blocker true := by
  unfold WaitState.setLocks at hweak ⊢
  by_cases hi : i = ino
  · subst hi
    simp only [update_self] at hweak
    cases hn : change.2 with
    | false => exact absurd (hquiet hn o b hweak.held.1) hweak.held.2
    | true => simp [hsleep, Phase.notify]
  · simp only [update_of_ne hi] at hweak
    exact absurd rfl hweak.held.2

/-- A step that weakens a lock of an inode notifies every sleeper there. -/
theorem weakened_notifies (h : WaitInv s) {e : WaitEvent Tid Ino Owner} (hs : WaitStep s e s')
    {i : Ino} {o : Owner} {b : Int}
    (hweak : Weakened (lockAt (s.locks i) o b) (lockAt (s'.locks i) o b))
    {t : Tid} {q : Lock Owner} {blocker : Option Owner} {n : Bool}
    (hsleep : s.phase t = .asleep i q blocker n) : s'.phase t = .asleep i q blocker true := by
  cases hs with
  | granted t' ino r blocking change htry hok =>
    have hvalid : r.Valid := by
      have hp := h.threads t'
      rw [htry] at hp
      exact hp.2
    have hchange : change = placeLock false r (s.locks ino) := by
      unfold fileLockAcquire at hok
      split at hok
      · cases hok
      · exact (Except.ok.inj hok).symm
    have hne : t ≠ t' := fun ht => by
      rw [ht, htry] at hsleep
      cases hsleep
    have hquiet : change.2 = false → ∀ o b, lockAt (s.locks ino) o b ≠ .unlck →
        lockAt change.1 o b = lockAt (s.locks ino) o b := fun hn o b hb => by
      subst hchange
      exact placeLock_quiet _ r (h.kept ino) hvalid hn o b hb
    exact (update_of_ne hne _ _).trans (asleep_setLocks hquiet hweak hsleep)
  | removeOwnedBy ino owner hfree =>
    refine asleep_setLocks (fun hn o b hb => ?_) hweak hsleep
    rw [lockAt_remove, if_neg]
    -- An owner with a lock is one whose removal is announced.
    rintro rfl
    rcases exists_of_lockAt _ _ _ hb with ⟨l, hl, hlo, -⟩
    exact of_decide_eq_false hn ⟨l, hl, hlo⟩
  | _ => exact absurd rfl hweak.held.2

/-- In every run, a step that weakens the lock of some byte of an inode notifies every
    waiter asleep there, and a waiter that stays asleep without a wake on its way is in
    conflict with a lock that is held. -/
theorem setlkw_never_stranded (tr : List (WaitState Tid Ino Owner × WaitEvent Tid Ino Owner))
    (s : WaitState Tid Ino Owner) (hr : Run WaitStep WaitState.initial tr s) :
    (∀ e s' i o b, WaitStep s e s' → Weakened (lockAt (s.locks i) o b) (lockAt (s'.locks i) o b) →
      ∀ t q blocker n, s.phase t = .asleep i q blocker n →
        s'.phase t = .asleep i q blocker true) ∧
    ∀ t i q blocker, s.phase t = .asleep i q blocker false →
      ∃ l ∈ s.locks i, fileLocksConflict l q := by
  have h := run_waitInv tr s hr
  refine ⟨fun e s' i o b hs hweak t q blocker n => weakened_notifies h hs hweak, ?_⟩
  intro t i q blocker hsleep
  have hp := h.threads t
  rw [hsleep] at hp
  rcases hp.2 rfl with ⟨l, hl, -, hc⟩
  exact ⟨l, hl, hc⟩

/-- Owner 0 sleeps on what owner 1 holds, until owner 1 unlocks it. -/
theorem setlkw_never_stranded_unlock :
    ∃ tr s s', Run WaitStep (WaitState.initial : WaitState (Fin 2) (Fin 2) (Fin 2)) tr s ∧
      WaitStep s (.attempt 1) s' ∧ s'.phase 0 = .asleep 1 ⟨0, 9, .wrlck, 0⟩ (some 1) true := by
  have hten := resolve_tenBytes_write
  have h0 := Run.start WaitStep (WaitState.initial : WaitState (Fin 2) (Fin 2) (Fin 2))
  have h1 := h0.next _ (.start _ 1 1 _ _ rfl rfl (hten false 1))
  have h2 := h1.next _ (.granted _ 1 1 _ _ _ rfl rfl)
  have h3 := h2.next _ (.start _ 0 1 _ _ rfl rfl (hten true 0))
  have h4 := h3.next _ (.conflicted _ 0 1 _ _ rfl rfl)
  have h5 := h4.next _ (.clear _ 0 1 _ _ rfl rfl)
  have h6 := h5.next _ (.register _ 0 1 _ _ rfl)
  have h7 := h6.next _ (.sleep _ 0 1 _ _ rfl)
  have h8 := h7.next _ (.start _ 1 1 _ _ rfl rfl (resolve_tenBytes_unlock false 1))
  refine ⟨_, _, _, h8, .granted _ 1 1 _ _ _ rfl rfl, ?_⟩
  exact (setlkw_never_stranded _ _ h8).1 _ _ 1 1 0 (.granted _ 1 1 _ _ _ rfl rfl)
    (.inl (by decide)) 0 _ _ _ rfl

end IshAok.FileLock
