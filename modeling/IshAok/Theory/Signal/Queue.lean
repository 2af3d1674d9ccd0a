import IshAok.Base.Run
import IshAok.Core.Signal
import Mathlib.Data.List.Perm.Basic

/-!
# Queues of Signals

What the functions that take and queue signals do to the pending set of a queue, and what
a change of one thread does to the others. A signal becomes pending only where it is
queued: to flush and to remove shrink the set.

A signal lives twice, as a bit of that set and as an entry of the queue. The operations
under `sighand->lock` each put an entry at the end of a queue, flush the entries of some
signals, or take one off. `Moved` says so once, with what was put and what left. A search
without the queue of the process is one in which that queue is empty.

## Main definitions

* `Shrinks`: No signal has become pending.
* `Agrees`, `Single`: A bit for every entry, and one entry of a standard signal.
* `QueueOp`, `Moved`: The operations, and what one does to a queue.
* `Best`, `Chosen`: The entry that is taken.

## Theorems

* `shrinks_flush`, `shrinks_removeAt`, `has_enqueue`: The operations on a queue.
* `modify_self`, `modify_other`: A change of one thread.
* `critical_some`: A critical section is entered where the thread is and the lock is free.
* `best_nextFrom`: The scan of a queue finds the best entry.
* `pending_agrees`: Bits and entries agree after every sequence, and takes are in order.
-/

namespace IshAok.Signal

open Base List

variable {q : Queue} {n : Nat} {s s' : Proc n} {t : Fin n}

/-- No signal has become pending. -/
def Shrinks (q q' : Queue) : Prop :=
  Within q'.pending q.pending

theorem Shrinks.refl (q : Queue) : Shrinks q q :=
  Within.refl _

theorem Shrinks.trans {q' q'' : Queue} (h : Shrinks q q') (h' : Shrinks q' q'') : Shrinks q q'' :=
  Within.trans h' h

/-! ## The operations -/

theorem shrinks_flush (q : Queue) (mask : SigSet) : Shrinks q (q.flush mask) :=
  within_and_left _ _

theorem has_enqueue (q : Queue) (e : SigQueue) (sig : Sig) :
    has (q.enqueue e).pending sig = (has q.pending sig || decide (sig = e.sig)) := by
  rw [Queue.enqueue, has_or, has_single]

theorem shrinks_removeAt (q : Queue) (i : Nat) (sig : Sig) : Shrinks q (q.removeAt i sig) := by
  rw [Shrinks, Queue.removeAt]
  split
  · exact Within.refl _
  · exact within_and_left _ _

/-! ## Changes of one thread -/

theorem modify_self (s : Proc n) (t : Fin n) (f : Thread n → Thread n) :
    (s.modify t f).threads t = f (s.threads t) :=
  Function.update_self _ _ _

theorem modify_other (s : Proc n) {t u : Fin n} (f : Thread n → Thread n) (h : u ≠ t) :
    (s.modify t f).threads u = s.threads u :=
  Function.update_of_ne h _ _

theorem critical_some {p : Place n} {m : Proc n} (h : critical s t p m = some s') :
    s.lock = none ∧ (s.threads t).place = p ∧ m = s' := by
  rw [critical] at h
  split at h
  · next hyes =>
    rw [Option.some.injEq] at h
    exact ⟨hyes.1, hyes.2, h⟩
  · cases h

/-! ## Bits and entries -/

/-- The bit of a signal is set just when an entry of the queue has it. -/
def Agrees (q : Queue) : Prop :=
  ∀ sig, has q.pending sig = true ↔ ∃ e ∈ q.entries, e.sig = sig

/-- Of a standard signal at most one entry is not a timer's own. -/
def Single (q : Queue) : Prop :=
  q.entries.Pairwise fun e e' => e.sig = e'.sig → isRealtime e.sig = false →
    e.fromTimer = true ∨ e'.fromTimer = true

/-- What is done under `sighand->lock` to the queue of a task and to that of its process, which
    is `true`. `receive_signals` removes the entry that it delivers. -/
inductive QueueOp
  | deliver (e : SigQueue)
  | enqueue (shared : Bool) (e : SigQueue)
  | flush (shared : Bool) (mask : SigSet)
  | take (mask : SigSet)
  | remove (r : Bool × Nat × SigQueue)

/-- What an operation does to a queue, with what is put on it and what leaves it. -/
inductive Moved (q : Queue) : Bool → QueueOp → List SigQueue × List SigQueue → Queue → Prop
  | same (b op) : Moved q b op ([], []) q
  | deliver (e) (h : (!(!isRealtime e.sig && has q.pending e.sig) || e.fromTimer) = true) :
      Moved q false (.deliver e) ([e], []) (q.enqueue e)
  | enqueue (b e) : Moved q b (.enqueue b e) ([e], []) (q.enqueue e)
  | flush (b mask) :
      Moved q b (.flush b mask) ([], q.entries.filter (fun e => has mask e.sig)) (q.flush mask)
  | remove (b op i e) (h : q.entries[i]? = some e) : Moved q b op ([], [e]) (q.removeAt i e.sig)

variable {q' : Queue} {b : Bool} {op : QueueOp} {m : List SigQueue × List SigQueue} {set : SigSet}
  {r : Bool × Nat × SigQueue}

theorem perm_eraseIdx {i : Nat} {e : SigQueue} (h : q.entries[i]? = some e) :
    q.entries.Perm (e :: q.entries.eraseIdx i) := by
  rcases List.getElem?_eq_some_iff.mp h with ⟨hi, rfl⟩
  exact (getElem_cons_eraseIdx_perm hi).symm

/-- What is put on a queue stays or leaves, and leaves once. -/
theorem Moved.perm (h : Moved q b op m q') : (q.entries ++ m.1).Perm (m.2 ++ q'.entries) := by
  cases h with
  | same => simp
  | deliver | enqueue => exact .refl _
  | flush b mask =>
    rw [append_nil]
    exact (filter_append_perm _ _).symm
  | remove b op i e h =>
    rw [append_nil]
    exact perm_eraseIdx h

theorem agrees_enqueue (hq : Agrees q) (e : SigQueue) : Agrees (q.enqueue e) := by
  intro sig
  rw [has_enqueue, Bool.or_eq_true, hq sig, decide_eq_true_eq]
  simp [Queue.enqueue, or_and_right, exists_or, eq_comm]

theorem agrees_removeAt (hq : Agrees q) {i : Nat} {e : SigQueue} (h : q.entries[i]? = some e) :
    Agrees (q.removeAt i e.sig) := by
  intro sig
  have hsig : has q.pending sig = true ↔ sig = e.sig ∨ ∃ x ∈ q.entries.eraseIdx i, x.sig = sig := by
    rw [hq sig]
    simp [(perm_eraseIdx h).mem_iff, eq_comm]
  unfold Queue.removeAt
  split
  · next hany =>
    rw [hsig]
    refine or_iff_right_of_imp ?_
    rintro rfl
    simpa using hany
  · next hany =>
    simp only [has_and, has_not, has_single, Bool.and_eq_true, hsig, Bool.not_eq_true',
      decide_eq_false_iff_not]
    refine ⟨fun hx => hx.1.resolve_left hx.2, fun hx => ⟨.inr hx, ?_⟩⟩
    rintro rfl
    exact hany (by simpa using hx)

theorem Moved.agrees (h : Moved q b op m q') (hq : Agrees q) : Agrees q' := by
  cases h with
  | same => exact hq
  | deliver e | enqueue _ e => exact agrees_enqueue hq e
  | flush b mask =>
    intro sig
    simp only [Queue.flush, has_and, has_not, Bool.and_eq_true, hq sig, mem_filter]
    constructor
    · rintro ⟨⟨e, he, rfl⟩, hm⟩
      exact ⟨e, ⟨he, hm⟩, rfl⟩
    · rintro ⟨e, ⟨he, hm⟩, rfl⟩
      exact ⟨⟨e, he, rfl⟩, hm⟩
  | remove b op i e h => exact agrees_removeAt hq h

/-- An entry that is no timer's own is delivered where its signal is not pending. -/
theorem Moved.single (h : Moved q b op m q') (hop : ∀ e, op ≠ .enqueue b e) (ha : Agrees q)
    (hq : Single q) : Single q' := by
  cases h with
  | same => exact hq
  | deliver e h =>
    refine pairwise_append.mpr ⟨hq, pairwise_singleton _ _, fun x hx y hy hsig hreal => ?_⟩
    rw [mem_singleton.mp hy] at hsig ⊢
    have hp : has q.pending e.sig = true := (ha e.sig).mpr ⟨x, hx, hsig⟩
    rw [hsig] at hreal
    simp only [hreal, hp] at h
    exact .inr h
  | enqueue b e => exact absurd rfl (hop e)
  | flush b mask => exact hq.sublist filter_sublist
  | remove b op i e h => exact hq.sublist (eraseIdx_sublist _ _)

/-! ## The entry that is taken -/

/-- The entry of a list that is taken of the signals in `set`: the least rank, and of one signal
    the oldest. -/
def Best (set : SigSet) (l : List SigQueue) : Option (Nat × SigQueue) → Prop
  | none => ∀ e ∈ l, has set e.sig = false
  | some (i, e) => l[i]? = some e ∧ has set e.sig = true ∧
      ∀ j x, l[j]? = some x → has set x.sig = true →
        takeRank e.sig ≤ takeRank x.sig ∧ (x.sig = e.sig → i ≤ j)

theorem getElem?_snoc {l : List SigQueue} {e x : SigQueue} {j : Nat} (h : (l ++ [e])[j]? = some x) :
    l[j]? = some x ∨ j = l.length ∧ x = e := by
  rw [getElem?_append] at h
  split at h
  · exact .inl h
  · next hj =>
    rcases List.getElem?_eq_some_iff.mp h with ⟨hlt, hx⟩
    rw [length_singleton] at hlt
    exact .inr ⟨by omega, by simpa using hx.symm⟩

/-- A turn of the scan. -/
theorem best_snoc {l : List SigQueue} {best : Option (Nat × SigQueue)}
    (e : SigQueue) (h : Best set l best) : Best set (l ++ [e])
      (if has set e.sig && best.all (fun b => decide (takeRank e.sig < takeRank b.2.sig)) then
        some (l.length, e) else best) := by
  split
  · next hnew =>
    rw [Bool.and_eq_true] at hnew
    refine ⟨by simp, hnew.1, fun j x hx hset => ?_⟩
    rcases getElem?_snoc hx with hx | ⟨rfl, rfl⟩
    · cases best with
      | none => exact absurd hset (by simp [h x (mem_of_getElem? hx)])
      | some b =>
        have hlt : takeRank e.sig < takeRank b.2.sig := by simpa using hnew.2
        have hle := (h.2.2 j x hx hset).1
        exact ⟨by omega, fun hsig => by rw [hsig] at hle; omega⟩
    · exact ⟨Nat.le_refl _, fun _ => Nat.le_refl _⟩
  · next hold =>
    rw [Bool.and_eq_true, not_and] at hold
    cases best with
    | none =>
      intro x hx
      rcases mem_append.mp hx with hx | hx
      · exact h x hx
      · rw [mem_singleton.mp hx]
        exact Bool.eq_false_iff.mpr fun he => hold he rfl
    | some b =>
      have hlen := (List.getElem?_eq_some_iff.mp h.1).1
      refine ⟨by rw [getElem?_append_left hlen]; exact h.1, h.2.1, fun j x hx hset => ?_⟩
      rcases getElem?_snoc hx with hx | ⟨rfl, rfl⟩
      · exact h.2.2 j x hx hset
      · have hle : takeRank b.2.sig ≤ takeRank x.sig := by simpa using hold hset
        exact ⟨hle, fun _ => Nat.le_of_lt hlen⟩

theorem best_nextFrom (l : List SigQueue) :
    ∀ (done : List SigQueue) (best : Option (Nat × SigQueue)), Best set done best →
      Best set (done ++ l) (nextFrom set done.length best l) := by
  induction l with
  | nil =>
    intro done best h
    rw [append_nil]
    exact h
  | cons e l ih =>
    intro done best h
    have hrest := ih (done ++ [e]) _ (best_snoc e h)
    rw [append_assoc, length_append] at hrest
    exact hrest

theorem best_nextIn (q : Queue) (set : SigSet) : Best set q.entries (nextIn q set) :=
  best_nextFrom q.entries [] none fun _ h => nomatch h

/-- The queue of a task, or that of its process. -/
def Proc.queue (s : Proc n) (t : Fin n) : Bool → Queue
  | true => s.shared
  | false => (s.threads t).own

/-- What is taken of two queues: the own queue comes first. -/
def Chosen (queue : Bool → Queue) (set : SigSet) : Found → Prop
  | none => ∀ b, Best set (queue b).entries none
  | some (b, r) => Best set (queue b).entries (some r) ∧
      (b = true → Best set (queue false).entries none)

theorem chosen_nextOfBoth (s : Proc n) (t : Fin n) (set : SigSet) :
    Chosen (s.queue t) set (nextOfBoth (s.threads t).own s.shared set) := by
  have hown := best_nextIn (s.threads t).own set
  have hshared := best_nextIn s.shared set
  unfold nextOfBoth
  cases h : nextIn (s.threads t).own set with
  | some r =>
    rw [h] at hown
    exact ⟨hown, nofun⟩
  | none =>
    rw [h] at hown
    cases h' : nextIn s.shared set with
    | none => exact Bool.rec hown (h' ▸ hshared)
    | some r => exact ⟨h' ▸ hshared, fun _ => hown⟩

/-! ## Sequences of operations -/

/-- What `takeNext` takes and what it answers. -/
theorem takeNext_spec (s : Proc n) (t : Fin n) (mask : SigSet) :
    ∃ found, Chosen (s.queue t) mask found ∧ (takeNext s t mask).2 = found.map (·.2.2) ∧
      (takeNext s t mask).1.queue t = (found.elim s (takeOff s t)).queue t := by
  refine ⟨_, chosen_nextOfBoth s t mask, ?_⟩
  unfold takeNext
  split
  · next h =>
    rw [h]
    exact ⟨rfl, rfl⟩
  · next h =>
    rw [h]
    refine ⟨rfl, funext fun b => ?_⟩
    cases b with
    | true => rfl
    | false =>
      rw [Proc.queue, pendingRecalc, modify_self]
      rfl
  · next h =>
    rw [h]
    exact ⟨rfl, rfl⟩

/-- A queue is changed. -/
def Proc.change (s : Proc n) (t : Fin n) (f : Queue → Queue) : Bool → Proc n
  | true => { s with shared := f s.shared }
  | false => s.modify t (fun th => { th with own := f th.own })

theorem queue_change (f : Queue → Queue) (b c : Bool) :
    (s.change t f b).queue t c = if c = b then f (s.queue t c) else s.queue t c := by
  cases b <;> cases c <;> simp [Proc.change, Proc.queue, modify_self]
  rfl

/-- An operation. Only an entry that is on its queue is removed. -/
def QueueOp.exec (s : Proc n) (t : Fin n) : QueueOp → Proc n
  | .deliver e => if (s.threads t).exiting then s else deliverToThread s t e
  | .enqueue shared e => s.change t (fun q => q.enqueue e) shared
  | .flush shared mask => s.change t (fun q => q.flush mask) shared
  | .take mask => (takeNext s t mask).1
  | .remove r => if (s.queue t r.1).entries[r.2.1]? = some r.2.2 then takeOff s t r else s

/-- An operation, with what is put on the two queues and what leaves them. -/
def QueueStep (t : Fin n) (s : Proc n) (l : QueueOp × (Bool → List SigQueue × List SigQueue))
    (s' : Proc n) : Prop :=
  s' = l.1.exec s t ∧ ∀ b, Moved (s.queue t b) b l.1 (l.2 b) (s'.queue t b)

/-- The two queues are moved. -/
def Moves (s s' : Proc n) (t : Fin n) (op : QueueOp) : Prop :=
  ∃ m : Bool → List SigQueue × List SigQueue, ∀ b, Moved (s.queue t b) b op (m b) (s'.queue t b)

theorem moves_same : Moves s s t op :=
  ⟨fun _ => ([], []), fun b => .same b op⟩

theorem moves_change {f : Queue → Queue} (h : Moved (s.queue t b) b op m (f (s.queue t b))) :
    Moves s (s.change t f b) t op := by
  refine ⟨fun c => if c = b then m else ([], []), fun c => ?_⟩
  rw [queue_change]
  by_cases hc : c = b
  · subst hc
    simpa using h
  · simpa [hc] using .same c op

theorem moves_takeOff (h : (s.queue t r.1).entries[r.2.1]? = some r.2.2) :
    Moves s (takeOff s t r) t op := by
  have hmoves := moves_change (f := fun q => q.removeAt r.2.1 r.2.2.sig) (.remove r.1 op _ _ h)
  rcases r with ⟨_ | _, r⟩
  · exact hmoves
  · exact hmoves

/-- Every operation moves the two queues. -/
theorem moves_exec (s : Proc n) (t : Fin n) (op : QueueOp) : Moves s (op.exec s t) t op := by
  cases op with
  | deliver e =>
    rw [QueueOp.exec, deliverToThread]
    split
    · exact moves_same
    split
    · next h => exact moves_change (b := false) (f := fun q => q.enqueue e) (.deliver e h)
    · exact moves_same
  | enqueue shared e => exact moves_change (.enqueue shared e)
  | flush shared mask => exact moves_change (.flush shared mask)
  | take mask =>
    rcases takeNext_spec s t mask with ⟨found, hfound, -, hqueue⟩
    rw [Moves, QueueOp.exec, hqueue]
    cases found with
    | none => exact moves_same
    | some r => exact moves_takeOff hfound.1.1
  | remove r =>
    rw [QueueOp.exec]
    split
    · next h => exact moves_takeOff h
    · exact moves_same

/-- A SIGKILL comes before anything else. -/
theorem nextDeliverable_sigkill {e : SigQueue} (hset : has set sigkill = true)
    (he : e ∈ (s.queue t b).entries) (hsig : e.sig = sigkill) :
    ∃ r, nextDeliverable (s.threads t).own s.shared set = some r ∧ r.2.2.sig = sigkill := by
  have hboth := chosen_nextOfBoth s t (set &&& single sigkill)
  unfold nextDeliverable
  split
  · next r h =>
    rw [h] at hboth
    have hr := hboth.1.2.1
    rw [has_and, has_single, Bool.and_eq_true, decide_eq_true_eq] at hr
    exact ⟨r, rfl, hr.2⟩
  · next h =>
    rw [h] at hboth
    have hr := hboth b e he
    simp [has_and, has_single, hsig, hset] at hr

section Runs

variable {s₀ : Proc n} {tr : List (Proc n × QueueOp × (Bool → List SigQueue × List SigQueue))}
  (hempty : ∀ b, s₀.queue t b = ⟨[], 0#64⟩) (hrun : Run (QueueStep t) s₀ tr s)

include hempty hrun

theorem agrees_run (b : Bool) : Agrees (s.queue t b) := by
  refine run_invariant (fun s => Agrees (s.queue t b)) hrun ?_ fun _ _ _ _ h hstep =>
    (hstep.2 b).agrees h
  rw [hempty]
  simp [Agrees]

theorem single_run (hop : ∀ x ∈ tr, ∀ e, x.2.1 ≠ .enqueue b e) : Single (s.queue t b) := by
  induction hrun with
  | nil =>
    rw [hempty]
    exact .nil
  | snoc u v l tr hrun hstep ih =>
    exact (hstep.2 b).single (hop (u, l) (by simp)) (agrees_run hempty hrun b)
      (ih fun x hx => hop x (mem_append_left _ hx))

theorem account_run (b : Bool) : (tr.flatMap fun x => (x.2.2 b).1).Perm
    ((tr.flatMap fun x => (x.2.2 b).2) ++ (s.queue t b).entries) := by
  induction hrun with
  | nil => simp [hempty]
  | snoc u v l tr hrun hstep ih =>
    simp only [flatMap_append, flatMap_singleton, append_assoc]
    refine (ih.append_right _).trans ?_
    rw [append_assoc]
    exact (hstep.2 b).perm.append_left _

/-- Pending signals and their queues, after every sequence of operations from empty queues. -/
theorem pending_agrees :
    (∀ b, Agrees (s.queue t b) ∧ ((∀ x ∈ tr, ∀ e, x.2.1 ≠ .enqueue b e) → Single (s.queue t b)) ∧
      (tr.flatMap fun x => (x.2.2 b).1).Perm
        ((tr.flatMap fun x => (x.2.2 b).2) ++ (s.queue t b).entries)) ∧
    (∀ mask, ∃ found, Chosen (s.queue t) mask found ∧
      (takeNext s t mask).2 = found.map (·.2.2) ∧
      (takeNext s t mask).1.queue t = (found.elim s (takeOff s t)).queue t) ∧
    (∀ set b e, has set sigkill = true → e ∈ (s.queue t b).entries → e.sig = sigkill →
      ∃ r, nextDeliverable (s.threads t).own s.shared set = some r ∧ r.2.2.sig = sigkill) ∧
    ∀ op, ∃ m, QueueStep t s (op, m) (op.exec s t) := by
  refine ⟨fun b => ⟨agrees_run hempty hrun b, single_run hempty hrun, account_run hempty hrun b⟩,
    takeNext_spec s t, fun set b e hset he hsig => nextDeliverable_sigkill hset he hsig,
    fun op => ?_⟩
  rcases moves_exec s t op with ⟨m, hm⟩
  exact ⟨m, rfl, hm⟩

end Runs

/-- A SIGCHLD and then a SIGKILL are sent to a task, and the SIGKILL is delivered first. -/
theorem pending_agrees_sigkill : ∃ tr s, Run (QueueStep 0) (idle fun _ : Fin 1 => 0#64) tr s ∧
    (s.queue 0 false).entries = [⟨sigchld, 0, false⟩, ⟨sigkill, 0, false⟩] ∧
    (∀ b, Agrees (s.queue 0 b)) ∧
    ∃ r, nextDeliverable (s.threads 0).own s.shared (BitVec.allOnes 64) = some r ∧
      r.2.2.sig = sigkill := by
  have hsend (s : Proc 1) (op : QueueOp) : ∃ m, QueueStep 0 s (op, m) (op.exec s 0) :=
    (moves_exec s 0 op).imp fun _ hm => ⟨rfl, hm⟩
  rcases hsend (idle fun _ => 0#64) (.deliver ⟨sigchld, 0, false⟩) with ⟨_, hchld⟩
  rcases hsend (QueueOp.exec (idle fun _ => 0#64) 0 (.deliver ⟨sigchld, 0, false⟩))
    (.deliver ⟨sigkill, 0, false⟩) with ⟨_, hkilled⟩
  have hrun := ((Run.start (QueueStep 0) _).next _ hchld).next _ hkilled
  rcases pending_agrees (fun b => by cases b <;> rfl) hrun with ⟨hagrees, _, hkill, _⟩
  exact ⟨_, _, hrun, rfl, fun b => (hagrees b).1,
    hkill _ false ⟨sigkill, 0, false⟩ (by decide) (by decide) rfl⟩

end IshAok.Signal
