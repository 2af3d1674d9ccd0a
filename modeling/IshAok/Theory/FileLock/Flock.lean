import IshAok.Core.Flock
import Mathlib.Data.List.Nodup

/-!
# One Mode per Description

What the entries of `flock_locks` look like in every run. Two entries of
different descriptions are never in conflict, whatever the threads do: an
entry is added only under the lock of the inode and only after every other
one has been looked at.

That a description has at most one entry is another matter. A call drops the
entries of its description before it sleeps and not after, so two threads that
sleep on one description both add theirs. `Alone` is the condition that keeps
them apart: a call that asks for a lock begins only while no other call on its
description is asleep. Then the description of a sleeper has no entry, and the
call that wakes adds the first.

## Main definitions

* `Compatible`: No two entries are in conflict.
* `OneEach`: One entry per description, and none under a sleeper.
* `Alone`: The condition on a call.

## Theorems

* `exec_effect`: What an action does to entries and sleepers.
* `flock_modes`: Every run.
* `flock_two_entries`: Two sleepers on one description.
-/

namespace IshAok.Flock

open Base List
open FileLock (Lock)

variable {Owner : Type} [DecidableEq Owner]

/-- No two entries are in conflict. -/
def Compatible (locks : List (Lock Owner)) : Prop :=
  ∀ a ∈ locks, ∀ b ∈ locks, ¬flockLocksConflict a b

/-- One entry per description, one sleeper per description, and no entry under a sleeper. -/
structure OneEach (s : State Owner) : Prop where
  entries : (s.locks.map (·.owner)).Nodup
  sleepers : (s.sleepers.map (·.request.owner)).Nodup
  apart : ∀ w ∈ s.sleepers, w.request.owner ∉ s.locks.map (·.owner)

/-- A call that asks for a lock begins while no other on its description is asleep. -/
def Alone (s : State Owner) : Action Owner → Prop
  | .call _ fd operation =>
    opOf operation = lockUn ∨ ∀ w ∈ s.sleepers, w.request.owner ≠ fd
  | _ => True

instance (s : State Owner) (a : Action Owner) : Decidable (Alone s a) :=
  match a with
  | .call _ _ _ => inferInstanceAs (Decidable (_ ∨ _))
  | .wake _ _ => inferInstanceAs (Decidable True)
  | .close _ => inferInstanceAs (Decidable True)

/-! ### One action -/

section

variable {s s' : State Owner} {locks : List (Lock Owner)} {fd : Owner}

/-- A turn of the loop adds the request, or it leaves the entries alone. -/
theorem attempt_cases (locks : List (Lock Owner)) (request : Lock Owner) (nonblock : Bool) :
    (attempt locks request nonblock = (locks ++ [request], some (.ok ())) ∧
      ∀ lock ∈ locks, ¬flockLocksConflict lock request) ∨
    attempt locks request nonblock = (locks, none) ∨
    attempt locks request nonblock = (locks, some (.error .eagain)) := by
  unfold attempt
  split
  · cases nonblock with
    | true => exact .inr (.inr rfl)
    | false => exact .inr (.inl rfl)
  · next hfree =>
    refine .inl ⟨rfl, fun lock hlock hconflict => hfree ?_⟩
    exact any_eq_true.mpr ⟨lock, hlock, decide_eq_true hconflict⟩

/-- What one action does: entries of a description go, and a request that
    nothing is in the way of comes. -/
inductive Effect (s : State Owner) : Action Owner → State Owner → Prop
  /-- Nothing is taken or given. -/
  | none (a) : Effect s a s
  /-- The entries of a description go. -/
  | removed (a fd) : Effect s a { s with locks := flockRemoveOwnedBy s.locks fd }
  /-- A call gets its lock at once. -/
  | placed (thread fd operation) (hop : opOf operation ≠ lockUn)
      (hfree : ∀ lock ∈ flockRemoveOwnedBy s.locks fd,
        ¬flockLocksConflict lock (request fd (opOf operation))) :
      Effect s (.call thread fd operation)
        { s with locks := flockRemoveOwnedBy s.locks fd ++ [request fd (opOf operation)] }
  /-- A call goes to sleep. -/
  | slept (thread fd operation) (hop : opOf operation ≠ lockUn) :
      Effect s (.call thread fd operation) ⟨flockRemoveOwnedBy s.locks fd,
          s.sleepers ++ [⟨thread, request fd (opOf operation)⟩]⟩
  /-- A sleeper gives up. -/
  | left (thread interrupted) :
      Effect s (.wake thread interrupted) { s with sleepers := wakeUp s.sleepers thread }
  /-- A sleeper gets its lock. -/
  | woke (w) (hw : w ∈ s.sleepers) (hfree : ∀ lock ∈ s.locks, ¬flockLocksConflict lock w.request) :
      Effect s (.wake w.thread false) ⟨s.locks ++ [w.request], wakeUp s.sleepers w.thread⟩

variable {a : Action Owner}

/-- Every action has one of these effects. -/
theorem exec_effect {ans : Option (Except Errno Unit)}
    (h : exec s a = some (s', ans)) : Effect s a s' := by
  cases a with
  | call thread fd operation =>
    rcases Option.ite_none_left_eq_some.mp h with ⟨-, h⟩
    unfold flockLock at h
    dsimp only at h
    split_ifs at h with hop hun
    · cases h
      exact .none _
    · cases h
      exact .removed _ fd
    · rcases attempt_cases (flockRemoveOwnedBy s.locks fd) (request fd (opOf operation))
        (operation &&& lockNb ≠ 0) with ⟨hres, hfree⟩ | hres | hres
      · rw [hres] at h
        cases h
        exact .placed thread fd operation hun hfree
      · rw [hres] at h
        cases h
        exact .slept thread fd operation hun
      · rw [hres] at h
        cases h
        exact .removed _ fd
  | wake thread interrupted =>
    rw [exec] at h
    split at h
    · cases h
    next w hw =>
    have hmem := mem_of_find?_eq_some hw
    have hthread : w.thread = thread := by
      simpa only [decide_eq_true_eq] using List.find?_some hw
    cases interrupted with
    | true =>
      cases h
      exact .left thread true
    | false =>
      rcases attempt_cases s.locks w.request false with ⟨hres, hfree⟩ | hres | hres
      · rw [hres] at h
        cases h
        subst hthread
        exact .woke w hmem hfree
      · rw [hres] at h
        cases h
        exact .none _
      · rw [hres] at h
        cases h
        exact .left thread false
  | close fd =>
    rcases Option.ite_none_left_eq_some.mp h with ⟨-, h⟩
    cases h
    exact .removed _ fd

/-! ### What an effect keeps -/

theorem mem_removed {lock : Lock Owner} :
    lock ∈ flockRemoveOwnedBy locks fd ↔ lock ∈ locks ∧ lock.owner ≠ fd := by
  rw [flockRemoveOwnedBy, mem_filter, decide_eq_true_eq]

omit [DecidableEq Owner] in
theorem conflict_symm {a b : Lock Owner} (h : flockLocksConflict a b) : flockLocksConflict b a :=
  ⟨Ne.symm h.1, h.2.symm⟩

omit [DecidableEq Owner] in
/-- An entry that conflicts with none can be added. -/
theorem compatible_add {request : Lock Owner} (hc : Compatible locks)
    (hfree : ∀ lock ∈ locks, ¬flockLocksConflict lock request) :
    Compatible (locks ++ [request]) := by
  intro a ha b hb
  rcases mem_append.mp ha with ha | ha
  · rcases mem_append.mp hb with hb | hb
    · exact hc a ha b hb
    · rw [mem_singleton.mp hb]
      exact hfree a ha
  · rw [mem_singleton.mp ha]
    rcases mem_append.mp hb with hb | hb
    · exact fun h => hfree b hb (conflict_symm h)
    · rw [mem_singleton.mp hb]
      exact fun h => h.1 rfl

theorem compatible_removed (hc : Compatible locks) (fd : Owner) :
    Compatible (flockRemoveOwnedBy locks fd) :=
  fun a ha b hb => hc a (mem_removed.mp ha).1 b (mem_removed.mp hb).1

theorem compatible_effect (h : Effect s a s') (hc : Compatible s.locks) : Compatible s'.locks := by
  cases h with
  | none | left => exact hc
  | removed _ fd | slept _ fd => exact compatible_removed hc fd
  | placed thread fd operation hop hfree => exact compatible_add (compatible_removed hc fd) hfree
  | woke w hw hfree => exact compatible_add hc hfree

theorem owners_removed (h : (locks.map (·.owner)).Nodup) (fd : Owner) :
    ((flockRemoveOwnedBy locks fd).map (·.owner)).Nodup :=
  h.sublist (filter_sublist.map _)

theorem not_mem_owners_removed (locks : List (Lock Owner)) (fd : Owner) :
    fd ∉ (flockRemoveOwnedBy locks fd).map (·.owner) := by
  intro hmem
  rcases mem_map.mp hmem with ⟨lock, hlock, howner⟩
  exact (mem_removed.mp hlock).2 howner

theorem mem_owners_removed {owner : Owner}
    (h : owner ∈ (flockRemoveOwnedBy locks fd).map (·.owner)) : owner ∈ locks.map (·.owner) := by
  rcases mem_map.mp h with ⟨lock, hlock, howner⟩
  exact mem_map.mpr ⟨lock, (mem_removed.mp hlock).1, howner⟩

omit [DecidableEq Owner] in
theorem nodup_snoc {l : List Owner} {x : Owner} (h : l.Nodup) (hx : x ∉ l) : (l ++ [x]).Nodup := by
  rw [← concat_eq_append]
  exact h.concat hx

/-- With the condition, the description of a sleeper stays without an entry,
    so a sleeper that wakes adds the first. -/
theorem oneEach_effect (h : Effect s a s') (halone : Alone s a) (ho : OneEach s) : OneEach s' := by
  cases h with
  | none => exact ho
  | removed a fd =>
    exact ⟨owners_removed ho.entries fd, ho.sleepers,
      fun w hw hmem => ho.apart w hw (mem_owners_removed hmem)⟩
  | placed thread fd operation hop hfree =>
    have hnone : ∀ w ∈ s.sleepers, w.request.owner ≠ fd := halone.resolve_left hop
    refine ⟨?_, ho.sleepers, fun w hw hmem => ?_⟩
    · rw [map_append]
      exact nodup_snoc (owners_removed ho.entries fd) (not_mem_owners_removed s.locks fd)
    · rw [map_append] at hmem
      rcases mem_append.mp hmem with hmem | hmem
      · exact ho.apart w hw (mem_owners_removed hmem)
      · exact hnone w hw (mem_singleton.mp hmem)
  | slept thread fd operation hop =>
    have hnone : ∀ w ∈ s.sleepers, w.request.owner ≠ fd := halone.resolve_left hop
    refine ⟨owners_removed ho.entries fd, ?_, fun w hw hmem => ?_⟩
    · rw [map_append]
      refine nodup_snoc ho.sleepers fun hmem => ?_
      rcases mem_map.mp hmem with ⟨w, hw, howner⟩
      exact hnone w hw howner
    · rcases mem_append.mp hw with hw | hw
      · exact ho.apart w hw (mem_owners_removed hmem)
      · rw [mem_singleton.mp hw] at hmem
        exact not_mem_owners_removed s.locks fd hmem
  | left thread interrupted =>
    exact ⟨ho.entries, ho.sleepers.sublist (filter_sublist.map _),
      fun w hw => ho.apart w (mem_filter.mp hw).1⟩
  | woke w hw hfree =>
    refine ⟨?_, ho.sleepers.sublist (filter_sublist.map _), fun v hv hmem => ?_⟩
    · rw [map_append]
      exact nodup_snoc ho.entries (ho.apart w hw)
    · rcases mem_filter.mp hv with ⟨hv, hthread⟩
      rw [map_append] at hmem
      rcases mem_append.mp hmem with hmem | hmem
      · exact ho.apart v hv hmem
      · -- Another sleeper is on another description.
        have heq := inj_on_of_nodup_map ho.sleepers hv hw (mem_singleton.mp hmem)
        rw [heq] at hthread
        exact of_decide_eq_true hthread rfl

end

/-! ### Runs -/

/-- In every run no two entries are in conflict, and a description has at most
    one entry if no call for a lock began while another on its description was
    asleep. -/
theorem flock_modes {tr : List (State Owner × (Action Owner × Option (Except Errno Unit)))}
    {s : State Owner} (hrun : Run Step initial tr s) :
    (∀ a ∈ s.locks, ∀ b ∈ s.locks, a.owner ≠ b.owner → a.type ≠ .wrlck ∧ b.type ≠ .wrlck) ∧
    ((∀ p ∈ tr, Alone p.1 p.2.1) → (s.locks.map (·.owner)).Nodup) := by
  constructor
  · have hc : Compatible s.locks :=
      run_invariant (fun u => Compatible u.locks) hrun (fun a ha => by cases ha)
        fun u a v _ hc hstep => compatible_effect (exec_effect hstep) hc
    intro a ha b hb hne
    exact ⟨fun htype => hc a ha b hb ⟨hne, .inl htype⟩, fun htype => hc a ha b hb ⟨hne, .inr htype⟩⟩
  · intro halone
    have ho : OneEach s := by
      refine run_invariant OneEach hrun
        ⟨nodup_nil, nodup_nil, fun w hw => by cases hw⟩ fun u a v hmem ho hstep => ?_
      exact oneEach_effect (exec_effect hstep) (halone (u, a) hmem) ho
    exact ho.entries

/-- Description 0 has the lock, description 1 asks for it and gets it once 0
    lets go. Then 0 asks again and is refused. -/
def handOver : List (Action Nat) :=
  [.call 0 0 lockEx, .call 1 1 lockSh, .wake 1 false, .call 0 0 lockUn, .wake 1 false,
    .call 0 0 (lockEx ||| lockNb), .call 1 1 lockEx]

theorem flock_modes_handOver : ∃ tr s, Run Step initial tr s ∧ (∀ p ∈ tr, Alone p.1 p.2.1) ∧
      tr.map (fun p => p.2.2) = [some (.ok ()), none, none, some (.ok ()), some (.ok ()),
        some (.error .eagain), some (.ok ())] ∧
      s.locks = [request 1 lockEx] ∧ (s.locks.map (·.owner)).Nodup := by
  have hcomputed : (runList exec initial handOver).map (fun r =>
      (r.1.all fun p => Alone p.1 p.2.1, r.1.map fun p => p.2.2, r.2.locks)) =
      some (true, [some (.ok ()), none, none, some (.ok ()), some (.ok ()),
        some (.error .eagain), some (.ok ())], [request 1 lockEx]) := by
    decide +kernel
  rcases Option.map_eq_some_iff.mp hcomputed with ⟨⟨tr, s⟩, htr, hval⟩
  simp only [Prod.mk.injEq, all_eq_true, decide_eq_true_eq] at hval
  rcases hval with ⟨halone, hanswers, hlocks⟩
  have hrun : Run Step initial tr s := run_of_runList _ _ _ _ htr
  exact ⟨tr, s, hrun, halone, hanswers, hlocks, (flock_modes hrun).2 halone⟩

/-- Two threads of description 1 wait for description 0. When it lets go both
    add an entry, so description 1 has the lock in two modes at once. -/
theorem flock_two_entries :
    ∃ (tr : List (State Nat × (Action Nat × Option (Except Errno Unit)))) (s : State Nat),
      Run Step initial tr s ∧
      tr.map (fun p => p.2.1) = [.call 0 0 lockEx, .call 1 1 lockEx, .call 2 1 lockSh,
        .call 0 0 lockUn, .wake 1 false, .wake 2 false] ∧
      s.locks = [request 1 lockEx, request 1 lockSh] := by
  have hcomputed : (runList exec (initial : State Nat) [.call 0 0 lockEx, .call 1 1 lockEx,
      .call 2 1 lockSh, .call 0 0 lockUn, .wake 1 false, .wake 2 false]).map (fun r =>
      (r.1.map fun p => p.2.1, r.2.locks)) =
      some ([.call 0 0 lockEx, .call 1 1 lockEx, .call 2 1 lockSh, .call 0 0 lockUn,
        .wake 1 false, .wake 2 false], [request 1 lockEx, request 1 lockSh]) := by
    decide +kernel
  rcases Option.map_eq_some_iff.mp hcomputed with ⟨⟨tr, s⟩, htr, hval⟩
  simp only [Prod.mk.injEq] at hval
  exact ⟨tr, s, run_of_runList _ _ _ _ htr, hval.1, hval.2⟩

end IshAok.Flock
