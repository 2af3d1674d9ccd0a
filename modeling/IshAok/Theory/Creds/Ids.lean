import IshAok.Theory.Creds.Caps

/-!
# User Ids Stay Contained

A task without `CAP_SETUID` over its namespace takes no id but those it has. `setuid` gives it its
real or its saved id, `setresuid` and `setreuid` one of its three, and `setfsuid` one of the three
as well. So the real, the effective and the saved id only ever come from among the three, and the
filesystem id comes from among them or stays. It may lag behind: it can be the last to hold an id
that the other three have given up, but nothing takes an id from it.

What the namespace maps does not matter, and it may change from one call to the next: an argument
is compared with the ids of the task after it was mapped.

## Main definitions

* `Cred.Three`, `Cred.Has`: The ids of a task, without and with the filesystem id.
* `Taken`: The ids come from among those the task had.

## Theorems

* `applyCall_taken`: A call without the capability takes no new id.
* `ids_contained`: Nor does any sequence of calls, and an id that is gone stays gone.
-/

namespace IshAok.Creds

open Base UserNs List

variable {t : NsTable} {c c' c'' : Cred}

/-- One of the real, the effective and the saved id. -/
def Cred.Three (c : Cred) (x : Nat) : Prop :=
  x = c.uid ∨ x = c.euid ∨ x = c.suid

/-- One of the four. -/
def Cred.Has (c : Cred) (x : Nat) : Prop :=
  c.Three x ∨ x = c.fsuid

/-- The ids come from among the three the task had, and the filesystem id may have stayed. -/
structure Taken (c c' : Cred) : Prop where
  three : ∀ x, c'.Three x → c.Three x
  fs : c.Three c'.fsuid ∨ c'.fsuid = c.fsuid

theorem Taken.refl (c : Cred) : Taken c c :=
  ⟨fun _ h => h, .inr rfl⟩

theorem Taken.trans (h : Taken c c') (h' : Taken c' c'') : Taken c c'' := by
  refine ⟨fun x hx => h.three x (h'.three x hx), ?_⟩
  rcases h'.fs with hfs | hfs
  · exact .inl (h.three _ hfs)
  · rw [hfs]
    exact h.fs

/-- An id that none of the four is does not come back. -/
theorem Taken.has (h : Taken c c') {x : Nat} (hx : c'.Has x) : c.Has x := by
  rcases hx with hx | rfl
  · exact .inl (h.three x hx)
  · exact h.fs

/-- Two tasks with the same four ids. -/
structure SameIds (c c' : Cred) : Prop where
  uid : c'.uid = c.uid
  euid : c'.euid = c.euid
  suid : c'.suid = c.suid
  fsuid : c'.fsuid = c.fsuid

theorem sameIds_commit (before c : Cred) : SameIds c (credChangeCommit before c) := by
  rw [credChangeCommit]
  split <;> exact ⟨rfl, rfl, rfl, rfl⟩

theorem sameIds_emulate (oldRuid oldEuid oldSuid : Nat) :
    SameIds c (capEmulateSetxuid t c oldRuid oldEuid oldSuid) := by
  rw [capEmulateSetxuid]
  split
  · exact ⟨rfl, rfl, rfl, rfl⟩
  split
  · exact ⟨rfl, rfl, rfl, rfl⟩
  · split <;> exact ⟨rfl, rfl, rfl, rfl⟩

theorem Taken.of_same (h : Taken c c') (hsame : SameIds c' c'') : Taken c c'' := by
  refine ⟨fun x hx => h.three x ?_, ?_⟩
  · rw [Cred.Three, hsame.uid, hsame.euid, hsame.suid] at hx
    exact hx
  · rw [hsame.fsuid]
    exact h.fs

/-- The ids as a call sets them, which its end does not change. -/
theorem Taken.commit {before : Cred} (h : Taken before c) :
    Taken before (credChangeCommit before c) :=
  h.of_same (sameIds_commit before c)

theorem Taken.finish {before : Cred} (h : Taken before c) :
    Taken before (finishSetxuid t before c) :=
  (h.of_same (sameIds_emulate _ _ _)).commit

/-- `capset` does not touch the ids. -/
theorem taken_capsetWords {effective permitted inheritable : CapWords} {count : Nat}
    (h : capsetWords c effective permitted inheritable count = .ok c') : Taken c c' := by
  rw [capsetWords] at h
  split at h
  · cases h
  split at h
  · cases h
  split at h
  · cases h
  rw [Except.ok.injEq] at h
  rw [← h]
  exact Taken.commit ⟨fun _ hx => hx, .inr rfl⟩

/-- An id that may be taken is one of the three, if it is one at all. -/
theorem three_of_own {id : Nat} (h : ¬ notOwn c id) (hne : id ≠ leaveId) : c.Three id := by
  rw [notOwn, not_and] at h
  have hown := h hne
  rw [not_and_or, not_not, not_and_or, not_not, not_not] at hown
  exact hown

/-- The id that is set, or the one that is left. -/
theorem three_or_keep {id old x : Nat} (hown : ¬ notOwn c id) (hold : c.Three old)
    (hx : x = if id ≠ leaveId then id else old) : c.Three x := by
  rw [hx]
  split
  · next hne => exact three_of_own hown hne
  · exact hold

theorem taken_setresuidKernel {ruid euid suid : Nat} (hcan : currentCanSetuids t c = false) :
    Taken c (orKeep c (setresuidKernel t c ruid euid suid)) := by
  rw [setresuidKernel]
  split
  · exact Taken.refl c
  next hrefused =>
  rw [not_and, not_or, not_or] at hrefused
  rcases hrefused hcan with ⟨hr, he, hs⟩
  refine Taken.finish ⟨fun x hx => ?_, ?_⟩
  · rcases hx with hx | hx | hx
    · exact three_or_keep hr (.inl rfl) hx
    · exact three_or_keep he (.inr (.inl rfl)) hx
    · exact three_or_keep hs (.inr (.inr rfl)) hx
  · dsimp only
    split
    · next hne => exact .inl (three_of_own he hne)
    · exact .inr rfl

/-- A call without the capability takes no id but those the task has. -/
theorem applyCall_taken (call : CredCall) (hcan : currentCanSetuids t c = false) :
    Taken c (applyCall t c call) := by
  cases call with
  | setuid uid =>
    rw [applyCall, sysSetuid]
    split
    · exact Taken.refl c
    split
    · exact Taken.refl c
    next uid _ =>
    rw [hcan, if_neg (by simp)]
    split
    · exact Taken.refl c
    next hown =>
    -- Without the capability it is the real or the saved id.
    rw [not_and_or, not_not, not_not] at hown
    have huid : c.Three uid := hown.imp_right .inr
    refine Taken.finish ⟨fun x hx => ?_, .inl huid⟩
    rcases hx with hx | hx | hx
    · exact .inl hx
    · rw [hx]
      exact huid
    · exact .inr (.inr hx)
  | setreuid ruid euid =>
    rw [applyCall, sysSetreuid]
    split
    · exact taken_setresuidKernel hcan
    · exact Taken.refl c
  | setresuid ruid euid suid =>
    rw [applyCall, sysSetresuid]
    split
    · exact taken_setresuidKernel hcan
    · exact Taken.refl c
  | setfsuid uid =>
    rw [applyCall, sysSetfsuid]
    split
    · exact Taken.refl c
    split
    · exact Taken.refl c
    next uid _ =>
    split
    · next hown =>
      rw [hcan] at hown
      have huid : c.Three uid :=
        hown.resolve_left (by simp)
      exact Taken.commit ⟨fun x hx => hx, .inl huid⟩
    · exact Taken.refl c
  | capset header data pidGlobal =>
    rw [applyCall]
    cases hcall : sysCapset c header data pidGlobal with
    | error e => exact Taken.refl c
    | ok d =>
      rcases sysCapset_ok hcall with ⟨_, _, hwords⟩
      exact taken_capsetWords hwords

theorem run_taken {tr : List (Cred × NsTable × CredCall)} (hrun : Run CredStep c tr c')
    (hnever : ∀ d call, (d, call) ∈ tr → currentCanSetuids call.1 d = false) : Taken c c' := by
  refine run_invariant (Taken c) hrun (Taken.refl c) fun d call d' hmem hd hstep => ?_
  rw [hstep]
  exact hd.trans (applyCall_taken call.2 (hnever d call hmem))

/-- A task that never has `CAP_SETUID` over its namespace, and whose filesystem id is among its
    other three, only ever has ids from among these three, and an id that none of its four is at
    some point none of them is ever again. -/
theorem ids_contained {tr tr' : List (Cred × NsTable × CredCall)} (hfs : c.Three c.fsuid)
    (hrun : Run CredStep c tr c') (hrun' : Run CredStep c' tr' c'')
    (hnever : ∀ d call, (d, call) ∈ tr ++ tr' → currentCanSetuids call.1 d = false) :
    (∀ x, c'.Has x → c.Three x) ∧ ∀ x, ¬ c'.Has x → ¬ c''.Has x := by
  have hfirst := run_taken hrun fun d call hmem => hnever d call (mem_append_left _ hmem)
  have hsecond := run_taken hrun' fun d call hmem => hnever d call (mem_append_right _ hmem)
  refine ⟨fun x hx => ?_, fun x hno hx => hno (hsecond.has hx)⟩
  rcases hfirst.has hx with hthree | rfl
  · exact hthree
  · exact hfs

/-- A user with a saved id of another user, who runs without privilege. -/
def setuidProgram : Cred :=
  { hostRoot with
    uid := 1000
    euid := 1000
    suid := 33
    fsuid := 1000
    capEffective := fun _ => 0#32
    capPermitted := fun _ => 0#32 }

/-- It takes its saved id for a while, and then gives it up for good. -/
theorem ids_contained_dropped : (applyCall [] setuidProgram (.setuid 33)).Has 33 ∧
      ¬ (applyCall [] (applyCall [] setuidProgram (.setuid 33))
        (.setresuid 1000 1000 1000)).Has 33 ∧
      ¬ (applyCall [] (applyCall [] (applyCall [] setuidProgram (.setuid 33))
        (.setresuid 1000 1000 1000)) (.setuid 33)).Has 33 := by
  have hids : ∀ d : Cred, d.uid = 1000 → d.euid = 1000 → d.suid = 1000 → d.fsuid = 1000 →
      ¬ d.Has 33 := by
    rintro d hu he hs hf ((h | h | h) | h)
    · omega
    · omega
    · omega
    · omega
  have hdropped := hids (applyCall [] (applyCall [] setuidProgram (.setuid 33))
    (.setresuid 1000 1000 1000)) (by decide +kernel) (by decide +kernel) (by decide +kernel)
    (by decide +kernel)
  have hrun := Base.run_append (run_one setuidProgram ([], .setuid 33))
    (run_one (applyCall [] setuidProgram (.setuid 33)) ([], .setresuid 1000 1000 1000))
  have hrun' := run_one (applyCall [] (applyCall [] setuidProgram (.setuid 33))
    (.setresuid 1000 1000 1000)) ([], .setuid 33)
  have hnever : ∀ d call, (d, call) ∈ ([(setuidProgram, [], .setuid 33)] ++
      [(applyCall [] setuidProgram (.setuid 33), [], .setresuid 1000 1000 1000)]) ++
      [(applyCall [] (applyCall [] setuidProgram (.setuid 33)) (.setresuid 1000 1000 1000),
        ([] : NsTable), CredCall.setuid 33)] → currentCanSetuids call.1 d = false := by
    intro d call hmem
    simp only [mem_append, mem_singleton, Prod.mk.injEq] at hmem
    rcases hmem with (⟨rfl, rfl⟩ | ⟨rfl, rfl⟩) | ⟨rfl, rfl⟩
    · decide +kernel
    · decide +kernel
    · decide +kernel
  refine ⟨.inl (.inr (.inl (by decide +kernel))), hdropped, ?_⟩
  exact (ids_contained (.inl rfl) hrun hrun' hnever).2 33 hdropped

end IshAok.Creds
