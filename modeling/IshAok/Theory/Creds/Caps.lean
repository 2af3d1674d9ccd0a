import IshAok.Base.Run
import IshAok.Core.Creds

/-!
# Capability Sets Stay Contained

The effective set is part of the permitted one, and the ambient set is part of both the permitted
and the inheritable one. Every call keeps that, whatever the ids of the task and whatever the
namespaces map at the time: a change of the user ids sets the effective set to the ambient or to
the permitted one, and `capset` is refused unless the effective set it asks for is part of the
permitted one, and takes the ambient set down to what is left.

No change of the user ids adds to the permitted set. `capset` does so for one kind of caller: the
superuser, who is spared the check against the permitted set it has. So what was dropped from the
permitted set stays away for as long as the task makes no `capset` as the superuser.

## Main definitions

* `CapWithin`: One capability set is part of another.
* `CapsOk`: The inclusions between the sets of a task.
* `AsSuperuser`: A call of `capset` by the superuser.

## Theorems

* `applyCall_caps`: A call keeps the inclusions, and only a `capset` of the superuser adds to the
  permitted set.
* `caps_contained`: The same for any sequence of calls.
* `superuser_regains`: The superuser takes back what it dropped.
-/

namespace IshAok.Creds

open Base UserNs

variable {t : NsTable} {c c' : Cred}

/-! ## Sets as two words -/

/-- One capability set is part of another. -/
def CapWithin (s u : CapWords) : Prop :=
  ∀ i, Within (s i) (u i)

theorem CapWithin.refl (s : CapWords) : CapWithin s s :=
  fun i => Within.refl (s i)

theorem CapWithin.trans {s u v : CapWords} (h : CapWithin s u) (h' : CapWithin u v) :
    CapWithin s v :=
  fun i => (h i).trans (h' i)

theorem capWithin_or {s u v : CapWords} (h : CapWithin s v) (h' : CapWithin u v) :
    CapWithin (fun i => s i ||| u i) v := by
  intro i j hj
  rw [has_or, Bool.or_eq_true] at hj
  rcases hj with hj | hj
  · exact h i j hj
  · exact h' i j hj

theorem capWithin_or_left (s u : CapWords) : CapWithin s (fun i => s i ||| u i) :=
  fun i => within_or_left (s i) (u i)

/-- The words of a call are compared as far as the call has any, and the rest is zero. -/
theorem capWithin_of_subset {data : Fin 2 → CapData} {count : Nat} {field : CapData → BitVec 32}
    {u : CapWords} (h : capWordsSubset (wordsOf data count field) u count = true) :
    CapWithin (wordsOf data count field) u := by
  intro i
  by_cases hi : i.val < count
  · exact within_iff.mpr (of_decide_eq_true h i hi)
  · intro j hj
    rw [wordsOf, if_neg hi, has_zero] at hj
    cases hj

/-! ## The inclusions -/

/-- The inclusions between the capability sets of a task. -/
structure CapsOk (c : Cred) : Prop where
  effective : CapWithin c.capEffective c.capPermitted
  permitted : CapWithin c.capAmbient c.capPermitted
  inheritable : CapWithin c.capAmbient c.capInheritable

/-- Two tasks with the same capability sets. -/
structure SameCaps (c c' : Cred) : Prop where
  effective : c'.capEffective = c.capEffective
  permitted : c'.capPermitted = c.capPermitted
  inheritable : c'.capInheritable = c.capInheritable
  ambient : c'.capAmbient = c.capAmbient

theorem SameCaps.capsOk (h : SameCaps c c') (hok : CapsOk c) : CapsOk c' := by
  constructor
  · rw [h.effective, h.permitted]
    exact hok.effective
  · rw [h.ambient, h.permitted]
    exact hok.permitted
  · rw [h.ambient, h.inheritable]
    exact hok.inheritable

/-- The end of a call forgets the parent-death signal, and nothing of the sets. -/
theorem sameCaps_commit (before c : Cred) : SameCaps c (credChangeCommit before c) := by
  rw [credChangeCommit]
  split <;> exact ⟨rfl, rfl, rfl, rfl⟩

/-- What a call does to the sets: the inclusions hold, and nothing was added to the permitted
    set. -/
def Shrunk (c c' : Cred) : Prop :=
  CapsOk c' ∧ CapWithin c'.capPermitted c.capPermitted

theorem shrunk_of_same (h : SameCaps c c') (hok : CapsOk c) : Shrunk c c' := by
  refine ⟨h.capsOk hok, ?_⟩
  rw [h.permitted]
  exact CapWithin.refl _

/-- A change of the user ids. -/
theorem shrunk_emulate (oldRuid oldEuid oldSuid : Nat) (hok : CapsOk c) :
    Shrunk c (capEmulateSetxuid t c oldRuid oldEuid oldSuid) := by
  rw [capEmulateSetxuid]
  split
  · -- No id is root any more.
    split
    · exact ⟨⟨CapWithin.refl _, CapWithin.refl _, hok.inheritable⟩, hok.permitted⟩
    refine ⟨⟨?_, ?_, hok.inheritable⟩, capWithin_or (CapWithin.refl _) hok.permitted⟩
    · exact hok.permitted.trans (capWithin_or_left _ _)
    · exact hok.permitted.trans (capWithin_or_left _ _)
  · split
    · exact ⟨⟨hok.permitted, hok.permitted, hok.inheritable⟩, CapWithin.refl _⟩
    split
    · exact ⟨⟨CapWithin.refl _, hok.permitted, hok.inheritable⟩, CapWithin.refl _⟩
    · exact ⟨hok, CapWithin.refl _⟩

theorem shrunk_finish {before : Cred} (h : SameCaps before c) (hok : CapsOk before) :
    Shrunk before (finishSetxuid t before c) := by
  have hemulate := shrunk_emulate (t := t) before.uid before.euid before.suid (h.capsOk hok)
  rw [Shrunk, h.permitted] at hemulate
  have hcommit := sameCaps_commit before (capEmulateSetxuid t c before.uid before.euid before.suid)
  refine ⟨hcommit.capsOk hemulate.1, ?_⟩
  rw [finishSetxuid, hcommit.permitted]
  exact hemulate.2

theorem shrunk_setresuidKernel {ruid euid suid : Nat} (hok : CapsOk c) :
    Shrunk c (orKeep c (setresuidKernel t c ruid euid suid)) := by
  rw [setresuidKernel]
  split
  · exact ⟨hok, CapWithin.refl _⟩
  · exact shrunk_finish ⟨rfl, rfl, rfl, rfl⟩ hok

/-- A call of `capset` by the superuser. -/
def AsSuperuser (c : Cred) : CredCall → Prop
  | .capset _ _ _ => superuser c.task = true
  | _ => False

/-- What `capset` leaves once it has passed its checks. -/
theorem capsetWords_ok {data : Fin 2 → CapData} {count : Nat}
    (h : capsetWords c (wordsOf data count CapData.effective)
      (wordsOf data count CapData.permitted) (wordsOf data count CapData.inheritable) count =
      .ok c') :
    CapsOk c' ∧ (superuser c.task = false → CapWithin c'.capPermitted c.capPermitted) := by
  rw [capsetWords] at h
  split at h
  · cases h
  next hrefused =>
  split at h
  · cases h
  next heffective =>
  split at h
  · cases h
  rw [Except.ok.injEq] at h
  rw [Bool.not_eq_false] at heffective
  rw [← h]
  have hcommit := sameCaps_commit c
  refine ⟨(hcommit _).capsOk ⟨capWithin_of_subset heffective, ?_, ?_⟩, fun hsuper => ?_⟩
  · intro i j hj
    rw [has_and, has_and, Bool.and_eq_true, Bool.and_eq_true] at hj
    exact hj.2.1
  · intro i j hj
    rw [has_and, has_and, Bool.and_eq_true, Bool.and_eq_true] at hj
    exact hj.2.2
  · -- Anyone else is checked against the permitted set it has.
    rw [(hcommit _).permitted]
    rw [not_and, Bool.not_eq_true, capsetRefused, Bool.not_eq_false',
      Bool.and_eq_true, Bool.and_eq_true, Bool.and_eq_true] at hrefused
    exact capWithin_of_subset (hrefused hsuper).1.1.1

/-- A `capset` that succeeds has read its arguments. -/
theorem sysCapset_ok {header : Option CapHeader} {data : Option (Fin 2 → CapData)}
    {pidGlobal : Int → Int} (h : sysCapset c header data pidGlobal = .ok c') :
    ∃ data count, capsetWords c (wordsOf data count CapData.effective)
      (wordsOf data count CapData.permitted) (wordsOf data count CapData.inheritable) count =
      .ok c' := by
  rw [sysCapset.eq_def] at h
  split at h
  · cases h
  split at h
  · cases h
  next count _ =>
  split at h
  · cases h
  split at h
  · cases h
  · next data => exact ⟨data, count, h⟩

/-- A call keeps the inclusions, and only the superuser's `capset` adds to the permitted set. -/
theorem applyCall_caps (call : CredCall) (hok : CapsOk c) : CapsOk (applyCall t c call) ∧
      (¬ AsSuperuser c call → CapWithin (applyCall t c call).capPermitted c.capPermitted) := by
  have hshrunk : ∀ {d : Cred}, Shrunk c d → CapsOk d ∧ (¬ AsSuperuser c call →
      CapWithin d.capPermitted c.capPermitted) := fun h => ⟨h.1, fun _ => h.2⟩
  cases call with
  | setuid uid =>
    refine hshrunk ?_
    rw [applyCall, sysSetuid]
    split
    · exact ⟨hok, CapWithin.refl _⟩
    split
    · exact ⟨hok, CapWithin.refl _⟩
    split
    · exact shrunk_finish ⟨rfl, rfl, rfl, rfl⟩ hok
    split
    · exact ⟨hok, CapWithin.refl _⟩
    · exact shrunk_finish ⟨rfl, rfl, rfl, rfl⟩ hok
  | setreuid ruid euid =>
    refine hshrunk ?_
    rw [applyCall, sysSetreuid]
    split
    · exact shrunk_setresuidKernel hok
    · exact ⟨hok, CapWithin.refl _⟩
  | setresuid ruid euid suid =>
    refine hshrunk ?_
    rw [applyCall, sysSetresuid]
    split
    · exact shrunk_setresuidKernel hok
    · exact ⟨hok, CapWithin.refl _⟩
  | setfsuid uid =>
    refine hshrunk ?_
    rw [applyCall, sysSetfsuid]
    split
    · exact ⟨hok, CapWithin.refl _⟩
    split
    · exact ⟨hok, CapWithin.refl _⟩
    split
    · next uid _ _ =>
      have hsame := sameCaps_commit c { c with fsuid := uid }
      exact shrunk_of_same { hsame with } hok
    · exact ⟨hok, CapWithin.refl _⟩
  | capset header data pidGlobal =>
    rw [applyCall]
    cases hcall : sysCapset c header data pidGlobal with
    | error e => exact ⟨hok, fun _ => CapWithin.refl _⟩
    | ok d =>
      rcases sysCapset_ok hcall with ⟨_, _, hwords⟩
      rcases capsetWords_ok hwords with ⟨hd, hperm⟩
      exact ⟨hd, fun hnot => hperm (Bool.eq_false_iff.mpr hnot)⟩

/-- After any sequence of calls the inclusions hold, and the permitted set has nothing new unless
    the task made a `capset` in it as the superuser. -/
theorem caps_contained {tr : List (Cred × NsTable × CredCall)} (hok : CapsOk c)
    (hrun : Run CredStep c tr c') :
    CapsOk c' ∧ ((∀ d call, (d, call) ∈ tr → ¬ AsSuperuser d call.2) →
      CapWithin c'.capPermitted c.capPermitted) := by
  have hall : CapsOk c' := run_invariant CapsOk hrun hok (fun d call d' _ hd hstep => by
    rw [hstep]
    exact (applyCall_caps call.2 hd).1)
  refine ⟨hall, fun hnone => ?_⟩
  -- The two are carried together, as a call keeps the bound only from a state in order.
  refine (run_invariant (fun d => CapsOk d ∧ CapWithin d.capPermitted c.capPermitted) hrun
    ⟨hok, CapWithin.refl _⟩ (fun d call d' hmem hd hstep => ?_)).2
  rw [hstep]
  have hcall := applyCall_caps (t := call.1) call.2 hd.1
  exact ⟨hcall.1, (hcall.2 (hnone d call hmem)).trans hd.2⟩

/-! ## A task with every capability -/

/-- Root in the initial namespace. -/
def hostRoot : Cred where
  uid := 0
  euid := 0
  suid := 0
  fsuid := 0
  egid := 0
  fsgid := 0
  capEffective := fun _ => BitVec.allOnes 32
  capPermitted := fun _ => BitVec.allOnes 32
  capInheritable := fun _ => 0#32
  capAmbient := fun _ => 0#32
  capBounding := fun _ => BitVec.allOnes 32
  keepcaps := false
  userNs := none
  pid := 1
  tgid := 1
  pdeathSignal := 0
  undumpable := false

theorem hostRoot_capsOk : CapsOk hostRoot := by
  have hzero : CapWithin (fun _ => 0#32) (fun _ => BitVec.allOnes 32) := by
    intro i j hj
    rw [has_zero] at hj
    cases hj
  exact ⟨CapWithin.refl _, hzero, CapWithin.refl _⟩

/-- `capset` with the given permitted set, and the other two empty. -/
def capsetPermitted (permitted : BitVec 32) : NsTable × CredCall :=
  ([], .capset (some ⟨0x20080522, 0⟩) (some (fun _ => ⟨0#32, permitted, 0#32⟩)) id)

theorem run_one (c : Cred) (call : NsTable × CredCall) :
    Run CredStep c [(c, call)] (applyCall call.1 c call.2) :=
  Run.snoc c _ call [] Run.nil rfl

/-- Root becomes another user and is left with nothing. -/
theorem caps_contained_setuid : CapsOk (applyCall [] hostRoot (.setuid 1000)) ∧
      (∀ i, (applyCall [] hostRoot (.setuid 1000)).capPermitted i = 0#32) ∧
      CapWithin (applyCall [] hostRoot (.setuid 1000)).capPermitted hostRoot.capPermitted := by
  have hall := caps_contained hostRoot_capsOk (run_one hostRoot ([], .setuid 1000))
  refine ⟨hall.1, by decide +kernel, hall.2 (fun d call hmem => ?_)⟩
  rw [List.mem_singleton, Prod.mk.injEq] at hmem
  rw [hmem.2]
  exact id

/-- The superuser drops every capability with one `capset` and takes one back with another. -/
theorem superuser_regains :
    ∃ (c c' : Cred) (tr tr' : List (Cred × NsTable × CredCall)), CapsOk hostRoot ∧
      Run CredStep hostRoot tr c ∧ CapsOk c ∧ Run CredStep c tr' c' ∧
      (∀ i, c.capPermitted i = 0#32) ∧ ¬ CapWithin c'.capPermitted c.capPermitted := by
  have hdrop := run_one hostRoot (capsetPermitted 0#32)
  have hdropped : ∀ i, (applyCall [] hostRoot (capsetPermitted 0#32).2).capPermitted i =
      0#32 := by
    decide +kernel
  have htaken : (applyCall [] (applyCall [] hostRoot (capsetPermitted 0#32).2)
      (capsetPermitted 1#32).2).capPermitted 0 = 1#32 := by
    decide +kernel
  have hdropOk : CapsOk (applyCall [] hostRoot (capsetPermitted 0#32).2) :=
    (applyCall_caps (capsetPermitted 0#32).2 hostRoot_capsOk).1
  refine ⟨_, _, _, _, hostRoot_capsOk, hdrop, hdropOk, run_one _ (capsetPermitted 1#32), hdropped,
    fun hwithin => ?_⟩
  have hbit := hwithin 0 0
  rw [show (capsetPermitted 0#32).1 = [] from rfl, show (capsetPermitted 1#32).1 = [] from rfl,
    htaken, hdropped 0, has_zero] at hbit
  exact absurd (hbit (by decide)) (by simp)

end IshAok.Creds
