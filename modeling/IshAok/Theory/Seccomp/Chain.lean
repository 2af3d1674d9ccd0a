import IshAok.Base.Run
import IshAok.Core.Seccomp
import IshAok.Theory.Seccomp.Check

/-!
# Seccomp Only Tightens

Over any run of installs, clones and exits, a thread's filters are never
taken away and its verdict on a call never gets weaker.

A thread's chain changes in two ways. It may push a filter on its own chain,
or it may be given the caller's chain by a synchronisation. The second is
only an extension because `tsync_blocker` has compared pointers, and a
pointer found in the caller's chain stands for everything below it. That is
the invariant here: a filter's identity determines the chain from there on
(`Shared`), whichever thread it is found in.

The verdict of a chain is the lowest over its filters, so a longer chain is
at least as restrictive. A thread without filters is not asked at all, and
`run_filters` on no filter, which would kill, is never reached: the mode and
the chain go together (`ModeOk`).

A child that was copied before a synchronisation and is put on the thread
list after it keeps the chain it was copied with. It is not on the list when
the filters are handed out, which is what being a live thread of the group
means in the source.

## Main definitions

* `Shared`: A filter's identity determines the rest of the chain.
* `ModeOk`: The mode agrees with the chain.
* `Tightens`: How a task may change.
* `ChainInv`: The invariant.

## Theorems

* `runFilters_suffix`: A longer chain is at least as restrictive.
* `action_mono`: A task that tightens gives verdicts at least as restrictive.
* `blocker_none`: What a synchronisation that goes ahead has checked.
* `seccompStep_tightens`, `seccompStep_inv`: One step.
* `filters_only_tighten`: The whole run.
-/

namespace IshAok.Seccomp

open Base List Function

theorem filterLoop_le (data : List UInt32) (c : List Filter) : ∀ acc : UInt32 × Option Filter,
    signedAction (filterLoop data c acc).1 ≤ signedAction acc.1 := by
  induction c with
  | nil =>
    intro acc
    exact Int.le_refl _
  | cons f c ih =>
    intro acc
    rw [filterLoop]
    by_cases h : signedAction (f.run data) < signedAction acc.1
    · rw [if_pos h]
      have hle := ih (f.run data, some f)
      simp only [] at hle
      omega
    · rw [if_neg h]
      exact ih acc

/-- A lower verdict to start from gives a lower one at the end. -/
theorem filterLoop_mono (data : List UInt32) (c : List Filter) :
    ∀ acc acc' : UInt32 × Option Filter, signedAction acc.1 ≤ signedAction acc'.1 →
    signedAction (filterLoop data c acc).1 ≤ signedAction (filterLoop data c acc').1 := by
  induction c with
  | nil =>
    intro acc acc' h
    exact h
  | cons f c ih =>
    intro acc acc' h
    rw [filterLoop, filterLoop]
    by_cases h1 : signedAction (f.run data) < signedAction acc.1
    · have h2 : signedAction (f.run data) < signedAction acc'.1 := by omega
      rw [if_pos h1, if_pos h2]
    rw [if_neg h1]
    by_cases h2 : signedAction (f.run data) < signedAction acc'.1
    · rw [if_pos h2]
      exact ih _ _ (by simp only []; omega)
    rw [if_neg h2]
    exact ih _ _ h

theorem filterLoop_append (data : List UInt32) (c d : List Filter) : ∀ acc : UInt32 × Option Filter,
    filterLoop data (c ++ d) acc = filterLoop data d (filterLoop data c acc) := by
  induction c with
  | nil => exact fun _ => rfl
  | cons f c ih =>
    intro acc
    rw [cons_append, filterLoop, filterLoop]
    split <;> exact ih _

theorem runFilters_eq (c : List Filter) (data : List UInt32) (h : c ≠ []) :
    runFilters c data = filterLoop data c (retAllow, none) := by
  cases c with
  | nil => exact absurd rfl h
  | cons f c => rfl

/-- The filters on top of a chain can only lower its verdict. -/
theorem runFilters_suffix (c d : List Filter) (data : List UInt32) (hc : c ≠ []) (h : c <:+ d) :
    signedAction (runFilters d data).1 ≤ signedAction (runFilters c data).1 := by
  obtain ⟨top, rfl⟩ := h
  rw [runFilters_eq _ data (by simp [hc]), runFilters_eq c data hc, filterLoop_append]
  exact filterLoop_mono data c _ _ (filterLoop_le data top _)

/-- The mode of a task agrees with its chain. -/
structure ModeOk (x : Task) : Prop where
  free : x.mode = .disabled ∨ x.mode = .strict → x.chain = []
  filtered : x.mode = .filter → x.chain ≠ []

/-- How a task may change: filters are added, and the mode is set once. -/
structure Tightens (x y : Task) : Prop where
  chain : x.chain <:+ y.chain
  mode : y.mode = x.mode ∨ x.mode = .disabled ∨ y.mode = .dead

theorem tightens_refl (x : Task) : Tightens x x :=
  ⟨suffix_refl _, .inl rfl⟩

theorem tightens_trans (x y z : Task) (h : Tightens x y) (h' : Tightens y z) : Tightens x z := by
  refine ⟨h.chain.trans h'.chain, ?_⟩
  rcases h.mode with hxy | hx | hy
  · rcases h'.mode with hyz | hyd | hzd
    · exact .inl (hyz.trans hxy)
    · exact .inr (.inl (hxy ▸ hyd))
    · exact .inr (.inr hzd)
  · exact .inr (.inl hx)
  · rcases h'.mode with hyz | hyd | hzd
    · exact .inr (.inr (hyz.trans hy))
    · rw [hy] at hyd
      cases hyd
    · exact .inr (.inr hzd)

/-- Killing the process is the most restrictive verdict there is. -/
theorem killProcess_least (v : UInt32) : signedAction retKillProcess ≤ signedAction v := by
  have hk : signedAction retKillProcess = -2 ^ 31 := by decide
  have hv : -2 ^ 31 ≤ (v &&& 0xffff0000).toBitVec.toInt := BitVec.le_toInt _
  rw [hk]
  exact hv

/-- Allowing the call is the least restrictive verdict a thread gives. -/
theorem action_le_allow (x : Task) (call : Syscall) :
    signedAction (seccompAction x call) ≤ signedAction retAllow := by
  unfold seccompAction
  cases x.mode with
  | disabled => exact Int.le_refl _
  | strict =>
    simp only []
    split
    · exact Int.le_refl _
    · decide
  | dead => exact killProcess_least _
  | filter =>
    by_cases hc : x.chain = []
    · rw [hc]
      exact killProcess_least _
    rw [runFilters_eq _ _ hc]
    exact filterLoop_le _ _ _

theorem action_mono (x y : Task) (call : Syscall) (hx : ModeOk x) (h : Tightens x y) :
    signedAction (seccompAction y call) ≤ signedAction (seccompAction x call) := by
  rcases h.mode with hm | hm | hm
  · unfold seccompAction
    rw [hm]
    cases hxm : x.mode with
    | filter => exact runFilters_suffix _ _ _ (hx.filtered hxm) h.chain
    | _ => exact Int.le_refl _
  · have hallow : seccompAction x call = retAllow := by
      unfold seccompAction
      rw [hm]
    rw [hallow]
    exact action_le_allow y call
  · have hkill : seccompAction y call = retKillProcess := by
      unfold seccompAction
      rw [hm]
    rw [hkill]
    exact killProcess_least _

/-- Filters with one identity are the same filter, with the same ones below. -/
def Shared (c d : List Filter) : Prop :=
  ∀ f r g r', (f :: r) <:+ c → (g :: r') <:+ d → f.id = g.id → f :: r = g :: r'

variable (s : SeccompState) (cur : Nat) (x : Task) (flags : UInt32)

/-- Some task has this chain. -/
def HasChain (c : List Filter) : Prop :=
  ∃ t x, s.tasks t = some x ∧ x.chain = c

/-- The invariant of the system. -/
structure ChainInv (s : SeccompState) : Prop where
  fresh : ∀ c, HasChain s c → ∀ f ∈ c, f.id < s.nextFilter
  shared : ∀ c d, HasChain s c → HasChain s d → Shared c d
  mode : ∀ t x, s.tasks t = some x → ModeOk x

/-- Finding the newest filter of a chain in another finds all of the chain. -/
theorem suffix_of_isAncestor (c d : List Filter) (hs : Shared c d) (h : isAncestor c d = true) :
    c <:+ d := by
  cases c with
  | nil => exact nil_suffix
  | cons f r =>
    simp only [isAncestor, any_eq_true, decide_eq_true_eq] at h
    obtain ⟨g, hg, hid⟩ := h
    obtain ⟨top, r', rfl⟩ := append_of_mem hg
    have hsuf : (g :: r') <:+ top ++ g :: r' := suffix_append _ _
    rw [hs f r g r' (suffix_refl _) hsuf hid.symm]
    exact hsuf

/-- A filter on top of known chains, with an identity nobody has. -/
theorem shared_cons (n : Filter) (c d : List Filter) (next : Nat) (hn : n.id = next)
    (hd : ∀ f ∈ d, f.id < next) (hs : Shared c d) : Shared (n :: c) d := by
  intro f r g r' hf hg hid
  rcases suffix_cons_iff.mp hf with he | hf
  · have hlt := hd g (hg.subset mem_cons_self)
    rw [List.cons.injEq] at he
    rw [he.1, hn] at hid
    omega
  · exact hs f r g r' hf hg hid

theorem shared_symm (c d : List Filter) (h : Shared c d) : Shared d c :=
  fun f r g r' hf hg hid => (h g r' f r hg hf hid.symm).symm

/-- The pushed chain agrees with itself. -/
theorem shared_cons_self (n : Filter) (c : List Filter) (next : Nat) (hn : n.id = next)
    (hc : ∀ f ∈ c, f.id < next) (hs : Shared c c) : Shared (n :: c) (n :: c) := by
  intro f r g r' hf hg hid
  rcases suffix_cons_iff.mp hg with he | hg
  · rcases suffix_cons_iff.mp hf with he' | hf
    · rw [he, he']
    have hlt := hc f (hf.subset mem_cons_self)
    rw [List.cons.injEq] at he
    rw [he.1, hn] at hid
    omega
  · exact shared_cons n c c next hn hc hs f r g r' hf hg hid

/-- A step that makes no filter. -/
theorem inv_of_chains (s s' : SeccompState) (h : ChainInv s) (hnext : s'.nextFilter = s.nextFilter)
    (hch : ∀ t y, s'.tasks t = some y → HasChain s y.chain ∧ ModeOk y) : ChainInv s' := by
  have hold : ∀ c, HasChain s' c → HasChain s c := by
    rintro c ⟨t, y, hy, rfl⟩
    exact (hch t y hy).1
  refine ⟨fun c hc => ?_, fun c d hc hd => ?_, fun t y hy => (hch t y hy).2⟩
  · rw [hnext]
    exact h.fresh c (hold c hc)
  · exact h.shared c d (hold c hc) (hold d hd)

/-- A step that makes one filter, on top of a chain that was there. -/
theorem inv_of_push (s s' : SeccompState) (n : Filter) (c : List Filter) (h : ChainInv s)
    (hn : n.id = s.nextFilter) (hc : HasChain s c) (hnext : s'.nextFilter = s.nextFilter + 1)
    (hch : ∀ t y, s'.tasks t = some y → (HasChain s y.chain ∨ y.chain = n :: c) ∧ ModeOk y) :
    ChainInv s' := by
  have hold : ∀ d, HasChain s' d → HasChain s d ∨ d = n :: c := by
    rintro d ⟨t, y, hy, rfl⟩
    exact (hch t y hy).1
  refine ⟨fun d hd f hf => ?_, fun d e hd he => ?_, fun t y hy => (hch t y hy).2⟩
  · rw [hnext]
    rcases hold d hd with hd | rfl
    · exact Nat.lt_succ_of_lt (h.fresh d hd f hf)
    rcases mem_cons.mp hf with rfl | hf
    · omega
    · exact Nat.lt_succ_of_lt (h.fresh c hc f hf)
  · rcases hold d hd with hd | rfl
    · rcases hold e he with he | rfl
      · exact h.shared d e hd he
      · exact shared_symm _ _ (shared_cons n c d _ hn (h.fresh d hd) (h.shared c d hc hd))
    · rcases hold e he with he | rfl
      · exact shared_cons n c e _ hn (h.fresh e he) (h.shared c e hc he)
      · exact shared_cons_self n c _ hn (h.fresh c hc) (h.shared c c hc hc)

theorem setTask_cases (t t' : Nat) (x y : Task)
    (h : (s.setTask t x).tasks t' = some y) : (t' = t ∧ y = x) ∨
      (t' ≠ t ∧ s.tasks t' = some y) := by
  unfold SeccompState.setTask at h
  by_cases ht : t' = t
  · simp only [ht, update_self, Option.some.injEq] at h
    exact .inl ⟨ht, h.symm⟩
  simp only [update_of_ne ht] at h
  exact .inr ⟨ht, h⟩

/-- A thread that changes without touching its chain. -/
theorem inv_setTask (t : Nat) (y : Task) (h : ChainInv s)
    (hy : HasChain s y.chain) (hm : ModeOk y) : ChainInv (s.setTask t y) := by
  refine inv_of_chains s _ h rfl fun t' z hz => ?_
  rcases setTask_cases s t t' y z hz with ⟨-, rfl⟩ | ⟨-, hz⟩
  · exact ⟨hy, hm⟩
  · exact ⟨⟨t', z, hz, rfl⟩, h.mode t' z hz⟩

/-- A change to one task tightens every task if it tightens that one. -/
theorem tightens_setTask (t : Nat) (x y : Task) (hx : s.tasks t = some x)
    (hxy : Tightens x y) (t' : Nat) (z : Task) (hz : s.tasks t' = some z) :
    ∃ z', (s.setTask t y).tasks t' = some z' ∧ Tightens z z' := by
  unfold SeccompState.setTask
  by_cases ht : t' = t
  · rw [ht, hx, Option.some.injEq] at hz
    subst hz
    exact ⟨y, by simp [ht], hxy⟩
  · exact ⟨z, by simp only [update_of_ne ht, hz], tightens_refl z⟩

/-- A synchronisation goes ahead only if every other thread is unfiltered or
    has an ancestor of the caller's filters. -/
theorem blocker_none (old : List Filter) (ts : List Nat)
    (h : tsyncBlocker s cur old ts = none) : ∀ t ∈ ts, ∀ y, s.tasks t = some y → t ≠ cur →
    y.exiting = false → y.mode = .disabled ∨
      (y.mode = .filter ∧ isAncestor y.chain old = true) := by
  induction ts with
  | nil =>
    intro t ht
    exact absurd ht not_mem_nil
  | cons t' ts ih =>
    intro t ht y hy hcur hex
    rw [tsyncBlocker] at h
    rcases mem_cons.mp ht with rfl | ht
    · rw [hy] at h
      simp only [] at h
      rw [if_neg (by rw [hex]; simp only [hcur, Bool.false_eq_true, or_self,
        not_false_eq_true])] at h
      by_cases hd : y.mode = .disabled
      · exact Or.inl hd
      rw [if_neg hd] at h
      by_cases ha : y.mode = .filter ∧ isAncestor y.chain old = true
      · exact Or.inr ha
      rw [if_neg ha] at h
      cases h
    · -- Whatever is found at this thread, the search has gone past it.
      refine ih ?_ t ht y hy hcur hex
      cases hx : s.tasks t' with
      | none =>
        rw [hx] at h
        exact h
      | some x =>
        rw [hx] at h
        simp only [] at h
        split at h
        · exact h
        split at h
        · exact h
        split at h
        · exact h
        · cases h

/-- `set_mode_filter` changes nothing, or installs. -/
theorem setModeFilter_cases (u : UserFilter) :
    ((setModeFilter s cur x flags u).1 ≠ .done ∧ (setModeFilter s cur x flags u).2 = s) ∨
    ∃ p, (x.mode = .disabled ∨ x.mode = .filter) ∧ blockerFor s cur x flags = none ∧
      setModeFilter s cur x flags u = (.done, install s cur x flags p) := by
  have hfail : ∀ e, SetResult.failed e ≠ .done := fun e => by
    simp
  unfold setModeFilter
  by_cases hf : flags &&& ~~~flagsKnown ≠ 0
  · rw [if_pos hf]
    exact Or.inl ⟨hfail _, rfl⟩
  rw [if_neg hf]
  cases prepareUserFilter x.noNewPrivs u with
  | error e => exact Or.inl ⟨hfail _, rfl⟩
  | ok p =>
    simp only []
    by_cases hm : mayAssignMode x.mode .filter = false
    · rw [if_pos hm]
      exact Or.inl ⟨hfail _, rfl⟩
    rw [if_neg hm]
    by_cases ht : pathTotal p.1 x.chain > maxPathInsns
    · rw [if_pos ht]
      exact Or.inl ⟨hfail _, rfl⟩
    rw [if_neg ht]
    cases hb : blockerFor s cur x flags with
    | some pid =>
      left
      simp only []
      refine ⟨?_, trivial⟩
      split <;> simp only [ne_eq, reduceCtorEq, not_false_eq_true]
    | none =>
      right
      refine ⟨p, ?_, rfl, rfl⟩
      simpa only [mayAssignMode, decide_eq_false_iff_not, Decidable.not_not] using hm

/-- What a synchronised thread becomes. -/
def synced (x y : Task) : Task :=
  { y with chain := x.chain, mode := .filter, noNewPrivs := y.noNewPrivs || x.noNewPrivs }

/-- Where the tasks come from after an install. -/
theorem install_tasks (p : CheckedProgram) (t : Nat) :
    (install s cur x flags p).tasks t =
      if t = cur then some (pushFilter s x flags p)
      else (s.tasks t).map (fun y =>
        if hasFlag flags flagTsync = true ∧ t ∈ s.threads x.group ∧ y.exiting = false then
          synced (pushFilter s x flags p) y
        else y) := by
  unfold install
  by_cases ht : hasFlag flags flagTsync = true
  · simp only [ht, if_true, tsyncAssign, SeccompState.setTask, true_and]
    by_cases hc : t = cur
    · rw [if_pos hc, hc, update_self]
      simp
    rw [if_neg hc, update_of_ne hc]
    simp only [ne_eq, hc, not_false_eq_true, true_and]
    rfl
  · simp only [ht, if_false, SeccompState.setTask, Bool.false_eq_true, false_and]
    by_cases hc : t = cur
    · rw [if_pos hc, hc, update_self]
    · rw [if_neg hc, update_of_ne hc, Option.map_id']

/-- What an install does to a thread, and what it must have been before. -/
theorem tightens_install (p : CheckedProgram) (h : ChainInv s) (hx : s.tasks cur = some x)
    (hm : x.mode = .disabled ∨ x.mode = .filter) (hb : blockerFor s cur x flags = none)
    (t : Nat) (y : Task) (hy : s.tasks t = some y) :
    ∃ z, (install s cur x flags p).tasks t = some z ∧ Tightens y z := by
  rw [install_tasks]
  by_cases hc : t = cur
  · rw [if_pos hc]
    rw [hc, hx, Option.some.injEq] at hy
    subst hy
    refine ⟨_, rfl, suffix_cons _ _, ?_⟩
    rcases hm with hm | hm
    · exact .inr (.inl hm)
    · exact .inl hm.symm
  rw [if_neg hc, hy, Option.map_some]
  by_cases hs : hasFlag flags flagTsync = true ∧ t ∈ s.threads x.group ∧ y.exiting = false
  · rw [if_pos hs]
    unfold blockerFor at hb
    rw [if_pos hs.1] at hb
    refine ⟨_, rfl, ?_, ?_⟩
    · rcases blocker_none s cur x.chain _ hb t hs.2.1 y hy hc hs.2.2 with hd | ⟨-, ha⟩
      · rw [(h.mode t y hy).free (.inl hd)]
        exact nil_suffix
      have hsuf := suffix_of_isAncestor y.chain x.chain
        (h.shared _ _ ⟨t, y, hy, rfl⟩ ⟨cur, x, hx, rfl⟩) ha
      exact hsuf.trans (suffix_cons _ _)
    · rcases blocker_none s cur x.chain _ hb t hs.2.1 y hy hc hs.2.2 with hd | ⟨hf, -⟩
      · exact .inr (.inl hd)
      · exact .inl hf.symm
  · rw [if_neg hs]
    exact ⟨y, rfl, tightens_refl y⟩

theorem inv_install (p : CheckedProgram) (h : ChainInv s) (hx : s.tasks cur = some x) :
    ChainInv (install s cur x flags p) := by
  have hnext : (install s cur x flags p).nextFilter = s.nextFilter + 1 := by
    unfold install
    split <;> rfl
  have hpush : ∀ y : Task, y.mode = .filter → y.chain = (pushFilter s x flags p).chain →
      ModeOk y := by
    intro y hm hc
    refine ⟨fun hd => ?_, fun _ => ?_⟩
    · rw [hm] at hd
      exact absurd hd (by simp)
    · rw [hc]
      exact cons_ne_nil _ _
  refine inv_of_push s _ ⟨s.nextFilter, hasFlag flags flagLog, p.1, p.2⟩ x.chain h rfl
    ⟨cur, x, hx, rfl⟩ hnext fun t z hz => ?_
  rw [install_tasks] at hz
  by_cases hc : t = cur
  · rw [if_pos hc, Option.some.injEq] at hz
    subst hz
    exact ⟨Or.inr rfl, hpush _ rfl rfl⟩
  rw [if_neg hc, Option.map_eq_some_iff] at hz
  obtain ⟨y, hy, hz⟩ := hz
  split at hz
  · subst hz
    exact ⟨Or.inr rfl, hpush _ rfl rfl⟩
  subst hz
  exact ⟨Or.inl ⟨t, y, hy, rfl⟩, h.mode t y hy⟩

/-- A step that leaves the tasks alone tightens them. -/
theorem tightens_same (s s' : SeccompState) (h : s'.tasks = s.tasks) (t : Nat) (x : Task)
    (hx : s.tasks t = some x) : ∃ y, s'.tasks t = some y ∧ Tightens x y :=
  ⟨x, by rw [h]; exact hx, tightens_refl x⟩

theorem seccompStep_tightens (s s' : SeccompState) (e : SeccompEvent) (h : ChainInv s)
    (hs : SeccompStep s e s') (t : Nat) (y : Task) (hy : s.tasks t = some y) :
    ∃ z, s'.tasks t = some z ∧ Tightens y z := by
  cases hs with
  | setModeFilter cur x flags u hl =>
    rcases setModeFilter_cases s cur x flags u with ⟨-, he⟩ | ⟨p, hm, hb, he⟩
    · rw [he]
      exact ⟨y, hy, tightens_refl y⟩
    rw [he]
    exact tightens_install s cur x flags p h hl.1 hm hb t y hy
  | setModeStrict cur x hl =>
    unfold setModeStrict
    by_cases hm : mayAssignMode x.mode .strict = true
    · rw [if_pos hm]
      refine tightens_setTask s cur x { x with mode := .strict } hl.1 ⟨suffix_refl _, ?_⟩ t y hy
      simp only [mayAssignMode, decide_eq_true_eq] at hm
      rcases hm with hm | hm
      · exact .inr (.inl hm)
      · exact .inl hm.symm
    · rw [if_neg hm]
      exact ⟨y, hy, tightens_refl y⟩
  | kill cur x hl =>
    exact tightens_setTask s cur x { x with mode := .dead } hl.1
      ⟨suffix_refl _, .inr (.inr rfl)⟩ t y hy
  | setNoNewPrivs cur x hl =>
    exact tightens_setTask s cur x { x with noNewPrivs := true } hl.1
      ⟨suffix_refl _, .inl rfl⟩ t y hy
  | copy parent child pid group x hl hnew =>
    have hne : t ≠ child := by
      rintro rfl
      rw [hnew] at hy
      cases hy
    refine ⟨y, ?_, tightens_refl y⟩
    simp only [SeccompState.setTask, update_of_ne hne, hy]
  | link | unlink => exact tightens_same s _ rfl t y hy
  | exit t' x hx =>
    exact tightens_setTask s t' x { x with exiting := true } hx
      ⟨suffix_refl _, .inl rfl⟩ t y hy

theorem seccompStep_inv (s s' : SeccompState) (e : SeccompEvent) (h : ChainInv s)
    (hs : SeccompStep s e s') : ChainInv s' := by
  cases hs with
  | setModeFilter cur x flags u hl =>
    rcases setModeFilter_cases s cur x flags u with ⟨-, he⟩ | ⟨p, -, -, he⟩
    · rw [he]
      exact h
    rw [he]
    exact inv_install s cur x flags p h hl.1
  | setModeStrict cur x hl =>
    unfold setModeStrict
    by_cases hm : mayAssignMode x.mode .strict = true
    · rw [if_pos hm]
      have hfree : x.chain = [] := by
        refine (h.mode cur x hl.1).free ?_
        simpa only [mayAssignMode, decide_eq_true_eq] using hm
      refine inv_setTask s cur _ h ⟨cur, x, hl.1, rfl⟩ ⟨fun _ => hfree, fun hf => ?_⟩
      cases hf
    · rw [if_neg hm]
      exact h
  | kill cur x hl =>
    refine inv_setTask s cur _ h ⟨cur, x, hl.1, rfl⟩ ⟨fun hd => ?_, fun hf => ?_⟩
    · exact absurd hd (by simp)
    · cases hf
  | setNoNewPrivs cur x hl =>
    have hm := h.mode cur x hl.1
    exact inv_setTask s cur _ h ⟨cur, x, hl.1, rfl⟩ ⟨hm.free, hm.filtered⟩
  | copy parent child pid group x hl hnew =>
    have hm := h.mode parent x hl.1
    exact inv_setTask s child _ h ⟨parent, x, hl.1, rfl⟩ ⟨hm.free, hm.filtered⟩
  | link child x hx hnl =>
    exact inv_of_chains s _ h rfl fun t y hy => ⟨⟨t, y, hy, rfl⟩, h.mode t y hy⟩
  | exit t x hx =>
    have hm := h.mode t x hx
    exact inv_setTask s t _ h ⟨t, x, hx, rfl⟩ ⟨hm.free, hm.filtered⟩
  | unlink t x hx =>
    exact inv_of_chains s _ h rfl fun t' y hy => ⟨⟨t', y, hy, rfl⟩, h.mode t' y hy⟩

/-- Over a run every task tightens. -/
theorem run_tightens (s s' : SeccompState) (tr : List (SeccompState × SeccompEvent))
    (h : ChainInv s) (hr : Run SeccompStep s tr s') :
    ChainInv s' ∧ ∀ t x, s.tasks t = some x → ∃ y, s'.tasks t = some y ∧ Tightens x y := by
  induction hr with
  | nil => exact ⟨h, fun t x hx => ⟨x, hx, tightens_refl x⟩⟩
  | snoc u v e tr _ hs ih =>
    refine ⟨seccompStep_inv u v e ih.1 hs, fun t x hx => ?_⟩
    obtain ⟨y, hy, hxy⟩ := ih.2 t x hx
    obtain ⟨z, hz, hyz⟩ := seccompStep_tightens u v e ih.1 hs t y hy
    exact ⟨z, hz, tightens_trans x y z hxy hyz⟩

/-- Before any filter: no task has one. -/
def Unfiltered : Prop :=
  ∀ t x, s.tasks t = some x → x.mode = .disabled ∧ x.chain = []

theorem unfiltered_inv (h : Unfiltered s) : ChainInv s := by
  have hnil : ∀ c, HasChain s c → c = [] := by
    rintro c ⟨t, x, hx, rfl⟩
    exact (h t x hx).2
  refine ⟨fun c hc f hf => ?_, fun c d hc _ f r g r' hf => ?_, fun t x hx => ⟨fun _ => ?_, ?_⟩⟩
  · rw [hnil c hc] at hf
    cases hf
  · rw [hnil c hc] at hf
    exact absurd (suffix_nil.mp hf) (cons_ne_nil _ _)
  · exact (h t x hx).2
  · intro hm
    rw [(h t x hx).1] at hm
    cases hm

/-- Along every run: each thread's chain extends the chain it had at any
    earlier point, and its verdict on any call is at least as restrictive; a
    synchronisation that succeeds leaves every live thread of the group with
    the caller's new chain; an install that fails changes nothing. -/
theorem filters_only_tighten (s₀ s : SeccompState) (tr : List (SeccompState × SeccompEvent))
    (h₀ : Unfiltered s₀) (hr : Run SeccompStep s₀ tr s) :
    (∀ u e, (u, e) ∈ tr → ∀ t x, u.tasks t = some x → ∃ y, s.tasks t = some y ∧
      x.chain <:+ y.chain ∧
      ∀ call, signedAction (seccompAction y call) ≤ signedAction (seccompAction x call)) ∧
    (∀ cur x flags u, Live s cur x → hasFlag flags flagTsync = true →
      (setModeFilter s cur x flags u).1 = .done →
      ∃ f : Filter, ∀ t y, Live (setModeFilter s cur x flags u).2 t y → y.group = x.group →
        y.chain = f :: x.chain ∧ y.mode = .filter) ∧
    (∀ cur x flags u, (setModeFilter s cur x flags u).1 ≠ .done →
      (setModeFilter s cur x flags u).2 = s) := by
  refine ⟨fun u e hmem t x hx => ?_, fun cur x flags u hl ht hd => ?_, fun cur x flags u hd => ?_⟩
  · obtain ⟨tr₁, tr₂, v, -, h₁, hstep, h₂⟩ := run_split hr u e hmem
    have hu := (run_tightens s₀ u tr₁ (unfiltered_inv s₀ h₀) h₁).1
    obtain ⟨y, hy, hxy⟩ := seccompStep_tightens u v e hu hstep t x hx
    obtain ⟨z, hz, hyz⟩ := (run_tightens v s tr₂ (seccompStep_inv u v e hu hstep) h₂).2 t y hy
    have hxz := tightens_trans x y z hxy hyz
    exact ⟨z, hz, hxz.chain, fun call => action_mono x z call (hu.mode t x hx) hxz⟩
  · rcases setModeFilter_cases s cur x flags u with ⟨hne, -⟩ | ⟨p, -, -, he⟩
    · exact absurd hd hne
    refine ⟨⟨s.nextFilter, hasFlag flags flagLog, p.1, p.2⟩, fun t y hy hg => ?_⟩
    rw [he] at hy
    have hthreads : (install s cur x flags p).threads = s.threads := by
      unfold install
      split <;> rfl
    obtain ⟨hty, hex, hmem⟩ := hy
    rw [hthreads, hg] at hmem
    rw [install_tasks] at hty
    by_cases hc : t = cur
    · rw [if_pos hc, Option.some.injEq] at hty
      rw [← hty]
      exact ⟨rfl, rfl⟩
    · rw [if_neg hc, Option.map_eq_some_iff] at hty
      obtain ⟨z, -, hz⟩ := hty
      by_cases hzx : z.exiting = false
      · rw [if_pos ⟨ht, hmem, hzx⟩] at hz
        rw [← hz]
        exact ⟨rfl, rfl⟩
      · rw [if_neg (fun hall => hzx hall.2.2)] at hz
        rw [hz] at hzx
        exact absurd hex hzx
  · rcases setModeFilter_cases s cur x flags u with ⟨-, he⟩ | ⟨p, -, -, he⟩
    · exact he
    rw [he] at hd
    exact absurd rfl hd

/-- A process of two threads. -/
def twoThreads : SeccompState :=
  { tasks := fun t => if t < 2 then some ⟨t + 1, 1, .disabled, [], true, false⟩ else none
    threads := fun g => if g = 1 then [1, 0] else []
    nextFilter := 0 }

/-- A program that allows every call. -/
def allowAll : UserFilter :=
  { header := some (1, 8)
    capable := false
    insnsMemory := true
    insns := some fun _ => ⟨0x06, 0, 0, retAllow⟩
    checkMemory := true
    filterMemory := true }

/-- The first thread installs a filter for itself and a second for both. -/
theorem filters_only_tighten_two :
    ∃ s x y, Live s 0 x ∧ x.chain.length = 1 ∧
      (setModeFilter s 0 x flagTsync allowAll).2.tasks 1 = some y ∧ y.chain.length = 2 := by
  have hx : Live twoThreads 0 ⟨1, 1, .disabled, [], true, false⟩ :=
    ⟨rfl, rfl, mem_cons_of_mem _ mem_cons_self⟩
  have hr := Run.snoc _ _ _ _ Run.nil
    (SeccompStep.setModeFilter twoThreads 0 _ 0 allowAll hx)
  have h₀ : Unfiltered twoThreads := by
    intro t x ht
    unfold twoThreads at ht
    simp only [] at ht
    split at ht
    · cases ht
      exact ⟨rfl, rfl⟩
    · cases ht
  obtain ⟨-, hsync, -⟩ := filters_only_tighten twoThreads _ _ h₀ hr
  refine ⟨(setModeFilter twoThreads 0 ⟨1, 1, .disabled, [], true, false⟩ 0 allowAll).2, _, _,
    ⟨rfl, rfl, mem_cons_of_mem _ mem_cons_self⟩, rfl, rfl, ?_⟩
  obtain ⟨f, hf⟩ := hsync 0 _ flagTsync allowAll
    ⟨rfl, rfl, mem_cons_of_mem _ mem_cons_self⟩ rfl rfl
  rw [(hf 1 _ ⟨rfl, rfl, mem_cons_self⟩ rfl).1]
  rfl

end IshAok.Seccomp
