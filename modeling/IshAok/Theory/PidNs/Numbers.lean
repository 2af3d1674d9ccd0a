import IshAok.Base.Run
import IshAok.Core.PidNs

/-!
# Numbers Name Slots

A table is good if the number of every slot in use leads back to it. Numbers of
other slots may be left behind, and two of them may even be the same: they are
recognised since what they lead back to has another number or is not in use. A
number that is handed out is therefore one that no slot in use has.

The tables that have a number for a slot are those of the namespace it was
numbered in and of those above it, which is what the loops up the parents see to.

## Main definitions

* `Good`, `Inv`: What holds of a table, and of all of them.

## Theorems

* `good_takeBack`, `good_give`: What a table stays good under.
* `unnumberUp_tables`, `numberUp_spec`: The loops up the parents.
* `exec_inv`: Every call keeps the tables good.
* `numbers_bijective`: Numbers of slots in use lead back, and only to where they belong.
-/

namespace IshAok.PidNs

open Base List Function Bool

variable {pids : Nat → Slot} {s s' : State} {t : Table} {id : Nat} {ns up : Ns}

structure Good (pids : Nat → Slot) (t : Table) : Prop where
  back : ∀ p, (pids p).empty = false → t.nrOf p ≠ 0 → t.byNr (t.nrOf p) = p
  le : ∀ p, t.nrOf p ≤ maxPid

structure Inv (s : State) : Prop where
  good : ∀ ns, Good s.pids (s.tables ns)
  numbered : ∀ ns p, (s.tables ns).nrOf p ≠ 0 ↔ ns ≠ [] ∧ ns <:+ (s.pids p).numberedNs
  slot : ∀ p, (s.pids p).empty = false ∨ (s.pids p).numberedNs ≠ [] → 0 < p ∧ p ≤ maxPid

theorem good_takeBack (h : Good pids t) : Good pids (t.takeBack id) := by
  refine ⟨fun p hp hnr => ?_, fun p => ?_⟩
  · have hne : p ≠ id := by
      rintro rfl
      exact hnr (by simp [Table.takeBack])
    simp only [Table.takeBack, update_of_ne hne] at hnr ⊢
    have hback := h.back p hp hnr
    split
    · -- The entry that is cleared leads to another slot.
      next hid =>
        rw [update_of_ne, hback]
        intro heq
        rw [heq, hid.2.2] at hback
        exact hne hback.symm
    · exact hback
  · by_cases hp : p = id
    · simp [Table.takeBack, hp]
    · simpa only [Table.takeBack, update_of_ne hp] using h.le p

/-- A free number is one that no slot in use has. -/
theorem good_give {next : Nat × Nat} (h : Good s.pids t) (hfree : free s t next.1 = true)
    (hle : next.1 ≤ maxPid) (hpos : ∀ p, (s.pids p).empty = false → 0 < p) (id : Nat) :
    Good s.pids (t.give id next) := by
  refine ⟨fun p hp hnr => ?_, fun p => ?_⟩
  · by_cases hid : p = id
    · simp [Table.give, hid]
    simp only [Table.give, update_of_ne hid] at hnr ⊢
    have hback := h.back p hp hnr
    rw [update_of_ne, hback]
    intro heq
    rw [heq] at hback
    simp only [free, hback, heq, hp, bne_self_eq_false, Bool.or_false, beq_iff_eq] at hfree
    exact (hpos p hp).ne' hfree
  · by_cases hid : p = id
    · simpa [Table.give, hid] using hle
    · simpa only [Table.give, update_of_ne hid] using h.le p

theorem taskPidWrap_le (s : State) : taskPidWrap s ≤ maxPid := by
  unfold taskPidWrap
  split <;> omega

theorem nextNrLoop_spec (tries last : Nat) (h : (nextNrLoop s t tries last).1 ≠ 0) :
    free s t (nextNrLoop s t tries last).1 = true ∧ (nextNrLoop s t tries last).1 ≤ maxPid := by
  induction tries generalizing last with
  | zero => exact absurd rfl h
  | succ tries ih =>
    have hwrap := taskPidWrap_le s
    have hle : (if taskPidWrap s ≤ last + 1 then 1 else last + 1) ≤ maxPid := by
      split
      · decide
      · omega
    rw [nextNrLoop] at h ⊢
    generalize (if taskPidWrap s ≤ last + 1 then 1 else last + 1) = nr at h hle ⊢
    by_cases hfree : free s t nr = true
    · rw [if_pos hfree]
      exact ⟨hfree, hle⟩
    rw [if_neg hfree] at h ⊢
    exact ih nr h

theorem forall_setTable {P : Ns → Table → Prop} (h : P ns t)
    (hrest : ∀ v, v ≠ ns → P v (s.tables v)) (v : Ns) : P v ((s.setTable ns t).tables v) :=
  (forall_update_iff _ P).mpr ⟨h, hrest⟩ v

theorem suffix_ne {n : Nat} (h : ns <:+ up) : ns ≠ n :: up := by
  rintro rfl
  have hlen := h.length_le
  simp only [length_cons] at hlen
  omega

theorem unnumberUp_pids (s : State) (id : Nat) (up : Ns) : (unnumberUp s id up).pids = s.pids := by
  induction up generalizing s with
  | nil => rfl
  | cons n up ih => exact ih _

theorem unnumberUp_tables (s : State) (id : Nat) (up ns : Ns) : (unnumberUp s id up).tables ns =
      if ns ≠ [] ∧ ns <:+ up then (s.tables ns).takeBack id else s.tables ns := by
  induction up generalizing s with
  | nil => simp +contextual [unnumberUp]
  | cons n up ih =>
    rw [unnumberUp, ih]
    by_cases hns : ns = n :: up
    · have hnot : ¬ns <:+ up := fun h => suffix_ne h hns
      subst hns
      simp [State.setTable, hnot]
    · simp [State.setTable, suffix_cons_iff, hns]

theorem pidNsUnnumber_pids (s : State) (id : Nat) : (pidNsUnnumber s id).pids =
    Function.update s.pids id { s.pids id with numberedNs := [] } :=
  unnumberUp_pids _ _ _

theorem pidNsUnnumber_empty (s : State) (id p : Nat) :
    ((pidNsUnnumber s id).pids p).empty = (s.pids p).empty := by
  rw [pidNsUnnumber_pids]
  by_cases hp : p = id
  · subst hp
    simp [Slot.empty]
  · rw [update_of_ne hp]

/-- After this a slot has no number at all. -/
theorem inv_unnumber (h : Inv s) (id : Nat) : Inv (pidNsUnnumber s id) := by
  have htables := fun ns => unnumberUp_tables
    (s.setSlot id { s.pids id with numberedNs := [] }) id (s.pids id).numberedNs ns
  refine ⟨fun ns => ?_, fun ns p => ?_, fun p hp => ?_⟩
  · have hgood : Good (pidNsUnnumber s id).pids (s.tables ns) :=
      ⟨fun p hp => (h.good ns).back p (pidNsUnnumber_empty s id p ▸ hp), (h.good ns).le⟩
    rw [pidNsUnnumber, htables, ← pidNsUnnumber]
    split
    · exact good_takeBack hgood
    · exact hgood
  · have hnum := h.numbered ns p
    rw [pidNsUnnumber_pids, pidNsUnnumber, htables]
    by_cases hp : p = id
    · subst hp
      split
      · simp [Table.takeBack]
      · next hns => simpa [State.setSlot] using mt hnum.mp hns
    · rw [update_of_ne hp]
      split
      · simpa only [Table.takeBack, State.setSlot, update_of_ne hp] using hnum
      · exact hnum
  · rw [pidNsUnnumber_empty, pidNsUnnumber_pids] at hp
    apply h.slot p
    rcases hp with hp | hp
    · exact .inl hp
    · by_cases heq : p = id
      · simp [heq] at hp
      rw [update_of_ne heq] at hp
      exact .inr hp

/-- What the loop of `pid_ns_number_task` makes of a table. -/
structure Numbered (pids : Nat → Slot) (id : Nat) (ns : Ns) (ok : Bool) (v : Ns)
    (t t' : Table) : Prop where
  good : Good pids t'
  same : ∀ p, p ≠ id → t'.nrOf p = t.nrOf p
  given : v <:+ ns → (t'.nrOf id ≠ 0 ↔ ok = true ∧ v ≠ [])
  other : ¬v <:+ ns → t' = t

theorem numbered_cons {n : Nat} {ok : Bool} {v : Ns} {t' : Table}
    (h : Numbered pids id up ok v t t') (hv : v ≠ n :: up) :
    Numbered pids id (n :: up) ok v t t' := by
  have hcons : v <:+ n :: up ↔ v <:+ up := by simp [suffix_cons_iff, hv]
  exact ⟨h.good, h.same, fun hup => h.given (hcons.mp hup), fun hup => h.other (mt hcons.mpr hup)⟩

theorem numberUp_spec (s : State) (id : Nat) (ns : Ns) (hgood : ∀ v, Good s.pids (s.tables v))
    (hpos : ∀ p, (s.pids p).empty = false → 0 < p)
    (hzero : ∀ v, v <:+ ns → (s.tables v).nrOf id = 0) :
    (numberUp s id ns).2.pids = s.pids ∧ ∀ v,
      Numbered s.pids id ns (numberUp s id ns).1 v (s.tables v)
        ((numberUp s id ns).2.tables v) := by
  induction ns generalizing s with
  | nil =>
    refine ⟨rfl, fun v => ⟨hgood v, fun _ _ => rfl, fun hv => ?_, fun _ => rfl⟩⟩
    have hv0 := hzero v hv
    rw [suffix_nil] at hv
    subst hv
    simp [numberUp, hv0]
  | cons n up ih =>
    have hown := hzero _ (suffix_refl _)
    have hself : ∀ P : Prop, ¬n :: up <:+ n :: up → P := fun _ h => absurd (suffix_refl _) h
    simp only [numberUp]
    split
    · refine ⟨rfl, forall_setTable ?_ fun v _ => ?_⟩
      · exact ⟨⟨(hgood _).back, (hgood _).le⟩, fun _ _ => rfl, fun _ => by simp [hown], hself _⟩
      · exact ⟨hgood v, fun _ _ => rfl, fun hv => by simp [hzero v hv], fun _ => rfl⟩
    · next hnext =>
      have hgiven : Good s.pids ((s.tables (n :: up)).give id (pidNsNextNr s _)) :=
        good_give (hgood _) (nextNrLoop_spec _ _ hnext).1 (nextNrLoop_spec _ _ hnext).2 hpos id
      generalize pidNsNextNr s (s.tables (n :: up)) = next at hnext hgiven ⊢
      obtain ⟨hpids, hrest⟩ := ih (s.setTable (n :: up) _)
        (forall_setTable hgiven fun v _ => hgood v) hpos (fun v hv => by
          simpa only [State.setTable, update_of_ne (suffix_ne hv)] using
            hzero v (hv.trans (suffix_cons _ _)))
      generalize numberUp _ id up = rest at hpids hrest ⊢
      -- The loop above this namespace does not come back to its table.
      have htop : rest.2.tables (n :: up) = (s.tables (n :: up)).give id next := by
        simpa [State.setTable] using (hrest (n :: up)).other (fun h => suffix_ne h rfl)
      have hup : ∀ v, v ≠ n :: up →
          Numbered s.pids id (n :: up) rest.1 v (s.tables v) (rest.2.tables v) := fun v hv => by
        simpa only [State.setTable, update_of_ne hv] using numbered_cons (hrest v) hv
      split
      · next hok =>
        refine ⟨hpids, fun v => ?_⟩
        by_cases hv : v = n :: up
        · rw [hv, htop]
          refine ⟨hgiven, fun p hp => ?_, fun _ => ?_, hself _⟩
          · simp [Table.give, hp]
          · simp [Table.give, hnext, hok]
        · exact hup v hv
      · next hok =>
        rw [not_eq_true] at hok
        rw [hok] at hup
        rw [htop]
        refine ⟨hpids, forall_setTable ?_ hup⟩
        refine ⟨good_takeBack hgiven, fun p hp => ?_, fun _ => ?_, hself _⟩
        · simp [Table.takeBack, Table.give, hp]
        · simp [Table.takeBack]

theorem nrOf_of_nil (h : Inv s) (hid : (s.pids id).numberedNs = []) (v : Ns) :
    (s.tables v).nrOf id = 0 := by
  by_contra hne
  obtain ⟨hv, hsuf⟩ := (h.numbered v id).mp hne
  rw [hid, suffix_nil] at hsuf
  exact hv hsuf

theorem pidNsUnnumber_self (hid : (s.pids id).numberedNs = []) : pidNsUnnumber s id = s := by
  have hslot : ({ s.pids id with numberedNs := [] } : Slot) = s.pids id := by rw [← hid]
  rw [pidNsUnnumber, hid, hslot]
  simp [unnumberUp, State.setSlot]

/-- A failed call leaves every number, and a successful one numbers the task. -/
theorem numberTask_spec (h : Inv s) (hid : (s.pids id).numberedNs = []) (ns : Ns) :
    (numberUp s id ns).2.pids = s.pids ∧ ∀ v, Numbered s.pids id ns (numberUp s id ns).1 v
      (s.tables v) ((numberUp s id ns).2.tables v) :=
  numberUp_spec s id ns h.good (fun p hp => (h.slot p (.inl hp)).1) fun v _ => nrOf_of_nil h hid v

theorem numberUp_failed (h : Inv s) (hid : (s.pids id).numberedNs = [])
    (hfail : (numberUp s id ns).1 = false) (v : Ns) (p : Nat) :
    ((numberUp s id ns).2.tables v).nrOf p = (s.tables v).nrOf p := by
  have hv := (numberTask_spec h hid ns).2 v
  by_cases hp : p = id
  · subst hp
    by_cases hsuf : v <:+ ns
    · have hgiven := hv.given hsuf
      rw [hfail] at hgiven
      rw [nrOf_of_nil h hid]
      simpa using hgiven
    · rw [hv.other hsuf]
  · exact hv.same p hp

theorem inv_number (h : Inv s) (htask : (s.pids id).task = true)
    (hid : (s.pids id).numberedNs = []) (ns : Ns) : Inv (pidNsNumberTask s id ns).2 := by
  obtain ⟨hpids, htables⟩ := numberTask_spec h hid ns
  have huse : (s.pids id).empty = false := by simp [Slot.empty, htask]
  rw [pidNsNumberTask, pidNsUnnumber_self hid]
  split
  · next hok =>
    have hempty : ∀ p, (((numberUp s id ns).2.setSlot id
        { (numberUp s id ns).2.pids id with numberedNs := ns }).pids p).empty =
        (s.pids p).empty := fun p => by
      by_cases hp : p = id
      · simp [State.setSlot, hp, hpids, Slot.empty]
      · simp [State.setSlot, hp, hpids]
    refine ⟨fun v => ?_, fun v p => ?_, fun p hp => ?_⟩
    · exact ⟨fun p hp => (htables v).good.back p (hempty p ▸ hp), (htables v).good.le⟩
    · by_cases hp : p = id
      · subst hp
        by_cases hsuf : v <:+ ns
        · simpa [State.setSlot, hsuf, hok] using (htables v).given hsuf
        · simp [State.setSlot, hsuf, (htables v).other hsuf, nrOf_of_nil h hid]
      · simpa [State.setSlot, hp, hpids, (htables v).same p hp] using h.numbered v p
    · by_cases heq : p = id
      · rw [heq]
        exact h.slot id (.inl huse)
      simp only [State.setSlot, update_of_ne heq, hpids] at hp
      exact h.slot p hp
  · next hok =>
    have hsame := numberUp_failed h hid (eq_false_iff.mpr hok)
    refine ⟨fun v => ?_, fun v p => ?_, fun p hp => ?_⟩
    · rw [hpids]
      exact (htables v).good
    · rw [hsame, hpids]
      exact h.numbered v p
    · rw [hpids] at hp
      exact h.slot p hp

/-- A slot comes into use only where it has no number. -/
theorem inv_setSlot (h : Inv s) {slot : Slot} (hns : slot.numberedNs = (s.pids id).numberedNs)
    (huse : slot.empty = false → (s.pids id).empty = false ∨
      (s.pids id).numberedNs = [] ∧ 0 < id ∧ id ≤ maxPid) : Inv (s.setSlot id slot) := by
  refine ⟨fun v => ⟨fun p hp hnr => ?_, (h.good v).le⟩, fun v p => ?_, fun p hp => ?_⟩
  all_goals by_cases heq : p = id
  · subst heq
    simp only [State.setSlot, update_self] at hp
    rcases huse hp with hold | ⟨hnil, -⟩
    · exact (h.good v).back p hold hnr
    · exact absurd (nrOf_of_nil h hnil v) hnr
  · simp only [State.setSlot, update_of_ne heq] at hp
    exact (h.good v).back p hp hnr
  · subst heq
    simpa [State.setSlot, hns] using h.numbered v p
  · simpa [State.setSlot, heq] using h.numbered v p
  · subst heq
    simp only [State.setSlot, update_self, hns] at hp
    rcases hp with hp | hp
    · rcases huse hp with hold | ⟨-, hid⟩
      · exact h.slot p (.inl hold)
      · exact hid
    · exact h.slot p (.inr hp)
  · simp only [State.setSlot, update_of_ne heq] at hp
    exact h.slot p hp

theorem inv_release (h : Inv s) {slot : Slot} (restore : Bool)
    (hns : slot.numberedNs = (s.pids id).numberedNs) (huse : ¬(s.pids id).empty = true) :
    Inv (release s id slot restore) := by
  have hset := inv_setSlot h hns fun _ => .inl (eq_false_iff.mpr huse)
  unfold release pidNsUnnumberIfEmpty
  repeat' split
  · exact hset
  · exact inv_unnumber hset id
  · exact hset

theorem exec_inv (h : Inv s) (a : Action) {r : State × Bool} (hexec : exec s a = some r) :
    Inv r.1 := by
  cases a with
  | create id =>
    simp only [exec] at hexec
    split at hexec
    · next hok =>
      cases hexec
      refine inv_setSlot (inv_unnumber h id) rfl fun _ => .inr ⟨?_, hok.1, ?_⟩
      · simp [pidNsUnnumber_pids]
      · exact hok.2.1.le.trans (taskPidWrap_le s)
    · cases hexec
  | number id ns =>
    simp only [exec] at hexec
    split at hexec
    · next hok =>
      cases hexec
      exact inv_number h hok.1 hok.2 ns
    · cases hexec
  | forgetInit id ns isInit =>
    cases hexec
    have hun := inv_unnumber h id
    split
    · exact h
    split
    · exact ⟨forall_setTable ⟨(hun.good ns).back, (hun.good ns).le⟩ fun v _ => hun.good v,
        forall_setTable (P := fun v t => ∀ p, t.nrOf p ≠ 0 ↔
          v ≠ [] ∧ v <:+ ((pidNsUnnumber s id).pids p).numberedNs)
          (hun.numbered ns) fun v _ => hun.numbered v, hun.slot⟩
    · exact hun
  | unlink id =>
    cases hexec
    split
    · exact h
    · next huse => exact inv_release h false rfl huse
  | retake id =>
    cases hexec
    split
    · exact h
    · next huse => exact inv_setSlot h rfl fun _ => .inl (eq_false_iff.mpr huse)
  | relist id session pgroup restore =>
    simp only [exec] at hexec
    split at hexec
    · cases hexec
    next huse =>
    cases hexec
    exact inv_release h restore rfl huse
  | setPidMax value =>
    simp only [exec] at hexec
    split at hexec
    all_goals
      cases hexec
      exact { h with }

theorem inv_initial : Inv initial := by
  refine ⟨fun v => ⟨?_, ?_⟩, fun v p => ?_, ?_⟩
  · simp [initial]
  · simp [initial]
  · simp [initial]
  · simp [initial, Slot.empty]

theorem run_inv {tr : List (State × Action)} (hrun : Run Step initial tr s) : Inv s :=
  run_invariant Inv hrun inv_initial fun u a v _ hu hstep => by
    obtain ⟨r, hexec, rfl⟩ := Option.map_eq_some_iff.mp hstep
    exact exec_inv hu a hexec

theorem shown_eq (ns : Ns) {p : Nat} (h : Inv s) (huse : (s.pids p).empty = false) :
    pidNsShown s ns p = if ns = [] then p else (s.tables ns).nrOf p := by
  obtain ⟨hpos, hle⟩ := h.slot p (.inl huse)
  simp [pidNsShown, hpos.ne', hle]

theorem global_shown {p : Nat} (h : Inv s) (huse : (s.pids p).empty = false)
    (hne : pidNsShown s ns p ≠ 0) : pidNsGlobal s ns (pidNsShown s ns p) = p := by
  obtain ⟨hpos, hle⟩ := h.slot p (.inl huse)
  rw [shown_eq ns h huse] at hne ⊢
  by_cases hns : ns = []
  · simp [pidNsGlobal, hns]
  rw [if_neg hns] at hne ⊢
  have hback := (h.good ns).back p huse hne
  have hnr := (h.good ns).le p
  simp [pidNsGlobal, hns, hne, hback, hpos.ne', hle.not_gt, hnr.not_gt]

/-- In every run, numbers of slots in use are different and lead back to them, a
    number never leads to a slot outside its namespace, and a numbering that fails
    changes no number. -/
theorem numbers_bijective {tr : List (State × Action)} (hrun : Run Step initial tr s) :
    (∀ ns p q, (s.pids p).empty = false → (s.pids q).empty = false → pidNsShown s ns p ≠ 0 →
      pidNsShown s ns p = pidNsShown s ns q → p = q) ∧
    (∀ ns p, (s.pids p).empty = false → ns <:+ (s.pids p).numberedNs →
      pidNsGlobal s ns (pidNsShown s ns p) = p) ∧
    (∀ ns nr p, pidNsGlobal s ns nr = p → p ≠ 0 → p ≠ noPid →
      ns <:+ (s.pids p).numberedNs) ∧
    (∀ id ns s', exec s (.number id ns) = some (s', false) →
      ∀ v p, (s'.tables v).nrOf p = (s.tables v).nrOf p) := by
  have h := run_inv hrun
  refine ⟨fun ns p q hp hq hne heq => ?_, fun ns p hp hsuf => ?_, fun ns nr p hglobal hp hno => ?_,
    fun id ns s' hexec v p => ?_⟩
  · have hback := global_shown h hp hne
    rw [heq] at hback hne
    rw [← hback, global_shown h hq hne]
  · apply global_shown h hp
    rw [shown_eq ns h hp]
    split
    · exact (h.slot p (.inl hp)).1.ne'
    · next hns => exact (h.numbered ns p).mpr ⟨hns, hsuf⟩
  · by_cases hns : ns = []
    · rw [hns]
      exact nil_suffix
    unfold pidNsGlobal at hglobal
    grind [h.numbered ns p]
  · simp only [exec] at hexec
    split at hexec
    · next hok =>
      simp only [Option.some.injEq, Prod.mk.injEq] at hexec
      obtain ⟨rfl, hfail⟩ := hexec
      rw [pidNsNumberTask, pidNsUnnumber_self hok.2] at hfail ⊢
      split at hfail
      · cases hfail
      next hfalse =>
      rw [if_neg hfalse]
      exact numberUp_failed h hok.2 hfail v p
    · cases hexec

/-- A group outlives its leader, a namespace is made in another, and a thread
    execs: the third process is the third of the outer namespace. -/
theorem numbers_bijective_nested : ∃ tr s, Run Step initial tr s ∧
    pidNsShown s [7] 4 = 3 ∧ pidNsShown s [8, 7] 4 = 1 ∧ pidNsGlobal s [7] 3 = 4 ∧
      pidNsGlobal s [8, 7] 1 = 4 ∧ pidNsGlobal s [7] 1 = 1 ∧ pidNsGlobal s [7] 4 = noPid := by
  let acts : List Action := [.create 1, .number 1 [7], .relist 1 1 1 false, .create 3,
    .number 3 [7], .relist 1 1 2 false, .relist 1 0 1 false, .unlink 1, .create 4,
    .number 4 [8, 7], .setPidMax 301, .create 5, .number 5 [8, 7], .unlink 5, .retake 4]
  have hval : (runActions (fun s a => (exec s a).map Prod.fst) initial acts).map (fun r =>
      ([pidNsShown r.2 [7] 4, pidNsShown r.2 [8, 7] 4, pidNsGlobal r.2 [7] 1,
        pidNsGlobal r.2 [7] 4], r.2.pids 4)) = some ([3, 1, 1, noPid], ⟨true, 0, 0, [8, 7]⟩) := by
    decide +kernel
  obtain ⟨⟨tr, s⟩, htr, hs⟩ := Option.map_eq_some_iff.mp hval
  simp only [Prod.mk.injEq, List.cons.injEq] at hs
  obtain ⟨⟨hout, hin, hone, hgone, -⟩, hslot⟩ := hs
  have hrun := run_of_runActions _ _ _ _ htr
  have hback : ∀ ns, ns <:+ [8, 7] → pidNsGlobal s ns (pidNsShown s ns 4) = 4 := fun ns hns =>
    (numbers_bijective hrun).2.1 ns 4 (by rw [hslot]; rfl) (by rw [hslot]; exact hns)
  refine ⟨tr, s, hrun, hout, hin, ?_, ?_, hone, hgone⟩
  · rw [← hout]
    exact hback [7] (by decide)
  · rw [← hin]
    exact hback [8, 7] (by decide)

end IshAok.PidNs
