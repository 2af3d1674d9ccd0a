import IshAok.Theory.Mounts.Moves
import Mathlib.Data.List.Nodup

/-!
# Receivers of Propagation

What happens under a shared mount is repeated under its peers, under the slaves
of their group, and on down through slaves that are shared themselves. The
search goes through the groups level by level. What it finds at a level is read
off the table, whatever the search has found before: `found`. So the receivers
are exactly those of the groups that became a level, each once.

A group becomes a level when a slave in it is met, unless the array of levels is
full. It has room for 32, so the search is exact just when no more groups than
that can be reached.

## Main definitions

* `Reach`: The groups below a group.
* `Exact`: What the receivers of propagation ought to be.
* `found`: The receivers at one level.

## Theorems

* `visits_levels`: What one level adds.
* `search_done`: The levels at the end, and what was found at them.
* `targets_exact_iff`: When the receivers are exactly those.
* `targets_missed`: A chain of groups that is too long.
-/

namespace IshAok.Mounts

open Base List

/-- In view or covered. -/
def Mount.live (m : Mount) : Bool := m.inView || m.isCovered

/-- The groups below a group, through slaves that are shared. -/
inductive Reach (t : Table) (start : Int) : Int → Prop
  | start : Reach t start start
  | slave {m : Mount} (h : Reach t start m.masterId) (hm : m ∈ t.mounts) (hlive : m.live = true)
      (hshared : m.sharedId ≠ 0) : Reach t start m.sharedId

/-- What the receivers of propagation ought to be. -/
structure Exact (t : Table) (parent : Mount) (targets : List Target) : Prop where
  receivers : ∀ m, (∃ x ∈ targets, x.receiver = m) ↔
    m ∈ t.mounts ∧ m.addr ≠ parent.addr ∧ m.live = true ∧
      (m.sharedId ≠ 0 ∧ Reach t parent.sharedId m.sharedId ∨
        m.sharedId = 0 ∧ Reach t parent.sharedId m.masterId)
  once : (targets.map Target.receiver).Nodup
  alike : ∀ x ∈ targets, ∀ y ∈ targets, x.receiver.sharedId ≠ 0 →
    x.receiver.sharedId = y.receiver.sharedId → x.shared = y.shared ∧ x.master = y.master

/-- The receiver a mount is at one level. -/
def found (parent : Mount) (level : Level) (m : Mount) : Option Target :=
  if !receives parent m then none
  else if m.sharedId = level.group then some ⟨m, level.copyGroup, level.copyMaster⟩
  else if m.masterId = level.group ∧ m.sharedId = 0 then some ⟨m, 0, level.copyGroup⟩
  else none

/-- A shared slave of the group of a level. -/
structure Below (parent : Mount) (level : Level) (m : Mount) : Prop where
  receives : receives parent m = true
  master : m.masterId = level.group
  shared : m.sharedId ≠ 0
  other : m.sharedId ≠ level.group

section

variable {t : Table} {parent m : Mount} {group : Int} {level : Level} {s : Search}

/-! ### One level -/

theorem visit_targets (s : Search) (m : Mount) :
    (visit parent group level s m).targets = s.targets ++ (found parent level m).toList := by
  unfold visit found
  split
  · exact (append_nil _).symm
  split
  · rfl
  split
  · rfl
  split
  · split
    · split <;> exact (append_nil _).symm
    · exact (append_nil _).symm
  · exact (append_nil _).symm

/-- A mount adds a level when it is a shared slave of a group that is new. -/
theorem visit_levels (s : Search) (m : Mount) : ((visit parent group level s m).levels = s.levels ∧
        (Below parent level m → m.sharedId ∈ s.levels.map Level.group ∨
          maxLevels ≤ s.levels.length)) ∨
      Below parent level m ∧ m.sharedId ∉ s.levels.map Level.group ∧
        s.levels.length < maxLevels ∧ ∃ copy : Int, (visit parent group level s m).levels =
          s.levels ++ [⟨m.sharedId, copy, level.copyGroup⟩] := by
  unfold visit
  split
  · next hno => exact .inl ⟨rfl, fun h => by rw [h.receives] at hno; cases hno⟩
  next hreceives =>
  split
  · next hpeer => exact .inl ⟨rfl, fun h => absurd hpeer h.other⟩
  next hother =>
  split
  · next hplain => exact .inl ⟨rfl, fun h => absurd hplain.2 h.shared⟩
  next hshared =>
  split
  · next hmaster =>
    have hbelow : Below parent level m :=
      ⟨by simpa using hreceives, hmaster, fun hzero => hshared ⟨hmaster, hzero⟩, hother⟩
    have hseen : (s.levels.any fun l => l.group = m.sharedId) = true ↔
        m.sharedId ∈ s.levels.map Level.group := by
      simp
    split
    · next hnew =>
      simp only [Bool.and_eq_true, Bool.not_eq_true', ← Bool.not_eq_true, hseen,
        decide_eq_true_eq] at hnew
      refine .inr ⟨hbelow, hnew.1, hnew.2, ?_⟩
      split <;> exact ⟨_, rfl⟩
    · next hold =>
      refine .inl ⟨rfl, fun _ => ?_⟩
      simp only [Bool.and_eq_true, Bool.not_eq_true', ← Bool.not_eq_true, hseen,
        decide_eq_true_eq, not_and_or, not_not, Nat.not_lt] at hold
      exact hold
  · next hmaster => exact .inl ⟨rfl, fun h => absurd h.master hmaster⟩

/-- What one level adds to the levels. -/
structure Grown (parent : Mount) (level : Level) (mounts : List Mount) (before after : List Level) :
    Prop where
  start : before <+: after
  fresh : ∀ l ∈ after, l ∈ before ∨ ∃ m ∈ mounts, Below parent level m ∧ l.group = m.sharedId
  nodup : (before.map Level.group).Nodup → (after.map Level.group).Nodup
  few : before.length ≤ maxLevels → after.length ≤ maxLevels
  closed : ∀ m ∈ mounts, Below parent level m →
    m.sharedId ∈ after.map Level.group ∨ maxLevels ≤ after.length

theorem visits_levels (mounts : List Mount) :
    ∀ s, Grown parent level mounts s.levels
      (mounts.foldl (visit parent group level) s).levels := by
  induction mounts with
  | nil => exact fun s => ⟨prefix_refl _, fun l hl => .inl hl, id, id, fun m hm => by cases hm⟩
  | cons m mounts ih =>
    intro s
    have hrest := ih (visit parent group level s m)
    rcases @visit_levels parent group level s m with
      ⟨heq, hold⟩ | ⟨hbelow, hnew, hroom, copy, heq⟩
    · rw [heq] at hrest
      refine { hrest with fresh := fun l hl => ?_, closed := fun n hn h => ?_ }
      · rcases hrest.fresh l hl with hl | ⟨n, hn, h⟩
        · exact .inl hl
        · exact .inr ⟨n, mem_cons_of_mem _ hn, h⟩
      · rcases mem_cons.mp hn with rfl | hn
        · rcases hold h with hmem | hfull
          · exact .inl ((hrest.start.sublist.map _).subset hmem)
          · exact .inr (Nat.le_trans hfull hrest.start.length_le)
        · exact hrest.closed n hn h
    · rw [heq] at hrest
      refine ⟨(prefix_append _ _).trans hrest.start, fun l hl => ?_, fun hnodup => ?_,
        fun _ => ?_, fun n hn h => ?_⟩
      · rcases hrest.fresh l hl with hl | ⟨n, hn, h⟩
        · rcases mem_append.mp hl with hl | hl
          · exact .inl hl
          · exact .inr ⟨m, mem_cons_self, hbelow, by rw [mem_singleton.mp hl]⟩
        · exact .inr ⟨n, mem_cons_of_mem _ hn, h⟩
      · refine hrest.nodup ?_
        rw [map_append]
        refine nodup_append.mpr ⟨hnodup, nodup_singleton _, fun a ha b hb heq => ?_⟩
        rw [heq, mem_singleton.mp hb] at ha
        exact hnew ha
      · refine hrest.few ?_
        rw [length_append]
        exact hroom
      · rcases mem_cons.mp hn with rfl | hn
        · refine .inl ((hrest.start.sublist.map _).subset ?_)
          rw [map_append]
          exact mem_append_right _ mem_cons_self
        · exact hrest.closed n hn h

theorem visits_targets (mounts : List Mount) :
    ∀ s : Search, (mounts.foldl (visit parent group level) s).targets =
      s.targets ++ mounts.filterMap (found parent level) := by
  induction mounts with
  | nil => exact fun s => (append_nil _).symm
  | cons m mounts ih =>
    intro s
    rw [foldl_cons, ih, visit_targets, filterMap_cons, append_assoc]
    cases found parent level m <;> rfl

/-! ### All levels -/

/-- The search when some of its levels are done. -/
structure Searched (t : Table) (parent : Mount) (done : List Level) (s : Search) : Prop where
  nodup : (s.levels.map Level.group).Nodup
  few : s.levels.length ≤ maxLevels
  start : parent.sharedId ∈ s.levels.map Level.group
  reached : ∀ l ∈ s.levels, l.group ≠ 0 ∧ Reach t parent.sharedId l.group
  closed : ∀ l ∈ done, ∀ m ∈ t.mounts, Below parent l m →
    m.sharedId ∈ s.levels.map Level.group ∨ maxLevels ≤ s.levels.length
  targets : s.targets = done.flatMap fun l => t.mounts.filterMap (found parent l)

theorem receives_iff : receives parent m = true ↔ m.addr ≠ parent.addr ∧ m.live = true := by
  unfold receives Mount.live
  simp

theorem searched_step {i : Nat} (h : Searched t parent (s.levels.take i) s)
    (hlevel : s.levels[i]? = some level) :
    Searched t parent ((t.mounts.foldl (visit parent group level) s).levels.take (i + 1))
      (t.mounts.foldl (visit parent group level) s) := by
  have hgrown := @visits_levels parent group level t.mounts s
  rcases hgrown.start with ⟨new, hnew⟩
  rcases List.getElem?_eq_some_iff.mp hlevel with ⟨hlt, heq⟩
  -- The levels that are done are the same, and this one.
  have htake : (t.mounts.foldl (visit parent group level) s).levels.take (i + 1) =
      s.levels.take i ++ [level] := by
    rw [← hnew, take_append_of_le_length hlt, take_succ_eq_append_getElem hlt, heq]
  have hmem : level ∈ s.levels := mem_of_getElem? hlevel
  refine ⟨hgrown.nodup h.nodup, hgrown.few h.few,
    (hgrown.start.sublist.map _).subset h.start, fun l hl => ?_, fun l hl m hm hbelow => ?_, ?_⟩
  · rcases hgrown.fresh l hl with hl | ⟨m, hm, hbelow, hgroup⟩
    · exact h.reached l hl
    · rw [hgroup]
      refine ⟨hbelow.shared, .slave ?_ hm (receives_iff.mp hbelow.receives).2 hbelow.shared⟩
      rw [hbelow.master]
      exact (h.reached level hmem).2
  · rw [htake] at hl
    rcases mem_append.mp hl with hl | hl
    · rcases h.closed l hl m hm hbelow with hseen | hfull
      · exact .inl ((hgrown.start.sublist.map _).subset hseen)
      · exact .inr (Nat.le_trans hfull hgrown.start.length_le)
    · rw [mem_singleton.mp hl] at hbelow
      exact hgrown.closed m hm hbelow
  · rw [visits_targets, htake, flatMap_append, h.targets, flatMap_singleton]

theorem levelLoop_done : ∀ (turns i : Nat) (s : Search), Searched t parent (s.levels.take i) s →
    turns + i = maxLevels → Searched t parent (levelLoop t.mounts parent group turns i s).levels
      (levelLoop t.mounts parent group turns i s) := by
  intro turns
  induction turns with
  | zero =>
    intro i s h hturns
    have hfew := h.few
    rw [take_of_length_le (by omega)] at h
    exact h
  | succ turns ih =>
    intro i s h hturns
    rw [levelLoop]
    split
    · next hnone =>
      rw [take_of_length_le (List.getElem?_eq_none_iff.mp hnone)] at h
      exact h
    · next level hlevel => exact ih (i + 1) _ (searched_step h hlevel) (by omega)

/-- The levels at the end, and what was found at them. -/
theorem search_done (t : Table) (hshared : parent.sharedId ≠ 0) (group master : Int) :
    ∃ s : Search, Searched t parent s.levels s ∧
      (mountPropagationTargets t parent group master).1 = s.targets := by
  have hstart : Searched t parent [] ⟨[⟨parent.sharedId, group, master⟩], [], t.nextPeerGroup⟩ := by
    refine ⟨nodup_singleton _, Nat.le_of_ble_eq_true rfl, mem_cons_self, fun l hl => ?_,
      fun l hl => absurd hl not_mem_nil, rfl⟩
    rw [mem_singleton.mp hl]
    exact ⟨hshared, .start⟩
  refine ⟨_, @levelLoop_done t parent group maxLevels 0 _ hstart rfl, ?_⟩
  unfold mountPropagationTargets
  rw [if_neg hshared]

/-! ### Receivers -/

/-- What a receiver at a level is. -/
theorem found_some {x : Target} (h : found parent level m = some x) :
    x.receiver = m ∧ receives parent m = true ∧
      (m.sharedId = level.group ∧ x.shared = level.copyGroup ∧ x.master = level.copyMaster ∨
        m.sharedId = 0 ∧ m.masterId = level.group) := by
  unfold found at h
  split at h
  · cases h
  next hreceives =>
  have hreceives : receives parent m = true := by simpa using hreceives
  split at h
  · next hpeer =>
    cases h
    exact ⟨rfl, hreceives, .inl ⟨hpeer, rfl, rfl⟩⟩
  · split at h
    · next hplain =>
      cases h
      exact ⟨rfl, hreceives, .inr ⟨hplain.2, hplain.1⟩⟩
    · cases h

theorem found_of (hreceives : receives parent m = true) (hzero : level.group ≠ 0)
    (h : m.sharedId = level.group ∨ m.sharedId = 0 ∧ m.masterId = level.group) :
    ∃ x, found parent level m = some x := by
  unfold found
  rw [if_neg (by simp [hreceives])]
  rcases h with hpeer | ⟨hplain, hmaster⟩
  · exact ⟨_, if_pos hpeer⟩
  · rw [if_neg (by rw [hplain]; exact hzero.symm)]
    exact ⟨_, if_pos ⟨hmaster, hplain⟩⟩

section

variable (h : Searched t parent s.levels s)

include h

/-- The receivers of the levels. -/
theorem done_receiver :
    (∃ x ∈ s.targets, x.receiver = m) ↔ m ∈ t.mounts ∧ receives parent m = true ∧
      (m.sharedId ≠ 0 ∧ m.sharedId ∈ s.levels.map Level.group ∨
        m.sharedId = 0 ∧ m.masterId ∈ s.levels.map Level.group) := by
  rw [h.targets]
  constructor
  · rintro ⟨x, hx, hm⟩
    rcases mem_flatMap.mp hx with ⟨l, hl, hx⟩
    rcases mem_filterMap.mp hx with ⟨n, hn, hfound⟩
    rcases found_some hfound with ⟨heq, hreceives, hcase⟩
    cases hm.symm.trans heq
    refine ⟨hn, hreceives, ?_⟩
    rcases hcase with ⟨hpeer, _⟩ | ⟨hplain, hmaster⟩
    · exact .inl ⟨hpeer ▸ (h.reached l hl).1, hpeer ▸ mem_map_of_mem hl⟩
    · exact .inr ⟨hplain, hmaster ▸ mem_map_of_mem hl⟩
  · rintro ⟨hm, hreceives, hcase⟩
    have hlevel : ∃ l ∈ s.levels, m.sharedId = l.group ∨ m.sharedId = 0 ∧ m.masterId = l.group := by
      rcases hcase with ⟨_, hmem⟩ | ⟨hplain, hmem⟩
      · rcases mem_map.mp hmem with ⟨l, hl, heq⟩
        exact ⟨l, hl, .inl heq.symm⟩
      · rcases mem_map.mp hmem with ⟨l, hl, heq⟩
        exact ⟨l, hl, .inr ⟨hplain, heq.symm⟩⟩
    rcases hlevel with ⟨l, hl, hcase⟩
    rcases found_of hreceives (h.reached l hl).1 hcase with ⟨x, hx⟩
    exact ⟨x, mem_flatMap.mpr ⟨l, hl, mem_filterMap.mpr ⟨m, hm, hx⟩⟩,
      (found_some hx).1⟩

/-- No mount is found at two levels. -/
theorem done_once (ht : t.mounts.Nodup) : (s.targets.map Target.receiver).Nodup := by
  have hone : ∀ l, ((t.mounts.filterMap (found parent l)).map Target.receiver).Sublist
      t.mounts := by
    intro l
    induction t.mounts with
    | nil => exact List.Sublist.slnil
    | cons m mounts ih =>
      rw [filterMap_cons]
      cases hfound : found parent l m with
      | none => exact ih.cons m
      | some x =>
        rw [map_cons, (found_some hfound).1]
        exact ih.cons_cons m
  rw [h.targets, map_flatMap]
  refine nodup_flatMap.mpr ⟨fun l _ => ht.sublist (hone l), ?_⟩
  have hpair : s.levels.Pairwise fun l k => l.group ≠ k.group := pairwise_map.mp h.nodup
  refine hpair.imp_of_mem fun {l k} hl hk hne => ?_
  intro m hml hmk
  rcases mem_map.mp hml with ⟨x, hx, rfl⟩
  rcases mem_map.mp hmk with ⟨y, hy, hyx⟩
  rcases mem_filterMap.mp hx with ⟨a, _, ha⟩
  rcases mem_filterMap.mp hy with ⟨b, _, hb⟩
  rcases found_some ha with ⟨hxa, _, ha⟩
  rcases found_some hb with ⟨hyb, _, hb⟩
  cases hyb.symm.trans (hyx.trans hxa)
  have hlzero := (h.reached l hl).1
  have hkzero := (h.reached k hk).1
  rcases ha with ⟨ha, _⟩ | ⟨ha, ha'⟩ <;> rcases hb with ⟨hb, _⟩ | ⟨hb, hb'⟩
  · exact hne (ha.symm.trans hb)
  · exact hlzero (ha.symm.trans hb)
  · exact hkzero (hb.symm.trans ha)
  · exact hne (ha'.symm.trans hb')

/-- Members of a group are found at the one level it is. -/
theorem done_alike : ∀ x ∈ s.targets, ∀ y ∈ s.targets,
    x.receiver.sharedId ≠ 0 → x.receiver.sharedId = y.receiver.sharedId →
    x.shared = y.shared ∧ x.master = y.master := by
  rw [h.targets]
  have hlevel : ∀ x ∈ s.levels.flatMap (fun l => t.mounts.filterMap (found parent l)),
      x.receiver.sharedId ≠ 0 → ∃ l ∈ s.levels, x.receiver.sharedId = l.group ∧
        x.shared = l.copyGroup ∧ x.master = l.copyMaster := by
    intro x hx hshared
    rcases mem_flatMap.mp hx with ⟨l, hl, hx⟩
    rcases mem_filterMap.mp hx with ⟨m, _, hfound⟩
    rcases found_some hfound with ⟨rfl, _, hpeer | hplain⟩
    · exact ⟨l, hl, hpeer⟩
    · exact absurd hplain.1 hshared
  intro x hx y hy hshared heq
  rcases hlevel x hx hshared with ⟨l, hl, hlgroup, hx⟩
  rcases hlevel y hy (heq ▸ hshared) with ⟨k, hk, hkgroup, hy⟩
  have hlk : l = k := inj_on_of_nodup_map h.nodup hl hk
    (hlgroup.symm.trans (heq.trans hkgroup))
  rw [hx.1, hx.2, hy.1, hy.2, hlk]
  exact ⟨rfl, rfl⟩

end

/-! ### Groups -/

/-- When nothing is missed, every group that can be reached is a level. -/
theorem level_of_exact (h : Searched t parent s.levels s) (ht : Distinct t) (hp : parent ∈ t.mounts)
    (hexact : Exact t parent s.targets) {g : Int} (hg : Reach t parent.sharedId g) :
    g ∈ s.levels.map Level.group := by
  cases hg with
  | start => exact h.start
  | @slave m hmaster hm hlive hshared =>
    by_cases haddr : m.addr = parent.addr
    · rw [distinct_eq ht hm hp haddr]
      exact h.start
    have hx := (hexact.receivers m).mpr
      ⟨hm, haddr, hlive, .inl ⟨hshared, .slave hmaster hm hlive hshared⟩⟩
    rcases (done_receiver h).mp hx with ⟨_, _, ⟨_, hmem⟩ | ⟨hplain, _⟩⟩
    · exact hmem
    · exact absurd hplain hshared

/-- With room for every group, each of them is a level. -/
theorem level_of_few (h : Searched t parent s.levels s) (ht : Distinct t) (hp : parent ∈ t.mounts)
    {l : List Int} (hfew : l.length ≤ maxLevels) (hall : ∀ g, Reach t parent.sharedId g → g ∈ l)
    {g : Int} (hg : Reach t parent.sharedId g) : g ∈ s.levels.map Level.group := by
  by_cases hroom : s.levels.length < maxLevels
  · -- The array was never full, so every shared slave was met.
    induction hg with
    | start => exact h.start
    | @slave m _ hm hlive hshared ih =>
      by_cases haddr : m.addr = parent.addr
      · rw [distinct_eq ht hm hp haddr]
        exact h.start
      rcases mem_map.mp ih with ⟨k, hk, hgroup⟩
      by_cases hother : m.sharedId = k.group
      · exact hother ▸ mem_map_of_mem hk
      have hbelow : Below parent k m :=
        ⟨receives_iff.mpr ⟨haddr, hlive⟩, hgroup.symm, hshared, hother⟩
      exact (h.closed k hk m hm hbelow).resolve_right (Nat.not_le.mpr hroom)
  · -- The levels are as many as there are groups.
    have hsub : s.levels.map Level.group ⊆ l := by
      intro g hg
      rcases mem_map.mp hg with ⟨k, hk, rfl⟩
      exact hall _ (h.reached k hk).2
    have hlen : l.length ≤ (s.levels.map Level.group).length := by
      rw [length_map]
      omega
    exact ((subperm_of_subset h.nodup hsub).perm_of_length_le hlen).symm.subset (hall g hg)

/-- A call that binds or changes how mounts propagate. -/
def binds : Action → Bool
  | .bind .. | .change .. => true
  | _ => false

theorem distinct_run {s t : Table} {tr : List (Table × Space × Action)} (hs : Distinct s)
    (hr : Run Step s tr t) (hacts : ∀ x ∈ tr, binds x.2.2 = true) : Distinct t := by
  refine run_invariant Distinct hr hs fun u a v hmem hu hstep => ?_
  rcases a with ⟨ns, a⟩
  rw [← step_exec hstep]
  have hact := hacts _ hmem
  cases a with
  | bind source point flags recursive =>
    simp only [exec]
    split
    · exact distinct_bind hu source point flags recursive
    · exact hu
  | change point type recursive =>
    simp only [exec]
    split
    · exact distinct_fixed (A := fun _ => True) (change_moves u ns point type recursive) hu
    · exact hu
  | _ => cases hact

/-- The receivers are exactly those the groups give when no more groups can be
    reached than there is room for. -/
theorem targets_exact_iff {s t : Table} {tr : List (Table × Space × Action)} (hs : Distinct s)
    (hr : Run Step s tr t) (hacts : ∀ x ∈ tr, binds x.2.2 = true) {parent : Mount}
    (hp : parent ∈ t.mounts) (hshared : parent.sharedId ≠ 0) (group master : Int) :
    Exact t parent (mountPropagationTargets t parent group master).1 ↔
      ∃ l : List Int, l.length ≤ 32 ∧ ∀ g, Reach t parent.sharedId g → g ∈ l := by
  have ht := distinct_run hs hr hacts
  rcases search_done t hshared group master with ⟨s, hdone, htargets⟩
  rw [htargets]
  constructor
  · intro hexact
    refine ⟨s.levels.map Level.group, ?_, fun g hg => level_of_exact hdone ht hp hexact hg⟩
    rw [length_map]
    exact hdone.few
  · rintro ⟨l, hfew, hall⟩
    have hgroup : ∀ g, g ∈ s.levels.map Level.group ↔ Reach t parent.sharedId g := by
      intro g
      refine ⟨fun hg => ?_, level_of_few hdone ht hp hfew hall⟩
      rcases mem_map.mp hg with ⟨k, hk, rfl⟩
      exact (hdone.reached k hk).2
    refine ⟨fun m => ?_, done_once hdone ht.nodup.of_map, done_alike hdone⟩
    rw [done_receiver hdone, hgroup, hgroup, receives_iff, and_assoc]

/-- A directory of the root. -/
def dir (k : Nat) : Place := [[Char.ofNat (65 + k)]]

/-- Calls that make a chain of groups, each a slave of the one before. -/
def chainCalls (n : Nat) : List (Space × Action) :=
  (initSpace, .bind [] (dir 0) 0 false) :: (initSpace, .change (dir 0) .shared false) ::
    (List.range n).flatMap fun k =>
      [(initSpace, .bind (dir k) (dir (k + 1)) 0 false),
        (initSpace, .change (dir (k + 1)) .slave false),
        (initSpace, .change (dir (k + 1)) .shared false)]

/-- A shared slave of one group in another. -/
def linked (t : Table) (g h : Int) : Bool :=
  t.mounts.any fun m => m.live && decide (m.masterId = g ∧ m.sharedId = h ∧ h ≠ 0)

theorem reach_linked (t : Table) (g : Int) (n : Nat)
    (h : (List.range n).all (fun k => linked t (g + k) (g + k + 1)) = true) :
    Reach t g (g + n) := by
  induction n with
  | zero => exact (Int.add_zero g).symm ▸ .start
  | succ n ih =>
    rw [range_succ, all_append, Bool.and_eq_true, all_cons, Bool.and_eq_true] at h
    rcases any_eq_true.mp h.2.1 with ⟨m, hm, hlink⟩
    simp only [Bool.and_eq_true, decide_eq_true_eq] at hlink
    rcases hlink with ⟨hlive, hmaster, hshared, hzero⟩
    have hreach := ih h.1
    rw [← hmaster] at hreach
    rw [Int.natCast_succ, ← Int.add_assoc, ← hshared]
    exact .slave hreach hm hlive (hshared ▸ hzero)

theorem reach_mem {start g : Int} (h : Reach t start g) :
    g ∈ start :: t.mounts.map Mount.sharedId := by
  cases h with
  | start => exact mem_cons_self
  | slave _ hm _ _ => exact mem_cons_of_mem _ (mem_map_of_mem hm)

/-- Two groups below that of a mount, which are few, so that their mounts receive. -/
theorem targets_exact_iff_pair : ∃ (t : Table) (tr : List (Table × Space × Action))
    (parent : Mount), Run Step rootTable tr t ∧ parent ∈ t.mounts ∧
      (mountPropagationTargets t parent 7 0).1.length = 2 ∧
      Exact t parent (mountPropagationTargets t parent 7 0).1 := by
  have hval : (runActions call rootTable (chainCalls 2)).map (fun r =>
      (r.1.all fun x => binds x.2.2, decide (r.2.mounts.length < 32), (r.2.get 1).map fun p =>
        (decide (p.sharedId ≠ 0), (mountPropagationTargets r.2 p 7 0).1.length))) =
      some (true, true, some (true, 2)) := by
    decide +kernel
  rcases Option.map_eq_some_iff.mp hval with ⟨⟨tr, t⟩, htr, hval⟩
  simp only [Prod.mk.injEq, all_eq_true, decide_eq_true_eq] at hval
  rcases Option.map_eq_some_iff.mp hval.2.2 with ⟨parent, hget, hparent⟩
  simp only [Prod.mk.injEq, decide_eq_true_eq] at hparent
  have hrun := run_of_runActions _ _ _ _ htr
  refine ⟨t, tr, parent, hrun, (get_mem hget).1, hparent.2, ?_⟩
  refine (targets_exact_iff ⟨by decide, by decide, by decide⟩ hrun hval.1 (get_mem hget).1
    hparent.1 7 0).mpr ⟨_, ?_, fun g => reach_mem⟩
  rw [length_cons, length_map]
  exact hval.2.1

/-- A chain of groups that is too long: the last one is missed. -/
theorem targets_missed : ∃ (t : Table) (tr : List (Table × Space × Action)) (parent : Mount),
    Run Step rootTable tr t ∧ (∀ x ∈ tr, binds x.2.2 = true) ∧ parent ∈ t.mounts ∧
      parent.sharedId ≠ 0 ∧ ¬ Exact t parent (mountPropagationTargets t parent 0 0).1 := by
  have hval : (runActions call rootTable (chainCalls 32)).map (fun r =>
      (r.1.all fun x => binds x.2.2, (List.range 32).all fun k => linked r.2 (1 + k) (1 + k + 1),
        r.2.mounts.any fun m => m.live && decide (m.sharedId = 33 ∧ m.addr ≠ 1),
        (r.2.get 1).map fun p => (p.sharedId, (mountPropagationTargets r.2 p 0 0).1.any
          fun x => decide (x.receiver.sharedId = 33)))) =
      some (true, true, true, some (1, false)) := by
    decide +kernel
  rcases Option.map_eq_some_iff.mp hval with ⟨⟨tr, t⟩, htr, hval⟩
  simp only [Prod.mk.injEq, all_eq_true] at hval
  rcases hval with ⟨hacts, hlinked, hlast, hparent⟩
  rcases Option.map_eq_some_iff.mp hparent with ⟨parent, hget, hval⟩
  simp only [Prod.mk.injEq] at hval
  rcases get_mem hget with ⟨hp, haddr⟩
  refine ⟨t, tr, parent, run_of_runActions _ _ _ _ htr, hacts, hp, ?_, fun hexact => ?_⟩
  · rw [hval.1]
    decide
  · rcases any_eq_true.mp hlast with ⟨m, hm, hlast⟩
    simp only [Bool.and_eq_true, decide_eq_true_eq] at hlast
    have hreach := reach_linked t 1 32 (all_eq_true.mpr hlinked)
    have hreceiver := (hexact.receivers m).mpr ⟨hm, haddr.symm ▸ hlast.2.2, hlast.1,
      .inl ⟨by rw [hlast.2.1]; decide, by rw [hval.1, hlast.2.1]; exact hreach⟩⟩
    rcases hreceiver with ⟨x, hx, rfl⟩
    exact absurd (any_eq_true.mpr ⟨x, hx, decide_eq_true hlast.2.1⟩)
      (Bool.eq_false_iff.mp hval.2)

end

end IshAok.Mounts
