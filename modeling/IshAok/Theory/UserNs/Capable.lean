import Mathlib.Logic.Relation
import IshAok.Theory.UserNs.Setgroups

/-!
# Capabilities Over a Namespace

The walk of `ns_capable` goes up from the target and stops as soon as it is no deeper
than the caller's namespace. What it answers is a matter of the tree: the caller is in
the target, or above it on the way to the root.

That the walk may stop there rests on the levels. A namespace is one level below its
parent, so on the way up the levels go down one by one, and a namespace at the caller's
level that is not the caller's has not got it above.

## Main definitions

* `Up`: A namespace and its parent.
* `Leveled`: What the levels and the indices say of the tree.
* `Holds`: The caller has the capability in its own namespace.
* `Over`: The caller is in the target with it, or above the target.

## Theorems

* `run_leveled`: The calls keep the levels.
* `ns_capable_iff`: The walk decides `Over`, which passes down and stays inside.
-/

namespace IshAok.UserNs

open Base Relation List

/-- A namespace and its parent. The initial one has none. -/
def Up (t : NsTable) (ns p : Option Nat) : Prop :=
  ∃ i, ∃ n : UserNamespace, ns = some i ∧ t[i]? = some n ∧ n.parent = p

/-- A namespace is one level below its parent, which is older. -/
def Leveled (t : NsTable) : Prop :=
  ∀ (i : Nat) (n : UserNamespace), t[i]? = some n →
    n.level = nsLevel t n.parent + 1 ∧ ∀ p, n.parent = some p → p < i

/-- The task has the capability in its own namespace, where that of the superuser is
    the initial one. -/
def Holds (cur : Task) (cap : Nat) : Prop :=
  (if cur.userNs = none then currentCapable cur cap else currentHasCap cur cap) = true

/-- The task is in the target and holds the capability, or its namespace is the parent of
    one on the way up from the target, and it holds the capability or owns that one. -/
def Over (t : NsTable) (cur : Task) (cap : Nat) (target : Option Nat) : Prop :=
  (target = cur.userNs ∧ Holds cur cap) ∨
    ∃ c, ∃ n : UserNamespace, ReflTransGen (Up t) target (some c) ∧ t[c]? = some n ∧
      n.parent = cur.userNs ∧ (Holds cur cap ∨ n.owner = cur.euid)

variable {t : NsTable} {cur : Task} {cap : Nat} {ns target : Option Nat}

/-! ### The levels -/

theorem nsLevel_set {i : Nat} {n n' : UserNamespace} (hn : t[i]? = some n)
    (hl : n'.level = n.level) (ns : Option Nat) : nsLevel (t.set i n') ns = nsLevel t ns := by
  cases ns with
  | none => rfl
  | some j =>
    by_cases hij : i = j
    · subst hij
      simp only [nsLevel, getElem?_set_self (List.getElem?_eq_some_iff.mp hn).1, hn, hl]
    · simp only [nsLevel, getElem?_set_ne hij]

/-- A write leaves a namespace its parent and its level. -/
theorem leveled_set {i : Nat} {n n' : UserNamespace} (h : Leveled t) (hn : t[i]? = some n)
    (hp : n'.parent = n.parent) (hl : n'.level = n.level) : Leveled (t.set i n') := by
  intro j m hm
  rw [nsLevel_set hn hl]
  by_cases hij : i = j
  · subst hij
    rw [getElem?_set_self (List.getElem?_eq_some_iff.mp hn).1, Option.some.injEq] at hm
    rw [← hm, hp, hl]
    exact h i n hn
  · rw [getElem?_set_ne hij] at hm
    exact h j m hm

/-- A new namespace goes below the one of its creator, which is in the table. -/
theorem leveled_new {allocOk : Bool} {t' : NsTable} {i : Nat} (h : Leveled t)
    (hnew : userNsNew t cur allocOk = .ok (t', i)) : Leveled t' := by
  unfold userNsNew at hnew
  split_ifs at hnew with _ _ hids
  simp only [Except.ok.injEq, Prod.mk.injEq] at hnew
  rw [← hnew.1]
  have hcur : ∀ p, cur.userNs = some p → p < t.length := fun p hp => by
    rw [hp] at hids
    rcases gidMap_of_fromKgid fun hinv => hids (.inr hinv) with ⟨n, hn, -⟩
    exact (List.getElem?_eq_some_iff.mp hn).1
  have hlevel : ∀ ns n, (∀ p, ns = some p → p < t.length) →
      nsLevel (t ++ [n]) ns = nsLevel t ns := fun ns n hns => by
    cases ns with
    | none => rfl
    | some p => simp only [nsLevel, getElem?_append_left (hns p rfl)]
  intro j m hm
  rcases Nat.lt_or_ge j t.length with hj | hj
  · rw [getElem?_append_left hj] at hm
    rw [hlevel _ _ fun p hp => ((h j m hm).2 p hp).trans hj]
    exact h j m hm
  · rw [getElem?_append_right hj] at hm
    rw [mem_singleton.mp (mem_of_getElem? hm)]
    exact ⟨by rw [hlevel _ _ hcur], fun p hp => (hcur p hp).trans_le hj⟩

theorem leveled_applyOp (op : NsOp) (h : Leveled t) : Leveled (applyOp t op) := by
  cases op with
  | new cur allocOk =>
    rw [applyOp]
    split
    · next hnew => exact leveled_new h hnew
    · exact h
  | writeMap cur ns gid text copyOk =>
    rw [applyOp]
    split
    · next hw =>
      rcases userNsWriteMap_ok t cur ns gid text copyOk _ hw with ⟨i, n, _, _, _, hn, _, _, _, rfl⟩
      exact leveled_set h hn (parent_setMap n gid _) (by cases gid <;> rfl)
    · exact h
  | writeSetgroups cur ns text =>
    rw [applyOp]
    split
    · next hw =>
      rcases userNsWriteSetgroups_ok t cur ns text _ hw with rfl | ⟨i, n, hn, rfl⟩
      · exact h
      · exact leveled_set h hn rfl rfl
    · exact h

theorem run_leveled {tr : List (NsTable × NsOp)} (hr : Run nsStep [] tr t) : Leveled t := by
  refine run_invariant Leveled hr (fun i n hn => nomatch hn) fun u op v _ hu hstep => ?_
  rw [hstep]
  exact leveled_applyOp op hu

theorem level_up {ns p : Option Nat} (h : Leveled t) (hup : Up t ns p) :
    nsLevel t ns = nsLevel t p + 1 := by
  rcases hup with ⟨i, n, rfl, hn, rfl⟩
  simp only [nsLevel, hn]
  exact (h i n hn).1

theorem level_ups {p : Option Nat} (h : Leveled t) (hups : ReflTransGen (Up t) ns p) :
    nsLevel t p ≤ nsLevel t ns := by
  induction hups with
  | refl => exact Nat.le_refl _
  | tail _ hup ih =>
    have := level_up h hup
    omega

/-! ### The walk -/

/-- The way up from the target comes to the caller's namespace, or ends below it. -/
theorem over_up (h : Over t cur cap ns) : ns = cur.userNs ∨
    ∃ i, ∃ n : UserNamespace, ns = some i ∧ t[i]? = some n ∧
      (Leveled t → nsLevel t cur.userNs < n.level) := by
  rcases h with ⟨heq, -⟩ | ⟨c, m, hups, hc, hp, -⟩
  · exact .inl heq
  have hbelow : Leveled t → nsLevel t cur.userNs < nsLevel t ns := fun hl => by
    have hle := level_ups hl hups
    have hup := level_up hl ⟨c, m, rfl, hc, hp⟩
    omega
  obtain ⟨i, n, rfl, hn⟩ : ∃ i, ∃ n : UserNamespace, ns = some i ∧ t[i]? = some n := by
    rcases ReflTransGen.cases_head hups with rfl | ⟨_, ⟨i, n, hi, hn, -⟩, -⟩
    · exact ⟨c, m, rfl, hc⟩
    · exact ⟨i, n, hi, hn⟩
  refine .inr ⟨i, n, rfl, hn, ?_⟩
  simpa only [nsLevel, hn] using hbelow

/-- A namespace that is not the caller's, and whose owner the caller is not from its
    parent, is as its parent is. -/
theorem over_parent {i : Nat} {n : UserNamespace} (hn : t[i]? = some n) (hne : some i ≠ cur.userNs)
    (hown : ¬ (n.parent = cur.userNs ∧ n.owner = cur.euid)) :
    Over t cur cap (some i) ↔ Over t cur cap n.parent := by
  have hup : Up t (some i) n.parent := ⟨i, n, rfl, hn, rfl⟩
  constructor
  · rintro (⟨heq, -⟩ | ⟨c, m, hups, hc, hp, hor⟩)
    · exact absurd heq hne
    rcases ReflTransGen.cases_head hups with heq | ⟨b, ⟨j, m', hj, hm', rfl⟩, hrest⟩
    · cases heq
      cases hn.symm.trans hc
      exact .inl ⟨hp, hor.resolve_right fun ho => hown ⟨hp, ho⟩⟩
    · cases hj
      cases hn.symm.trans hm'
      exact .inr ⟨c, m, hrest, hc, hp, hor⟩
  · rintro (⟨heq, hholds⟩ | ⟨c, m, hups, hc, hp, hor⟩)
    · exact .inr ⟨i, n, .refl, hn, heq, .inl hholds⟩
    · exact .inr ⟨c, m, .head hup hups, hc, hp, hor⟩

/-- The walk decides `Over`, given as many turns as there are namespaces above. -/
theorem nsCapableFrom_iff (h : Leveled t) (fuel : Nat) (ns : Option Nat) (hfuel : 0 < fuel)
    (hns : ∀ i, ns = some i → i < t.length → i + 1 < fuel) :
    nsCapableFrom t cur cap fuel ns = true ↔ Over t cur cap ns := by
  induction fuel generalizing ns with
  | zero => cases hfuel
  | succ fuel ih =>
    unfold nsCapableFrom
    by_cases hmine : ns = cur.userNs
    · subst hmine
      rw [if_pos rfl]
      refine ⟨fun hholds => .inl ⟨rfl, hholds⟩, ?_⟩
      rintro (⟨-, hholds⟩ | ⟨c, n, hups, hc, hp, -⟩)
      · exact hholds
      · have hle := level_ups h hups
        have hup := level_up h ⟨c, n, rfl, hc, hp⟩
        omega
    rw [if_neg hmine]
    cases ns with
    | none =>
      refine iff_of_false Bool.false_ne_true fun hover => ?_
      rcases (over_up hover).resolve_left hmine with ⟨i, n, hi, -⟩
      cases hi
    | some i =>
      cases hn : t[i]? with
      | none =>
        simp only [hn, Bool.false_eq_true, false_iff]
        intro hover
        rcases (over_up hover).resolve_left hmine with ⟨j, n, hj, hn', -⟩
        cases hj
        cases hn.symm.trans hn'
      | some n =>
        simp only [hn]
        by_cases hlevel : n.level ≤ nsLevel t cur.userNs
        · rw [if_pos hlevel]
          -- It is not deeper than the caller, so the caller is not above it.
          refine iff_of_false Bool.false_ne_true fun hover => ?_
          rcases (over_up hover).resolve_left hmine with ⟨j, m, hj, hm, hlt⟩
          cases hj
          cases hn.symm.trans hm
          exact absurd (hlt h) (Nat.not_lt.mpr hlevel)
        rw [if_neg hlevel]
        split
        · next hown => exact iff_of_true rfl (.inr ⟨i, n, .refl, hn, hown.1, .inr hown.2⟩)
        · next hown =>
          have hi := hns i rfl (List.getElem?_eq_some_iff.mp hn).1
          rw [over_parent hn hmine hown]
          refine ih n.parent (by omega) fun p hp _ => ?_
          have := (h i n hn).2 p hp
          omega

/-- What a task may do to a namespace it may do to those below. -/
theorem over_below {d : Option Nat} (hups : ReflTransGen (Up t) d target)
    (h : Over t cur cap target) : Over t cur cap d := by
  rcases h with ⟨rfl, hholds⟩ | ⟨c, n, hc, hrest⟩
  · rcases ReflTransGen.cases_tail hups with heq | ⟨b, hb, ⟨j, m, rfl, hm, hp⟩⟩
    · exact .inl ⟨heq.symm, hholds⟩
    · exact .inr ⟨j, m, hb, hm, hp, .inl hholds⟩
  · exact .inr ⟨c, n, hups.trans hc, hrest⟩

/-- In every tree of namespaces: `ns_capable` is `Over`, a task that is capable over a
    namespace is so over every one below it, and that namespace is in the task's own
    subtree. -/
theorem ns_capable_iff {tr : List (NsTable × NsOp)} (hr : Run nsStep [] tr t) (cur : Task)
    (target : Option Nat) (cap : Nat) (hcap : cap < 64) :
    (nsCapable t cur target cap = true ↔ Over t cur cap target) ∧
    (∀ d, ReflTransGen (Up t) d target → nsCapable t cur target cap = true →
      nsCapable t cur d cap = true) ∧
    (nsCapable t cur target cap = true → ReflTransGen (Up t) target cur.userNs) := by
  have hiff : ∀ ns, nsCapable t cur ns cap = true ↔ Over t cur cap ns := fun ns => by
    rw [nsCapable, if_neg (Nat.not_le.mpr hcap)]
    exact nsCapableFrom_iff (run_leveled hr) _ ns (Nat.succ_pos _) fun i _ hi => Nat.succ_lt_succ hi
  refine ⟨hiff target, fun d hd => ?_, fun hover => ?_⟩
  · rw [hiff, hiff]
    exact over_below hd
  · rcases (hiff target).mp hover with ⟨rfl, -⟩ | ⟨c, n, hups, hc, hp, -⟩
    · exact .refl
    · exact hups.tail ⟨c, n, rfl, hc, hp⟩

/-- A user may do anything to the namespace it has made. -/
theorem ns_capable_iff_owner : ∃ tr, ∃ t : NsTable, Run nsStep [] tr t ∧
    Over t plainUser capSetuid (some 0) := by
  have hr := run_traceOf [.new plainUser true] []
  exact ⟨_, _, hr, ((ns_capable_iff hr plainUser (some 0) capSetuid (by decide)).1).mp (by decide)⟩

end IshAok.UserNs
