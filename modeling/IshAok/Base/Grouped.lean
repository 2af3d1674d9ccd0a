import Mathlib.Data.List.Nodup

/-!
# Lists Grouped by a Key

A list in which the entries of each key stand next to each other. Programs
keep such lists so that a search for one key can stop at the first other key
behind it, and what they rely on is that replacing the entries of a key in
place does not break the other groups.

`Grouped` is stated with the row of groups itself, empty groups allowed, so
that an edit of the list is an edit of one group. `grouped_split` is the form
a program proof uses.

## Main definitions

* `Grouped`: The list is a row of groups of different keys.

## Theorems

* `grouped_nil`: The empty list is grouped.
* `grouped_split`: A key cuts the list in three, and its part may be replaced.
* `grouped_filter`: Dropping entries keeps the groups.
-/

namespace IshAok.Base

open List

variable {α κ : Type*} (key : α → κ)

/-- The list is a row of groups, one for each of some different keys. -/
def Grouped (xs : List α) : Prop :=
  ∃ groups : List (κ × List α), (groups.map Prod.fst).Nodup ∧
    (∀ g ∈ groups, ∀ x ∈ g.2, key x = g.1) ∧ xs = groups.flatMap Prod.snd

theorem grouped_nil : Grouped key [] :=
  ⟨[], nodup_nil, fun _ hg => absurd hg not_mem_nil, rfl⟩

theorem key_ne_of_not_mem (groups : List (κ × List α)) (k : κ)
    (hown : ∀ g ∈ groups, ∀ x ∈ g.2, key x = g.1) (hk : k ∉ groups.map Prod.fst) :
    ∀ x ∈ groups.flatMap Prod.snd, key x ≠ k := by
  intro x hx he
  obtain ⟨g, hg, hxg⟩ := mem_flatMap.mp hx
  exact hk (mem_map.mpr ⟨g, hg, (hown g hg x hxg).symm.trans he⟩)

/-- A key without a group may be given one at the end. -/
theorem grouped_append (groups : List (κ × List α)) (k : κ) (mine : List α)
    (hnodup : (groups.map Prod.fst).Nodup) (hown : ∀ g ∈ groups, ∀ x ∈ g.2, key x = g.1)
    (hk : k ∉ groups.map Prod.fst) (hmine : ∀ x ∈ mine, key x = k) :
    Grouped key (groups.flatMap Prod.snd ++ mine ++ []) := by
  refine ⟨groups ++ [(k, mine)], ?_, ?_, ?_⟩
  · rw [map_append]
    refine List.Nodup.append hnodup (nodup_cons.mpr ⟨not_mem_nil, nodup_nil⟩) ?_
    intro a ha hb
    rw [map_cons, map_nil, mem_singleton] at hb
    rw [hb] at ha
    exact hk ha
  · intro g hg
    rcases mem_append.mp hg with hg | hg
    · exact hown g hg
    · rw [mem_singleton] at hg
      subst hg
      exact hmine
  · simp

/-- Any key cuts a grouped list in three, and its part may be replaced by
    other entries of that key. A key without entries has its place at the end
    of the list. -/
theorem grouped_split (xs : List α) (k : κ) (h : Grouped key xs) :
    ∃ pre mine post, xs = pre ++ mine ++ post ∧ (∀ x ∈ pre, key x ≠ k) ∧
      (∀ x ∈ mine, key x = k) ∧ (∀ x ∈ post, key x ≠ k) ∧ (mine = [] → post = []) ∧
      ∀ mine', (∀ x ∈ mine', key x = k) → Grouped key (pre ++ mine' ++ post) := by
  obtain ⟨groups, hnodup, hown, rfl⟩ := h
  by_cases hin : k ∈ groups.map Prod.fst
  · obtain ⟨⟨k', mine⟩, hg, rfl⟩ := mem_map.mp hin
    obtain ⟨gs1, gs2, rfl⟩ := append_of_mem hg
    rw [map_append, map_cons, nodup_append, nodup_cons] at hnodup
    obtain ⟨hn1, ⟨hn2, hn3⟩, hcross⟩ := hnodup
    have hno1 : k' ∉ gs1.map Prod.fst := fun hc => hcross k' hc k' mem_cons_self rfl
    have hown1 : ∀ g ∈ gs1, ∀ x ∈ g.2, key x = g.1 := fun g hgm =>
      hown g (mem_append_left _ hgm)
    have hown2 : ∀ g ∈ gs2, ∀ x ∈ g.2, key x = g.1 := fun g hgm =>
      hown g (mem_append_right _ (mem_cons_of_mem _ hgm))
    have hpre := key_ne_of_not_mem key gs1 k' hown1 hno1
    have hpost := key_ne_of_not_mem key gs2 k' hown2 hn2
    cases mine with
    | nil =>
      -- The group is there but empty, so it can move to the end.
      refine ⟨(gs1 ++ gs2).flatMap Prod.snd, [], [], ?_, ?_, hown _ hg, ?_, fun _ => rfl, ?_⟩
      · simp
      · intro x hx
        rw [flatMap_append] at hx
        exact (mem_append.mp hx).elim (hpre x) (hpost x)
      · exact fun x hx => absurd hx not_mem_nil
      · intro mine' hmine'
        refine grouped_append key _ k' mine' ?_
          (fun g hgm => (mem_append.mp hgm).elim (hown1 g) (hown2 g)) ?_ hmine'
        · rw [map_append, nodup_append]
          exact ⟨hn1, hn3, fun a ha b hb => hcross a ha b (mem_cons_of_mem _ hb)⟩
        · rw [map_append]
          exact fun hc => (mem_append.mp hc).elim hno1 hn2
    | cons x mine =>
      refine ⟨gs1.flatMap Prod.snd, x :: mine, gs2.flatMap Prod.snd, ?_, hpre, hown _ hg, hpost,
        fun hc => absurd hc (cons_ne_nil _ _), ?_⟩
      · rw [flatMap_append, flatMap_cons, append_assoc]
      · intro mine' hmine'
        refine ⟨gs1 ++ (k', mine') :: gs2, ?_, ?_, ?_⟩
        · rw [map_append, map_cons, nodup_append, nodup_cons]
          exact ⟨hn1, ⟨hn2, hn3⟩, hcross⟩
        · intro g hgm
          rcases mem_append.mp hgm with hgm | hgm
          · exact hown1 g hgm
          · rcases mem_cons.mp hgm with rfl | hgm
            · exact hmine'
            · exact hown2 g hgm
        · rw [flatMap_append, flatMap_cons, append_assoc]
  · refine ⟨groups.flatMap Prod.snd, [], [], ?_, key_ne_of_not_mem key groups k hown hin, ?_, ?_,
      fun _ => rfl, fun mine' => grouped_append key groups k mine' hnodup hown hin⟩
    · rw [append_nil, append_nil]
    · exact fun x hx => absurd hx not_mem_nil
    · exact fun x hx => absurd hx not_mem_nil

theorem grouped_filter (xs : List α) (p : α → Bool) (h : Grouped key xs) :
    Grouped key (xs.filter p) := by
  obtain ⟨groups, hnodup, hown, rfl⟩ := h
  refine ⟨groups.map (fun g => (g.1, g.2.filter p)), ?_, ?_, ?_⟩
  · rw [map_map]
    exact hnodup
  · intro g hg x hx
    obtain ⟨g', hg', rfl⟩ := mem_map.mp hg
    exact hown g' hg' x (mem_filter.mp hx).1
  · rw [filter_flatMap, flatMap_map]

end IshAok.Base
