import Mathlib.Data.List.Nodup
import Mathlib.Data.List.Perm.Subperm
import Mathlib.Data.Nat.Find
import Mathlib.Logic.Relation

/-!
# Following Edges

A graph in which every node has at most one edge out, given as a partial
function, and the bounded search that follows it looking for one node. This
is how programs look for a cycle in a wait-for graph: start at the node the
new edge would point to and see whether its own node comes up.

The search is right as soon as its bound exceeds the number of nodes that
have an edge, since a shortest path repeats no node (`seek_of_reaches`). In
the other direction `reaches_of_seek` only asks that the edges the search
actually took are edges of the relation one cares about, which matters when
the recorded graph may be out of date.

`acyclic_insert` is the reason for the search: an edge whose target does not
reach its source closes no cycle. `walk_insert` counts the edges as well: a walk
over the new edge is one up to its source and one on from its target.

## Main definitions

* `follow`: The node a given number of edges away.
* `seek`: The bounded search for a node.
* `trail`: The nodes whose edges the search takes.
* `Acyclic`: No node reaches itself.
* `Walk`: A number of edges that lead from one node to another.

## Theorems

* `follow_add`: Paths compose.
* `follow_short`: A shortest path repeats no node.
* `seek_of_reaches`: A large enough bound finds every reachable node.
* `reaches_of_seek`: The edges taken lead to the node found.
* `acyclic_insert`, `walk_insert`: Adding an edge that closes no cycle.
-/

namespace IshAok.Base

open List Option Relation

variable {α : Type*} (next : α → Option α)

/-- The node `n` edges away, if the path is that long. -/
def follow (next : α → Option α) : Nat → α → Option α
  | 0, a => some a
  | n + 1, a => (next a).bind (follow next n)

theorem follow_add (m n : Nat) (a : α) :
    follow next (m + n) a = (follow next m a).bind (follow next n) := by
  induction m generalizing a with
  | zero => rw [Nat.zero_add, follow, bind_some]
  | succ m ih =>
    rw [Nat.add_right_comm, follow, follow, bind_assoc]
    exact congrArg _ (funext ih)

/-- A path that is not cut short has a next edge at each of its nodes. -/
theorem next_of_follow (i n : Nat) (a b : α) (h : follow next n a = some b)
    (hi : i < n) : ∃ x y, follow next i a = some x ∧ next x = some y := by
  obtain ⟨d, rfl⟩ : ∃ d, n = i + (d + 1) := ⟨n - i - 1, by omega⟩
  rw [follow_add, bind_eq_some_iff] at h
  obtain ⟨x, hx, hd⟩ := h
  rw [follow, bind_eq_some_iff] at hd
  obtain ⟨y, hy, -⟩ := hd
  exact ⟨x, y, hx, hy⟩

theorem follow_of_reaches (a b : α) (h : ReflTransGen (fun x y => next x = some y) a b) :
    ∃ n, follow next n a = some b := by
  induction h with
  | refl => exact ⟨0, rfl⟩
  | tail _ hstep ih =>
    obtain ⟨n, hn⟩ := ih
    refine ⟨n + 1, ?_⟩
    rw [follow_add, hn, bind_some, follow, hstep]
    rfl

/-- A shortest path takes no more edges than there are nodes with an edge. -/
theorem follow_short (dom : List α)
    (hdom : ∀ x y, next x = some y → x ∈ dom) (a b : α) (n : Nat)
    (h : follow next n a = some b) : ∃ m, m ≤ dom.length ∧ follow next m a = some b := by
  classical
  have hex : ∃ n, follow next n a = some b := ⟨n, h⟩
  refine ⟨Nat.find hex, ?_, Nat.find_spec hex⟩
  have hmin : ∀ m, m < Nat.find hex → follow next m a ≠ some b := fun m hm => Nat.find_min hex hm
  have hpath := Nat.find_spec hex
  generalize Nat.find hex = k at hmin hpath
  -- The nodes on the path are different, as a repeated one could be skipped.
  have hinj : ∀ i j, i < j → j < k → follow next i a ≠ follow next j a := by
    intro i j hij hjk heq
    obtain ⟨d, rfl⟩ : ∃ d, k = j + d := ⟨k - j, by omega⟩
    refine hmin (i + d) (by omega) ?_
    rw [follow_add, heq, ← follow_add, hpath]
  have hnodup : ((List.range k).map (fun i => follow next i a)).Nodup := by
    refine List.Nodup.map_on ?_ nodup_range
    intro i hi j hj heq
    rw [mem_range] at hi hj
    rcases Nat.lt_trichotomy i j with hlt | rfl | hgt
    · exact absurd heq (hinj i j hlt hj)
    · rfl
    · exact absurd heq.symm (hinj j i hgt hi)
  have hsub : (List.range k).map (fun i => follow next i a) ⊆ dom.map some := by
    intro o ho
    obtain ⟨i, hi, rfl⟩ := mem_map.mp ho
    obtain ⟨x, y, hx, hy⟩ := next_of_follow next i k a b hpath (mem_range.mp hi)
    rw [hx]
    exact mem_map.mpr ⟨x, hdom x y hy, rfl⟩
  have hlen := (List.Nodup.subperm hnodup hsub).length_le
  rwa [length_map, length_range, length_map] at hlen

section Seek

variable [DecidableEq α] (next : α → Option α)

/-- Look for `target` among the first `n` nodes of the path from a node. -/
def seek (next : α → Option α) (target : α) : Nat → Option α → Bool
  | 0, _ => false
  | _ + 1, none => false
  | n + 1, some a => if a = target then true else seek next target n (next a)

/-- The nodes `seek` leaves by their edge. -/
def trail (next : α → Option α) (target : α) : Nat → Option α → List α
  | 0, _ => []
  | _ + 1, none => []
  | n + 1, some a => if a = target then [] else a :: trail next target n (next a)

theorem seek_none (target : α) (n : Nat) :
    seek next target n none = false := by
  cases n <;> rfl

theorem seek_of_follow (target : α) (n m : Nat) (a : α) (hm : m < n)
    (h : follow next m a = some target) : seek next target n (some a) = true := by
  induction n generalizing m a with
  | zero => exact absurd hm (Nat.not_lt_zero m)
  | succ n ih =>
    rw [seek]
    by_cases ha : a = target
    · rw [if_pos ha]
    rw [if_neg ha]
    cases m with
    | zero => exact absurd (some.inj h) ha
    | succ m =>
      rw [follow, bind_eq_some_iff] at h
      obtain ⟨b, hb, hf⟩ := h
      rw [hb]
      exact ih m b (Nat.lt_of_succ_lt_succ hm) hf

theorem seek_of_reaches (dom : List α) (hdom : ∀ x y, next x = some y → x ∈ dom) (a target : α)
    (n : Nat) (hn : dom.length < n) (h : ReflTransGen (fun x y => next x = some y) a target) :
    seek next target n (some a) = true := by
  obtain ⟨k, hk⟩ := follow_of_reaches next a target h
  obtain ⟨m, hm, hmf⟩ := follow_short next dom hdom a target k hk
  exact seek_of_follow next target n m a (by omega) hmf

theorem reaches_of_seek (R : α → α → Prop) (target : α) (n : Nat) (a : α)
    (h : seek next target n (some a) = true)
    (hR : ∀ x ∈ trail next target n (some a), ∀ y, next x = some y → R x y) :
    ReflTransGen R a target := by
  induction n generalizing a with
  | zero => cases h
  | succ n ih =>
    rw [seek] at h
    rw [trail] at hR
    by_cases ha : a = target
    · rw [ha]
    rw [if_neg ha] at h hR
    cases hb : next a with
    | none =>
      rw [hb, seek_none] at h
      cases h
    | some b =>
      rw [hb] at h hR
      have hab : R a b := hR a mem_cons_self b hb
      exact (ih b h (fun x hx => hR x (mem_cons_of_mem _ hx))).head hab

end Seek

/-- No node reaches itself. -/
def Acyclic (R : α → α → Prop) : Prop :=
  ∀ a, ¬ TransGen R a a

/-- A path in a graph with one more edge avoids the new edge, or runs up to
    its source and on from its target. -/
theorem transGen_insert (R S : α → α → Prop) (a b : α)
    (hS : ∀ x y, S x y → R x y ∨ (x = a ∧ y = b)) (x y : α) (h : TransGen S x y) :
    TransGen R x y ∨ (ReflTransGen R x a ∧ ReflTransGen R b y) := by
  induction h with
  | single hxy =>
    rcases hS _ _ hxy with hR | ⟨rfl, rfl⟩
    · exact .inl (TransGen.single hR)
    · exact .inr ⟨ReflTransGen.refl, ReflTransGen.refl⟩
  | tail _ hyz ih =>
    rcases hS _ _ hyz with hR | ⟨rfl, rfl⟩
    · rcases ih with ih | ⟨ih1, ih2⟩
      · exact .inl (ih.tail hR)
      · exact .inr ⟨ih1, ih2.tail hR⟩
    · rcases ih with ih | ⟨ih1, -⟩
      · exact .inr ⟨ih.to_reflTransGen, ReflTransGen.refl⟩
      · exact .inr ⟨ih1, ReflTransGen.refl⟩

theorem acyclic_insert (R S : α → α → Prop) (a b : α) (hR : Acyclic R)
    (hS : ∀ x y, S x y → R x y ∨ (x = a ∧ y = b)) (hab : ¬ ReflTransGen R b a) : Acyclic S := by
  intro x hx
  rcases transGen_insert R S a b hS x x hx with h | ⟨h1, h2⟩
  · exact hR x h
  · exact hab (h2.trans h1)

theorem acyclic_mono (R S : α → α → Prop) (hR : Acyclic R) (h : ∀ x y, S x y → R x y) : Acyclic S :=
  fun x hx => hR x (TransGen.mono h x x hx)

/-- So many edges lead from one node to another. -/
def Walk (R : α → α → Prop) : Nat → α → α → Prop
  | 0, x, y => x = y
  | n + 1, x, y => ∃ z, R x z ∧ Walk R n z y

theorem walk_mono {R S : α → α → Prop} (h : ∀ x y, S x y → R x y) :
    ∀ n x y, Walk S n x y → Walk R n x y := by
  intro n
  induction n with
  | zero => exact fun _ _ hw => hw
  | succ n ih =>
    rintro x y ⟨z, hxz, hw⟩
    exact ⟨z, h x z hxz, ih z y hw⟩

theorem reaches_of_walk {R : α → α → Prop} : ∀ n x y, Walk R n x y → ReflTransGen R x y := by
  intro n
  induction n with
  | zero =>
    rintro x y rfl
    exact .refl
  | succ n ih =>
    rintro x y ⟨z, hxz, hw⟩
    exact (ih z y hw).head hxz

/-- The last edge of a walk. -/
theorem walk_last {R : α → α → Prop} :
    ∀ {n x y}, Walk R (n + 1) x y → ∃ z, R z y
  | 0, x, _, ⟨_, hxz, rfl⟩ => ⟨x, hxz⟩
  | _ + 1, _, _, ⟨_, _, hw⟩ => walk_last hw

/-- With one more edge that closes no cycle, a walk avoids it or crosses it once. -/
theorem walk_insert {R S : α → α → Prop} {a b : α}
    (hS : ∀ x y, S x y → R x y ∨ (x = a ∧ y = b)) (hab : ¬ ReflTransGen R b a) :
    ∀ n x y, Walk S n x y →
      Walk R n x y ∨ ∃ i j, Walk R i x a ∧ Walk R j b y ∧ i + 1 + j = n := by
  intro n
  induction n with
  | zero => exact fun _ _ hw => .inl hw
  | succ n ih =>
    rintro x y ⟨z, hxz, hw⟩
    rcases ih z y hw with hR | ⟨i, j, hi, hj, rfl⟩
    · rcases hS x z hxz with h | ⟨rfl, rfl⟩
      · exact .inl ⟨z, h, hR⟩
      · exact .inr ⟨0, n, rfl, hR, by omega⟩
    · rcases hS x z hxz with h | ⟨rfl, rfl⟩
      · exact .inr ⟨i + 1, j, ⟨z, h, hi⟩, hj, by omega⟩
      · -- A second crossing would lead from the target back to the source.
        exact absurd (reaches_of_walk i z x hi) hab

end IshAok.Base
