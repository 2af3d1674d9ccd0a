import Mathlib.Data.List.Basic

/-!
# Lists Threaded through a Store

An intrusive list keeps no cells of its own: the store has a head, and each
member of the list says which member comes next. `Threaded next head ks` says
that following `next` from `head` visits exactly the members `ks`, in order,
and then stops.

The store changes under the list all the time. What matters is that only the
links of its own members count, so a change elsewhere keeps the list
(`threaded_congr`), and pushing or popping at the head is a change to one
link.

## Main definitions

* `Threaded`: A head and a link function spell out a list.

## Theorems

* `threaded_congr`: Only the links of the members matter.
* `threaded_push`: A new head that links to the old one.
* `threaded_pop`: A head that exists is the first member.
-/

namespace IshAok.Base

variable {κ : Type*}

/-- Following the links from the head visits the given members and stops. -/
def Threaded (next : κ → Option κ) : Option κ → List κ → Prop
  | head, [] => head = none
  | head, k :: ks => head = some k ∧ Threaded next (next k) ks

variable {next : κ → Option κ} {ks : List κ}

theorem threaded_congr {next' : κ → Option κ} {head : Option κ} (h : Threaded next head ks)
    (hsame : ∀ k ∈ ks, next' k = next k) : Threaded next' head ks := by
  induction ks generalizing head with
  | nil => exact h
  | cons k ks ih =>
    rcases h with ⟨hhead, hrest⟩
    refine ⟨hhead, ?_⟩
    rw [hsame k List.mem_cons_self]
    exact ih hrest fun j hj => hsame j (List.mem_cons_of_mem k hj)

theorem threaded_push {next' : κ → Option κ} {head : Option κ} (k : κ)
    (h : Threaded next head ks) (hlink : next' k = head)
    (hsame : ∀ j ∈ ks, next' j = next j) : Threaded next' (some k) (k :: ks) := by
  refine ⟨rfl, ?_⟩
  rw [hlink]
  exact threaded_congr h hsame

theorem threaded_pop {k : κ}
    (h : Threaded next (some k) ks) : ∃ rest, ks = k :: rest ∧ Threaded next (next k) rest := by
  cases ks with
  | nil => cases h
  | cons j rest =>
    rcases h with ⟨hhead, hrest⟩
    cases hhead
    exact ⟨rest, rfl, hrest⟩

end IshAok.Base
