import Mathlib.Data.List.Nodup

/-!
# Tables of Records with an Identity

A kernel keeps its objects in linked lists and finds them by a number. Here such a
table is a list of records with a function that gives the identity of a record, and
its operations are those of a list: look for the record of an identity, change the
records of one identity, drop them, and put a new record at the end.

## Theorems

* `find_ident`: A record that is found has the identity that was asked for.
* `find_of_mem`: A record is found under its own identity.
* `find_map`: A change of records is seen where they are found.
* `map_remove`: A removal takes one identity away.
-/

namespace IshAok.Base

open List

variable {α ι : Type*} [DecidableEq ι] {ident : α → ι}

theorem find_ident {l : List α} {i : ι} {x : α} (h : l.find? (fun y => ident y = i) = some x) :
    ident x = i := by
  have hx := find?_some h
  simpa only [decide_eq_true_eq] using hx

/-- With distinct identities a record is found under its own. -/
theorem find_of_mem {l : List α} (hnodup : (l.map ident).Nodup) {x : α} (hx : x ∈ l) :
    l.find? (fun y => ident y = ident x) = some x := by
  cases hfind : l.find? (fun y => ident y = ident x) with
  | none => exact absurd (decide_eq_true rfl) (find?_eq_none.mp hfind x hx)
  | some y =>
    rw [inj_on_of_nodup_map hnodup (mem_of_find?_eq_some hfind) hx (find_ident hfind)]

/-- A change of records that keeps their identities. -/
theorem find_map {g : α → α} (hg : ∀ x, ident (g x) = ident x) (l : List α) (i : ι) :
    (l.map g).find? (fun y => ident y = i) = (l.find? (fun y => ident y = i)).map g := by
  rw [find?_map]
  simp only [Function.comp_def, hg]

/-- With distinct identities a removal takes one of them away. -/
theorem map_remove (ident : α → ι) {l : List α} (hnodup : (l.map ident).Nodup) (i : ι) :
    (l.filter (fun x => ident x ≠ i)).map ident = (l.map ident).erase i := by
  rw [hnodup.erase_eq_filter, filter_map]
  congr 1
  refine filter_congr fun x _ => ?_
  rw [Function.comp_apply, bne, decide_not]
  congr 1

end IshAok.Base
