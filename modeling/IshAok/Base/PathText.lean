import Mathlib.Data.List.TakeWhile

/-!
# Path Text

Paths as the text they are spelled with. A path is read from the left, one
name at a time, with runs of slashes between the names, and is built on the
right, where the last name is also what `..` takes away.

`joinPath` is the spelling of a list of names in which every name has exactly
one slash in front of it, so the root is the empty text. `Below r q` is the
test a confined walk has to keep: `q` is `r` itself or goes on from it with a
slash, which is more than `r` being an initial part of `q`.

## Main definitions

* `skipSlashes`: What is left after a run of slashes.
* `nameOf`, `afterName`: The name a text begins with, and what follows it.
* `joinPath`: The normalized spelling of a list of names.
* `IsName`: A text that can stand between two slashes.
* `ProperName`: A name other than the two dots.
* `Ended`: A text at which the name in front of it ends.
* `dropLastName`: A path without its last name.
* `Below`: A path is another one or lies under it.

## Theorems

* `dropLastName_snoc`: Dropping the last name undoes appending one.
* `below_dropLastName`: A path under `r` other than `r` stays under it without its last name.
-/

namespace IshAok.Base

open List Bool

/-- What is left of a text after the slashes it begins with. -/
def skipSlashes (p : List Char) : List Char :=
  p.dropWhile (· = '/')

/-- The name a text begins with. -/
def nameOf (p : List Char) : List Char :=
  p.takeWhile (· ≠ '/')

/-- What is left of a text after the name it begins with. -/
def afterName (p : List Char) : List Char :=
  p.dropWhile (· ≠ '/')

/-- The spelling of a list of names: a slash in front of each. -/
def joinPath (names : List (List Char)) : List Char :=
  names.flatMap fun x => '/' :: x

/-- A text that can stand between two slashes. -/
def IsName (x : List Char) : Prop :=
  x ≠ [] ∧ '/' ∉ x

/-- A name that is not one of the two dots. -/
def ProperName (x : List Char) : Prop :=
  IsName x ∧ x ≠ ['.'] ∧ x ≠ ['.', '.']

instance (x : List Char) : Decidable (IsName x) :=
  inferInstanceAs (Decidable (_ ∧ _))

instance (x : List Char) : Decidable (ProperName x) :=
  inferInstanceAs (Decidable (_ ∧ _))

/-- A text at which a name in front of it ends: nothing, or a slash and more. -/
def Ended (t : List Char) : Prop :=
  t = [] ∨ ∃ u, t = '/' :: u

/-- The path without its last name and the slash in front of that name. -/
def dropLastName (q : List Char) : List Char :=
  (q.reverse.dropWhile (· ≠ '/')).tail.reverse

/-- `q` is `r` or goes on from it with a slash. -/
def Below (r q : List Char) : Prop :=
  q = r ∨ r ++ ['/'] <+: q

instance (r q : List Char) : Decidable (Below r q) :=
  inferInstanceAs (Decidable (_ ∨ _))

/-! ### Reading names -/

theorem skipSlashes_length_le (p : List Char) : (skipSlashes p).length ≤ p.length :=
  (dropWhile_sublist _).length_le

@[simp] theorem skipSlashes_slash (p : List Char) : skipSlashes ('/' :: p) = skipSlashes p := by
  simp [skipSlashes]

@[simp] theorem skipSlashes_nil : skipSlashes [] = [] := rfl

theorem skipSlashes_of_ne {c : Char} (p : List Char) (h : c ≠ '/') :
    skipSlashes (c :: p) = c :: p := by
  simp [skipSlashes, decide_eq_false h]

variable {p x : List Char}

variable {q t r : List Char}

theorem skipSlashes_head {c : Char} (h : skipSlashes p = c :: q) : c ≠ '/' := by
  have hc := head?_dropWhile_not (fun c : Char => decide (c = '/')) p
  rw [show p.dropWhile (fun c : Char => decide (c = '/')) = c :: q from h] at hc
  simpa only [head?_cons, decide_eq_false_iff_not] using hc

/-- A name in front of a text stops the slashes. -/
theorem skipSlashes_name (p : List Char) (hx : IsName x) : skipSlashes (x ++ p) = x ++ p := by
  cases x with
  | nil => exact absurd rfl hx.1
  | cons c x =>
    have hc : c ≠ '/' := fun hc => hx.2 (hc ▸ mem_cons_self)
    exact skipSlashes_of_ne _ hc

theorem nameOf_append_afterName (p : List Char) : nameOf p ++ afterName p = p :=
  takeWhile_append_dropWhile

theorem ended_afterName (p : List Char) : Ended (afterName p) := by
  cases h : afterName p with
  | nil => exact .inl rfl
  | cons c q =>
    have hc := head?_dropWhile_not (fun c : Char => decide (c ≠ '/')) p
    rw [show p.dropWhile (fun c : Char => decide (c ≠ '/')) = c :: q from h] at hc
    simp only [head?_cons, ne_eq, decide_not, not_eq_false', decide_eq_true_eq] at hc
    exact .inr ⟨q, by rw [hc]⟩

/-- Behind a run of slashes there is a name. -/
theorem isName_nameOf (h : skipSlashes p ≠ []) : IsName (nameOf (skipSlashes p)) := by
  constructor
  · cases hp : skipSlashes p with
    | nil => exact absurd hp h
    | cons c q =>
      have hc : c ≠ '/' := skipSlashes_head hp
      simp [nameOf, hc]
  · intro hmem
    have := mem_takeWhile_imp hmem
    simp only [ne_eq, not_true_eq_false, decide_false, false_eq_true] at this

theorem afterName_length_lt (h : skipSlashes p ≠ []) :
    (afterName (skipSlashes p)).length < p.length := by
  have hsplit := congrArg List.length (nameOf_append_afterName (skipSlashes p))
  have hname := length_pos_iff.mpr (isName_nameOf h).1
  have hle := skipSlashes_length_le p
  rw [length_append] at hsplit
  omega

/-- Where a name ends is where the first slash is. -/
theorem name_unique {y u : List Char} (hx : '/' ∉ x) (hy : '/' ∉ y) (ht : Ended t)
    (hu : Ended u) (h : x ++ t = y ++ u) : x = y ∧ t = u := by
  induction x generalizing y with
  | nil =>
    cases y with
    | nil => exact ⟨rfl, h⟩
    | cons d y =>
      rcases ht with rfl | ⟨v, rfl⟩
      · cases h
      · cases h
        exact absurd mem_cons_self hy
  | cons c x ih =>
    cases y with
    | nil =>
      rcases hu with rfl | ⟨v, rfl⟩
      · cases h
      · cases h
        exact absurd mem_cons_self hx
    | cons d y =>
      rw [cons_append, cons_append, List.cons.injEq] at h
      rcases ih (fun hm => hx (mem_cons_of_mem _ hm))
        (fun hm => hy (mem_cons_of_mem _ hm)) h.2 with ⟨hxy, htu⟩
      exact ⟨by rw [h.1, hxy], htu⟩

theorem nameOf_append (hx : '/' ∉ x) (ht : Ended t) : nameOf (x ++ t) = x := by
  have hname : '/' ∉ nameOf (x ++ t) := fun hm => by
    have := mem_takeWhile_imp hm
    simp only [ne_eq, not_true_eq_false, decide_false, false_eq_true] at this
  exact (name_unique hname hx (ended_afterName _) ht (nameOf_append_afterName _)).1

theorem afterName_append (hx : '/' ∉ x) (ht : Ended t) : afterName (x ++ t) = t := by
  have h := nameOf_append_afterName (x ++ t)
  rw [nameOf_append hx ht] at h
  exact append_cancel_left h

/-! ### Spelling names -/

@[simp] theorem joinPath_nil : joinPath [] = [] := rfl

@[simp] theorem joinPath_cons (x : List Char) (names : List (List Char)) :
    joinPath (x :: names) = '/' :: (x ++ joinPath names) := by
  simp [joinPath]

@[simp] theorem joinPath_eq_nil {names : List (List Char)} : joinPath names = [] ↔ names = [] := by
  cases names with
  | nil => exact iff_of_true rfl rfl
  | cons x names => simp [joinPath_cons]

theorem joinPath_append (a b : List (List Char)) :
    joinPath (a ++ b) = joinPath a ++ joinPath b := by
  simp [joinPath]

theorem joinPath_snoc (names : List (List Char)) (x : List Char) :
    joinPath (names ++ [x]) = joinPath names ++ '/' :: x := by
  rw [joinPath_append, joinPath_cons, joinPath_nil, append_nil]

/-- A spelled path is empty or begins with a slash. -/
theorem ended_joinPath (names : List (List Char)) : Ended (joinPath names) := by
  cases names with
  | nil => exact .inl rfl
  | cons x names => exact .inr ⟨_, joinPath_cons x names⟩

/-- Names are read back from their spelling. -/
theorem joinPath_inj {a b : List (List Char)} (ha : ∀ x ∈ a, IsName x) (hb : ∀ x ∈ b, IsName x)
    (h : joinPath a = joinPath b) : a = b := by
  induction a generalizing b with
  | nil =>
    cases b with
    | nil => rfl
    | cons y b => cases h
  | cons x a ih =>
    cases b with
    | nil => cases h
    | cons y b =>
      rw [joinPath_cons, joinPath_cons, List.cons.injEq] at h
      have hx := ha x mem_cons_self
      have hy := hb y mem_cons_self
      rcases name_unique hx.2 hy.2 (ended_joinPath a) (ended_joinPath b) h.2 with ⟨rfl, hab⟩
      rw [ih (fun z hz => ha z (mem_cons_of_mem _ hz))
        (fun z hz => hb z (mem_cons_of_mem _ hz)) hab]

/-! ### Dropping the last name -/

/-- Only what stands behind a slash can be dropped together with it. -/
theorem dropLastName_append (a b : List Char) :
    dropLastName (a ++ '/' :: b) = a ++ dropLastName ('/' :: b) := by
  have hslash : ((b.reverse ++ ['/']).dropWhile (fun c => decide (c ≠ '/'))) ≠ [] := by
    intro h
    have hc := dropWhile_eq_nil_iff.1 h '/'
      (mem_append_right _ (mem_singleton_self _))
    simp only [ne_eq, not_true_eq_false, decide_false, false_eq_true] at hc
  simp only [dropLastName, reverse_append, reverse_cons]
  rw [dropWhile_append, if_neg (by rwa [List.isEmpty_iff]),
    tail_append_of_ne_nil hslash, reverse_append, reverse_reverse]

/-- Dropping the last name undoes appending one. -/
theorem dropLastName_snoc (a : List Char) (hx : '/' ∉ x) : dropLastName (a ++ '/' :: x) = a := by
  have hall : ∀ c ∈ x.reverse, decide (c ≠ '/') = true := fun c hc =>
    decide_eq_true fun h => hx (h ▸ mem_reverse.mp hc)
  rw [dropLastName_append]
  simp only [dropLastName, reverse_cons]
  rw [dropWhile_append_of_pos hall]
  simp

/-- The last name of a spelled path is dropped. -/
theorem dropLastName_joinPath {names : List (List Char)} (h : ∀ x ∈ names, IsName x) :
    dropLastName (joinPath names) = joinPath names.dropLast := by
  rcases eq_nil_or_concat names with rfl | ⟨init, x, rfl⟩
  · rfl
  · rw [concat_eq_append, joinPath_snoc, dropLast_concat]
    exact dropLastName_snoc _ (h x (by
      rw [concat_eq_append]
      exact mem_append_right _ (mem_singleton_self x))).2

/-- What is left of a path that begins with a slash is empty or begins with one. -/
theorem ended_dropLastName (b : List Char) : Ended (dropLastName ('/' :: b)) := by
  -- The last slash of the text is the first one, or some later one.
  rcases Classical.em ('/' ∈ b) with hb | hb
  · rcases append_of_mem hb with ⟨u, v, rfl⟩
    right
    rw [show '/' :: (u ++ '/' :: v) = ('/' :: u) ++ '/' :: v from rfl, dropLastName_append]
    exact ⟨_, rfl⟩
  · exact .inl (dropLastName_snoc [] hb)

/-! ### Lying under a path -/

theorem below_refl (r : List Char) : Below r r := .inl rfl

theorem below_snoc (x : List Char) (h : Below r q) : Below r (q ++ '/' :: x) := by
  rcases h with rfl | h
  · exact .inr ⟨x, by simp⟩
  · exact .inr (h.trans (prefix_append _ _))

/-- A path under `r` is `r` with a text behind it that is empty or begins with a slash. -/
theorem below_iff : Below r q ↔ ∃ t, q = r ++ t ∧ Ended t := by
  constructor
  · rintro (rfl | ⟨u, rfl⟩)
    · exact ⟨[], (append_nil _).symm, .inl rfl⟩
    · exact ⟨'/' :: u, by simp, .inr ⟨u, rfl⟩⟩
  · rintro ⟨t, rfl, rfl | ⟨u, rfl⟩⟩
    · exact .inl (append_nil _)
    · exact .inr ⟨u, by simp⟩

/-- A path under a path under `a` is under `a`. -/
theorem below_trans {a b d : List Char} (h : Below a b) (h' : Below b d) : Below a d := by
  rcases below_iff.mp h with ⟨t, rfl, ht⟩
  rcases below_iff.mp h' with ⟨u, rfl, hu⟩
  refine below_iff.mpr ⟨t ++ u, append_assoc _ _ _, ?_⟩
  rcases ht with rfl | ⟨v, rfl⟩
  · exact hu
  · exact .inr ⟨v ++ u, rfl⟩

/-- A path under `r` other than `r` stays under it without its last name. -/
theorem below_dropLastName (h : Below r q) (hne : q ≠ r) : Below r (dropLastName q) := by
  rcases below_iff.mp h with ⟨t, rfl, rfl | ⟨u, rfl⟩⟩
  · exact absurd (append_nil r) hne
  · rw [dropLastName_append]
    exact below_iff.mpr ⟨_, rfl, ended_dropLastName u⟩

end IshAok.Base
