import IshAok.Base.Table
import IshAok.Core.Futex

/-!
# The Table of Futexes

What the operations on the table of objects do, in terms of looking an object
up. An object is changed without touching its identity and its key, so a change
is seen at one identity only, and the identities and keys stay distinct.

The second part is the frame of the reference operations: they leave memory and
the tasks alone.

## Main definitions

* `Wf`: Identities and keys are distinct, and identities were handed out.
* `Keeps`: A change of an object that keeps its identity and its key.

## Theorems

* `getObj_modifyObj`, `getObj_removeObj`, `getObj_cons`: Looking up after a change.
* `find_key_iff`: The object of a key is the one that has it.
* `wf_modifyObj`, `wf_removeObj`, `wf_cons`: The table stays well formed.
* `futexGetUnlocked_frame`, `futexPutUnlocked_frame`: What references leave alone.
-/

namespace IshAok.Futex

open Base List

variable {K T : Type}

/-- A table with distinct identities and distinct keys. -/
structure Wf (s : State K T) : Prop where
  ids : (s.objs.map FutexObj.id).Nodup
  keys : (s.objs.map FutexObj.key).Nodup
  bound : ∀ o ∈ s.objs, o.id < s.next

/-- A change that keeps identity and key. -/
def Keeps (f : FutexObj K T → FutexObj K T) : Prop := ∀ o, (f o).id = o.id ∧ (f o).key = o.key

variable {s : State K T} {id : Nat} {o : FutexObj K T}

theorem getObj_id (h : s.getObj id = some o) : o.id = id :=
  find_ident h

theorem getObj_mem (h : s.getObj id = some o) : o ∈ s.objs :=
  mem_of_find?_eq_some h

/-- With distinct identities, an object is found under its own. -/
theorem getObj_of_mem (hwf : Wf s) (h : o ∈ s.objs) : s.getObj o.id = some o :=
  find_of_mem hwf.ids h

theorem getObj_modifyObj (s : State K T) (id i : Nat) (f : FutexObj K T → FutexObj K T)
    (hf : Keeps f) :
    (s.modifyObj id f).getObj i = if i = id then (s.getObj i).map f else s.getObj i := by
  have hid : ∀ o : FutexObj K T, (if o.id = id then f o else o).id = o.id := by
    intro o
    split
    · exact (hf o).1
    · rfl
  refine (find_map hid s.objs i).trans ?_
  change (s.getObj i).map _ = _
  cases ho : s.getObj i with
  | none => simp
  | some o =>
    rw [Option.map_some, getObj_id ho]
    split <;> rfl

theorem getObj_removeObj (s : State K T) (id i : Nat) :
    (s.removeObj id).getObj i = if i = id then none else s.getObj i := by
  unfold State.getObj State.removeObj
  rw [find?_filter]
  by_cases hi : i = id
  · simp [hi]
  · rw [if_neg hi]
    congr 1
    funext o
    by_cases ho : o.id = i <;> simp [ho, hi]

theorem getObj_cons (s : State K T) (o : FutexObj K T) (n i : Nat) :
    ({ s with objs := o :: s.objs, next := n } : State K T).getObj i =
      if i = o.id then some o else s.getObj i := by
  by_cases hi : i = o.id
  · rw [if_pos hi]
    exact find?_cons_of_pos (by simp [hi])
  · rw [if_neg hi]
    exact find?_cons_of_neg (by simpa only [decide_eq_true_eq] using fun heq => hi heq.symm)

/-- The object of a key is the one that has it. -/
theorem find_key_iff [DecidableEq K] (hwf : Wf s) (key : K) (o : FutexObj K T) :
    s.objs.find? (·.key = key) = some o ↔ s.getObj o.id = some o ∧ o.key = key := by
  constructor
  · intro h
    exact ⟨getObj_of_mem hwf (mem_of_find?_eq_some h), find_ident h⟩
  · rintro ⟨hget, rfl⟩
    exact find_of_mem hwf.keys (getObj_mem hget)

theorem map_modifyObj {α : Type} (s : State K T) (id : Nat) (f : FutexObj K T → FutexObj K T)
    (g : FutexObj K T → α) (hg : ∀ o, g (f o) = g o) :
    (s.modifyObj id f).objs.map g = s.objs.map g := by
  unfold State.modifyObj
  rw [map_map]
  refine map_congr_left fun o _ => ?_
  rw [Function.comp_apply]
  split
  · exact hg o
  · rfl

theorem wf_modifyObj (hwf : Wf s) (id : Nat) (f : FutexObj K T → FutexObj K T) (hf : Keeps f) :
    Wf (s.modifyObj id f) := by
  refine ⟨?_, ?_, ?_⟩
  · rw [map_modifyObj s id f _ (fun o => (hf o).1)]; exact hwf.ids
  · rw [map_modifyObj s id f _ (fun o => (hf o).2)]; exact hwf.keys
  · intro o ho
    have hid : o.id ∈ s.objs.map FutexObj.id := by
      rw [← map_modifyObj s id f _ (fun o => (hf o).1)]
      exact mem_map_of_mem ho
    rcases mem_map.mp hid with ⟨p, hp, hpid⟩
    rw [← hpid]
    exact hwf.bound p hp

theorem wf_removeObj (hwf : Wf s) (id : Nat) : Wf (s.removeObj id) :=
  ⟨hwf.ids.sublist (filter_sublist.map _), hwf.keys.sublist (filter_sublist.map _),
    fun o ho => hwf.bound o (mem_filter.mp ho).1⟩

/-- A new object under the next identity and a key that no object has. -/
theorem wf_cons [DecidableEq K] (hwf : Wf s) (o : FutexObj K T) (hid : o.id = s.next)
    (hkey : s.objs.find? (·.key = o.key) = none) :
    Wf { s with objs := o :: s.objs, next := s.next + 1 } := by
  refine ⟨?_, ?_, ?_⟩
  · refine nodup_cons.mpr ⟨fun hmem => ?_, hwf.ids⟩
    rcases mem_map.mp hmem with ⟨p, hp, hpid⟩
    have := hwf.bound p hp
    omega
  · refine nodup_cons.mpr ⟨fun hmem => ?_, hwf.keys⟩
    rcases mem_map.mp hmem with ⟨p, hp, hpkey⟩
    have := find?_eq_none.mp hkey p hp
    exact absurd hpkey (by simpa only [decide_eq_true_eq] using this)
  · intro p hp
    rcases mem_cons.mp hp with rfl | hp
    · rw [hid]; exact Nat.lt_succ_self _
    · exact Nat.lt_succ_of_lt (hwf.bound p hp)

/-- Everything but the table is as it was. -/
structure SameOutside (s s' : State K T) : Prop where
  mem : s'.mem = s.mem
  access : s'.access = s.access
  tasks : s'.tasks = s.tasks

theorem futexCas_some [DecidableEq K] {s' : State K T} {t : T} {key : K} {desired : BitVec 32}
    (h : futexCas s t key desired = some s') : s' = s.storeWord key desired := by
  unfold futexCas at h
  split at h
  · exact (Option.some.inj h).symm
  · cases h

theorem futexGetUnlocked_frame [DecidableEq K] (s : State K T) (key : K) (malloc : Bool) :
    SameOutside s (futexGetUnlocked s key malloc).1 := by
  unfold futexGetUnlocked
  cases s.objs.find? (·.key = key) with
  | some o => exact ⟨rfl, rfl, rfl⟩
  | none =>
    cases malloc with
    | true => exact ⟨rfl, rfl, rfl⟩
    | false => exact ⟨rfl, rfl, rfl⟩

/-- The object of a key that is in the table is the one that a get finds. -/
theorem futexGetUnlocked_of_getObj [DecidableEq K] (hwf : Wf s) (ho : s.getObj id = some o)
    (malloc : Bool) :
    futexGetUnlocked s o.key malloc =
      (s.modifyObj id (fun o => { o with refcount := o.refcount + 1 }), some id) := by
  have hid := getObj_id ho
  have hfind := (find_key_iff hwf o.key o).mpr ⟨by rw [hid]; exact ho, rfl⟩
  unfold futexGetUnlocked
  rw [hfind]
  simp only [hid]

/-- What a get finds has the key. -/
theorem futexGetUnlocked_key [DecidableEq K] {s' : State K T} (hwf : Wf s) {key : K}
    {malloc : Bool} (hget : futexGetUnlocked s key malloc = (s', some id)) :
    ∃ o, s'.getObj id = some o ∧ o.key = key := by
  unfold futexGetUnlocked at hget
  split at hget
  · next o hfind =>
    rcases (find_key_iff hwf key o).mp hfind with ⟨ho, hkey⟩
    simp only [Prod.mk.injEq, Option.some.injEq] at hget
    refine ⟨{ o with refcount := o.refcount + 1 }, ?_, hkey⟩
    have hgets := getObj_modifyObj s o.id o.id
      (fun o => { o with refcount := o.refcount + 1 }) fun _ => ⟨rfl, rfl⟩
    rw [← hget.1, ← hget.2, hgets, if_pos rfl, ho, Option.map_some]
  · split at hget
    · simp only [Prod.mk.injEq, Option.some.injEq] at hget
      rw [← hget.1, ← hget.2]
      exact ⟨_, (getObj_cons s _ _ _).trans (if_pos rfl), rfl⟩
    · cases hget

theorem futexPutUnlocked_frame [DecidableEq T] {s' : State K T}
    (h : futexPutUnlocked s id = some s') : SameOutside s s' := by
  unfold futexPutUnlocked at h
  cases ho : s.getObj id with
  | none =>
    rw [ho] at h
    cases h
  | some o =>
    rw [ho] at h
    simp only [] at h
    split at h
    · cases h
    · split at h
      · split at h
        · cases h; exact ⟨rfl, rfl, rfl⟩
        · cases h
      · cases h; exact ⟨rfl, rfl, rfl⟩

end IshAok.Futex
