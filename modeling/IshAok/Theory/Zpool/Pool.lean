import IshAok.Theory.Zpool.Slab
import Mathlib.Data.List.Perm.Subperm
import Mathlib.Data.List.ProdSigma

/-!
# The Invariant of a Pool

A pool is sound when three things hold at once. Every slab's free list is
sound. The slabs of a class that have a free entry, and no others, are on the
list of their class. And every object that is live sits in an entry of its own
that is on no free list, with its bytes in the entry's window.

Each call changes one slab, by replacing it in the table or by appending it.
`Replaced` says just that, and the parts of the invariant are carried across a
replacement one at a time: `lists_keep`, `lists_drop` and `lists_push` for the
slab lists, `heldIn_write` for the objects of the slab that was written.

The counters wrap at 64 bits, so that they are exact needs a bound on the
number of live objects. It comes from their slots: no slab has more than 64
entries, and different objects have different slots.

## Main definitions

* `Replaced`: Two tables differ in one slab.
* `Lists`: The slab lists of the classes are sound.
* `HeldIn`: An entry of a slab holds an object.
* `Objects`: The slabs are sound and hold the live objects.
* `Shape`: The sizes of the pool and of its table.
* `PoolInv`: All of these, with exact counters.

## Theorems

* `lists_keep`: A slab that stays on its list, or off it.
* `lists_drop`: The head of a list filled up.
* `lists_push`: A slab that gained its first free entry.
* `heldIn_write`: A write to another entry keeps an object.
* `live_length_le`: A bound on the number of live objects.
-/

namespace IshAok.Zpool

open Base List Function

/-- The tables agree everywhere but at `i`, where the second has `a`. -/
structure Replaced (slabs slabs' : List Slab) (i : Nat) (a : Slab) : Prop where
  here : slabs'[i]? = some a
  there : ∀ j, j ≠ i → slabs'[j]? = slabs[j]?

variable {slabs slabs' : List Slab} {i objectMax : Nat} {slab a : Slab} {head : Nat → Nat}
  {lists free : Nat → List Nat}

theorem replaced_set (h : slabs[i]? = some slab) (a : Slab) :
    Replaced slabs (slabs.set i a) i a := by
  rcases List.getElem?_eq_some_iff.mp h with ⟨hlt, _⟩
  exact ⟨getElem?_set_self hlt, fun j hj => getElem?_set_ne (Ne.symm hj)⟩

theorem replaced_append (slabs : List Slab) (a : Slab) :
    Replaced slabs (slabs ++ [a]) slabs.length a := by
  refine ⟨getElem?_concat_length, fun j hj => ?_⟩
  rcases Nat.lt_or_ge j slabs.length with hlt | hge
  · exact getElem?_append_left hlt
  · rw [getElem?_eq_none (by rw [length_append, length_singleton]; omega),
      getElem?_eq_none hge]

/-- What holds of the new slab and of the old ones holds of the new table. -/
theorem replaced_forall (hrep : Replaced slabs slabs' i a) (P : Nat → Slab → Prop) (hnew : P i a)
    (hold : ∀ j slab, j ≠ i → slabs[j]? = some slab → P j slab) :
    ∀ j slab, slabs'[j]? = some slab → P j slab := by
  intro j slab hj
  by_cases hji : j = i
  · subst hji
    rw [hrep.here, Option.some.injEq] at hj
    rw [← hj]
    exact hnew
  · exact hold j slab hji (by rw [← hrep.there j hji]; exact hj)

/-- A link of a slab list as the code reads it: an index plus one, or zero. -/
def slabLink (v : Nat) : Option Nat := if v = 0 then none else some (v - 1)

theorem slabLink_succ (i : Nat) : slabLink (i + 1) = some i := rfl

/-- The slab that comes after slab `i` on its list. -/
def nextSlab (slabs : List Slab) (i : Nat) : Option Nat :=
  slabs[i]?.bind fun slab => slabLink slab.nextPartial

theorem nextSlab_there (hrep : Replaced slabs slabs' i a) (j : Nat) (hj : j ≠ i) :
    nextSlab slabs' j = nextSlab slabs j := by
  unfold nextSlab
  rw [hrep.there j hj]

theorem nextSlab_here (hrep : Replaced slabs slabs' i a) :
    nextSlab slabs' i = slabLink a.nextPartial := by
  unfold nextSlab
  rw [hrep.here, Option.bind_some]

/-- A slab of class `c` with a free entry. -/
def HasRoom (c : Nat) (slab : Slab) : Prop := slab.classIndex = c ∧ slab.freeHead ≠ noEntry

/-- The list of each class spells out the slabs of the class with room. -/
structure Lists (slabs : List Slab) (head : Nat → Nat) (lists : Nat → List Nat) : Prop where
  chain : ∀ c, Threaded (nextSlab slabs) (slabLink (head c)) (lists c)
  nodup : ∀ c, (lists c).Nodup
  listed : ∀ c i, i ∈ lists c ↔ ∃ slab, slabs[i]? = some slab ∧ HasRoom c slab

/-- Membership in a replaced table, away from the slab and at it. -/
theorem listed_there (hrep : Replaced slabs slabs' i a) (c j : Nat) (hj : j ≠ i) :
    (∃ slab, slabs'[j]? = some slab ∧ HasRoom c slab) ↔
      ∃ slab, slabs[j]? = some slab ∧ HasRoom c slab := by
  rw [hrep.there j hj]

theorem listed_here (hrep : Replaced slabs slabs' i a) (c : Nat) :
    (∃ slab, slabs'[i]? = some slab ∧ HasRoom c slab) ↔ HasRoom c a := by
  rw [hrep.here]
  constructor
  · rintro ⟨slab, hslab, hroom⟩
    cases hslab
    exact hroom
  · intro hroom
    exact ⟨a, rfl, hroom⟩

/-- A slab that keeps its link and its place keeps every list. -/
theorem lists_keep (h : Lists slabs head lists) (hrep : Replaced slabs slabs' i a)
    (hi : slabs[i]? = some slab) (hnext : a.nextPartial = slab.nextPartial)
    (hroom : ∀ c, HasRoom c a ↔ HasRoom c slab) : Lists slabs' head lists := by
  refine ⟨fun c => threaded_congr (h.chain c) (fun j _ => ?_), h.nodup, fun c j => ?_⟩
  · by_cases hj : j = i
    · subst hj
      rw [nextSlab_here hrep, hnext]
      unfold nextSlab
      rw [hi, Option.bind_some]
    · exact nextSlab_there hrep j hj
  · rw [h.listed c j]
    by_cases hj : j = i
    · subst hj
      rw [listed_here hrep c, hroom c, hi]
      constructor
      · rintro ⟨x, hx, hxr⟩
        cases hx
        exact hxr
      · intro hr
        exact ⟨slab, rfl, hr⟩
    · exact (listed_there hrep c j hj).symm

/-- The head of a class's list filled up and was taken off. -/
theorem lists_drop (h : Lists slabs head lists) (hrep : Replaced slabs slabs' i a)
    (hi : slabs[i]? = some slab) (hhead : head slab.classIndex = i + 1)
    (hfull : a.freeHead = noEntry) :
    Lists slabs' (Function.update head slab.classIndex slab.nextPartial)
      (Function.update lists slab.classIndex (lists slab.classIndex).tail) := by
  have hchain := h.chain slab.classIndex
  rw [hhead, slabLink_succ] at hchain
  rcases threaded_pop hchain with ⟨rest, hlist, hrest⟩
  have hnext : nextSlab slabs i = slabLink slab.nextPartial := by
    unfold nextSlab
    rw [hi, Option.bind_some]
  rw [hnext] at hrest
  have hnodup := h.nodup slab.classIndex
  rw [hlist, nodup_cons] at hnodup
  -- The slab is on no other list, since it has one class.
  have honly : ∀ c, c ≠ slab.classIndex → i ∉ lists c := by
    intro c hc hmem
    rcases (h.listed c i).mp hmem with ⟨x, hx, hxc, _⟩
    rw [hi] at hx
    cases hx
    exact hc hxc.symm
  have hroom : ∀ c, ¬ HasRoom c a := fun c hr => hr.2 hfull
  refine ⟨fun c => ?_, fun c => ?_, fun c j => ?_⟩
  · by_cases hc : c = slab.classIndex
    · subst hc
      rw [update_self, update_self, hlist, tail_cons]
      refine threaded_congr hrest fun j hj => nextSlab_there hrep j ?_
      rintro rfl
      exact hnodup.1 hj
    · rw [update_of_ne hc, update_of_ne hc]
      refine threaded_congr (h.chain c) fun j hj => nextSlab_there hrep j ?_
      rintro rfl
      exact honly c hc hj
  · by_cases hc : c = slab.classIndex
    · subst hc
      rw [update_self, hlist]
      exact hnodup.2
    · rw [update_of_ne hc]
      exact h.nodup c
  · by_cases hj : j = i
    · subst hj
      rw [listed_here hrep c, iff_false_right (hroom c)]
      by_cases hc : c = slab.classIndex
      · subst hc
        rw [update_self, hlist]
        exact hnodup.1
      · rw [update_of_ne hc]
        exact honly c hc
    · rw [listed_there hrep c j hj, ← h.listed c j]
      by_cases hc : c = slab.classIndex
      · subst hc
        rw [update_self, hlist, tail_cons, mem_cons]
        exact ⟨.inr, fun hm => hm.resolve_left hj⟩
      · rw [update_of_ne hc]

/-- A slab on no list, which now has room, goes to the head of its class. -/
theorem lists_push (h : Lists slabs head lists) (hrep : Replaced slabs slabs' i a)
    (hout : ∀ c, i ∉ lists c) (hnext : a.nextPartial = head a.classIndex)
    (hroom : a.freeHead ≠ noEntry) :
    Lists slabs' (Function.update head a.classIndex (i + 1))
      (Function.update lists a.classIndex (i :: lists a.classIndex)) := by
  have hlinks : ∀ c, ∀ j ∈ lists c, nextSlab slabs' j = nextSlab slabs j := by
    intro c j hj
    refine nextSlab_there hrep j ?_
    rintro rfl
    exact hout c hj
  refine ⟨fun c => ?_, fun c => ?_, fun c j => ?_⟩
  · by_cases hc : c = a.classIndex
    · subst hc
      rw [update_self, update_self, slabLink_succ]
      refine threaded_push i (h.chain a.classIndex) ?_ (hlinks a.classIndex)
      rw [nextSlab_here hrep, hnext]
    · rw [update_of_ne hc, update_of_ne hc]
      exact threaded_congr (h.chain c) (hlinks c)
  · by_cases hc : c = a.classIndex
    · subst hc
      rw [update_self]
      exact nodup_cons.mpr ⟨hout a.classIndex, h.nodup a.classIndex⟩
    · rw [update_of_ne hc]
      exact h.nodup c
  · by_cases hc : c = a.classIndex
    · subst hc
      rw [update_self, mem_cons]
      by_cases hj : j = i
      · subst hj
        rw [listed_here hrep]
        exact iff_of_true (.inl rfl) ⟨rfl, hroom⟩
      · rw [listed_there hrep _ j hj, ← h.listed]
        exact ⟨fun hm => hm.resolve_left hj, .inr⟩
    · rw [update_of_ne hc]
      by_cases hj : j = i
      · subst hj
        rw [listed_here hrep]
        exact iff_of_false (hout c) fun hr => hc hr.1.symm
      · rw [listed_there hrep c j hj, ← h.listed]

/-- The entry a handle names holds the bytes, and is not free. -/
structure HeldIn (slab : Slab) (free : List Nat) (handle : Nat) (data : List UInt8) : Prop where
  size : handleSize handle = data.length
  pos : 0 < data.length
  fits : data.length ≤ classEntrySize slab.classIndex
  entry : handleEntry handle < slab.entries
  busy : handleEntry handle ∉ free
  bytes : readAt slab.mem (entryOffset slab (handleEntry handle)) data.length = some data

/-- The object is in the slab its handle names. -/
def Held (slabs : List Slab) (free : Nat → List Nat) (handle : Nat) (data : List UInt8) : Prop :=
  ∃ i slab, handleSlab handle = i + 1 ∧ slabs[i]? = some slab ∧ HeldIn slab (free i) handle data

/-- A write to the window of another entry keeps the object, as long as no
    entry but the written one became free. -/
theorem heldIn_write {fr fr' : List Nat} {handle e : Nat} {data cells : List UInt8}
    (h : HeldIn slab fr handle data)
    (hw : writeAt slab.mem (entryOffset slab e) cells = some a.mem)
    (hcells : cells.length ≤ classEntrySize slab.classIndex)
    (hclass : a.classIndex = slab.classIndex) (hentries : a.entries = slab.entries)
    (hne : handleEntry handle ≠ e) (hfree : ∀ x ∈ fr', x ∈ fr ∨ x = e) :
    HeldIn a fr' handle data := by
  refine ⟨h.size, h.pos, ?_, ?_, fun hmem => ?_, ?_⟩
  · rw [hclass]
    exact h.fits
  · rw [hentries]
    exact h.entry
  · rcases hfree _ hmem with hold | hnew
    · exact h.busy hold
    · exact hne hnew
  · have hapart := windows_apart (classEntrySize slab.classIndex) e (handleEntry handle)
      cells.length data.length (Ne.symm hne) hcells h.fits
    unfold entryOffset
    rw [hclass, readAt_writeAt_apart hw hapart]
    exact h.bytes

/-- An object of another slab is not affected by a replacement. -/
theorem held_there {fr : List Nat} {handle : Nat} {data : List UInt8}
    (hrep : Replaced slabs slabs' i a) (hne : handleSlab handle ≠ i + 1)
    (h : Held slabs free handle data) : Held slabs' (Function.update free i fr) handle data := by
  rcases h with ⟨j, slab, hj, hslab, hin⟩
  have hji : j ≠ i := by omega
  refine ⟨j, slab, hj, by rw [hrep.there j hji]; exact hslab, ?_⟩
  rw [update_of_ne hji]
  exact hin

/-- The place of an object: the slab and the entry its handle names. -/
def slot (o : Nat × List UInt8) : Nat × Nat := (handleSlab o.1, handleEntry o.1)

/-- The slabs are sound, and the live objects sit in places of their own. -/
structure Objects (objectMax : Nat) (slabs : List Slab) (live : Live)
    (free : Nat → List Nat) : Prop where
  sound : ∀ i slab, slabs[i]? = some slab → SlabOk objectMax slab (free i)
  slots : (live.map slot).Nodup
  held : ∀ o ∈ live, Held slabs free o.1 o.2

/-- The sizes of a pool and of its slab table. -/
structure Shape (pool : Pool) : Prop where
  max_pos : 0 < pool.objectMax
  max_le : pool.objectMax ≤ objectMaxBound
  max_granule : pool.objectMax % granule = 0
  table : pool.slabs.length = pool.slabCount
  room : pool.slabCount ≤ pool.slabCapacity
  /-- The table doubles from 16, and stops short of the width of its size. -/
  capacity : pool.slabCapacity = 0 ∨ ∃ k, 4 ≤ k ∧ k ≤ 31 ∧ pool.slabCapacity = 2 ^ k
  bytes : pool.stats.poolBytes = pool.slabCount * pool.objectMax
  cap : pool.maxBytes ≠ 0 → pool.stats.poolBytes ≤ pool.maxBytes

/-- The total length of the live objects. -/
def storedLength (live : Live) : Nat := (live.map fun o => o.2.length).sum

/-- A pool that holds exactly the given objects, with its ghost free lists and
    slab lists. -/
structure PoolInv (pool : Pool) (live : Live) (free lists : Nat → List Nat) : Prop where
  shape : Shape pool
  slabLists : Lists pool.slabs pool.partialHead lists
  objects : Objects pool.objectMax pool.slabs live free
  count : pool.stats.objects = live.length
  total : pool.stats.storedBytes = storedLength live

/-- A pool that holds exactly the given objects. -/
def Holds (pool : Pool) (live : Live) : Prop := ∃ free lists, PoolInv pool live free lists

theorem shape_count_le {pool : Pool} (h : Shape pool) : pool.slabCount ≤ 2 ^ 31 := by
  have hroom := h.room
  rcases h.capacity with hzero | ⟨k, _, hk, hcap⟩
  · omega
  · have := Nat.pow_le_pow_right (show 0 < 2 by omega) hk
    omega

theorem poolBytes_le {pool : Pool} (h : Shape pool) :
    pool.stats.poolBytes ≤ 2 ^ 31 * objectMaxBound := by
  rw [h.bytes]
  exact Nat.mul_le_mul (shape_count_le h) h.max_le

variable {live : Live}

/-- Distinct places in a table of small slabs are few. -/
theorem live_length_le (hmax : objectMax ≤ objectMaxBound)
    (h : Objects objectMax slabs live free) : live.length ≤ (slabs.length + 1) * 64 := by
  have hsub : live.map slot ⊆ (List.range (slabs.length + 1)) ×ˢ (List.range 64) := by
    intro p hp
    rcases mem_map.mp hp with ⟨o, ho, rfl⟩
    rcases h.held o ho with ⟨i, slab, hi, hslab, hin⟩
    rcases List.getElem?_eq_some_iff.mp hslab with ⟨hlt, _⟩
    have hentries := slabOk_entries_le (h.sound i slab hslab) hmax
    have hentry := hin.entry
    unfold slot
    rw [mem_product, mem_range, mem_range]
    omega
  have hlen := (h.slots.subperm hsub).length_le
  rw [length_map, length_product, length_range, length_range] at hlen
  exact hlen

/-- A stored object is no larger than a slab. -/
theorem held_length_le (h : Objects objectMax slabs live free) :
    ∀ o ∈ live, o.2.length ≤ objectMax := by
  intro o ho
  rcases h.held o ho with ⟨i, slab, _, hslab, hin⟩
  exact Nat.le_trans hin.fits (h.sound i slab hslab).fits

@[simp]
theorem storedLength_cons (o : Nat × List UInt8) (live : Live) :
    storedLength (o :: live) = o.2.length + storedLength live := by
  unfold storedLength
  rw [map_cons, sum_cons]

theorem storedLength_le (n : Nat) (live : Live) (h : ∀ o ∈ live, o.2.length ≤ n) :
    storedLength live ≤ live.length * n := by
  induction live with
  | nil => exact Nat.zero_le _
  | cons o live ih =>
    have hrest := ih fun x hx => h x (mem_cons_of_mem o hx)
    have hhead := h o mem_cons_self
    rw [storedLength_cons, length_cons, Nat.succ_mul]
    omega

/-- The counters of a sound pool are far from wrapping. -/
theorem counters_small (hmax : objectMax ≤ objectMaxBound)
    (hcount : slabs.length ≤ 2 ^ 31) (h : Objects objectMax slabs live free) :
    live.length < 2 ^ 64 ∧ storedLength live < 2 ^ 64 := by
  have hlen := live_length_le hmax h
  have hsum := storedLength_le objectMax live (held_length_le h)
  have hmul : live.length * objectMax ≤ live.length * 16384 := Nat.mul_le_mul_left _ hmax
  omega

/-- The handles of live objects are distinct, since their places are. -/
theorem handles_nodup (h : Objects objectMax slabs live free) : (live.map Prod.fst).Nodup := by
  have hslots := h.slots
  rw [show live.map slot = (live.map Prod.fst).map
    (fun handle => (handleSlab handle, handleEntry handle)) by rw [map_map]; rfl] at hslots
  exact Nodup.of_map _ hslots

end IshAok.Zpool
