import IshAok.Theory.Zpool.Pool

/-!
# The Pool is a Map from Handles to Bytes

What the pool is for can be said without slabs: it is a finite map from
handles to byte strings. A store adds an object under a handle no live object
has, a load reads an object back, and a free removes it.

Each call is described once, by what it does to the one slab it touches, and
the parts of the invariant are put together from that. A store may first have
to add a slab, and that is where the implementation stops being a map. The
size of the slab table is a 32-bit number that doubles. With `2 ^ 31` slabs
the doubled size wraps to zero, the table is reallocated to nothing, and every
live object is lost with it.

`RoomToGrow` is the condition that a store does not get there. Under it the
refinement holds in every run, whatever the host answers.

## Main definitions

* `takeEntry`, `giveEntry`: A slab after a store into it, and after a free.
* `RoomToGrow`: A store that needs a slab finds fewer than `2 ^ 31` of them.
* `RefinesMap`: The pool behaves as the map of its live objects.

## Theorems

* `growTable_spec`: Growing the table, short of the wrap.
* `slabNew_holds`: Adding a slab keeps every object.
* `storeIn_holds`: Storing into a slab with room adds one object.
* `zpoolStore_holds`: A store fails cleanly or adds one object.
* `zpoolLoad_live`: Loading a live object gives its bytes.
* `zpoolFree_holds`: Freeing a live object removes just it.
* `pool_refines_map`: The refinement, over whole runs.
* `grown_pool_loses_objects`: A run that loses a live object.
-/

namespace IshAok.Zpool

open Base List Function Option Nat

variable {pool : Pool} {free lists : Nat → List Nat} {objectMax idx : Nat} {slabs : List Slab}
  {data : List UInt8} {s : Sys}

/-- A table with fewer than `2 ^ 31` slabs either stays as it is or becomes a
    larger table with the same slabs. -/
theorem growTable_spec (h : Shape pool) (hfew : pool.slabCount < 2 ^ 31) (reallocOk : Bool) :
    (reallocOk = false ∧ growTable pool reallocOk = some (pool, false)) ∨
      ∃ cap, growTable pool reallocOk = some ({ pool with slabCapacity := cap }, true) ∧
        pool.slabCount < cap ∧ ∃ k, 4 ≤ k ∧ k ≤ 31 ∧ cap = 2 ^ k := by
  unfold growTable
  by_cases hfull : pool.slabCount = pool.slabCapacity
  · rw [if_pos hfull, if_neg (by rw [h.table]; omega)]
    -- The size asked for is a larger power of two, and does not wrap.
    obtain ⟨k, hlo, hhi, hwant⟩ : ∃ k, 4 ≤ k ∧ k ≤ 31 ∧
        (if pool.slabCapacity = 0 then 16 else pool.slabCapacity * 2 % 2 ^ 32) = 2 ^ k := by
      rcases h.capacity with hzero | ⟨k, hlo, hhi, hcap⟩
      · exact ⟨4, by omega, by omega, by rw [if_pos hzero]; rfl⟩
      · have hlt : 2 ^ k < 2 ^ 31 := by omega
        have hk : k < 31 := (Nat.pow_lt_pow_iff_right (by omega)).mp hlt
        refine ⟨k + 1, by omega, by omega, ?_⟩
        have hpos := Nat.two_pow_pos k
        rw [if_neg (by omega), hcap, ← Nat.pow_succ, mod_eq_of_lt]
        exact Nat.pow_lt_pow_right (by omega) (by omega)
    have hgrew : pool.slabCount < 2 ^ k := by
      rw [← hwant]
      split <;> omega
    simp only [hwant]
    cases reallocOk with
    | false =>
      left
      refine ⟨rfl, ?_⟩
      have hpos := Nat.two_pow_pos k
      rw [if_neg (by simp), if_neg (by omega)]
    | true =>
      right
      refine ⟨2 ^ k, ?_, hgrew, k, hlo, hhi, rfl⟩
      rw [if_pos rfl, take_of_length_le (by rw [h.table]; omega)]
  · right
    rw [if_neg hfull]
    have hroom := h.room
    refine ⟨pool.slabCapacity, rfl, by omega, ?_⟩
    rcases h.capacity with hzero | hpow
    · omega
    · exact hpow

variable {live : Live} {a slab : Slab}

/-- A larger table keeps the invariant. -/
theorem poolInv_grown {cap : Nat} (h : PoolInv pool live free lists)
    (hgrew : pool.slabCount < cap) (hcap : ∃ k, 4 ≤ k ∧ k ≤ 31 ∧ cap = 2 ^ k) :
    PoolInv { pool with slabCapacity := cap } live free lists :=
  ⟨⟨h.shape.max_pos, h.shape.max_le, h.shape.max_granule, h.shape.table, Nat.le_of_lt hgrew,
    .inr hcap, h.shape.bytes, h.shape.cap⟩, h.slabLists, h.objects, h.count, h.total⟩

/-- The slab that `addSlab` makes, and the pool with it. -/
theorem addSlab_spec (h : Shape pool) (c : Nat) (junk : Nat → UInt8)
    (hfits : classEntrySize c ≤ pool.objectMax) (hroom : pool.slabCount < pool.slabCapacity)
    (hfew : pool.slabCount < 2 ^ 31) :
    ∃ slab, slab.classIndex = c ∧ slab.freeHead = 0 ∧ slab.nextPartial = pool.partialHead c ∧
      SlabOk pool.objectMax slab (List.range' 0 slab.entries) ∧
      addSlab pool c (some junk) = some ({ pool with
          slabs := pool.slabs ++ [slab]
          slabCount := pool.slabCount + 1
          partialHead := Function.update pool.partialHead c (pool.slabCount + 1)
          stats := { pool.stats with
            poolBytes := pool.stats.poolBytes + pool.objectMax
            slabs := inc64 pool.stats.slabs } }, pool.slabCount) := by
  have hsmall := entries_le pool.objectMax c h.max_le
  have hentries : pool.objectMax / classEntrySize c % 2 ^ 16 =
      pool.objectMax / classEntrySize c := mod_eq_of_lt (by omega)
  have hlen : ((List.range pool.objectMax).map junk).length = pool.objectMax := by
    rw [length_map, length_range]
  have hsize := classEntrySize_ge c
  rcases threadEntries_spec (classEntrySize c) (pool.objectMax / classEntrySize c) (by omega)
    (by unfold noEntry; omega) (pool.objectMax / classEntrySize c) 0
    ((List.range pool.objectMax).map junk) (Nat.zero_add _)
    (by rw [hlen]; exact div_mul_le_self _ _) with ⟨mem, hrun, hmem, _, hlinks⟩
  refine ⟨⟨mem, c, pool.objectMax / classEntrySize c, 0, 0, pool.partialHead c⟩, rfl, rfl, rfl,
    ?_, ?_⟩
  · exact slabOk_fresh pool.objectMax _ hfits h.max_le rfl (by rw [hmem, hlen]) rfl
      (fun j hj => hlinks j (Nat.zero_le j) hj)
  · have hbytes := poolBytes_le h
    have hmax := h.max_le
    unfold objectMaxBound at hbytes hmax
    unfold addSlab
    simp only [hentries, if_pos hroom, hrun,
      mod_eq_of_lt (show pool.slabCount + 1 < 2 ^ 32 by omega),
      mod_eq_of_lt (show pool.stats.poolBytes + pool.objectMax < 2 ^ 64 by omega)]

/-- Appending a sound slab with all its entries free keeps every object. -/
theorem objects_append {fr : List Nat}
    (h : Objects objectMax slabs live free) (ha : SlabOk objectMax a fr) :
    Objects objectMax (slabs ++ [a]) live (Function.update free slabs.length fr) := by
  have hrep := replaced_append slabs a
  refine ⟨?_, h.slots, fun o ho => ?_⟩
  · refine replaced_forall hrep _ ?_ (fun j slab hj hslab => ?_)
    · rw [update_self]
      exact ha
    · rw [update_of_ne hj]
      exact h.sound j slab hslab
  · have hheld := h.held o ho
    refine held_there hrep ?_ hheld
    -- The objects are in slabs that were there before.
    rcases hheld with ⟨i, slab, hi, hslab, _⟩
    rcases List.getElem?_eq_some_iff.mp hslab with ⟨hlt, _⟩
    omega

/-- Adding a slab keeps every object, and a slab that was added heads the list
    of its class. -/
theorem slabNew_holds (h : Holds pool live) (c : Nat) (hfew : pool.slabCount < 2 ^ 31)
    (hfits : classEntrySize c ≤ pool.objectMax) (reallocOk : Bool) (junk : Option (Nat → UInt8)) :
    ∃ pool' idx, slabNew pool c reallocOk junk = some (pool', idx) ∧ Holds pool' live ∧
      pool'.objectMax = pool.objectMax ∧ pool'.maxBytes = pool.maxBytes ∧
      pool'.stats.stores = pool.stats.stores ∧
        (idx ≠ uint32Max → pool'.partialHead c = idx + 1) := by
  rcases h with ⟨free, lists, hinv⟩
  unfold slabNew
  by_cases hcapped : pool.maxBytes ≠ 0 ∧
      (pool.stats.poolBytes + pool.objectMax) % 2 ^ 64 > pool.maxBytes
  · rw [if_pos hcapped]
    exact ⟨pool, uint32Max, rfl, ⟨free, lists, hinv⟩, rfl, rfl, rfl, fun hne => absurd rfl hne⟩
  rw [if_neg hcapped]
  rcases growTable_spec hinv.shape hfew reallocOk with ⟨_, hno⟩ | ⟨cap, hgrow, hlt, hpow⟩
  · rw [hno]
    exact ⟨pool, uint32Max, rfl, ⟨free, lists, hinv⟩, rfl, rfl, rfl, fun hne => absurd rfl hne⟩
  rw [hgrow]
  have hinv₁ := poolInv_grown hinv hlt hpow
  cases junk with
  | none =>
    exact ⟨_, uint32Max, rfl, ⟨free, lists, hinv₁⟩, rfl, rfl, rfl, fun hne => absurd rfl hne⟩
  | some junk =>
    rcases addSlab_spec hinv₁.shape c junk hfits hlt hfew with
      ⟨slab, hclass, hhead, hnext, hok, hadd⟩
    have hbytes := poolBytes_le hinv.shape
    have hmax := hinv.shape.max_le
    unfold objectMaxBound at hbytes hmax
    rw [mod_eq_of_lt (by omega)] at hcapped
    refine ⟨_, _, hadd, ⟨Function.update free pool.slabs.length (List.range' 0 slab.entries),
      Function.update lists slab.classIndex (pool.slabs.length :: lists slab.classIndex),
      ?_, ?_, objects_append hinv.objects hok, hinv.count, hinv.total⟩, rfl, rfl, rfl,
      fun _ => ?_⟩
    · refine ⟨hinv.shape.max_pos, hinv.shape.max_le, hinv.shape.max_granule, ?_,
        succ_le_of_lt hlt, .inr hpow, ?_, fun hne => ?_⟩
      · rw [length_append, length_singleton, hinv.shape.table]
      · rw [succ_mul, ← hinv.shape.bytes]
      · exact Nat.le_of_not_lt fun hgt => hcapped ⟨hne, hgt⟩
    · -- The new index is past the table, so it is on no list yet.
      have hout : ∀ d, pool.slabs.length ∉ lists d := by
        intro d hmem
        rcases (hinv.slabLists.listed d _).mp hmem with ⟨x, hx, _⟩
        rw [getElem?_eq_none (Nat.le_refl _)] at hx
        cases hx
      have hpush := lists_push hinv.slabLists (replaced_append pool.slabs slab) hout
        (by rw [hnext, hclass]) (by rw [hhead]; unfold noEntry; omega)
      rw [hclass, hinv.shape.table] at hpush
      rw [hclass, hinv.shape.table]
      exact hpush
    · exact update_self _ _ _

/-- The slab after a store: its first entry is taken, and it leaves its list
    when `next` ends the chain. -/
def takeEntry (slab : Slab) (mem : List UInt8) (next : Nat) : Slab :=
  { slab with
    mem := mem
    freeHead := next
    used := (slab.used + 1) % 2 ^ 16
    nextPartial := if next = noEntry then 0 else slab.nextPartial }

/-- Popping the head of the class's first slab, and taking the slab off the
    list when that was its last free entry. -/
theorem storeIn_eq {next : Nat} {mem : List UInt8}
    (hslab : pool.slabs[idx]? = some slab) (hhead : pool.partialHead slab.classIndex = idx + 1)
    (hnext : getU16 slab.mem (entryOffset slab slab.freeHead) = some next)
    (hw : writeAt slab.mem (entryOffset slab slab.freeHead) data = some mem) :
    storeIn pool idx data = some ({ pool with
        slabs := pool.slabs.set idx (takeEntry slab mem next)
        partialHead :=
          if next = noEntry then Function.update pool.partialHead slab.classIndex slab.nextPartial
          else pool.partialHead
        stats := { pool.stats with
          objects := inc64 pool.stats.objects
          storedBytes := (pool.stats.storedBytes + data.length) % 2 ^ 64
          stores := inc64 pool.stats.stores } },
        encodeHandle idx slab.freeHead data.length) := by
  rcases List.getElem?_eq_some_iff.mp hslab with ⟨hlt, _⟩
  have hset : ∀ x : Slab, (pool.slabs.set idx x)[idx]? = some x :=
    fun x => getElem?_set_self hlt
  unfold entryOffset at hnext hw
  unfold storeIn
  by_cases hlast : next = noEntry
  · subst hlast
    -- The slab heads its list, so the cursor stops at once.
    simp only [hslab, hnext, hw, hhead, hset, takeEntry, setSlab, partialRemove, unlinkFrom,
      getLink, setLink, entryOffset, set_set, bind_eq_bind, bind_some, if_true,
      Nat.add_sub_cancel, succ_ne_zero, if_false]
  · simp [hslab, hnext, hw, hset, takeEntry, setSlab, entryOffset, if_neg hlast]

/-- A class with a list has a slab with a free entry at its head. -/
theorem lists_head {head : Nat → Nat} {c : Nat} (h : Lists slabs head lists)
    (hhead : head c = idx + 1) : ∃ slab, slabs[idx]? = some slab ∧ HasRoom c slab := by
  have hchain := h.chain c
  rw [hhead, slabLink_succ] at hchain
  rcases threaded_pop hchain with ⟨rest, hlist, _⟩
  exact (h.listed c idx).mp (by rw [hlist]; exact mem_cons_self)

/-- Storing into a free entry adds an object and keeps the others. -/
theorem objects_store {next : Nat} {rest : List Nat} (h : Objects objectMax slabs live free)
    (hslab : slabs[idx]? = some slab) (hfree : free idx = slab.freeHead :: rest)
    (hrest : Threaded (nextFree slab) (entryLink next) rest)
    (hw : writeAt slab.mem (entryOffset slab slab.freeHead) data = some a.mem)
    (hpos : 0 < data.length) (hfits : data.length ≤ classEntrySize slab.classIndex)
    (hclass : a.classIndex = slab.classIndex) (hentries : a.entries = slab.entries)
    (hnext : a.freeHead = next) (handle : Nat) (hidx : handleSlab handle = idx + 1)
    (hentry : handleEntry handle = slab.freeHead) (hsize : handleSize handle = data.length) :
    Objects objectMax (slabs.set idx a) ((handle, data) :: live)
      (Function.update free idx rest) := by
  have hok := h.sound idx slab hslab
  rw [hfree] at hok
  have hrep := replaced_set hslab a
  have hnodup := nodup_cons.mp hok.nodup
  -- A live object of this slab is in another entry: the head of the list is free.
  have hother : ∀ o ∈ live, handleSlab o.1 = idx + 1 →
      HeldIn slab (slab.freeHead :: rest) o.1 o.2 ∧ handleEntry o.1 ≠ slab.freeHead := by
    intro o ho hsame
    rcases h.held o ho with ⟨i, x, hi, hx, hin⟩
    have hi' : i = idx := by omega
    subst hi'
    rw [hslab, some.injEq] at hx
    subst hx
    rw [hfree] at hin
    refine ⟨hin, fun heq => hin.busy ?_⟩
    rw [heq]
    exact mem_cons_self
  refine ⟨?_, ?_, fun o ho => ?_⟩
  · refine replaced_forall hrep _ ?_ (fun j x hj hx => ?_)
    · rw [update_self]
      exact slabOk_pop hok hrest hw hfits hclass hentries hnext
    · rw [update_of_ne hj]
      exact h.sound j x hx
  · rw [map_cons, nodup_cons]
    refine ⟨fun hmem => ?_, h.slots⟩
    rcases mem_map.mp hmem with ⟨o, ho, heq⟩
    unfold slot at heq
    rw [Prod.mk.injEq, hidx, hentry] at heq
    exact (hother o ho heq.1).2 heq.2
  · rcases mem_cons.mp ho with rfl | hold
    -- The new object.
    · refine ⟨idx, a, hidx, hrep.here, ?_⟩
      rw [update_self]
      refine ⟨hsize, hpos, by rw [hclass]; exact hfits, ?_, ?_, ?_⟩
      · rw [hentry, hentries]
        exact hok.bounded _ mem_cons_self
      · rw [hentry]
        exact hnodup.1
      · rw [hentry]
        unfold entryOffset
        rw [hclass]
        exact readAt_writeAt_same hw
    -- An object that was there before.
    · by_cases hsame : handleSlab o.1 = idx + 1
      · rcases hother o hold hsame with ⟨hin, hne⟩
        refine ⟨idx, a, hsame, hrep.here, ?_⟩
        rw [update_self]
        exact heldIn_write hin hw hfits hclass hentries hne
          (fun x hx => .inl (mem_cons_of_mem _ hx))
      · exact held_there hrep hsame (h.held o hold)

/-- A call that leaves the sizes of the pool alone keeps its shape. -/
theorem shape_congr {pool' : Pool} (h : Shape pool) (hmax : pool'.objectMax = pool.objectMax)
    (hlen : pool'.slabs.length = pool.slabs.length) (hcount : pool'.slabCount = pool.slabCount)
    (hcap : pool'.slabCapacity = pool.slabCapacity)
    (hbytes : pool'.stats.poolBytes = pool.stats.poolBytes)
    (hceil : pool'.maxBytes = pool.maxBytes) : Shape pool' := by
  refine ⟨?_, ?_, ?_, ?_, ?_, ?_, ?_, ?_⟩
  · rw [hmax]; exact h.max_pos
  · rw [hmax]; exact h.max_le
  · rw [hmax]; exact h.max_granule
  · rw [hlen, hcount]; exact h.table
  · rw [hcount, hcap]; exact h.room
  · rw [hcap]; exact h.capacity
  · rw [hbytes, hcount, hmax]; exact h.bytes
  · rw [hbytes, hceil]; exact h.cap

/-- Storing into the first slab of the class adds one object, under a handle
    that no live object has. -/
theorem storeIn_holds {c : Nat} (h : Holds pool live)
    (hhead : pool.partialHead c = idx + 1) (hpos : 0 < data.length)
    (hlt : data.length < pool.objectMax) (hfits : data.length ≤ classEntrySize c) :
    ∃ pool' handle, storeIn pool idx data = some (pool', handle) ∧ handle ≠ handleNone ∧
      handle ∉ live.map Prod.fst ∧ Holds pool' ((handle, data) :: live) ∧
      pool'.maxBytes = pool.maxBytes := by
  rcases h with ⟨free, lists, hinv⟩
  rcases lists_head hinv.slabLists hhead with ⟨slab, hslab, rfl, hroom⟩
  have hok := hinv.objects.sound idx slab hslab
  rcases slabOk_head hok hroom with ⟨rest, next, hfree, hbound, hnext, _, hrest⟩
  rcases writeAt_of_le slab.mem _ data (entry_window hok slab.freeHead _ hbound hfits) with
    ⟨mem, hw⟩
  have hstore := storeIn_eq hslab hhead hnext hw
  -- The parts of the handle fit their fields.
  have hmax := hinv.shape.max_le
  have hentries := slabOk_entries_le hok hmax
  have hcount := shape_count_le hinv.shape
  rcases List.getElem?_eq_some_iff.mp hslab with ⟨hidx, _⟩
  rw [hinv.shape.table] at hidx
  unfold objectMaxBound at hmax
  rcases handle_parts idx slab.freeHead data.length (by omega) (by omega) (by omega) with
    ⟨hpart₁, hpart₂, hpart₃⟩
  generalize encodeHandle idx slab.freeHead data.length = handle at *
  have hobj := objects_store (a := takeEntry slab mem next) hinv.objects hslab hfree hrest hw
    hpos hfits rfl rfl rfl handle hpart₁ hpart₂ hpart₃
  have hsmall := counters_small hinv.shape.max_le
    (by rw [length_set, hinv.shape.table]; exact hcount) hobj
  simp only [storedLength_cons, length_cons] at hsmall
  refine ⟨_, handle, hstore, ne_handleNone hpart₁, ?_, ⟨Function.update free idx rest,
    if next = noEntry then
      Function.update lists slab.classIndex (lists slab.classIndex).tail
    else lists, shape_congr hinv.shape rfl (length_set ..) rfl rfl rfl rfl, ?_, hobj, ?_, ?_⟩,
    rfl⟩
  · have hkeys := handles_nodup hobj
    rw [map_cons, nodup_cons] at hkeys
    exact hkeys.1
  · by_cases hlast : next = noEntry
    · simp only [if_pos hlast]
      exact lists_drop hinv.slabLists (replaced_set hslab _) hslab hhead hlast
    simp only [if_neg hlast]
    refine lists_keep hinv.slabLists (replaced_set hslab _) hslab (if_neg hlast) fun d => ?_
    exact and_congr_right fun _ => iff_of_true hlast hroom
  · show inc64 pool.stats.objects = _
    unfold inc64
    rw [hinv.count, length_cons]
    omega
  · simp only [hinv.total, storedLength_cons]
    omega

/-- A class's entries have room for its objects and fit in a slab. -/
theorem sizeClass_fits (objectMax size : Nat) (hpos : 0 < size) (hlt : size < objectMax)
    (hmax : objectMax ≤ objectMaxBound) (hgranule : objectMax % granule = 0) :
    size ≤ classEntrySize (sizeClass size) ∧ classEntrySize (sizeClass size) ≤ objectMax := by
  unfold objectMaxBound at hmax
  unfold granule at hgranule
  unfold classEntrySize sizeClass granule
  omega

theorem failStore_holds (h : Holds pool live) : Holds (failStore pool) live := by
  rcases h with ⟨free, lists, hinv⟩
  exact ⟨free, lists, shape_congr hinv.shape rfl rfl rfl rfl rfl rfl, hinv.slabLists,
    hinv.objects, hinv.count, hinv.total⟩

/-- A store of an object of this size does not have to add a slab to a pool
    that has `2 ^ 31` of them. -/
def RoomToGrow (pool : Pool) (size : Nat) : Prop :=
  pool.partialHead (sizeClass size) = 0 → pool.slabCount < 2 ^ 31

/-- A store completes. It fails and the objects stay, or it adds one object
    under a handle that no live object has. -/
theorem zpoolStore_holds (h : Holds pool live) (data : List UInt8)
    (hroom : RoomToGrow pool data.length) (reallocOk : Bool) (junk : Option (Nat → UInt8)) :
    ∃ pool' handle, zpoolStore pool data reallocOk junk = some (pool', handle) ∧
      Holds pool' (record live handle data) ∧ pool'.maxBytes = pool.maxBytes ∧
      ((handle = handleNone ∧ pool'.stats.stores = pool.stats.stores) ∨
        (handle ≠ handleNone ∧ handle ∉ live.map Prod.fst)) := by
  have hfailed : ∀ p, Holds p live → Holds (failStore p) (record live handleNone data) := by
    intro p hp
    unfold record
    exact failStore_holds hp
  unfold zpoolStore
  by_cases hrefused : data.length = 0 ∨ data.length ≥ pool.objectMax
  · rw [if_pos hrefused]
    exact ⟨_, _, rfl, hfailed pool h, rfl, .inl ⟨rfl, rfl⟩⟩
  rw [if_neg hrefused]
  rcases h with ⟨free, lists, hinv⟩
  rcases sizeClass_fits pool.objectMax data.length (by omega) (by omega) hinv.shape.max_le
    hinv.shape.max_granule with ⟨hdata, hfits⟩
  by_cases hlist : pool.partialHead (sizeClass data.length) ≠ 0
  -- The class has a slab with room.
  · rw [if_pos hlist]
    have hhead : pool.partialHead (sizeClass data.length) =
        (pool.partialHead (sizeClass data.length) - 1) + 1 := by omega
    rcases storeIn_holds ⟨free, lists, hinv⟩ hhead (by omega) (by omega) hdata with
      ⟨pool', handle, hrun, hne, hfresh, hholds, hceil⟩
    refine ⟨pool', handle, hrun, ?_, hceil, .inr ⟨hne, hfresh⟩⟩
    unfold record
    rw [if_neg hne]
    exact hholds
  -- It has none, and a slab has to be added.
  · rw [if_neg hlist]
    rcases slabNew_holds ⟨free, lists, hinv⟩ (sizeClass data.length)
      (hroom (Decidable.not_not.mp hlist)) hfits reallocOk junk with
      ⟨pool₁, i, hnew, hholds₁, hmax₁, hceil₁, hstores₁, hhead⟩
    rw [hnew]
    by_cases hfull : i = uint32Max
    · simp only [if_pos hfull]
      exact ⟨_, _, rfl, hfailed pool₁ hholds₁, hceil₁, .inl ⟨rfl, hstores₁⟩⟩
    simp only [if_neg hfull]
    rcases storeIn_holds hholds₁ (hhead hfull) (by omega) (by omega) hdata with
      ⟨pool', handle, hrun, hne, hfresh, hholds, hceil⟩
    refine ⟨pool', handle, hrun, ?_, by rw [hceil, hceil₁], .inr ⟨hne, hfresh⟩⟩
    unfold record
    rw [if_neg hne]
    exact hholds

/-- A live handle decodes to the entry that holds its object. -/
theorem handleDecode_live (hinv : PoolInv pool live free lists)
    (o : Nat × List UInt8) (ho : o ∈ live) :
    ∃ d, handleDecode pool o.1 = some (some d) ∧ pool.slabs[d.idx]? = some d.slab ∧
      HeldIn d.slab (free d.idx) o.1 o.2 ∧ handleSlab o.1 = d.idx + 1 ∧
      d.entry = handleEntry o.1 ∧ d.size = o.2.length := by
  rcases hinv.objects.held o ho with ⟨i, slab, hi, hslab, hin⟩
  rcases List.getElem?_eq_some_iff.mp hslab with ⟨hlt, _⟩
  rw [hinv.shape.table] at hlt
  have hpos := hin.pos
  have hsize := hin.size
  have hentry := hin.entry
  have hfits := hin.fits
  refine ⟨⟨i, slab, handleEntry o.1, handleSize o.1⟩, ?_, hslab, hin, hi, rfl, hsize⟩
  unfold handleDecode
  rw [if_neg (ne_handleNone hi), if_neg (by omega), hi, Nat.add_sub_cancel, hslab]
  simp only
  rw [if_neg (by omega), if_neg (by omega)]

/-- Loading a live object into a buffer with room for it gives its bytes. -/
theorem zpoolLoad_live (h : Holds pool live) (o : Nat × List UInt8) (ho : o ∈ live)
    (outSize : Nat) (hbuf : o.2.length ≤ outSize) :
    ∃ pool', zpoolLoad pool o.1 outSize = some (pool', some o.2) := by
  rcases h with ⟨free, lists, hinv⟩
  rcases handleDecode_live hinv o ho with ⟨d, hdec, _, hin, _, hentry, hsize⟩
  have hbytes := hin.bytes
  rw [← hentry, ← hsize] at hbytes
  unfold zpoolLoad
  rw [hdec]
  simp only [if_neg (show ¬ outSize < d.size by omega), hbytes]
  exact ⟨_, rfl⟩

/-- A load changes nothing but its own counter. -/
theorem zpoolLoad_holds {pool' : Pool} {handle outSize : Nat} {result : Option (List UInt8)}
    (h : Holds pool live) (hload : zpoolLoad pool handle outSize = some (pool', result)) :
    Holds pool' live ∧ pool'.maxBytes = pool.maxBytes := by
  unfold zpoolLoad at hload
  split at hload
  · cases hload
  · cases hload
    exact ⟨h, rfl⟩
  · split at hload
    · cases hload
      exact ⟨h, rfl⟩
    split at hload
    · cases hload
    cases hload
    rcases h with ⟨free, lists, hinv⟩
    exact ⟨⟨free, lists, shape_congr hinv.shape rfl rfl rfl rfl rfl rfl, hinv.slabLists,
      hinv.objects, hinv.count, hinv.total⟩, rfl⟩

/-- Removing one of several objects with distinct handles. -/
theorem release_counts (live : Live) (hkeys : (live.map Prod.fst).Nodup)
    (o : Nat × List UInt8) (ho : o ∈ live) :
    (live.filter (fun x => x.1 ≠ o.1)).length + 1 = live.length ∧
      storedLength (live.filter (fun x => x.1 ≠ o.1)) + o.2.length = storedLength live := by
  induction live with
  | nil => cases ho
  | cons x live ih =>
    rw [map_cons, nodup_cons] at hkeys
    rcases mem_cons.mp ho with rfl | hrest
    -- The object itself goes, and no other has its handle.
    · have hall : live.filter (fun x => x.1 ≠ o.1) = live := by
        rw [filter_eq_self]
        intro y hy
        rw [decide_eq_true_eq]
        intro heq
        exact hkeys.1 (mem_map.mpr ⟨y, hy, heq⟩)
      rw [filter_cons_of_neg (by simp), hall, length_cons, storedLength_cons]
      omega
    · have hne : x.1 ≠ o.1 := by
        intro heq
        exact hkeys.1 (mem_map.mpr ⟨o, hrest, heq.symm⟩)
      rcases ih hkeys.2 hrest with ⟨hlen, hsum⟩
      rw [filter_cons_of_pos (by rw [decide_eq_true_eq]; exact hne), length_cons,
        length_cons, storedLength_cons, storedLength_cons]
      omega

/-- Freeing an object's entry keeps the other objects. -/
theorem objects_free {o : Nat × List UInt8}
    (hmax : objectMax ≤ objectMaxBound) (h : Objects objectMax slabs live free) (ho : o ∈ live)
    (hslab : slabs[idx]? = some slab) (hin : HeldIn slab (free idx) o.1 o.2)
    (hidx : handleSlab o.1 = idx + 1)
    (hw : writeAt slab.mem (entryOffset slab (handleEntry o.1)) (putU16 slab.freeHead) =
      some a.mem) (hclass : a.classIndex = slab.classIndex) (hentries : a.entries = slab.entries)
    (hhead : a.freeHead = handleEntry o.1) :
    Objects objectMax (slabs.set idx a) (live.filter (fun x => x.1 ≠ o.1))
      (Function.update free idx (handleEntry o.1 :: free idx)) := by
  have hok := h.sound idx slab hslab
  have hrep := replaced_set hslab a
  refine ⟨?_, h.slots.sublist (filter_sublist.map slot), fun x hx => ?_⟩
  · refine replaced_forall hrep _ ?_ (fun j y hj hy => ?_)
    · rw [update_self]
      exact slabOk_push hok hmax hin.entry hin.busy hw hclass hentries hhead
    · rw [update_of_ne hj]
      exact h.sound j y hy
  · rcases mem_filter.mp hx with ⟨hlive, hne⟩
    rw [decide_eq_true_eq] at hne
    by_cases hsame : handleSlab x.1 = idx + 1
    · -- Another object of the slab has a place of its own.
      have hentry : handleEntry x.1 ≠ handleEntry o.1 := by
        intro heq
        have hslot : slot x = slot o := by
          unfold slot
          rw [hsame, hidx, heq]
        exact hne (congrArg Prod.fst (inj_on_of_nodup_map h.slots hlive ho hslot))
      rcases h.held x hlive with ⟨i, y, hi, hy, hyin⟩
      have hi' : i = idx := by omega
      subst hi'
      rw [hslab, some.injEq] at hy
      subst hy
      refine ⟨i, a, hsame, hrep.here, ?_⟩
      rw [update_self]
      refine heldIn_write hyin hw ?_ hclass hentries hentry fun z hz => ?_
      · rw [putU16_length]
        have := classEntrySize_ge slab.classIndex
        omega
      · exact (mem_cons.mp hz).symm
    · exact held_there hrep hsame (h.held x hlive)

/-- The slab after an entry came back. -/
def giveEntry (slab : Slab) (mem : List UInt8) (used entry link : Nat) : Slab :=
  { slab with mem := mem, freeHead := entry, used := used, nextPartial := link }

/-- A counter that is large enough goes down without wrapping. -/
theorem sub64_eq (x d y : Nat) (h : y + d = x) (hx : x < 2 ^ 64) : sub64 x d = y := by
  unfold sub64
  omega

/-- The counters of a free are not the size of the pool. The new values are
    variables here so that they are never compared with the old ones. -/
theorem poolBytes_free (stats : Stats) (x y z : Nat) :
    ({ stats with objects := x, storedBytes := y, frees := z } : Stats).poolBytes =
      stats.poolBytes := rfl

/-- Freeing a live object removes just that object. -/
theorem zpoolFree_holds (h : Holds pool live) (o : Nat × List UInt8) (ho : o ∈ live) :
    ∃ pool', zpoolFree pool o.1 = some pool' ∧
      Holds pool' (live.filter (fun x => x.1 ≠ o.1)) ∧ pool'.maxBytes = pool.maxBytes := by
  rcases h with ⟨free, lists, hinv⟩
  rcases handleDecode_live hinv o ho with ⟨⟨idx, slab, e, n⟩, hdec, hslab, hin, hidx, rfl, rfl⟩
  simp only at hslab hin hidx
  have hok := hinv.objects.sound idx slab hslab
  have hsize := classEntrySize_ge slab.classIndex
  rcases writeAt_of_le slab.mem _ (putU16 slab.freeHead)
    (entry_window hok (handleEntry o.1) 2 hin.entry (by omega)) with ⟨mem, hw⟩
  rcases List.getElem?_eq_some_iff.mp hslab with ⟨hlt, _⟩
  have hcount := shape_count_le hinv.shape
  rw [hinv.shape.table] at hlt
  -- The counters are exact before, so they do not wrap on the way down.
  have hsmall := counters_small hinv.shape.max_le (by rw [hinv.shape.table]; exact hcount)
    hinv.objects
  have hgone := release_counts live (handles_nodup hinv.objects) o ho
  have hentries := slabOk_entries_le hok hinv.shape.max_le
  have hentry := hin.entry
  have hobjects : sub64 pool.stats.objects 1 = (live.filter (fun x => x.1 ≠ o.1)).length :=
    sub64_eq _ _ _ (by rw [hinv.count]; exact hgone.1) (by rw [hinv.count]; exact hsmall.1)
  have htotal : sub64 pool.stats.storedBytes o.2.length =
      storedLength (live.filter (fun x => x.1 ≠ o.1)) :=
    sub64_eq _ _ _ (by rw [hinv.total]; exact hgone.2) (by rw [hinv.total]; exact hsmall.2)
  have hobj : ∀ used link, Objects pool.objectMax
      (pool.slabs.set idx (giveEntry slab mem used (handleEntry o.1) link))
      (live.filter (fun x => x.1 ≠ o.1))
      (Function.update free idx (handleEntry o.1 :: free idx)) := fun _ _ =>
    objects_free hinv.shape.max_le hinv.objects ho hslab hin hidx hw rfl rfl rfl
  have hroom : handleEntry o.1 ≠ noEntry := by
    unfold noEntry
    omega
  unfold zpoolFree
  rw [hdec]
  simp only [hw, relist, setSlab]
  by_cases hfull : slab.freeHead = noEntry
  -- A slab that was full goes back on the list of its class.
  · rw [if_pos (by rw [decide_eq_true_eq]; exact hfull)]
    refine ⟨_, rfl, ⟨_, Function.update lists slab.classIndex (idx :: lists slab.classIndex),
      shape_congr hinv.shape rfl (length_set ..) rfl rfl (poolBytes_free ..) rfl, ?_,
      hobj _ (pool.partialHead slab.classIndex), hobjects, htotal⟩, rfl⟩
    have hout : ∀ c, idx ∉ lists c := by
      intro c hmem
      rcases (hinv.slabLists.listed c idx).mp hmem with ⟨y, hy, _, hyroom⟩
      rw [hslab] at hy
      cases hy
      exact hyroom hfull
    simp only [mod_eq_of_lt (show idx + 1 < 2 ^ 32 by omega)]
    exact lists_push
      (a := giveEntry slab mem _ (handleEntry o.1) (pool.partialHead slab.classIndex))
      hinv.slabLists (replaced_set hslab _) hout rfl hroom
  · rw [if_neg (by rw [decide_eq_true_eq]; exact hfull)]
    refine ⟨_, rfl,
      ⟨_, lists, shape_congr hinv.shape rfl (length_set ..) rfl rfl (poolBytes_free ..) rfl,
      ?_, hobj _ slab.nextPartial, hobjects, htotal⟩, rfl⟩
    refine lists_keep hinv.slabLists (replaced_set hslab _) hslab rfl fun c => ?_
    exact and_congr_right fun _ => iff_of_true hroom hfull

/-- A new pool holds nothing. -/
theorem zpoolCreate_holds {maxBytes : Nat} {callocOk : Bool}
    (h : zpoolCreate maxBytes objectMax callocOk = some pool) :
    Holds pool [] ∧ pool.maxBytes = maxBytes := by
  unfold zpoolCreate at h
  split at h
  · cases h
  rename_i hok
  split at h
  · cases h
    refine ⟨⟨fun _ => [], fun _ => [], ?_, ?_, ?_, rfl, rfl⟩, rfl⟩
    · exact ⟨by simp only; omega, by simp only; omega, by simp only; omega, rfl, Nat.le_refl 0,
        .inl rfl, (Nat.zero_mul _).symm, fun _ => Nat.zero_le _⟩
    · refine ⟨fun _ => rfl, fun _ => nodup_nil, fun c i => ?_⟩
      simp [exists_false]
    · refine ⟨fun i slab hslab => ?_, nodup_nil, fun o ho => ?_⟩
      · cases hslab
      · cases ho
  · cases h

/-- The pool behaves as the finite map of its live objects: what the next call
    does, and what the statistics say. -/
structure RefinesMap (maxBytes : Nat) (s : Sys) : Prop where
  handles : (s.live.map Prod.fst).Nodup
  /-- A store that is counted as one returns a handle that is not zero and that
      no live object has. -/
  store : ∀ data reallocOk junk, RoomToGrow s.pool data.length →
    ∃ pool handle, zpoolStore s.pool data reallocOk junk = some (pool, handle) ∧
      ((handle = handleNone ∧ pool.stats.stores = s.pool.stats.stores) ∨
        (handle ≠ handleNone ∧ handle ∉ s.live.map Prod.fst))
  load : ∀ o ∈ s.live, ∀ outSize, o.2.length ≤ outSize →
    ∃ pool, zpoolLoad s.pool o.1 outSize = some (pool, some o.2)
  free : ∀ o ∈ s.live, ∃ pool, zpoolFree s.pool o.1 = some pool
  objects : s.pool.stats.objects = s.live.length
  storedBytes : s.pool.stats.storedBytes = storedLength s.live
  poolBytes : maxBytes ≠ 0 → s.pool.stats.poolBytes ≤ maxBytes

/-- What one call keeps, when it frees a live object or none and does not have
    to grow a table of `2 ^ 31` slabs. -/
theorem poolStep_holds {t : Sys} {op : Op} (h : Holds s.pool s.live) (hstep : PoolStep s op t)
    (hlive : ∀ handle, op = .free handle → handle ∈ s.live.map Prod.fst)
    (hroom : ∀ data reallocOk junk, op = .store data reallocOk junk →
      RoomToGrow s.pool data.length) : Holds t.pool t.live ∧ t.pool.maxBytes = s.pool.maxBytes := by
  cases hstep with
  | store data reallocOk junk pool handle hcall =>
    rcases zpoolStore_holds h data (hroom data reallocOk junk rfl) reallocOk junk with
      ⟨pool', handle', hrun, hholds, hceil, _⟩
    rw [hcall, some.injEq, Prod.mk.injEq] at hrun
    rw [← hrun.1, ← hrun.2] at hholds
    rw [← hrun.1] at hceil
    exact ⟨hholds, hceil⟩
  | load handle outSize pool result hcall => exact zpoolLoad_holds h hcall
  | free handle pool hcall =>
    rcases mem_map.mp (hlive handle rfl) with ⟨o, ho, rfl⟩
    rcases zpoolFree_holds h o ho with ⟨pool', hrun, hholds, hceil⟩
    rw [hcall, some.injEq] at hrun
    rw [← hrun] at hholds hceil
    exact ⟨hholds, hceil⟩

theorem refinesMap_of_holds (h : Holds s.pool s.live) : RefinesMap s.pool.maxBytes s := by
  refine ⟨?_, fun data reallocOk junk hroom => ?_, zpoolLoad_live h, fun o ho => ?_, ?_, ?_, ?_⟩
  · rcases h with ⟨_, _, hinv⟩
    exact handles_nodup hinv.objects
  · rcases zpoolStore_holds h data hroom reallocOk junk with ⟨pool, handle, hrun, _, _, hres⟩
    exact ⟨pool, handle, hrun, hres⟩
  · rcases zpoolFree_holds h o ho with ⟨pool, hrun, _⟩
    exact ⟨pool, hrun⟩
  · rcases h with ⟨_, _, hinv⟩
    exact hinv.count
  · rcases h with ⟨_, _, hinv⟩
    exact hinv.total
  · rcases h with ⟨_, _, hinv⟩
    exact hinv.shape.cap

/-- In every run that frees live objects only and never has to grow a table of
    `2 ^ 31` slabs, the pool is the map of what was stored and not freed. -/
theorem pool_refines_map {maxBytes objectMax : Nat} {callocOk : Bool} {pool : Pool} {s : Sys}
    {tr : List (Sys × Op)} (hcreate : zpoolCreate maxBytes objectMax callocOk = some pool)
    (hrun : Run PoolStep ⟨pool, []⟩ tr s)
    (hlive : ∀ u handle, (u, Op.free handle) ∈ tr → handle ∈ u.live.map Prod.fst)
    (hroom : ∀ u data reallocOk junk, (u, Op.store data reallocOk junk) ∈ tr →
      RoomToGrow u.pool data.length) :
    RefinesMap maxBytes s := by
  rcases zpoolCreate_holds hcreate with ⟨hempty, hceil⟩
  have hinv : Holds s.pool s.live ∧ s.pool.maxBytes = maxBytes := by
    refine run_invariant (fun u => Holds u.pool u.live ∧ u.pool.maxBytes = maxBytes) hrun
      ⟨hempty, hceil⟩ fun u op v hmem hu hstep => ?_
    rcases poolStep_holds hu.1 hstep (fun handle heq => hlive u handle (heq ▸ hmem))
      (fun data ok junk heq => hroom u data ok junk (heq ▸ hmem)) with ⟨hv, hsame⟩
    exact ⟨hv, hsame.trans hu.2⟩
  have hres := refinesMap_of_holds hinv.1
  rw [hinv.2] at hres
  exact hres

/-- A pool of one-entry slabs, all of them full. -/
structure Brimful (s : Sys) (n : Nat) : Prop where
  holds : Holds s.pool s.live
  objectMax : s.pool.objectMax = 256
  maxBytes : s.pool.maxBytes = 2 ^ 40
  full : s.pool.partialHead 0 = 0
  count : s.pool.slabCount = n
  live : s.live.length = n

/-- The store that adds one more full slab. -/
def fillOp : Op := .store [0] true (some fun _ => 0)

/-- While there is room, storing one byte adds one full slab. -/
theorem brimful_step {n : Nat} (h : Brimful s n) (hn : n < 2 ^ 31) :
    ∃ t, PoolStep s fillOp t ∧ Brimful t (n + 1) := by
  have hroom : RoomToGrow s.pool ([0] : List UInt8).length := by
    intro _
    rw [h.count]
    exact hn
  rcases zpoolStore_holds h.holds [0] hroom true (some fun _ => 0) with
    ⟨pool', handle, hrun, hholds, hceil, _⟩
  rcases h.holds with ⟨free, lists, hinv⟩
  have hmax := h.objectMax
  have hfull := h.full
  have hcount := h.count
  have hbytes := hinv.shape.bytes
  -- Follow the call: the table has room or grows, and one slab is added.
  rcases growTable_spec hinv.shape (by omega) true with ⟨hno, _⟩ | ⟨cap, hgrow, hlt, hpow⟩
  · cases hno
  have hshape := (poolInv_grown hinv hlt hpow).shape
  rcases addSlab_spec hshape 0 (fun _ => 0) (by rw [hmax]; exact Nat.le_refl 256) hlt
    (by simp only; omega) with ⟨slab, hclass, hhead, hnext, hok, hadd⟩
  have hone : slab.entries = 1 := by
    rw [hok.entries_eq, hclass, hmax]
    exact rfl
  -- Its only entry is taken, so it is full and leaves the list.
  rw [hone] at hok
  rcases slabOk_head hok (by rw [hhead]; unfold noEntry; omega) with
    ⟨rest, next, hfree, hbound, hget, _, hrest⟩
  have hnil : rest = [] := (List.cons.inj hfree).2.symm
  subst hnil
  have hlast : next = noEntry := (entryLink_none next).mp hrest
  rcases writeAt_of_le slab.mem _ [0] (entry_window hok slab.freeHead 1 hbound
    (by have := classEntrySize_ge slab.classIndex; omega)) with ⟨mem, hw⟩
  have hstore : zpoolStore s.pool [0] true (some fun _ => 0) = some (pool', handle) := hrun
  unfold zpoolStore at hrun
  rw [if_neg (by rw [hmax]; simp only [length_singleton]; omega),
    if_neg (by rw [Decidable.not_not]; exact hfull)] at hrun
  unfold slabNew at hrun
  rw [if_neg (by rw [h.maxBytes, hbytes, hmax, hcount]; omega), hgrow] at hrun
  simp only [show sizeClass ([0] : List UInt8).length = 0 from rfl] at hrun
  rw [hadd] at hrun
  simp only at hrun
  rw [if_neg (by unfold uint32Max; omega), storeIn_eq ?_ ?_ hget hw, some.injEq,
    Prod.mk.injEq] at hrun
  · rcases hrun with ⟨rfl, rfl⟩
    refine ⟨_, PoolStep.store s [0] true (some fun _ => 0) _ _ hstore, hholds, hmax, ?_, ?_, ?_, ?_⟩
    · exact h.maxBytes
    · simp only [if_pos hlast, hclass, update_self, hnext]
      exact hfull
    · exact congrArg (· + 1) hcount
    · rcases hholds with ⟨free', lists', hinv'⟩
      have hobjects : s.live.length < 2 ^ 64 := by rw [h.live]; omega
      have hc := hinv'.count
      simp only at hc ⊢
      rw [← hc, hinv.count, h.live]
      unfold inc64
      omega
  -- The slab just added is the last of the table and heads the list.
  · rw [← hinv.shape.table]
    exact (replaced_append s.pool.slabs slab).here
  · simp [hclass]

/-- Any number of slabs up to `2 ^ 31` can be filled. -/
theorem brimful_run (h : Brimful s 0) :
    ∀ n, n ≤ 2 ^ 31 → ∃ tr t, Run PoolStep s tr t ∧ (∀ x ∈ tr, x.2 = fillOp) ∧ Brimful t n := by
  intro n
  induction n with
  | zero =>
    intro _
    exact ⟨[], s, Run.nil, fun x hx => absurd hx not_mem_nil, h⟩
  | succ n ih =>
    intro hn
    rcases ih (by omega) with ⟨tr, t, hrun, hops, ht⟩
    rcases brimful_step ht (by omega) with ⟨u, hstep, hu⟩
    refine ⟨tr ++ [(t, fillOp)], u, Run.snoc t u fillOp tr hrun hstep, fun x hx => ?_, hu⟩
    rcases mem_append.mp hx with hold | hlast
    · exact hops x hold
    · rw [mem_singleton.mp hlast]

/-- The empty pool the runs below start from. -/
def smallPool : Pool :=
  { slabs := [], objectMax := 256, slabCount := 0, slabCapacity := 0, partialHead := fun _ => 0,
    maxBytes := 2 ^ 40, stats := ⟨0, 0, 0, 0, 0, 0, 0, 0⟩ }

theorem zpoolCreate_small : zpoolCreate (2 ^ 40) 256 true = some smallPool := rfl

theorem smallPool_brimful : Brimful ⟨smallPool, []⟩ 0 :=
  ⟨(zpoolCreate_holds zpoolCreate_small).1, rfl, rfl, rfl, rfl, rfl⟩

/-- A store, and a free of what it stored. -/
theorem pool_refines_map_one : ∃ tr s, Run PoolStep ⟨smallPool, []⟩ tr s ∧
    tr.length = 2 ∧ RefinesMap (2 ^ 40) s := by
  rcases brimful_step smallPool_brimful (by omega) with ⟨t, hstore, ht⟩
  rcases exists_mem_of_length_pos (by rw [ht.live]; omega) with ⟨o, ho⟩
  rcases zpoolFree_holds ht.holds o ho with ⟨pool, hfree, _⟩
  have hrun := Run.snoc _ _ _ _ (Run.snoc _ _ _ _ Run.nil hstore) (PoolStep.free t o.1 pool hfree)
  refine ⟨_, _, hrun, rfl, pool_refines_map zpoolCreate_small hrun (fun u handle hmem => ?_)
    (fun u data reallocOk junk hmem => ?_)⟩
  · simp only [nil_append, singleton_append, mem_cons, Prod.mk.injEq, fillOp,
      reduceCtorEq, and_false, Op.free.injEq, not_mem_nil, or_false, false_or] at hmem
    rcases hmem with ⟨rfl, rfl⟩
    exact mem_map.mpr ⟨o, ho, rfl⟩
  · simp only [nil_append, singleton_append, mem_cons, Prod.mk.injEq,
      reduceCtorEq, and_false, not_mem_nil, or_false] at hmem
    rcases hmem with ⟨rfl, _⟩
    intro _
    exact Nat.two_pow_pos 31

/-- A table of `2 ^ 31` slabs is given back when one more is wanted, and the
    objects that are live cannot be loaded any more. -/
theorem grown_pool_loses_objects : ∃ pool tr s,
    zpoolCreate (2 ^ 40) 256 true = some pool ∧ Run PoolStep ⟨pool, []⟩ tr s ∧
      (∀ u handle, (u, Op.free handle) ∉ tr) ∧
      ∃ o ∈ s.live, ∀ outSize, zpoolLoad s.pool o.1 outSize = none := by
  rcases brimful_run smallPool_brimful (2 ^ 31) (Nat.le_refl _) with ⟨tr, t, hrun, hops, ht⟩
  rcases ht.holds with ⟨free, lists, hinv⟩
  have hcount := ht.count
  have hbytes := hinv.shape.bytes
  -- The table is exactly full, and twice its size does not fit in 32 bits.
  have hcap : t.pool.slabCapacity = 2 ^ 31 := by
    have hroom := hinv.shape.room
    rcases hinv.shape.capacity with hzero | ⟨k, _, hk, hpow⟩
    · omega
    · have := Nat.pow_le_pow_right (show 0 < 2 by omega) hk
      omega
  have hgrow : growTable t.pool false = some ({ t.pool with slabs := [] }, false) := by
    have hwant :
        (if t.pool.slabCapacity = 0 then 16 else t.pool.slabCapacity * 2 % 2 ^ 32) = 0 := by
      rw [hcap, if_neg (by omega)]
      rfl
    unfold growTable
    rw [if_pos (by omega), if_neg (by rw [hinv.shape.table]; omega)]
    simp only [hwant, Bool.false_eq_true, if_false, if_true]
  have hstore : zpoolStore t.pool [0] false none =
      some (failStore { t.pool with slabs := [] }, handleNone) := by
    unfold zpoolStore
    rw [if_neg (by rw [ht.objectMax]; simp only [length_singleton]; omega),
      if_neg (by rw [Decidable.not_not]; exact ht.full)]
    unfold slabNew
    rw [if_neg (by rw [ht.maxBytes, hbytes, ht.objectMax, hcount]; omega), hgrow]
    rfl
  have hstep := PoolStep.store t [0] false none _ _ hstore
  refine ⟨smallPool, _, _, zpoolCreate_small, hrun.next _ hstep, fun u handle hmem => ?_, ?_⟩
  · rcases mem_append.mp hmem with hold | hlast
    · have hop := hops _ hold
      cases hop
    · rw [mem_singleton, Prod.mk.injEq] at hlast
      exact absurd hlast.2 (by simp only [reduceCtorEq, not_false_eq_true])
  · rcases exists_mem_of_length_pos (show 0 < t.live.length by rw [ht.live]; omega) with
      ⟨o, ho⟩
    refine ⟨o, ?_, fun outSize => ?_⟩
    · unfold record
      exact ho
    · -- The handle is in range, and the slab it names is gone.
      rcases hinv.objects.held o ho with ⟨i, slab, hi, hslab, hin⟩
      rcases List.getElem?_eq_some_iff.mp hslab with ⟨hlt, _⟩
      rw [hinv.shape.table] at hlt
      have hpos := hin.pos
      have hsize := hin.size
      unfold zpoolLoad handleDecode failStore
      simp only [if_neg (ne_handleNone hi), getElem?_nil]
      rw [if_neg (by omega)]

end IshAok.Zpool
