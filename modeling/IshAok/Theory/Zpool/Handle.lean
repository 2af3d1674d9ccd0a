import IshAok.Theory.Zpool.Refine

/-!
# What the Pool Refuses

A handle describes itself: the slab, the entry and the size are in its bits,
and there is no table of the handles that are live. All the pool can check is
that the bits name bytes inside a slab it has. `OutOfBounds` says when they do
not, and those are exactly the handles the pool refuses.

That is less than refusing every handle that is not live. A free changes
neither the size of a slab nor the number of its entries, so a handle that
named an entry goes on naming it after the object is gone. It loads what the
entry now holds, and freeing it a second time puts the entry on the free list
again.

## Main definitions

* `OutOfBounds`: The bits of a handle name no entry of the pool.
* `Refuses`: Loading and freeing the handle do nothing.

## Theorems

* `handleDecode_some_iff`: The handles that decode, and to what.
* `refuses_iff_out_of_bounds`: The pool refuses exactly what is out of bounds.
* `zpoolFree_decodes`: A freed handle still decodes.
* `stale_handle_loads`: A run after which a freed handle is not refused.
-/

namespace IshAok.Zpool

open Base

variable (pool : Pool)

/-- The bits of the handle name no entry, or more bytes than its entry has. -/
def OutOfBounds (handle : Nat) : Prop :=
  handleSlab handle = 0 ∨ handleSlab handle > pool.slabCount ∨ handleSize handle = 0 ∨
    ∃ slab, pool.slabs[handleSlab handle - 1]? = some slab ∧ (handleEntry handle ≥ slab.entries ∨
        handleSize handle > classEntrySize slab.classIndex)

/-- Loading the handle reports failure whatever the buffer, freeing it
    returns, and neither changes the pool. -/
def Refuses (handle : Nat) : Prop :=
  (∀ outSize, zpoolLoad pool handle outSize = some (pool, none)) ∧ zpoolFree pool handle = some pool

theorem handleSlab_none : handleSlab handleNone = 0 := rfl

/-- The zero handle needs no test of its own: its slab number is zero. -/
theorem handleDecode_eq (handle : Nat) : handleDecode pool handle =
      if handleSlab handle = 0 ∨ handleSlab handle > pool.slabCount ∨ handleSize handle = 0 then
        some none
      else
        match pool.slabs[handleSlab handle - 1]? with
        | none => none
        | some slab =>
          if handleEntry handle ≥ slab.entries then some none
          else if handleSize handle > classEntrySize slab.classIndex then some none
          else
            some (some ⟨handleSlab handle - 1, slab, handleEntry handle, handleSize handle⟩) := by
  unfold handleDecode
  by_cases hzero : handle = handleNone
  · rw [if_pos hzero, hzero, if_pos (.inl handleSlab_none)]
  · exact if_neg hzero

theorem handleDecode_none_iff (handle : Nat) :
    handleDecode pool handle = some none ↔ OutOfBounds pool handle := by
  rw [handleDecode_eq]
  unfold OutOfBounds
  by_cases hrange :
      handleSlab handle = 0 ∨ handleSlab handle > pool.slabCount ∨ handleSize handle = 0
  · rw [if_pos hrange]
    refine iff_of_true rfl ?_
    rcases hrange with h | h | h
    · exact .inl h
    · exact .inr (.inl h)
    · exact .inr (.inr (.inl h))
  simp only [not_or] at hrange
  rcases hslab : pool.slabs[handleSlab handle - 1]? with _ | slab
  · simp [hrange, exists_false]
  simp only [hrange, false_or, Option.some.injEq, exists_eq_left']
  by_cases hentry : handleEntry handle ≥ slab.entries
  · rw [if_pos hentry]
    exact iff_of_true rfl (.inl hentry)
  rw [if_neg hentry]
  by_cases hsize : handleSize handle > classEntrySize slab.classIndex
  · rw [if_pos hsize]
    exact iff_of_true rfl (.inr hsize)
  rw [if_neg hsize]
  exact iff_of_false (by simp)
    (not_or.mpr ⟨hentry, hsize⟩)

/-- The handles that decode name an entry of a slab in the table. -/
theorem handleDecode_some_iff (handle : Nat) (d : Decoded) :
    handleDecode pool handle = some (some d) ↔
      handleSlab handle = d.idx + 1 ∧ d.idx < pool.slabCount ∧
        pool.slabs[d.idx]? = some d.slab ∧ d.entry = handleEntry handle ∧
        d.entry < d.slab.entries ∧ d.size = handleSize handle ∧ 0 < d.size ∧
        d.size ≤ classEntrySize d.slab.classIndex := by
  rw [handleDecode_eq]
  rcases d with ⟨idx, slab, entry, size⟩
  constructor
  · intro h
    split at h
    · cases h
    rename_i hrange
    split at h
    · cases h
    rename_i x hx
    split at h
    · cases h
    split at h
    · cases h
    rcases h with ⟨rfl, rfl, rfl, rfl⟩
    have hidx : handleSlab handle = handleSlab handle - 1 + 1 := by omega
    exact ⟨hidx, by simp only; omega, hx, rfl, by simp only; omega, rfl, by simp only; omega,
      by simp only; omega⟩
  · simp only
    rintro ⟨hidx, hlt, hslab, rfl, hentry, rfl, hpos, hfits⟩
    rw [if_neg (by omega), hidx, Nat.add_sub_cancel, hslab]
    simp only
    rw [if_neg (by omega), if_neg (by omega)]

/-- The pool refuses exactly the handles whose bits are out of bounds, in any
    state and whether or not an object is live under them. -/
theorem refuses_iff_out_of_bounds (pool : Pool) (handle : Nat) :
    Refuses pool handle ↔ OutOfBounds pool handle := by
  rw [← handleDecode_none_iff]
  constructor
  · rintro ⟨hload, _⟩
    -- A buffer as large as the size in the handle is refused by the decoding only.
    have h := hload (handleSize handle)
    unfold zpoolLoad at h
    rcases hdec : handleDecode pool handle with _ | _ | d
    · rw [hdec] at h
      cases h
    · rfl
    · rcases (handleDecode_some_iff pool handle d).mp hdec with ⟨_, _, _, _, _, hsize, _⟩
      rw [hdec] at h
      simp only [hsize, Nat.lt_irrefl, if_false] at h
      split at h
      · cases h
      · simp only [Option.some.injEq, Prod.mk.injEq, reduceCtorEq, and_false] at h
  · intro hdec
    refine ⟨fun outSize => ?_, ?_⟩
    · unfold zpoolLoad
      rw [hdec]
    · unfold zpoolFree
      rw [hdec]

variable {handle : Nat} {d : Decoded}

/-- A free changes one slab, and neither its class nor its number of entries. -/
theorem zpoolFree_slabs {pool pool' : Pool} (hdec : handleDecode pool handle = some (some d))
    (hfree : zpoolFree pool handle = some pool') :
    pool'.slabCount = pool.slabCount ∧ pool'.stats.frees = inc64 pool.stats.frees ∧
      ∃ a, pool'.slabs = pool.slabs.set d.idx a ∧ a.classIndex = d.slab.classIndex ∧
        a.entries = d.slab.entries := by
  unfold zpoolFree at hfree
  rw [hdec] at hfree
  simp only at hfree
  split at hfree
  · cases hfree
  rw [Option.some.injEq] at hfree
  subst hfree
  unfold relist setSlab
  split <;> exact ⟨rfl, rfl, _, rfl, rfl, rfl⟩

/-- A handle that was freed still decodes, to the same entry and size. -/
theorem zpoolFree_decodes {pool pool' : Pool} (hdec : handleDecode pool handle = some (some d))
    (hfree : zpoolFree pool handle = some pool') :
    ∃ d', handleDecode pool' handle = some (some d') := by
  rcases (handleDecode_some_iff pool handle d).mp hdec with
    ⟨hidx, hlt, hslab, hentry, hbound, hsize, hpos, hfits⟩
  rcases zpoolFree_slabs hdec hfree with ⟨hcount, _, a, hslabs, hclass, hentries⟩
  refine ⟨⟨d.idx, a, d.entry, d.size⟩, (handleDecode_some_iff _ _ _).mpr ?_⟩
  refine ⟨hidx, by rw [hcount]; exact hlt, ?_, hentry, ?_, hsize, hpos, ?_⟩
  · rw [hslabs]
    exact (replaced_set hslab a).here
  · rw [hentries]
    exact hbound
  · rw [hclass]
    exact hfits

/-- A free of a handle that decodes is counted, so it changes the pool. -/
theorem zpoolFree_changes {pool : Pool} (hdec : handleDecode pool handle = some (some d)) :
    zpoolFree pool handle ≠ some pool := by
  intro hfree
  have hcount := (zpoolFree_slabs hdec hfree).2.1
  unfold inc64 at hcount
  omega

/-- Store an object, free it, and its handle still loads and can be freed
    again. -/
theorem stale_handle_loads : ∃ pool tr s handle,
    zpoolCreate (2 ^ 40) 256 true = some pool ∧ Run PoolStep ⟨pool, []⟩ tr s ∧
      handle ∉ s.live.map Prod.fst ∧
      (∃ outSize pool' bytes, zpoolLoad s.pool handle outSize = some (pool', some bytes)) ∧
      zpoolFree s.pool handle ≠ some s.pool := by
  rcases brimful_step smallPool_brimful (by omega) with ⟨t, hstore, ht⟩
  rcases List.exists_mem_of_length_pos (show 0 < t.live.length by rw [ht.live]; omega) with
    ⟨o, ho⟩
  rcases zpoolFree_holds ht.holds o ho with ⟨pool, hfree, hholds, _⟩
  rcases ht.holds with ⟨free, lists, hinv⟩
  rcases handleDecode_live hinv o ho with ⟨d, hdec, _⟩
  rcases zpoolFree_decodes hdec hfree with ⟨d', hdec'⟩
  refine ⟨smallPool, _, _, o.1, zpoolCreate_small,
    Run.snoc _ _ _ _ (Run.snoc _ _ _ _ Run.nil hstore) (PoolStep.free t o.1 pool hfree), ?_, ?_,
    zpoolFree_changes hdec'⟩
  · intro hmem
    rcases List.mem_map.mp hmem with ⟨x, hx, heq⟩
    exact absurd heq (decide_eq_true_eq.mp (List.mem_filter.mp hx).2)
  · -- The entry is inside its slab, so there are bytes to copy out.
    rcases (handleDecode_some_iff _ _ _).mp hdec' with ⟨_, _, hslab, _, hbound, _, _, hfits⟩
    rcases hholds with ⟨free', lists', hinv'⟩
    have hok := hinv'.objects.sound d'.idx d'.slab hslab
    rcases readAt_of_le d'.slab.mem _ d'.size (entry_window hok d'.entry d'.size hbound hfits) with
      ⟨bytes, hread, _⟩
    have hload : zpoolLoad pool o.1 d'.size = some ({ pool with
        stats := { pool.stats with loads := inc64 pool.stats.loads } }, some bytes) := by
      unfold zpoolLoad
      rw [hdec']
      simp [hread]
    exact ⟨d'.size, _, bytes, hload⟩

end IshAok.Zpool
