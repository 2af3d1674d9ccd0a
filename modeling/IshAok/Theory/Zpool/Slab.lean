import IshAok.Base.Threaded
import IshAok.Core.Zpool
import Mathlib.Data.List.Nodup

/-!
# One Slab and its Free List

A slab keeps its free entries on a list threaded through their own bytes, so
writing an object over an entry destroys a link, and freeing an entry destroys
the object. `SlabOk` is the invariant under which neither matters: the chain
from the head visits distinct entries inside the slab, and every entry's
window lies inside the slab's memory.

Three operations keep it. `threadEntries` builds the chain of a new slab over
all of its entries, a store takes the head of the chain off, and a free puts
an entry that is not on the chain in front. In each case the windows of the
other entries are left alone, because the windows of different entries do not
overlap.

The handle encoding is settled here as well: as long as the parts fit their
fields, the three parts of a handle can be read back.

## Main definitions

* `entryLink`: A stored link as an entry, if it is one.
* `nextFree`: The link kept in an entry of a slab.
* `SlabOk`: The free list of a slab is sound.

## Theorems

* `getU16_putU16`: A link read back is the link written.
* `threadEntries_spec`: The loop that builds a free list.
* `slabOk_fresh`: A new slab is sound, with every entry free.
* `slabOk_pop`: Storing into the head of the free list.
* `slabOk_push`: Freeing an entry that is in use.
* `handle_parts`: The parts of an encoded handle.
-/

namespace IshAok.Zpool

open Base Nat List

theorem classEntrySize_ge (c : Nat) : 256 ≤ classEntrySize c := by
  unfold classEntrySize granule
  omega

theorem putU16_length (n : Nat) : (putU16 n).length = 2 := rfl

/-- A link read back from the window it was written to. -/
theorem getU16_putU16 {mem mem' : List UInt8} {off n : Nat} (hn : n < 2 ^ 16)
    (h : writeAt mem off (putU16 n) = some mem') : getU16 mem' off = some n := by
  have hread := readAt_writeAt_same h
  rw [putU16_length] at hread
  unfold getU16
  rw [hread]
  simp only [putU16, UInt8.toNat_ofNat']
  congr 1
  omega

theorem getU16_congr {mem mem' : List UInt8} {off : Nat}
    (h : readAt mem' off 2 = readAt mem off 2) : getU16 mem' off = getU16 mem off := by
  unfold getU16
  rw [h]

/-- Two bytes inside the block hold some link, and it is a 16-bit number. -/
theorem getU16_of_le (mem : List UInt8) (off : Nat) (h : off + 2 ≤ mem.length) :
    ∃ n, getU16 mem off = some n ∧ n < 2 ^ 16 := by
  rcases readAt_of_le mem off 2 h with ⟨cells, hread, hlen⟩
  match cells, hlen with
  | [lo, hi], _ =>
    refine ⟨lo.toNat + 256 * hi.toNat, ?_, ?_⟩
    · unfold getU16
      rw [hread]
    · have hlo := lo.toNat_lt
      have hhi := hi.toNat_lt
      omega

/-- A link as the code reads it: `ZPOOL_NO_ENTRY` ends the list. -/
def entryLink (v : Nat) : Option Nat := if v = noEntry then none else some v

theorem entryLink_none (v : Nat) : entryLink v = none ↔ v = noEntry := by
  unfold entryLink
  by_cases h : v = noEntry
  · rw [if_pos h]
    exact iff_of_true rfl h
  · rw [if_neg h]
    exact iff_of_false (by simp) h

theorem entryLink_of_ne {v : Nat} (h : v ≠ noEntry) : entryLink v = some v := if_neg h

/-- The link an entry of the slab holds while it is free. -/
def nextFree (slab : Slab) (e : Nat) : Option Nat :=
  (getU16 slab.mem (entryOffset slab e)).bind entryLink

/-- The free list of a slab of `objectMax` bytes visits exactly `free`. -/
structure SlabOk (objectMax : Nat) (slab : Slab) (free : List Nat) : Prop where
  /-- The slab has room for an entry of its class. -/
  fits : classEntrySize slab.classIndex ≤ objectMax
  entries_eq : slab.entries = objectMax / classEntrySize slab.classIndex
  mem_length : slab.mem.length = objectMax
  nodup : free.Nodup
  bounded : ∀ e ∈ free, e < slab.entries
  chain : Threaded (nextFree slab) (entryLink slab.freeHead) free

variable {objectMax : Nat} {slab : Slab} {free : List Nat}

/-- Entry windows lie inside the slab. -/
theorem entry_window (hok : SlabOk objectMax slab free) (e n : Nat) (he : e < slab.entries)
    (hn : n ≤ classEntrySize slab.classIndex) : entryOffset slab e + n ≤ slab.mem.length := by
  have hmul : (e + 1) * classEntrySize slab.classIndex ≤ objectMax :=
    (Nat.le_div_iff_mul_le (by have := classEntrySize_ge slab.classIndex; omega)).mp
      (by rw [← hok.entries_eq]; omega)
  rw [hok.mem_length]
  unfold entryOffset
  rw [succ_mul] at hmul
  omega

/-- No class has more than 64 entries to a slab. -/
theorem entries_le (objectMax c : Nat) (hmax : objectMax ≤ objectMaxBound) :
    objectMax / classEntrySize c ≤ 64 := by
  unfold objectMaxBound at hmax
  calc objectMax / classEntrySize c
      ≤ objectMax / 256 := div_le_div_left (classEntrySize_ge c) (by omega)
    _ ≤ 64 := by omega

theorem slabOk_entries_le (hok : SlabOk objectMax slab free) (hmax : objectMax ≤ objectMaxBound) :
    slab.entries ≤ 64 := by
  rw [hok.entries_eq]
  exact entries_le objectMax slab.classIndex hmax

/-- The loop from entry `e` on sets the link of every entry it reaches and
    leaves the links before `e` alone. -/
theorem threadEntries_spec (size entries : Nat) (hsize : 2 ≤ size) (hmany : entries < noEntry) :
    ∀ (n e : Nat) (mem : List UInt8), e + n = entries → entries * size ≤ mem.length →
      ∃ mem', threadEntries size entries n e mem = some mem' ∧ mem'.length = mem.length ∧
        (∀ j, j < e → getU16 mem' (j * size) = getU16 mem (j * size)) ∧
        ∀ j, e ≤ j → j < entries →
          getU16 mem' (j * size) = some (if j + 1 = entries then noEntry else j + 1) := by
  intro n
  induction n with
  | zero =>
    intro e mem he _
    refine ⟨mem, rfl, rfl, fun j _ => rfl, fun j hlo hhi => ?_⟩
    omega
  | succ n ih =>
    intro e mem he hlen
    have hfit : e * size + 2 ≤ mem.length := by
      have := Nat.mul_le_mul_right size (show e + 1 ≤ entries by omega)
      rw [succ_mul] at this
      omega
    rcases writeAt_of_le mem (e * size)
      (putU16 (if e + 1 = entries then noEntry else e + 1)) hfit with ⟨mem₁, hw⟩
    have hlen₁ := writeAt_length hw
    rcases ih (e + 1) mem₁ (by omega) (by omega) with ⟨mem', hrun, hlen', hbefore, hafter⟩
    have hother : ∀ j, j ≠ e → getU16 mem₁ (j * size) = getU16 mem (j * size) := by
      intro j hj
      refine getU16_congr (readAt_writeAt_apart hw ?_)
      exact windows_apart size e j 2 2 (Ne.symm hj) hsize hsize
    refine ⟨mem', ?_, by omega, fun j hj => ?_, fun j hlo hhi => ?_⟩
    · unfold threadEntries
      rw [hw]
      exact hrun
    · rw [hbefore j (by omega), hother j (by omega)]
    · -- The entry written in this turn is not touched by the later ones.
      rcases Nat.eq_or_lt_of_le hlo with rfl | hlt
      · rw [hbefore e (by omega)]
        refine getU16_putU16 ?_ hw
        unfold noEntry at hmany ⊢
        split <;> omega
      · exact hafter j hlt hhi

/-- Links that count up visit the entries in order. -/
theorem threaded_range (next : Nat → Option Nat) (m : Nat) : ∀ n e, e + (n + 1) = m →
      (∀ j, e ≤ j → j < m → next j = if j + 1 = m then none else some (j + 1)) →
      Threaded next (some e) (List.range' e (n + 1)) := by
  intro n
  induction n with
  | zero =>
    intro e he hnext
    refine ⟨rfl, ?_⟩
    rw [hnext e (Nat.le_refl e) (by omega), if_pos (by omega)]
    exact rfl
  | succ n ih =>
    intro e he hnext
    refine ⟨rfl, ?_⟩
    rw [hnext e (Nat.le_refl e) (by omega), if_neg (by omega)]
    exact ih (e + 1) (by omega) fun j hlo hhi => hnext j (by omega) hhi

/-- A slab whose links were just threaded has every entry free. -/
theorem slabOk_fresh (objectMax : Nat) (slab : Slab)
    (hfits : classEntrySize slab.classIndex ≤ objectMax) (hmax : objectMax ≤ objectMaxBound)
    (hentries : slab.entries = objectMax / classEntrySize slab.classIndex)
    (hlen : slab.mem.length = objectMax) (hhead : slab.freeHead = 0)
    (hlinks : ∀ j, j < slab.entries → getU16 slab.mem (j * classEntrySize slab.classIndex) =
      some (if j + 1 = slab.entries then noEntry else j + 1)) :
    SlabOk objectMax slab (List.range' 0 slab.entries) := by
  have hpos : 0 < slab.entries := by
    rw [hentries]
    exact Nat.div_pos hfits (by have := classEntrySize_ge slab.classIndex; omega)
  refine ⟨hfits, hentries, hlen, nodup_range', fun e he => ?_, ?_⟩
  · rw [mem_range'_1] at he
    omega
  · have hsmall : slab.entries ≤ 64 := by
      rw [hentries]
      exact entries_le objectMax slab.classIndex hmax
    rw [hhead, entryLink_of_ne (by unfold noEntry; omega)]
    have hsucc : slab.entries = (slab.entries - 1) + 1 := by omega
    rw [hsucc]
    refine threaded_range _ slab.entries _ 0 (by omega) fun j _ hj => ?_
    unfold nextFree entryOffset
    rw [hlinks j hj, Option.bind_some]
    by_cases hlast : j + 1 = slab.entries
    · rw [if_pos hlast, if_pos hlast]
      exact (entryLink_none _).mpr rfl
    · rw [if_neg hlast, if_neg hlast, entryLink_of_ne (by unfold noEntry; omega)]

/-- The head of a free list that is not empty, and the link it holds. -/
theorem slabOk_head (hok : SlabOk objectMax slab free) (hsome : slab.freeHead ≠ noEntry) :
    ∃ rest next, free = slab.freeHead :: rest ∧ slab.freeHead < slab.entries ∧
      getU16 slab.mem (entryOffset slab slab.freeHead) = some next ∧ next < 2 ^ 16 ∧
      Threaded (nextFree slab) (entryLink next) rest := by
  have hchain := hok.chain
  rw [entryLink_of_ne hsome] at hchain
  rcases threaded_pop hchain with ⟨rest, rfl, hrest⟩
  have hlt := hok.bounded slab.freeHead mem_cons_self
  have hwin := entry_window hok slab.freeHead 2 hlt
    (by have := classEntrySize_ge slab.classIndex; omega)
  rcases getU16_of_le slab.mem _ hwin with ⟨next, hnext, hsmall⟩
  refine ⟨rest, next, rfl, hlt, hnext, hsmall, ?_⟩
  unfold nextFree at hrest
  rw [hnext, Option.bind_some] at hrest
  exact hrest

theorem slabOk_head_lt (hok : SlabOk objectMax slab free) (hmax : objectMax ≤ objectMaxBound) :
    slab.freeHead < 2 ^ 16 := by
  by_cases hfull : slab.freeHead = noEntry
  · rw [hfull]
    unfold noEntry
    omega
  · rcases slabOk_head hok hfull with ⟨_, _, _, hlt, _⟩
    have := slabOk_entries_le hok hmax
    omega

/-- Writing inside the window of an entry keeps the links of the others. -/
theorem nextFree_other {slab' : Slab} {e j : Nat} {cells : List UInt8}
    (hw : writeAt slab.mem (entryOffset slab e) cells = some slab'.mem)
    (hclass : slab'.classIndex = slab.classIndex)
    (hcells : cells.length ≤ classEntrySize slab.classIndex) (hj : j ≠ e) :
    nextFree slab' j = nextFree slab j := by
  unfold nextFree entryOffset
  rw [hclass]
  congr 1
  refine getU16_congr (readAt_writeAt_apart hw ?_)
  exact windows_apart _ e j _ 2 (Ne.symm hj) hcells
    (by have := classEntrySize_ge slab.classIndex; omega)

/-- Storing into the head of the free list takes it off. -/
theorem slabOk_pop {slab' : Slab} {rest : List Nat} {next : Nat} {data : List UInt8}
    (hok : SlabOk objectMax slab (slab.freeHead :: rest))
    (hrest : Threaded (nextFree slab) (entryLink next) rest)
    (hw : writeAt slab.mem (entryOffset slab slab.freeHead) data = some slab'.mem)
    (hdata : data.length ≤ classEntrySize slab.classIndex)
    (hclass : slab'.classIndex = slab.classIndex) (hentries : slab'.entries = slab.entries)
    (hhead : slab'.freeHead = next) : SlabOk objectMax slab' rest := by
  have hnodup := nodup_cons.mp hok.nodup
  refine ⟨?_, ?_, ?_, hnodup.2, fun e he => ?_, ?_⟩
  · rw [hclass]
    exact hok.fits
  · rw [hentries, hclass]
    exact hok.entries_eq
  · rw [writeAt_length hw]
    exact hok.mem_length
  · rw [hentries]
    exact hok.bounded e (mem_cons_of_mem _ he)
  · rw [hhead]
    refine threaded_congr hrest fun j hj => nextFree_other hw hclass hdata ?_
    rintro rfl
    exact hnodup.1 hj

/-- Freeing an entry that is in use puts it in front of the free list. -/
theorem slabOk_push {slab' : Slab} {e : Nat} (hok : SlabOk objectMax slab free)
    (hsmall : objectMax ≤ objectMaxBound) (he : e < slab.entries) (hused : e ∉ free)
    (hw : writeAt slab.mem (entryOffset slab e) (putU16 slab.freeHead) = some slab'.mem)
    (hclass : slab'.classIndex = slab.classIndex) (hentries : slab'.entries = slab.entries)
    (hhead' : slab'.freeHead = e) : SlabOk objectMax slab' (e :: free) := by
  have hbound := slabOk_entries_le hok hsmall
  refine ⟨?_, ?_, ?_, nodup_cons.mpr ⟨hused, hok.nodup⟩, fun j hj => ?_, ?_⟩
  · rw [hclass]
    exact hok.fits
  · rw [hentries, hclass]
    exact hok.entries_eq
  · rw [writeAt_length hw]
    exact hok.mem_length
  · rw [hentries]
    rcases mem_cons.mp hj with rfl | hold
    · exact he
    · exact hok.bounded j hold
  · rw [hhead', entryLink_of_ne (by unfold noEntry; omega)]
    refine threaded_push e hok.chain ?_ fun j hj => nextFree_other hw hclass ?_ ?_
    · -- The link just written is the old head.
      unfold nextFree entryOffset
      rw [hclass]
      rw [show getU16 slab'.mem (e * classEntrySize slab.classIndex) = some slab.freeHead from
        getU16_putU16 (slabOk_head_lt hok hsmall) hw, Option.bind_some]
    · rw [putU16_length]
      have := classEntrySize_ge slab.classIndex
      omega
    · rintro rfl
      exact hused hj

/-- An encoded handle as a sum, when its parts fit their fields. -/
theorem encodeHandle_eq (idx entry size : Nat) (hidx : idx + 1 < 2 ^ 32) (hentry : entry < 1024)
    (hsize : size < 2 ^ 14) :
    encodeHandle idx entry size = (idx + 1) * 2 ^ 24 + entry * 2 ^ 14 + size := by
  unfold encodeHandle
  rw [mod_eq_of_lt hidx, Nat.or_assoc,
    ← shiftLeft_add_eq_or_of_lt (b := size) (i := 14) hsize,
    ← shiftLeft_add_eq_or_of_lt (i := 24) (by rw [shiftLeft_eq]; omega),
    shiftLeft_eq, shiftLeft_eq]
  omega

theorem handleSlab_eq (handle : Nat) : handleSlab handle = handle / 16777216 :=
  shiftRight_eq_div_pow handle 24

theorem ne_handleNone {handle i : Nat} (h : handleSlab handle = i + 1) : handle ≠ handleNone := by
  rw [handleSlab_eq] at h
  unfold handleNone
  omega

theorem handleEntry_eq (handle : Nat) : handleEntry handle = handle / 16384 % 1024 := by
  unfold handleEntry
  rw [shiftRight_eq_div_pow]
  exact and_two_pow_sub_one_eq_mod (handle / 16384) 10

theorem handleSize_eq (handle : Nat) : handleSize handle = handle % 16384 :=
  and_two_pow_sub_one_eq_mod handle 14

/-- The slab, the entry and the size can be read back from the handle. -/
theorem handle_parts (idx entry size : Nat) (hidx : idx + 1 < 2 ^ 32) (hentry : entry < 1024)
    (hsize : size < 2 ^ 14) :
    handleSlab (encodeHandle idx entry size) = idx + 1 ∧
      handleEntry (encodeHandle idx entry size) = entry ∧
      handleSize (encodeHandle idx entry size) = size := by
  rw [encodeHandle_eq idx entry size hidx hentry hsize]
  rw [handleSlab_eq, handleEntry_eq, handleSize_eq]
  refine ⟨?_, ?_, ?_⟩ <;> omega

end IshAok.Zpool
