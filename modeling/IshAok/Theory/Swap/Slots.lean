import IshAok.Core.Swap
import Mathlib.Data.Finset.Card

/-!
# Slots are Handed Out Once

The allocator keeps a bitmap, a counter, a rover and a switch, and two entry
points may take the area away. One invariant ties them to the set of slots
that are out: while there is an area the clear bits are those slots and slot
0, the counter is their number, and while there is none no slot is out.

The search for a free slot walks the slots once around from the rover.
`findFree_eq` says it is a plain search of the list of slots in that order, so
a search that fails has seen every slot taken.

The switch is cleared at the start of a disable and set only when an enable
publishes its area, and the holder of the configuration lock builds an area
only after it saw that there is none. That is what `PhaseOk` records.

Two things limit what can be said. An allocation is also refused while the
24-hour write budget is spent. And the number of bitmap words is computed in
32 bits, so for the very largest areas it comes out as zero and laying out the
bitmap runs outside it.

## Main definitions

* `ringFrom`: The slots in the order the search visits them.
* `Laid`: The bitmap and the counter describe the slots that are out.
* `SlotInv`: The invariant of the area and of the configuration lock.
* `SlotsSafe`: What the next call does in a state.
* `RunSafe`: What a whole run of calls did.

## Theorems

* `findFree_eq`: The search is a search of the ring.
* `swapSlotAlloc_spec`: What an allocation does.
* `swapSlotFree_spec`: What a free does.
* `slotStep_facts`: Every critical section keeps the invariant.
* `slots_run_safe`: Every run is safe.
-/

namespace IshAok.Swap

open Base List Finset

section Search

variable {words : List (BitVec 64)} {n start : Nat}

/-- The slots from `i` once around to just before `start`. -/
def ringFrom (n start i : Nat) : List Nat :=
  if start ≤ i then List.range' i (n - i) ++ List.range' 1 (start - 1)
  else List.range' i (start - i)

/-- The ring from a slot is the slot and then the ring from the next one. -/
theorem ringFrom_cons (n start i : Nat) (hs : 1 ≤ start) (hsn : start < n) (hi : i < n) :
    ringFrom n start i =
      i :: if nextSlot n i = start then [] else ringFrom n start (nextSlot n i) := by
  unfold ringFrom nextSlot
  by_cases hle : start ≤ i
  · rw [if_pos hle]
    by_cases hlast : i + 1 ≥ n
    -- The top of the area wraps to slot 1.
    · rw [if_pos hlast, show n - i = 1 by omega, range'_one, singleton_append]
      by_cases hone : 1 = start
      · rw [if_pos hone, ← hone]
        rfl
      · rw [if_neg hone, if_neg (by omega)]
    · rw [if_neg hlast, if_neg (by omega), if_pos (by omega),
        show n - i = (n - (i + 1)) + 1 by omega, range'_succ, cons_append]
  · rw [if_neg hle, if_neg (show ¬ i + 1 ≥ n by omega),
      show start - i = (start - (i + 1)) + 1 by omega, range'_succ]
    by_cases hback : i + 1 = start
    · rw [if_pos hback, show start - (i + 1) = 0 by omega]
      rfl
    · rw [if_neg hback, if_neg (by omega)]

theorem mem_ring (hs : 1 ≤ start) (hsn : start < n) (i : Nat) :
    i ∈ ringFrom n start start ↔ 1 ≤ i ∧ i < n := by
  unfold ringFrom
  rw [if_pos (Nat.le_refl start), mem_append, mem_range'_1, mem_range'_1]
  omega

theorem nextSlot_range (hn : 2 ≤ n) (i : Nat) : 1 ≤ nextSlot n i ∧ nextSlot n i < n := by
  unfold nextSlot
  split <;> omega

/-- The loop finds the first free slot of the ring. -/
theorem findFree_eq (hread : ∀ j, j < n → ∃ b, bitTest words j = some b) (hs : 1 ≤ start)
    (hsn : start < n) :
    ∀ fuel i, i < n → (ringFrom n start i).length ≤ fuel → findFree words n start fuel i =
        some ((ringFrom n start i).find? fun j => bitTest words j == some true) := by
  intro fuel
  induction fuel with
  | zero =>
    intro i hi hlen
    rw [ringFrom_cons n start i hs hsn hi, length_cons] at hlen
    omega
  | succ fuel ih =>
    intro i hi hlen
    rcases hread i hi with ⟨b, hb⟩
    unfold findFree
    rw [ringFrom_cons n start i hs hsn hi] at hlen ⊢
    rw [hb]
    cases b with
    | true => rw [find?_cons_of_pos (by rw [hb]; rfl)]
    | false =>
      rw [find?_cons_of_neg (by rw [hb]; decide)]
      by_cases hback : nextSlot n i = start
      · rw [if_pos hback, if_pos hback, find?_nil]
      rw [if_neg hback, length_cons] at hlen
      rw [if_neg hback, if_neg hback]
      exact ih (nextSlot n i) (nextSlot_range (by omega) i).2 (by omega)

end Search

/-- While there is an area: the clear bits are slot 0 and the slots that are
    out, and the counter is how many those are. -/
structure Laid (area : Area) (words : List (BitVec 64)) (held : Finset Nat) : Prop where
  two_le : 2 ≤ area.slotCount
  lt : area.slotCount < 2 ^ 32
  reach : area.slotCount ≤ 64 * words.length
  bits : ∀ i, i ∈ held ↔ i < area.slotCount ∧ i ≠ slotNone ∧ bitTest words i = some false
  zero : bitTest words slotNone = some false
  used : area.slotsUsed = held.card

/-- The area describes the slots that are out, whether there is one or not. -/
structure AreaOk (area : Area) (held : Finset Nat) : Prop where
  switched : area.on = true → area.live = true
  away : area.freeBitmap = none → held = ∅ ∧ area.fd = none ∧ area.slotsUsed = 0
  laid : ∀ words, area.freeBitmap = some words → Laid area words held

/-- What the holder of the configuration lock knows. -/
def PhaseOk (area : Area) : Phase → Prop
  | .build _ => area.freeBitmap = none
  | .probe _ => area.on = false
  | .walk _ => area.on = false
  | _ => True

/-- The invariant of the whole module. -/
structure SlotInv (s : SlotSys) : Prop where
  area : AreaOk s.area s.held
  phase : PhaseOk s.area s.phase

variable {area area' : Area} {held : Finset Nat} {s t : SlotSys} {tr : List (SlotSys × SlotOp)}

variable {words : List (BitVec 64)}

theorem laid_read (h : Laid area words held) (j : Nat)
    (hj : j < area.slotCount) : ∃ b, bitTest words j = some b :=
  bitTest_isSome words j (Nat.lt_of_lt_of_le hj h.reach)

theorem laid_card_lt (h : Laid area words held) : held.card < area.slotCount := by
  have hsub : held ⊆ (Finset.range area.slotCount).erase slotNone := by
    intro i hi
    rcases (h.bits i).mp hi with ⟨hlt, hne, _⟩
    exact Finset.mem_erase.mpr ⟨hne, Finset.mem_range.mpr hlt⟩
  have hzero : slotNone ∈ Finset.range area.slotCount := by
    rw [Finset.mem_range]
    have := h.two_le
    unfold slotNone
    omega
  have hcard := card_le_card hsub
  rw [card_erase_of_mem hzero, card_range] at hcard
  have := h.two_le
  omega

theorem laid_zero_not_held (h : Laid area words held) : slotNone ∉ held :=
  fun hmem => ((h.bits slotNone).mp hmem).2.1 rfl

/-- Rolling the window touches nothing the invariant speaks of. -/
theorem rollWindow_fields (area : Area) (now : Int) :
    (rollWindow area now).on = area.on ∧ (rollWindow area now).freeBitmap = area.freeBitmap ∧
      (rollWindow area now).fd = area.fd ∧
      (rollWindow area now).slotCount = area.slotCount ∧
      (rollWindow area now).slotsUsed = area.slotsUsed := by
  unfold rollWindow
  split <;> exact ⟨rfl, rfl, rfl, rfl, rfl⟩

/-- An area that differs only in its rover and its write window is as good. -/
theorem areaOk_congr (h : AreaOk area held)
    (hsame : area'.on = area.on ∧ area'.freeBitmap = area.freeBitmap ∧ area'.fd = area.fd ∧
      area'.slotCount = area.slotCount ∧ area'.slotsUsed = area.slotsUsed) : AreaOk area' held := by
  rcases hsame with ⟨hon, hmap, hfd, hcount, hused⟩
  refine ⟨fun hsw => ?_, fun hnone => ?_, fun words hwords => ?_⟩
  · unfold Area.live
    rw [hmap]
    exact h.switched (by rw [← hon]; exact hsw)
  · rw [hfd, hused]
    exact h.away (by rw [← hmap]; exact hnone)
  · have hl := h.laid words (by rw [← hmap]; exact hwords)
    exact ⟨by rw [hcount]; exact hl.two_le, by rw [hcount]; exact hl.lt,
      by rw [hcount]; exact hl.reach, by rw [hcount]; exact hl.bits, hl.zero,
      by rw [hused]; exact hl.used⟩

/-- A free slot that is taken joins the slots that are out. -/
theorem laid_take {words' : List (BitVec 64)} {i : Nat} (h : Laid area words held)
    (hlt : i < area.slotCount) (hne : i ≠ slotNone) (hfree : bitTest words i = some true)
    (hclear : bitClear words i = some words') :
    i ∉ held ∧ Laid (takeSlot area words' i) words' (insert i held) := by
  have hout : i ∉ held := by
    intro hmem
    have hbit := ((h.bits i).mp hmem).2.2
    rw [hfree] at hbit
    cases hbit
  have hcard := laid_card_lt h
  have htop := h.lt
  refine ⟨hout, h.two_le, h.lt, ?_, fun j => ?_, ?_, ?_⟩
  · rw [bitClear_length hclear]
    exact h.reach
  · rw [mem_insert, bitTest_bitClear hclear, h.bits j]
    by_cases hj : j = i
    · subst hj
      rw [if_pos rfl]
      exact iff_of_true (.inl rfl) ⟨hlt, hne, rfl⟩
    · rw [if_neg hj]
      exact ⟨fun hm => hm.resolve_left hj, .inr⟩
  · rw [bitTest_bitClear hclear, if_neg (Ne.symm hne)]
    exact h.zero
  · show (area.slotsUsed + 1) % 2 ^ 32 = (insert i held).card
    rw [card_insert_of_notMem hout, h.used]
    omega

/-- A slot that is out and comes back leaves the slots that are out. -/
theorem laid_give {words' : List (BitVec 64)} {slot : Nat} (h : Laid area words held)
    (hheld : slot ∈ held) (hset : bitSet words slot = some words') :
    Laid (giveSlot area words' slot) words' (held.erase slot) := by
  rcases (h.bits slot).mp hheld with ⟨hlt, hne, _⟩
  have hpos : 0 < held.card := card_pos.mpr ⟨slot, hheld⟩
  refine ⟨h.two_le, h.lt, ?_, fun j => ?_, ?_, ?_⟩
  · rw [bitSet_length hset]
    exact h.reach
  · rw [Finset.mem_erase, bitTest_bitSet hset, h.bits j]
    by_cases hj : j = slot
    · rw [if_pos hj]
      exact iff_of_false (fun hm => hm.1 hj) (fun hm => absurd hm.2.2 (by simp))
    · rw [if_neg hj]
      exact ⟨fun hm => hm.2, fun hm => ⟨hj, hm⟩⟩
  · rw [bitTest_bitSet hset, if_neg (Ne.symm hne)]
    exact h.zero
  · show (if area.slotsUsed > 0 then area.slotsUsed - 1 else area.slotsUsed) = _
    rw [if_pos (by rw [h.used]; exact hpos), card_erase_of_mem hheld, h.used]

/-- Where a search starts is a slot of the area. -/
theorem searchStart_range (area : Area) (h : 2 ≤ area.slotCount) :
    1 ≤ searchStart area ∧ searchStart area < area.slotCount := by
  unfold searchStart
  split <;> omega

/-- The search of a laid-out area sees every slot. -/
theorem findFree_laid (h : Laid area words held) :
    (∃ i, findFree words area.slotCount (searchStart area) area.slotCount (searchStart area) =
        some (some i) ∧ i < area.slotCount ∧ i ≠ slotNone ∧ bitTest words i = some true) ∨
      (findFree words area.slotCount (searchStart area) area.slotCount (searchStart area) =
        some none ∧ ∀ i, 1 ≤ i → i < area.slotCount → i ∈ held) := by
  rcases searchStart_range area h.two_le with ⟨hlo, hhi⟩
  have hlen : (ringFrom area.slotCount (searchStart area) (searchStart area)).length ≤
      area.slotCount := by
    unfold ringFrom
    rw [if_pos (Nat.le_refl _), length_append, length_range', length_range']
    omega
  rw [findFree_eq (laid_read h) hlo hhi area.slotCount (searchStart area) hhi hlen]
  rcases hfind : (ringFrom area.slotCount (searchStart area) (searchStart area)).find?
    (fun j => bitTest words j == some true) with _ | i
  · right
    refine ⟨rfl, fun i hi hlt => (h.bits i).mpr ⟨hlt, by unfold slotNone; omega, ?_⟩⟩
    have hbusy := find?_eq_none.mp hfind i ((mem_ring hlo hhi i).mpr ⟨hi, hlt⟩)
    rcases laid_read h i hlt with ⟨b, hb⟩
    rw [hb] at hbusy ⊢
    cases b with
    | false => rfl
    | true => exact absurd rfl hbusy
  · left
    have hmem := (mem_ring hlo hhi i).mp (mem_of_find?_eq_some hfind)
    have hbit := find?_some hfind
    exact ⟨i, rfl, hmem.2, by unfold slotNone; omega, eq_of_beq hbit⟩

/-- What an allocation does: it completes, and hands out a slot that is not
    out, or says why it cannot. -/
theorem swapSlotAlloc_spec (h : AreaOk area held) (now : Int) :
    ∃ area' result, swapSlotAlloc area now = some (area', result) ∧
      AreaOk area' (recordAlloc held result) ∧ area'.on = area.on ∧
      area'.live = area.live ∧ area'.fd = area.fd ∧
      match result with
      | .ok i => i ≠ slotNone ∧ i ∉ held ∧ area.on = true
      | .error _ => area.on = true → overBudget (rollWindow area now) ∨
          ∀ i, 1 ≤ i → i < area.slotCount → i ∈ held := by
  rcases rollWindow_fields area now with ⟨hon, hmap, hfd, hcount, hused⟩
  have hrolled := areaOk_congr h (rollWindow_fields area now)
  have hlive : (rollWindow area now).live = area.live := by
    unfold Area.live
    rw [hmap]
  unfold swapSlotAlloc
  by_cases hover : overBudget (rollWindow area now)
  · rw [if_pos hover]
    exact ⟨_, _, rfl, hrolled, hon, hlive, hfd, fun _ => .inl hover⟩
  rw [if_neg hover, hon, hmap]
  rcases hsw : area.on with _ | _
  -- The switch is off.
  · refine ⟨_, _, rfl, hrolled, by rw [hon, hsw], hlive, hfd, fun habs => ?_⟩
    cases habs
  rcases hwords : area.freeBitmap with _ | words
  · have hnot := h.switched hsw
    unfold Area.live at hnot
    rw [hwords] at hnot
    cases hnot
  have hl := h.laid words hwords
  rcases findFree_laid hl with ⟨i, hfind, hlt, hne, hbit⟩ | ⟨hfind, hall⟩
  -- A slot was found.
  · rcases bitClear_of_lt words i (Nat.lt_of_lt_of_le hlt hl.reach) with ⟨words', hclear⟩
    have hl' := hrolled.laid words (by rw [hmap]; exact hwords)
    rcases laid_take hl' (by rw [hcount]; exact hlt) hne hbit hclear with ⟨hout, htaken⟩
    simp only [hfind, hclear, Option.map_some]
    refine ⟨_, _, rfl, ⟨fun _ => rfl, fun hnone => ?_, fun w hw => ?_⟩, by rw [← hsw]; exact hon,
      ?_, hfd, hne, hout, trivial⟩
    · cases hnone
    · cases hw
      exact htaken
    · unfold Area.live
      rw [hwords]
      rfl
  -- The whole ring is taken.
  · simp only [hfind]
    exact ⟨_, _, rfl, hrolled, by rw [← hsw]; exact hon, hlive, hfd, fun _ => .inr hall⟩

/-- Taking a stopped area away while no slot is out. -/
theorem areaOk_detach (hoff : area.on = false) : AreaOk (swapFileDetachLocked area) ∅ := by
  refine ⟨fun hon => ?_, fun _ => ⟨rfl, rfl, rfl⟩, fun words hwords => ?_⟩
  · exact absurd (hoff.symm.trans hon) (by simp)
  · cases hwords

/-- The counter is zero exactly when no slot is out. -/
theorem areaOk_used (h : AreaOk area held) : area.slotsUsed = 0 ↔ held = ∅ := by
  rcases hwords : area.freeBitmap with _ | words
  · rcases h.away hwords with ⟨hempty, _, hused⟩
    exact iff_of_true hused hempty
  · rw [(h.laid words hwords).used, card_eq_zero]

/-- What became of the area in a free or at the end of a disable. -/
inductive Fate (area area' : Area) (held : Finset Nat) : Bool → Prop
  | kept : area'.live = area.live → area'.fd = area.fd → Fate area area' held false
  | detached : area'.live = false → area'.fd = none → held = ∅ → Fate area area' held true

/-- The end of a free takes the area away exactly when it is stopped and no
    slot is out. -/
theorem drainCheck_spec (h : AreaOk area held) :
    AreaOk (drainCheck area).1 held ∧ (drainCheck area).1.on = area.on ∧
      Fate area (drainCheck area).1 held (drainCheck area).2 ∧
      (area.live = true → area.on = false → held = ∅ → (drainCheck area).2 = true) := by
  unfold drainCheck
  by_cases hdrain : area.slotsUsed = 0 ∧ area.on = false ∧ area.live = true
  · rw [if_pos hdrain]
    have hempty := (areaOk_used h).mp hdrain.1
    subst hempty
    exact ⟨areaOk_detach hdrain.2.1, rfl, Fate.detached rfl rfl rfl, fun _ _ _ => rfl⟩
  · rw [if_neg hdrain]
    refine ⟨h, rfl, Fate.kept rfl rfl, fun hlive hoff hempty => ?_⟩
    exact absurd ⟨(areaOk_used h).mpr hempty, hoff, hlive⟩ hdrain

/-- What a free does: it completes, the slot is not out any more, and the last
    slot out of a stopped area takes the area away. -/
theorem swapSlotFree_spec (h : AreaOk area held) (slot : Nat) :
    ∃ area' drained, swapSlotFree area slot = some (area', drained) ∧
      AreaOk area' (held.erase slot) ∧ area'.on = area.on ∧
      Fate area area' (held.erase slot) drained ∧
      (slot ∈ held → area.on = false → held.erase slot = ∅ → drained = true) := by
  -- A slot that is not out changes nothing but may find the area drained.
  have hskip : slot ∉ held → ∃ area' drained, some (area, false) = some (area', drained) ∧
      AreaOk area' (held.erase slot) ∧ area'.on = area.on ∧
      Fate area area' (held.erase slot) drained ∧
      (slot ∈ held → area.on = false → held.erase slot = ∅ → drained = true) := by
    intro hout
    rw [erase_eq_of_notMem hout]
    exact ⟨area, false, rfl, h, rfl, Fate.kept rfl rfl, fun hin => absurd hin hout⟩
  unfold swapSlotFree
  rcases hwords : area.freeBitmap with _ | words
  · have hout : slot ∉ held := by
      rw [(h.away hwords).1]
      exact notMem_empty slot
    rw [ite_self]
    exact hskip hout
  have hl := h.laid words hwords
  by_cases hzero : slot = slotNone
  · rw [if_pos hzero]
    exact hskip (by rw [hzero]; exact laid_zero_not_held hl)
  rw [if_neg hzero]
  simp only
  by_cases hpast : slot ≥ area.slotCount
  · rw [if_pos hpast]
    refine hskip fun hin => ?_
    have hlt := ((hl.bits slot).mp hin).1
    omega
  rw [if_neg hpast]
  rcases laid_read hl slot (by omega) with ⟨b, hb⟩
  rw [hb]
  cases b with
  | true =>
    -- A repeated free: the bit says the slot is back already.
    have hout : slot ∉ held := by
      intro hin
      have hbit := ((hl.bits slot).mp hin).2.2
      rw [hb] at hbit
      exact absurd hbit (by simp)
    rw [erase_eq_of_notMem hout]
    rcases drainCheck_spec h with ⟨hok, hon, hfate, _⟩
    exact ⟨_, _, rfl, hok, hon, hfate, fun hin => absurd hin hout⟩
  | false =>
    have hin : slot ∈ held := (hl.bits slot).mpr ⟨by omega, hzero, hb⟩
    rcases bitSet_of_lt words slot (by have := hl.reach; omega) with ⟨words', hset⟩
    have hgiven : AreaOk (giveSlot area words' slot) (held.erase slot) := by
      refine ⟨fun _ => rfl, fun hnone => ?_, fun w hw => ?_⟩
      · cases hnone
      · cases hw
        exact laid_give hl hin hset
    have hlive : area.live = true := by
      unfold Area.live
      rw [hwords]
      rfl
    rcases drainCheck_spec hgiven with ⟨hok, hon, hfate, hdrain⟩
    rw [hset, Option.map_some]
    generalize drainCheck (giveSlot area words' slot) = drain at hok hon hfate hdrain ⊢
    rcases drain with ⟨area', drained⟩
    refine ⟨area', drained, rfl, hok, hon, ?_, fun _ hoff hempty => hdrain rfl hoff hempty⟩
    cases hfate with
    | kept hkept hfd => exact Fate.kept (hkept.trans hlive.symm) hfd
    | detached hgone hfd hempty => exact Fate.detached hgone hfd hempty

/-- The end of a disable takes the area away exactly when no slot is out. -/
theorem finishDisable_spec (h : AreaOk area held) (hoff : area.on = false) :
    AreaOk (finishDisable area) held ∧ (finishDisable area).on = area.on ∧
      ∃ gone, Fate area (finishDisable area) held gone := by
  unfold finishDisable
  by_cases hused : area.slotsUsed ≠ 0
  · rw [if_pos hused]
    exact ⟨h, rfl, false, Fate.kept rfl rfl⟩
  rw [if_neg hused]
  have hempty := (areaOk_used h).mp (Decidable.not_not.mp hused)
  subst hempty
  exact ⟨areaOk_detach hoff, rfl, true, Fate.detached rfl rfl rfl⟩

/-- A checked size is a number of slots that fits its field. -/
theorem request_slots (req : Request) : 2 ≤ req.slots ∧ req.slots < 2 ^ 32 - 1 := by
  have h := req.checked
  unfold enableSlots at h
  generalize req.bytes / req.frame = usable at h
  split at h
  · cases h
  split at h
  · cases h
  split at h
  · cases h
  rw [Except.ok.injEq] at h
  omega

theorem bitTest_zeros (k j : Nat) (h : j < 64 * k) :
    bitTest (List.replicate k 0#64) j = some false := by
  rw [bitTest_eq, getElem?_replicate_of_lt (by omega), Option.map_some, BitVec.getLsbD_zero]

/-- An area that was just published has every slot free. -/
theorem publish_spec {req : Request} {fd : Nat} (h : publish area req fd = some area') :
    AreaOk area' ∅ ∧ area'.on = true := by
  rcases request_slots req with ⟨htwo, htop⟩
  unfold publish at h
  rcases hset : bitSetFrom (req.slots - 1) 1 (List.replicate (bitmapWords req.slots) 0#64) with
    _ | words
  · rw [hset] at h
    cases h
  have hsome := (bitSetFrom_isSome_iff (req.slots - 1) 1
    (List.replicate (bitmapWords req.slots) 0#64)).mp (by rw [hset]; rfl)
  rw [length_replicate] at hsome
  rcases bitSetFrom_eq_some _ _ _ _ hset with ⟨hlen, hbits⟩
  rw [length_replicate] at hlen
  rw [hset] at h
  cases h
  refine ⟨⟨fun _ => rfl, fun hnone => ?_, fun w hw => ?_⟩, rfl⟩
  · cases hnone
  · cases hw
    refine ⟨htwo, by simp only; omega, by simp only; omega, fun i => ?_, ?_, rfl⟩
    · -- Every slot but slot 0 is in the range that was set.
      refine iff_of_false (notMem_empty i) fun hi => ?_
      rcases hi with ⟨hlt, hne, hbit⟩
      simp only at hlt
      unfold slotNone at hne
      rw [hbits i, if_pos (by omega)] at hbit
      cases hbit
    · unfold slotNone
      rw [hbits 0, if_neg (by omega), bitTest_zeros _ _ (by omega)]

/-- A step that takes the bitmap or the file away. -/
def Detaches (s t : SlotSys) : Prop :=
  (s.area.live = true ∧ t.area.live = false) ∨ (s.area.fd ≠ none ∧ t.area.fd ≠ s.area.fd)

theorem not_detaches (hlive : t.area.live = s.area.live) (hfd : t.area.fd = s.area.fd) :
    ¬ Detaches s t := by
  rintro (⟨hold, hgone⟩ | ⟨_, hne⟩)
  · rw [hlive, hold] at hgone
    cases hgone
  · exact hne hfd

theorem fate_detaches {gone : Bool} (h : Fate s.area t.area held gone) (hd : Detaches s t) :
    held = ∅ := by
  cases h with
  | kept hlive hfd => exact absurd hd (not_detaches hlive hfd)
  | detached _ _ hempty => exact hempty

/-- What one critical section may do. -/
structure StepFacts (s : SlotSys) (op : SlotOp) (t : SlotSys) : Prop where
  inv : SlotInv t
  /-- Only an enable turns the switch on. -/
  switch : t.area.on = true → s.area.on = true ∨ ∃ fd, op = .publish fd
  /-- Only a free of the slot ends its being out. -/
  keeps : ∀ i ∈ s.held, op ≠ .free i → i ∈ t.held
  hands : ∀ now i, op = .alloc now (.ok i) →
    i ≠ slotNone ∧ i ∉ s.held ∧ i ∈ t.held ∧ s.area.on = true
  detaches : Detaches s t → t.held = ∅
  stops : op = .stop → t.area.on = false

/-- A step of the configuration lock's holder that leaves the area alone. -/
theorem stepFacts_phase {phase phase' : Phase} {op : SlotOp} (h : AreaOk area held)
    (hphase : PhaseOk area phase') (hstop : op ≠ .stop)
    (halloc : ∀ now i, op ≠ .alloc now (.ok i)) :
    StepFacts ⟨area, phase, held⟩ op ⟨area, phase', held⟩ :=
  ⟨⟨h, hphase⟩, .inl, fun _ hi _ => hi, fun now i heq => absurd heq (halloc now i),
    fun hd => absurd hd (not_detaches rfl rfl), fun heq => absurd heq hstop⟩

theorem phaseOk_afterDisable (area : Area) (next : Option Request) :
    PhaseOk area (afterDisable next) := by
  cases next with
  | none | some => trivial

theorem live_eq_false (h : ¬ area.live = true) : area.freeBitmap = none := by
  unfold Area.live at h
  rcases hmap : area.freeBitmap with _ | words
  · rfl
  rw [hmap] at h
  exact absurd rfl h

theorem phaseOk_checkArea (area : Area) (req : Request) : PhaseOk area (checkArea area req) := by
  unfold checkArea
  by_cases hlive : area.live = true
  · rw [if_pos hlive]
    split
    · trivial
    · split <;> trivial
  · rw [if_neg hlive]
    exact live_eq_false hlive

/-- What the holder of the lock knows survives a call by another thread that
    keeps the switch and makes no area. -/
theorem phaseOk_other {phase : Phase} (h : PhaseOk area phase) (hon : area'.on = area.on)
    (hmap : area.freeBitmap = none → area'.freeBitmap = none) : PhaseOk area' phase := by
  cases phase with
  | build req => exact hmap h
  | probe | walk => exact hon.trans h
  | _ => trivial

theorem live_none (h : area'.live = area.live) (hmap : area.freeBitmap = none) :
    area'.freeBitmap = none := by
  refine live_eq_false ?_
  rw [h]
  unfold Area.live
  rw [hmap]
  simp

/-- Every critical section keeps the invariant, and does no more than it may. -/
theorem slotStep_facts {op : SlotOp} (h : SlotInv s) (hstep : SlotStep s op t) :
    StepFacts s op t := by
  rcases h with ⟨harea, hphase⟩
  cases hstep with
  | enable | disable | buildFails =>
    exact stepFacts_phase harea trivial (by simp) (by simp)
  | check area held req =>
    exact stepFacts_phase harea (phaseOk_checkArea area req) (by simp) (by simp)
  | stop area held next =>
    have hoff : AreaOk { area with on := false } held := by
      refine ⟨fun hon => ?_, harea.away, fun words hwords => ?_⟩
      · cases hon
      · have hl := harea.laid words hwords
        exact { hl with }
    refine ⟨⟨hoff, rfl⟩, fun hon => ?_, fun _ hi _ => hi, fun now i heq => ?_,
      fun hd => absurd hd (not_detaches rfl rfl), fun _ => rfl⟩
    · cases hon
    · cases heq
  | probe area held next =>
    refine stepFacts_phase harea ?_ (by simp) (by simp)
    by_cases hlive : area.live = true
    · rw [if_pos hlive]
      exact hphase
    rw [if_neg hlive]
    exact phaseOk_afterDisable area next
  | walk area held next =>
    rcases finishDisable_spec harea hphase with ⟨hok, hon, gone, hfate⟩
    refine ⟨⟨hok, phaseOk_afterDisable _ next⟩, fun hsw => .inl (hon ▸ hsw),
      fun _ hi _ => hi, fun now i heq => ?_, fate_detaches hfate, fun heq => ?_⟩
    · cases heq
    · cases heq
  | recheck area held req =>
    refine stepFacts_phase harea ?_ (by simp) (by simp)
    by_cases hlive : area.live = true
    · rw [if_pos hlive]
      trivial
    rw [if_neg hlive]
    exact live_eq_false hlive
  | publish area area' held req fd hpub =>
    -- There was no area, so no slot was out and there was no file to lose.
    rcases harea.away hphase with ⟨hempty, hnofd, _⟩
    rcases publish_spec hpub with ⟨hok, _⟩
    subst hempty
    refine ⟨⟨hok, trivial⟩, fun _ => .inr ⟨fd, rfl⟩, fun _ hi _ => hi, fun now i heq => ?_,
      fun _ => rfl, fun heq => ?_⟩
    · cases heq
    · cases heq
  | alloc area area' phase held now result hcall =>
    rcases swapSlotAlloc_spec harea now with ⟨a, r, hrun, hok, hon, hlive, hfd, hres⟩
    rw [hcall, Option.some.injEq, Prod.mk.injEq] at hrun
    rcases hrun with ⟨rfl, rfl⟩
    refine ⟨⟨hok, phaseOk_other hphase hon (live_none hlive)⟩, fun hsw => .inl (hon ▸ hsw),
      fun i hi _ => ?_, fun now' i heq => ?_, fun hd => absurd hd (not_detaches hlive hfd),
      fun heq => ?_⟩
    · cases result with
      | ok j => exact mem_insert_of_mem hi
      | error e => exact hi
    · rcases heq with ⟨_, rfl⟩
      exact ⟨hres.1, hres.2.1, mem_insert_self i held, hres.2.2⟩
    · cases heq
  | free area area' phase held slot drained hcall =>
    rcases swapSlotFree_spec harea slot with ⟨a, d, hrun, hok, hon, hfate, _⟩
    rw [hcall, Option.some.injEq, Prod.mk.injEq] at hrun
    rcases hrun with ⟨rfl, rfl⟩
    have hmap : area.freeBitmap = none → area'.freeBitmap = none := by
      cases hfate with
      | kept hlive => exact live_none hlive
      | detached hgone =>
        intro _
        exact live_eq_false (by rw [hgone]; simp only [Bool.false_eq_true, not_false_eq_true])
    refine ⟨⟨hok, phaseOk_other hphase hon hmap⟩, fun hsw => .inl (hon ▸ hsw),
      fun i hi hne => ?_, fun now i heq => ?_, fate_detaches hfate, fun heq => ?_⟩
    · refine Finset.mem_erase.mpr ⟨?_, hi⟩
      rintro rfl
      exact hne rfl
    · cases heq
    · cases heq
  | wrote area phase held len =>
    have hok : AreaOk { area with
        writtenWindow := (area.writtenWindow + len) % 2 ^ 64 } held :=
      areaOk_congr harea ⟨rfl, rfl, rfl, rfl, rfl⟩
    refine ⟨⟨hok, phaseOk_other hphase rfl id⟩, .inl, fun _ hi _ => hi, fun now i heq => ?_,
      fun hd => absurd hd (not_detaches rfl rfl), fun heq => ?_⟩
    · cases heq
    · cases heq

/-- What can be said of a state that a run reaches. -/
structure SlotsSafe (s : SlotSys) : Prop where
  /-- The counter is the number of clear bits, slot 0 apart. -/
  used : ∀ words, s.area.freeBitmap = some words →
    s.area.slotsUsed = ((Finset.range s.area.slotCount).filter
      fun i => i ≠ slotNone ∧ bitTest words i = some false).card
  /-- An allocation completes, and fails on an area that is on only when the
      write budget is spent or every slot is out. -/
  alloc : ∀ now, ∃ area result, swapSlotAlloc s.area now = some (area, result) ∧
    ∀ e, result = .error e → s.area.on = true →
      overBudget (rollWindow s.area now) ∨ ∀ i, 1 ≤ i → i < s.area.slotCount → i ∈ s.held
  /-- The last free of a stopped area takes it away. -/
  last : ∀ slot ∈ s.held, s.area.on = false → s.held.erase slot = ∅ →
    ∃ area, swapSlotFree s.area slot = some (area, true) ∧ area.live = false ∧ area.fd = none

/-- What can be said of a run: slot 0 is never handed out, no slot twice
    without a free in between, none between a disable and the next enable, and
    the area goes away only while no slot is out. -/
structure RunSafe (tr : List (SlotSys × SlotOp)) (s : SlotSys) : Prop where
  nonzero : ∀ u now i, (u, SlotOp.alloc now (.ok i)) ∈ tr → i ≠ slotNone
  once : ∀ tr₁ tr₂ tr₃ u v now now' i,
    tr = tr₁ ++ (u, .alloc now (.ok i)) :: (tr₂ ++ (v, .alloc now' (.ok i)) :: tr₃) →
      ∃ w, (w, SlotOp.free i) ∈ tr₂
  stopped : ∀ tr₁ tr₂ u, tr = tr₁ ++ (u, .stop) :: tr₂ →
    (∀ w fd, (w, SlotOp.publish fd) ∉ tr₂) → ∀ w now i, (w, SlotOp.alloc now (.ok i)) ∉ tr₂
  detached : ∀ u op v, (u, op) ∈ tr → SlotStep u op v → Detaches u v → v.held = ∅
  safe : SlotsSafe s

theorem slotsSafe_of_inv (h : SlotInv s) : SlotsSafe s := by
  refine ⟨fun words hwords => ?_, fun now => ?_, fun slot hslot hoff hempty => ?_⟩
  · have hl := h.area.laid words hwords
    rw [hl.used]
    congr 1
    ext i
    rw [Finset.mem_filter, Finset.mem_range]
    exact hl.bits i
  · rcases swapSlotAlloc_spec h.area now with ⟨area, result, hrun, _, _, _, _, hres⟩
    refine ⟨area, result, hrun, fun e he => ?_⟩
    subst he
    exact hres
  · rcases swapSlotFree_spec h.area slot with ⟨area, drained, hrun, _, _, hfate, hdrain⟩
    have hd := hdrain hslot hoff hempty
    subst hd
    cases hfate with
    | detached hgone hfd => exact ⟨area, hrun, hgone, hfd⟩

theorem initial_inv (writeBudget : Nat) : SlotInv ⟨initialArea writeBudget, .idle, ∅⟩ := by
  refine ⟨⟨fun hon => ?_, fun _ => ⟨rfl, rfl, rfl⟩, fun words hwords => ?_⟩, trivial⟩
  · cases hon
  · cases hwords

theorem slotRun_inv (hr : Run SlotStep s tr t) (h : SlotInv s) : SlotInv t :=
  run_invariant SlotInv hr h fun _ _ _ _ hu hstep => (slotStep_facts hu hstep).inv

/-- A slot stays out along a run that does not free it. -/
theorem slotRun_keeps {i : Nat} (hr : Run SlotStep s tr t) (h : SlotInv s) (hi : i ∈ s.held)
    (hnot : ∀ w, (w, SlotOp.free i) ∉ tr) : i ∈ t.held := by
  have hboth : SlotInv t ∧ i ∈ t.held := by
    refine run_invariant (fun u => SlotInv u ∧ i ∈ u.held) hr ⟨h, hi⟩
      (fun u op v hmem hu hstep => ?_)
    have hfacts := slotStep_facts hu.1 hstep
    refine ⟨hfacts.inv, hfacts.keeps i hu.2 ?_⟩
    rintro rfl
    exact hnot u hmem
  exact hboth.2

/-- The switch stays off along a run without an enable. -/
theorem slotRun_off (hr : Run SlotStep s tr t) (h : SlotInv s) (hoff : s.area.on = false)
    (hnot : ∀ w fd, (w, SlotOp.publish fd) ∉ tr) : t.area.on = false := by
  have hboth : SlotInv t ∧ t.area.on = false := by
    refine run_invariant (fun u => SlotInv u ∧ u.area.on = false) hr ⟨h, hoff⟩
      (fun u op v hmem hu hstep => ?_)
    have hfacts := slotStep_facts hu.1 hstep
    refine ⟨hfacts.inv, ?_⟩
    rcases hon : v.area.on with _ | _
    · rfl
    rcases hfacts.switch hon with hold | ⟨fd, rfl⟩
    · exact absurd (hu.2.symm.trans hold) (by simp)
    · exact absurd hmem (hnot u fd)
  exact hboth.2

/-- Every run of enables, disables, allocations and frees is safe. -/
theorem slots_run_safe {writeBudget : Nat} {tr : List (SlotSys × SlotOp)} {s : SlotSys}
    (hr : Run SlotStep ⟨initialArea writeBudget, .idle, ∅⟩ tr s) : RunSafe tr s := by
  have hinit := initial_inv writeBudget
  refine ⟨fun u now i hmem => ?_, ?_, ?_, fun u op v hmem hstep => ?_,
    slotsSafe_of_inv (slotRun_inv hr hinit)⟩
  · rcases run_split hr u _ hmem with ⟨tr₁, tr₂, v, _, h₁, hstep, _⟩
    exact ((slotStep_facts (slotRun_inv h₁ hinit) hstep).hands now i rfl).1
  · intro tr₁ tr₂ tr₃ u v now now' i htr
    subst htr
    -- After the first hand-out the slot is out, at the second it is not.
    rcases run_cut hr with ⟨u', h₁, hstep, hrest⟩
    rcases run_cut hrest with ⟨v', h₂, hstep', _⟩
    have hfirst := slotStep_facts (slotRun_inv h₁ hinit) hstep
    have hsecond := slotStep_facts (slotRun_inv h₂ hfirst.inv) hstep'
    by_cases hfree : ∃ w, (w, SlotOp.free i) ∈ tr₂
    · exact hfree
    have hstill := slotRun_keeps h₂ hfirst.inv (hfirst.hands now i rfl).2.2.1
      (fun w hw => hfree ⟨w, hw⟩)
    exact absurd hstill (hsecond.hands now' i rfl).2.1
  · intro tr₁ tr₂ u htr hnot w now i hmem
    subst htr
    rcases run_cut hr with ⟨u', h₁, hstep, hrest⟩
    have hfacts := slotStep_facts (slotRun_inv h₁ hinit) hstep
    -- The switch is off from the disable to the allocation, which needs it on.
    rcases run_split hrest w _ hmem with ⟨tr₃, tr₄, v, rfl, h₂, hstep', _⟩
    have hoff := slotRun_off h₂ hfacts.inv (hfacts.stops rfl)
      (fun x fd hx => hnot x fd (mem_append_left _ hx))
    have hon := ((slotStep_facts (slotRun_inv h₂ hfacts.inv) hstep').hands now i rfl).2.2.2
    exact absurd (hoff.symm.trans hon) (by simp)
  · rcases run_split hr u op hmem with ⟨tr₁, tr₂, _, _, h₁, _, _⟩
    exact (slotStep_facts (slotRun_inv h₁ hinit) hstep).detaches

/-- A request for an area of one usable slot. -/
def oneSlot : Request := ⟨4096, 4096, 2, false, rfl⟩

/-- The area of one slot, with the slot free. -/
def oneSlotArea (writeBudget : Nat) : Area :=
  { initialArea writeBudget with
    on := true, fd := some 3, slotSize := 4096, slotCount := 2, freeBitmap := some [2#64],
    allocRover := 1 }

/-- Enabling that area. -/
theorem oneSlot_enabled (writeBudget : Nat) : ∃ tr,
    Run SlotStep ⟨initialArea writeBudget, .idle, ∅⟩ tr ⟨oneSlotArea writeBudget, .idle, ∅⟩ ∧
      tr.length = 3 := by
  have h₁ := Run.snoc _ _ _ _ Run.nil (SlotStep.enable (initialArea writeBudget) ∅ oneSlot)
  have h₂ := h₁.next _ (.check _ _ oneSlot)
  have h₃ := h₂.next _ (.publish _ (oneSlotArea writeBudget) ∅ oneSlot 3 rfl)
  exact ⟨_, h₃, rfl⟩

/-- Enable, hand out the one slot, disable with the slot still out, and free it
    last. -/
theorem slots_run_safe_one : ∃ tr s,
    Run SlotStep ⟨initialArea 0, .idle, ∅⟩ tr s ∧ s.area.live = false ∧ RunSafe tr s := by
  rcases oneSlot_enabled 0 with ⟨tr, h₃, _⟩
  have h₄ := h₃.next _ (.alloc (oneSlotArea 0)
    { oneSlotArea 0 with slotsUsed := 1, freeBitmap := some [0#64], windowStart := 1 }
    .idle ∅ 1 (.ok 1) rfl)
  have h₅ := h₄.next _ (.disable _ _)
  have h₆ := h₅.next _ (.stop _ _ none)
  have h₇ := h₆.next _ (.probe _ _ none)
  have h₈ := h₇.next _ (.walk _ _ none)
  have h₉ := h₈.next _ (.free _ { initialArea 0 with windowStart := 1 } _ _ 1 true rfl)
  exact ⟨_, _, h₉, rfl, slots_run_safe h₉⟩

/-- With the write budget spent an allocation is refused although the one slot
    is free; and the counter is not the number of set bits. -/
theorem budget_refuses_free_slot : ∃ tr s,
    Run SlotStep ⟨initialArea 4096, .idle, ∅⟩ tr s ∧ s.area.on = true ∧ s.held = ∅ ∧
      s.area.slotCount = 2 ∧ s.area.freeBitmap = some [2#64] ∧ s.area.slotsUsed = 0 ∧
      ((Finset.range 2).filter fun i => bitTest [2#64] i = some true).card = 1 ∧
      ∃ area, swapSlotAlloc s.area 2 = some (area, .error .enospc) := by
  rcases oneSlot_enabled 4096 with ⟨tr, h₃, _⟩
  have h₄ := h₃.next _ (.alloc (oneSlotArea 4096)
    { oneSlotArea 4096 with slotsUsed := 1, freeBitmap := some [0#64], windowStart := 1 }
    .idle ∅ 1 (.ok 1) rfl)
  have h₅ := h₄.next _ (.wrote _ _ _ 4096)
  have h₆ := h₅.next _ (.free _
    { oneSlotArea 4096 with windowStart := 1, writtenWindow := 4096 } _ _ 1 false rfl)
  exact ⟨_, _, h₆, rfl, by decide, rfl, rfl, rfl, by decide, _, rfl⟩

end IshAok.Swap
