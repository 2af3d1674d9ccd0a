import IshAok.Base.Bitmap
import IshAok.Base.Run
import IshAok.Core.Errno
import Mathlib

/-!
# The Slots of the Swap Area

The model of the slot allocator of `kernel/swap.c`, with the switch that turns
the area on and off. The area is a file, or no file at all in RAM-only mode,
cut into slots of one frame each, and a bitmap in which a set bit is a free
slot.

Each function that runs under `swap_lock` is one step. Turning the area on or
off is several, because `swap_enable_locked` and `swap_disable_locked` drop
the lock to build the file and to bring evicted pages back. The two are
serialized by `swap_config_lock`, so one `Phase` says how far the holder of
that lock has got. Slots are allocated and freed by other threads in between.
An allocation reads the switch while it holds `swap_lock`, and that read is
where its step stands.

What the host decides is part of a step: the time, and whether the area could
be built. Bit accesses outside the bitmap have no result. `SlotSys` puts beside
the area the set of slots that were handed out and not freed since, which the
code does not keep.

## Main definitions

* `Area`: What `swap_lock` protects.
* `enableSlots`: The size checks of `swap_enable_locked`.
* `swapFileDetachLocked`: Taking the area away.
* `publish`: The last critical section of an enable.
* `swapSlotAlloc`: Hand out a slot.
* `swapSlotFree`: Take a slot back.
* `Phase`: How far an enable or a disable has got.
* `SlotStep`: One critical section of any thread.
-/

namespace IshAok.Swap

open Base

/-- `SWAP_SLOT_NONE`. -/
def slotNone : Nat := 0

/-- `SWAP_WRITE_WINDOW_SECONDS`. -/
def writeWindowSeconds : Int := 24 * 60 * 60

/-- The state under `swap_lock`, and the switch `on`. -/
structure Area where
  on : Bool
  fd : Option Nat
  ramOnly : Bool
  slotSize : Nat
  slotCount : Nat
  slotsUsed : Nat
  freeBitmap : Option (List (BitVec 64))
  allocRover : Nat
  writeBudget : Nat
  writtenWindow : Nat
  windowStart : Int

variable (area : Area)

/-- `swap_area_live_locked`. -/
def Area.live : Bool := area.freeBitmap.isSome

/-- The size checks of `swap_enable_locked`: the number of slots, counting the
    reserved slot 0. -/
def enableSlots (frame bytes : Nat) : Except Errno Nat :=
  if frame = 0 then .error .einval
  else if bytes / frame = 0 then .error .einval
  else if bytes / frame ≥ 2 ^ 32 - 1 - 1 then .error .einval
  else .ok (bytes / frame + 1)

/-- An enable that passed its size checks. -/
structure Request where
  frame : Nat
  bytes : Nat
  slots : Nat
  ramOnly : Bool
  checked : enableSlots frame bytes = .ok slots

/-- `swap_file_detach_locked`, apart from the compressed tier. -/
def swapFileDetachLocked : Area :=
  { area with
    fd := none, freeBitmap := none, ramOnly := false, slotCount := 0, slotsUsed := 0,
    allocRover := 0, slotSize := 0 }

/-- The number of bitmap words, computed in 32 bits. -/
def bitmapWords (slots : Nat) : Nat := (slots + 64 - 1) % 2 ^ 32 / 64

/-- The last critical section of `swap_enable_locked`, with the descriptor of
    the file that was built. -/
def publish (req : Request) (fd : Nat) : Option Area :=
  match bitSetFrom (req.slots - 1) 1 (List.replicate (bitmapWords req.slots) 0#64) with
  | none => none
  | some words =>
    some { area with
        fd := if req.ramOnly then none else some fd
        ramOnly := req.ramOnly
        slotSize := req.frame
        slotCount := req.slots
        slotsUsed := 0
        freeBitmap := some words
        allocRover := 1
        on := true }

/-- The rolling of the 24-hour window at the head of `swap_slot_alloc`. -/
def rollWindow (now : Int) : Area :=
  if area.windowStart = 0 ∨ now - area.windowStart ≥ writeWindowSeconds then
    { area with windowStart := now, writtenWindow := 0 }
  else area

def overBudget : Prop :=
  area.writeBudget ≠ 0 ∧ area.writtenWindow ≥ area.writeBudget

instance (area : Area) : Decidable (overBudget area) :=
  inferInstanceAs (Decidable (_ ∧ _))

/-- The slot after `i`, skipping slot 0. -/
def nextSlot (slotCount i : Nat) : Nat := if i + 1 ≥ slotCount then 1 else i + 1

/-- The search loop of `swap_slot_alloc`, for at most `fuel` turns. The inner
    result is the free slot that was found. -/
def findFree (words : List (BitVec 64)) (slotCount start : Nat) : Nat → Nat → Option (Option Nat)
  | 0, _ => none
  | fuel + 1, i =>
    match bitTest words i with
    | none => none
    | some true => some (some i)
    | some false =>
      if nextSlot slotCount i = start then some none
      else findFree words slotCount start fuel (nextSlot slotCount i)

/-- Where the search starts. -/
def searchStart : Nat :=
  if area.allocRover = 0 ∨ area.allocRover ≥ area.slotCount then 1 else area.allocRover

/-- The area after slot `i` was found. -/
def takeSlot (words : List (BitVec 64)) (i : Nat) : Area :=
  { area with
    freeBitmap := some words
    slotsUsed := (area.slotsUsed + 1) % 2 ^ 32
    allocRover := nextSlot area.slotCount i }

/-- `swap_slot_alloc`. The search visits each slot once, so `slotCount` turns
    are enough. -/
def swapSlotAlloc (now : Int) : Option (Area × Except Errno Nat) :=
  if overBudget (rollWindow area now) then some (rollWindow area now, .error .enospc)
  else
    match (rollWindow area now).on, (rollWindow area now).freeBitmap with
    | false, _ => some (rollWindow area now, .error .enospc)
    | true, none => some (rollWindow area now, .error .enospc)
    | true, some words =>
      match findFree words area.slotCount (searchStart area) area.slotCount (searchStart area) with
      | none => none
      | some none => some (rollWindow area now, .error .enospc)
      | some (some i) =>
        (bitClear words i).map fun words => (takeSlot (rollWindow area now) words i, .ok i)

/-- The area after slot `slot`, which was out, came back. -/
def giveSlot (words : List (BitVec 64)) (slot : Nat) : Area :=
  { area with
    freeBitmap := some words
    slotsUsed := if area.slotsUsed > 0 then area.slotsUsed - 1 else area.slotsUsed
    allocRover := slot }

/-- The end of `swap_slot_free`: a stopped area with nothing out is taken away.
    The flag says whether that happened. -/
def drainCheck : Area × Bool :=
  if area.slotsUsed = 0 ∧ area.on = false ∧ area.live then (swapFileDetachLocked area, true)
  else (area, false)

/-- `swap_slot_free`, apart from the compressed tier. -/
def swapSlotFree (slot : Nat) : Option (Area × Bool) :=
  if slot = slotNone then some (area, false)
  else
    match area.freeBitmap with
    | none => some (area, false)
    | some words =>
      if slot ≥ area.slotCount then some (area, false)
      else
        match bitTest words slot with
        | none => none
        | some true => some (drainCheck area)
        | some false =>
          (bitSet words slot).map fun words => drainCheck (giveSlot area words slot)

/-- Where the holder of `swap_config_lock` is. The request of a disable is the
    enable it is part of, if any. -/
inductive Phase
  /-- Nobody holds the lock. -/
  | idle
  /-- An enable that passed its size checks. -/
  | check (req : Request)
  /-- A disable that has not yet cleared the switch. -/
  | stop (next : Option Request)
  /-- A disable about to see whether there is an area. -/
  | probe (next : Option Request)
  /-- A disable bringing pages back. -/
  | walk (next : Option Request)
  /-- An enable whose own disable is over. -/
  | recheck (req : Request)
  /-- An enable building its area with `swap_lock` dropped. -/
  | build (req : Request)

/-- Where a disable that is over leaves the holder of the lock. -/
def afterDisable : Option Request → Phase
  | none => .idle
  | some req => .recheck req

/-- The first look at the area by `swap_enable_locked`. -/
def checkArea (req : Request) : Phase :=
  if area.live then
    if area.slotCount = req.slots ∧ area.slotSize = req.frame ∧ area.on = true then .idle
    else if area.on = false then .idle
    else .stop (some req)
  else .build req

/-- The last critical section of `swap_disable_locked`. -/
def finishDisable : Area :=
  if area.slotsUsed ≠ 0 then area else swapFileDetachLocked area

/-- The area, the holder of the configuration lock, and the slots that were
    handed out and not freed since. -/
structure SlotSys where
  area : Area
  phase : Phase
  held : Finset Nat

/-- What a step does. -/
inductive SlotOp
  | enable (req : Request)
  | check
  | disable
  | stop
  | probe
  | walk
  | recheck
  | buildFails
  | publish (fd : Nat)
  | alloc (now : Int) (result : Except Errno Nat)
  | free (slot : Nat)
  | wrote (len : Nat)

/-- The record of held slots after an allocation. -/
def recordAlloc (held : Finset Nat) : Except Errno Nat → Finset Nat
  | .ok i => insert i held
  | .error _ => held

/-- One critical section. -/
inductive SlotStep : SlotSys → SlotOp → SlotSys → Prop
  | enable (area held req) : SlotStep ⟨area, .idle, held⟩ (.enable req) ⟨area, .check req, held⟩
  | check (area held req) :
      SlotStep ⟨area, .check req, held⟩ .check ⟨area, checkArea area req, held⟩
  | disable (area held) : SlotStep ⟨area, .idle, held⟩ .disable ⟨area, .stop none, held⟩
  | stop (area held next) :
      SlotStep ⟨area, .stop next, held⟩ .stop ⟨{ area with on := false }, .probe next, held⟩
  | probe (area held next) : SlotStep ⟨area, .probe next, held⟩ .probe
        ⟨area, if area.live then .walk next else afterDisable next, held⟩
  | walk (area held next) :
      SlotStep ⟨area, .walk next, held⟩ .walk ⟨finishDisable area, afterDisable next, held⟩
  | recheck (area held req) : SlotStep ⟨area, .recheck req, held⟩ .recheck
        ⟨area, if area.live then .idle else .build req, held⟩
  | buildFails (area held req) : SlotStep ⟨area, .build req, held⟩ .buildFails ⟨area, .idle, held⟩
  | publish (area area' held req fd) : publish area req fd = some area' →
      SlotStep ⟨area, .build req, held⟩ (.publish fd) ⟨area', .idle, held⟩
  | alloc (area area' phase held now result) : swapSlotAlloc area now = some (area', result) →
      SlotStep ⟨area, phase, held⟩ (.alloc now result) ⟨area', phase, recordAlloc held result⟩
  | free (area area' phase held slot drained) : swapSlotFree area slot = some (area', drained) →
      SlotStep ⟨area, phase, held⟩ (.free slot) ⟨area', phase, held.erase slot⟩
  | wrote (area phase held len) : SlotStep ⟨area, phase, held⟩ (.wrote len)
        ⟨{ area with writtenWindow := (area.writtenWindow + len) % 2 ^ 64 }, phase, held⟩

/-- The module before the first enable; the budget is a setting. -/
def initialArea (writeBudget : Nat) : Area :=
  { on := false, fd := none, ramOnly := false, slotSize := 0, slotCount := 0, slotsUsed := 0,
    freeBitmap := none, allocRover := 0, writeBudget := writeBudget, writtenWindow := 0,
    windowStart := 0 }

end IshAok.Swap
