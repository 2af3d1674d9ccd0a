import IshAok.Base.Limits
import Mathlib

/-!
# Ownership of a Mapping

The model of the ownership record of `struct data` in `emu/memory.c`. A mapping is reached
by the page-table entries of any number of address spaces. The record names at most two of
them with their numbers of entries, counts the entries of all others together, and keeps a
byte per host frame with the number of entries that point into it.

The entries themselves are kept beside the record, as a multiset of address spaces with
data offsets. The record does not read them. They say what an update is about: a release
takes off entries that are there, and a mapping is initialised before any entry names it.

Every update runs under a lock of its own, so an update is one step. A count of entries is
a machine integer of 32 bits and wraps. The host page size is a parameter.

## Main definitions

* `Data`: The record.
* `dataOwnerInit`, `dataOwnerAcquire`, `dataOwnerRelease`: The updates.
* `dataIsExclusiveTo`: The question the record answers.
* `State`, `Action`, `Step`: The record with the entries it is about.
-/

namespace IshAok.DataOwner

open Base

/-- `DATA_FRAME_REFS_SATURATED`. -/
def saturated : Nat := 255

/-- The bound of a count of entries. -/
def countLimit : Nat := 2 ^ 32

/-- `struct data_owner`. -/
structure Owner (M : Type) where
  mem : M
  entries : Nat
deriving DecidableEq

/-- The ownership fields of `struct data`. The list is the array `owners` up to `n_owners`.
    There are no frame counts where they could not be allocated. -/
structure Data (M : Type) where
  size : Nat
  owners : List (Owner M)
  overflowEntries : Nat
  frameRefs : Option (Nat → Nat)

/-! ## The frame counts -/

/-- `mem_frame_size`. -/
def memFrameSize (realPageSize : Nat) : Nat :=
  if pageSize < realPageSize then realPageSize else pageSize

/-- `mem_frame_count`. -/
def memFrameCount (realPageSize size : Nat) : Nat :=
  (size + memFrameSize realPageSize - 1) / memFrameSize realPageSize

/-- The pages of a run that fall into a frame. The offsets of the first and of the last page
    are given. -/
def framePages (frame first last f : Nat) : Nat :=
  let lo := if f * frame < first then first else f * frame
  let hi := if last + pageSize < f * frame + frame then last + pageSize else f * frame + frame
  (hi - lo) / pageSize

/-- The new value of a frame count. -/
def adjust (add : Bool) (slot n : Nat) : Nat :=
  if slot = saturated then slot
  else if add then if saturated ≤ slot + n then saturated else slot + n
  else if slot ≤ n then 0 else slot - n

/-- The loop over the frames of a run, with the number of turns that are left. -/
def frameRefsLoop (frame frames first last : Nat) (add : Bool) : Nat → Nat → (Nat → Nat) → Nat → Nat
  | 0, _, refs => refs
  | turns + 1, f, refs =>
    if frames ≤ f then refs
    else
      frameRefsLoop frame frames first last add turns (f + 1)
        (Function.update refs f (adjust add (refs f) (framePages frame first last f)))

variable {M : Type} [DecidableEq M] (realPageSize : Nat)

/-- `data_frame_refs_add_locked`. -/
def dataFrameRefsAddLocked (data : Data M) (offset pages : Nat)
    (add : Bool) : Data M :=
  match data.frameRefs with
  | none => data
  | some refs =>
    if pages = 0 then data
    else
      let frame := memFrameSize realPageSize
      let last := offset + (pages - 1) * pageSize
      { data with
        frameRefs := some (frameRefsLoop frame (memFrameCount realPageSize data.size)
          offset last add (last / frame + 1 - offset / frame) (offset / frame) refs) }

/-! ## The owners -/

/-- `data_owner_count`. -/
def dataOwnerCount (pages : Nat) : Nat :=
  if countLimit - 1 < pages then countLimit - 1 else pages

/-- The slot of an address space with a new number of entries. It has no result where the
    address space has no slot. -/
def updateSlot (mem : M) (g : Nat → Nat) : List (Owner M) → Option (List (Owner M))
  | [] => none
  | o :: os =>
    if o.mem = mem then some ({ o with entries := g o.entries } :: os)
    else (updateSlot mem g os).map (o :: ·)

/-- `data_owner_init`. -/
def dataOwnerInit (data : Data M) (mem : M) (offset pages : Nat) : Data M :=
  if pages = 0 then data
  else
    dataFrameRefsAddLocked realPageSize
      { data with owners := [⟨mem, dataOwnerCount pages⟩], overflowEntries := 0 }
      offset pages true

/-- The owners of `data_owner_acquire`. -/
def acquireOwners (data : Data M) (mem : M) (pages : Nat) : Data M :=
  match updateSlot mem (fun n => (n + dataOwnerCount pages) % countLimit) data.owners with
  | some owners => { data with owners := owners }
  | none =>
    if data.overflowEntries ≠ 0 ∨ 2 ≤ data.owners.length then
      { data with
        overflowEntries := (data.overflowEntries + dataOwnerCount pages) % countLimit }
    else { data with owners := data.owners ++ [⟨mem, dataOwnerCount pages⟩] }

/-- `data_owner_acquire`. -/
def dataOwnerAcquire (data : Data M) (mem : M) (offset pages : Nat) : Data M :=
  if pages = 0 then data
  else dataFrameRefsAddLocked realPageSize (acquireOwners data mem pages) offset pages true

/-- The subtraction of `data_owner_release`, which stops at zero. -/
def lessEntries (pages n : Nat) : Nat :=
  if dataOwnerCount pages ≤ n then n - dataOwnerCount pages else 0

/-- The counts of `data_owner_release`. -/
def releaseOwners (data : Data M) (mem : M) (pages : Nat) : Data M :=
  match updateSlot mem (lessEntries pages) data.owners with
  | some owners => { data with owners := owners }
  | none => { data with overflowEntries := lessEntries pages data.overflowEntries }

/-- The sweep of empty slots, which waits until nothing is overflowed. -/
def sweepOwners (data : Data M) : Data M :=
  if data.overflowEntries = 0 then
    { data with owners := data.owners.filter (fun o => decide (o.entries ≠ 0)) }
  else data

/-- `data_owner_release`. -/
def dataOwnerRelease (data : Data M) (mem : M) (offset pages : Nat) : Data M :=
  if pages = 0 then data
  else
    dataFrameRefsAddLocked realPageSize (sweepOwners (releaseOwners data mem pages))
      offset pages false

/-- `data_is_exclusive_to`. -/
def dataIsExclusiveTo (data : Data M) (mem : M) : Bool :=
  match data.owners with
  | [o] => decide (data.overflowEntries = 0 ∧ o.mem = mem ∧ o.entries ≠ 0)
  | _ => false

/-! ## The system -/

/-- The record and the page-table entries that point at the mapping. An entry is its address
    space and its data offset. -/
structure State (M : Type) where
  data : Data M
  live : Multiset (M × Nat)

/-- The entries of a run of pages. -/
def entriesOf (mem : M) (offset pages : Nat) : Multiset (M × Nat) :=
  (List.range pages).map (fun k => (mem, offset + k * pageSize))

/-- An update of the record. -/
inductive Action (M : Type)
  | init (mem : M) (offset pages : Nat)
  | acquire (mem : M) (offset pages : Nat)
  | release (mem : M) (offset pages : Nat)

/-- When an update is made. A mapping is initialised before an entry names it, and what is
    released is there. The offset of a page is a multiple of the page size. -/
def Enabled (s : State M) : Action M → Prop
  | .init _ offset _ => pageSize ∣ offset ∧ s.live = 0
  | .acquire _ offset _ => pageSize ∣ offset
  | .release mem offset pages => pageSize ∣ offset ∧ entriesOf mem offset pages ≤ s.live

/-- The state after an update. -/
def exec (s : State M) : Action M → State M
  | .init mem offset pages =>
    ⟨dataOwnerInit realPageSize s.data mem offset pages, s.live + entriesOf mem offset pages⟩
  | .acquire mem offset pages =>
    ⟨dataOwnerAcquire realPageSize s.data mem offset pages, s.live + entriesOf mem offset pages⟩
  | .release mem offset pages =>
    ⟨dataOwnerRelease realPageSize s.data mem offset pages, s.live - entriesOf mem offset pages⟩

/-- The steps of the system. -/
def Step (s : State M) (a : Action M) (u : State M) : Prop :=
  Enabled s a ∧ u = exec realPageSize s a

/-- A mapping that `pt_map` has allocated. Its frame counts are there if `counted` is. -/
def State.start (size : Nat) (counted : Bool) : State M where
  data :=
    { size := size
      owners := []
      overflowEntries := 0
      frameRefs := if counted then some (fun _ => 0) else none }
  live := 0

/-- The entries that an address space holds. -/
def holds (s : State M) (mem : M) : Nat :=
  s.live.countP (fun e => e.1 = mem)

/-- The entries that point into a frame. -/
def pointing (s : State M) (f : Nat) : Nat :=
  s.live.countP (fun e => e.2 / memFrameSize realPageSize = f)

end IshAok.DataOwner
