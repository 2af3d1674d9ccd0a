import IshAok.Base.Bytes
import IshAok.Base.Limits
import IshAok.Base.Run
import Mathlib

/-!
# The Compressed-Page Pool

The model of `kernel/zpool.c`, a slab allocator for objects of varying size.
An object is rounded up to a multiple of 256 bytes, its size class, and each
class carves slabs of `objectMax` bytes into equal entries. The free entries
of a slab form a list threaded through their own first two bytes, and the
slabs of a class that have a free entry form a list threaded through the
slabs. A handle packs the slab, the entry and the size into 64 bits.

The embedding keeps the bytes. A slab's memory is a list of bytes, the free
list is read from and written to it, and every copy is bounds checked by
`readAt` and `writeAt`. A function of the model returns no result when the
code would touch memory outside its blocks: an entry out of bounds, or a slab
table that is no longer there.

What the host decides comes in as arguments. `reallocOk` says whether the
slab table could be grown, and `junk` is the contents of a fresh block when
there is one. A `realloc` to size zero gives the table back to the host
whatever it returns.

Fixed-width fields are numbers with the wrap written out. `Sys` puts beside
the pool a record of what was stored and not freed since, which no function
of the pool reads.

## Main definitions

* `Slab`, `Stats`, `Pool`: The state of a pool.
* `zpoolCreate`: An empty pool.
* `slabNew`: Add a slab to a class.
* `partialRemove`: Drop a slab from its class's list.
* `zpoolStore`: Copy an object in and hand out its handle.
* `handleDecode`: The entry a handle names.
* `zpoolLoad`: Copy an object out.
* `zpoolFree`: Put an entry back on its slab's free list.
* `PoolStep`: One call, with the record of live objects.
-/

namespace IshAok.Zpool

open Base

/-- `ZPOOL_GRANULE`. -/
def granule : Nat := 256

/-- `ZPOOL_OBJECT_MAX`. -/
def objectMaxBound : Nat := 16384

/-- `ZPOOL_NO_ENTRY`. -/
def noEntry : Nat := 0xFFFF

/-- `ZPOOL_HANDLE_NONE`. -/
def handleNone : Nat := 0

/-- `struct zpool_slab`. -/
structure Slab where
  mem : List UInt8
  classIndex : Nat
  entries : Nat
  used : Nat
  freeHead : Nat
  nextPartial : Nat

/-- `struct zpool_stats`. -/
structure Stats where
  objects : Nat
  storedBytes : Nat
  poolBytes : Nat
  stores : Nat
  loads : Nat
  frees : Nat
  storeFailures : Nat
  slabs : Nat

/-- `struct zpool`. The list is the part of the slab table in use. -/
structure Pool where
  slabs : List Slab
  objectMax : Nat
  slabCount : Nat
  slabCapacity : Nat
  partialHead : Nat → Nat
  maxBytes : Nat
  stats : Stats

/-- `x++` on a 64-bit counter. -/
def inc64 (x : Nat) : Nat := (x + 1) % 2 ^ 64

/-- `x -= d` on a 64-bit counter. -/
def sub64 (x d : Nat) : Nat := (x + 2 ^ 64 - d) % 2 ^ 64

def classEntrySize (classIndex : Nat) : Nat := (classIndex + 1) * granule

/-- Where `entry_ptr` points, as an offset into the slab's memory. -/
def entryOffset (slab : Slab) (entry : Nat) : Nat := entry * classEntrySize slab.classIndex

/-- The two bytes of a `uint16_t`, low byte first. -/
def putU16 (n : Nat) : List UInt8 := [UInt8.ofNat (n % 256), UInt8.ofNat (n / 256)]

def getU16 (mem : List UInt8) (off : Nat) : Option Nat :=
  match readAt mem off 2 with
  | some [lo, hi] => some (lo.toNat + 256 * hi.toNat)
  | _ => none

/-- `zpool_create`; `calloc` may fail. -/
def zpoolCreate (maxBytes objectMax : Nat) (callocOk : Bool) : Option Pool :=
  if objectMax = 0 ∨ objectMax > objectMaxBound ∨ objectMax % granule ≠ 0 then none
  else if callocOk then
    some
      { slabs := [], objectMax := objectMax, slabCount := 0, slabCapacity := 0,
        partialHead := fun _ => 0, maxBytes := maxBytes, stats := ⟨0, 0, 0, 0, 0, 0, 0, 0⟩ }
  else none

variable (pool : Pool)

/-- Growing the slab table, the first half of `slab_new`. The flag is whether
    the table has room afterwards as far as the code can tell. -/
def growTable (reallocOk : Bool) : Option (Pool × Bool) :=
  if pool.slabCount = pool.slabCapacity then
    -- A table the host already took back cannot be reallocated.
    if pool.slabs.length < pool.slabCount then none
    else
      let want := if pool.slabCapacity = 0 then 16 else pool.slabCapacity * 2 % 2 ^ 32
      if reallocOk then
        some ({ pool with slabs := pool.slabs.take want, slabCapacity := want }, true)
      else
        -- A null result leaves the old table, except that a size of zero frees it.
        some ({ pool with slabs := if want = 0 then [] else pool.slabs }, false)
  else some (pool, true)

/-- The loop of `slab_new` that threads the free list: `n` entries to go, from
    entry `e` on. -/
def threadEntries (size entries : Nat) : Nat → Nat → List UInt8 → Option (List UInt8)
  | 0, _, mem => some mem
  | n + 1, e, mem =>
    match writeAt mem (e * size) (putU16 (if e + 1 = entries then noEntry else e + 1)) with
    | none => none
    | some mem => threadEntries size entries n (e + 1) mem

/-- Carving a fresh block into a slab, the second half of `slab_new`. -/
def addSlab (classIndex : Nat) (junk : Option (Nat → UInt8)) : Option (Pool × Nat) :=
  match junk with
  | none => some (pool, uint32Max)
  | some junk =>
    let idx := pool.slabCount
    let entries := pool.objectMax / classEntrySize classIndex % 2 ^ 16
    -- The table slot the slab is written to.
    if idx < pool.slabCapacity then
      match threadEntries (classEntrySize classIndex) entries entries 0
          ((List.range pool.objectMax).map junk) with
      | none => none
      | some mem =>
        some ({ pool with
              slabs := pool.slabs ++
                [{ mem := mem, classIndex := classIndex, entries := entries, used := 0,
                   freeHead := 0, nextPartial := pool.partialHead classIndex }]
              slabCount := (idx + 1) % 2 ^ 32
              partialHead := Function.update pool.partialHead classIndex ((idx + 1) % 2 ^ 32)
              stats :=
                { pool.stats with
                  poolBytes := (pool.stats.poolBytes + pool.objectMax) % 2 ^ 64
                  slabs := inc64 pool.stats.slabs } }, idx)
    else none

/-- `slab_new`: the index of a new slab of the class, or `UINT32_MAX`. -/
def slabNew (classIndex : Nat) (reallocOk : Bool)
    (junk : Option (Nat → UInt8)) : Option (Pool × Nat) :=
  if pool.maxBytes ≠ 0 ∧ (pool.stats.poolBytes + pool.objectMax) % 2 ^ 64 > pool.maxBytes then
    some (pool, uint32Max)
  else
    match growTable pool reallocOk with
    | none => none
    | some (pool, false) => some (pool, uint32Max)
    | some (pool, true) => addSlab pool classIndex junk

def setSlab (idx : Nat) (slab : Slab) : Pool :=
  { pool with slabs := pool.slabs.set idx slab }

/-- What the cursor of `partial_remove` points at: a class's head, or the link
    of a slab. -/
inductive Link
  | head (classIndex : Nat)
  | next (idx : Nat)

def getLink : Link → Option Nat
  | .head c => some (pool.partialHead c)
  | .next i => pool.slabs[i]?.map Slab.nextPartial

def setLink (v : Nat) : Link → Option Pool
  | .head c => some { pool with partialHead := Function.update pool.partialHead c v }
  | .next i => pool.slabs[i]?.map fun slab => setSlab pool i { slab with nextPartial := v }

/-- The loop of `partial_remove`, for at most `fuel` turns. -/
def unlinkFrom (idx : Nat) : Nat → Pool → Link → Option Pool
  | 0, _, _ => none
  | fuel + 1, pool, link => do
      let v ← getLink pool link
      if v = 0 then some pool
      else if v - 1 = idx then
        let slab ← pool.slabs[v - 1]?
        let pool ← setLink pool slab.nextPartial link
        let slab ← pool.slabs[v - 1]?
        some (setSlab pool (v - 1) { slab with nextPartial := 0 })
      else unlinkFrom idx fuel pool (.next (v - 1))

/-- `partial_remove`. A list of distinct slabs has no more than `slabCount`. -/
def partialRemove (idx : Nat) : Option Pool := do
  let slab ← pool.slabs[idx]?
  unlinkFrom idx (pool.slabCount + 1) pool (.head slab.classIndex)

/-- The class an object of the given size goes to. -/
def sizeClass (size : Nat) : Nat := ((size + granule - 1) / granule - 1) % 2 ^ 16

def encodeHandle (idx entry size : Nat) : Nat :=
  ((idx + 1) % 2 ^ 32) <<< 24 ||| entry <<< 14 ||| size

def failStore : Pool :=
  { pool with
    stats := { pool.stats with storeFailures := inc64 pool.stats.storeFailures } }

/-- The rest of `zpool_store` once a slab is chosen: pop its free list, copy
    the object in, count it. -/
def storeIn (idx : Nat) (data : List UInt8) : Option (Pool × Nat) := do
  let slab ← pool.slabs[idx]?
  let entry := slab.freeHead
  let next ← getU16 slab.mem (entryOffset slab entry)
  let pool := setSlab pool idx { slab with freeHead := next, used := (slab.used + 1) % 2 ^ 16 }
  let pool ← if next = noEntry then partialRemove pool idx else some pool
  let slab ← pool.slabs[idx]?
  let mem ← writeAt slab.mem (entryOffset slab entry) data
  let pool := setSlab pool idx { slab with mem := mem }
  some ({ pool with
        stats :=
          { pool.stats with
            objects := inc64 pool.stats.objects
            storedBytes := (pool.stats.storedBytes + data.length) % 2 ^ 64
            stores := inc64 pool.stats.stores } },
      encodeHandle idx entry data.length)

/-- `zpool_store`. -/
def zpoolStore (data : List UInt8) (reallocOk : Bool)
    (junk : Option (Nat → UInt8)) : Option (Pool × Nat) :=
  if data.length = 0 ∨ data.length ≥ pool.objectMax then some (failStore pool, handleNone)
  else if pool.partialHead (sizeClass data.length) ≠ 0 then
    storeIn pool (pool.partialHead (sizeClass data.length) - 1) data
  else
    match slabNew pool (sizeClass data.length) reallocOk junk with
    | none => none
    | some (pool, idx) =>
      if idx = uint32Max then some (failStore pool, handleNone) else storeIn pool idx data

/-- What `handle_decode` reports: the slab and its index, the entry, the size. -/
structure Decoded where
  idx : Nat
  slab : Slab
  entry : Nat
  size : Nat

def handleSlab (handle : Nat) : Nat := handle >>> 24

def handleEntry (handle : Nat) : Nat := (handle >>> 14) &&& 0x3FF

def handleSize (handle : Nat) : Nat := handle &&& 0x3FFF

/-- `handle_decode`. The inner result is what the code returns; there is no
    outer one when the slab it looks at is not in the table. -/
def handleDecode (handle : Nat) : Option (Option Decoded) :=
  if handle = handleNone then some none
  else if handleSlab handle = 0 ∨ handleSlab handle > pool.slabCount ∨ handleSize handle = 0 then
    some none
  else
    match pool.slabs[handleSlab handle - 1]? with
    | none => none
    | some slab =>
      if handleEntry handle ≥ slab.entries then some none
      else if handleSize handle > classEntrySize slab.classIndex then some none
      else some (some ⟨handleSlab handle - 1, slab, handleEntry handle, handleSize handle⟩)

/-- `zpool_load`. The bytes copied out carry the size the code reports. -/
def zpoolLoad (handle outSize : Nat) : Option (Pool × Option (List UInt8)) :=
  match handleDecode pool handle with
  | none => none
  | some none => some (pool, none)
  | some (some d) =>
    if outSize < d.size then some (pool, none)
    else
      match readAt d.slab.mem (entryOffset d.slab d.entry) d.size with
      | none => none
      | some bytes =>
        some ({ pool with stats := { pool.stats with loads := inc64 pool.stats.loads } },
          some bytes)

/-- The slab list after an entry of slab `idx` came back: a slab that was full
    goes to the head of its class's list. -/
def relist (idx : Nat) (wasFull : Bool) (slab : Slab) : Pool :=
  if wasFull then
    { setSlab pool idx { slab with nextPartial := pool.partialHead slab.classIndex } with
      partialHead := Function.update pool.partialHead slab.classIndex ((idx + 1) % 2 ^ 32) }
  else setSlab pool idx slab

/-- `zpool_free`. -/
def zpoolFree (handle : Nat) : Option Pool :=
  match handleDecode pool handle with
  | none => none
  | some none => some pool
  | some (some d) =>
    match writeAt d.slab.mem (entryOffset d.slab d.entry) (putU16 d.slab.freeHead) with
    | none => none
    | some mem =>
      let slab :=
        { d.slab with
          mem := mem, freeHead := d.entry, used := (d.slab.used + 2 ^ 16 - 1) % 2 ^ 16 }
      let pool := relist pool d.idx (d.slab.freeHead = noEntry) slab
      some { pool with
          stats :=
            { pool.stats with
              objects := sub64 pool.stats.objects 1
              storedBytes := sub64 pool.stats.storedBytes d.size
              frees := inc64 pool.stats.frees } }

/-- A handle and the bytes stored under it. -/
abbrev Live := List (Nat × List UInt8)

/-- A pool, and what was stored in it and not freed since. -/
structure Sys where
  pool : Pool
  live : Live

/-- The record after a store that returned the given handle. -/
def record (live : Live) (handle : Nat) (data : List UInt8) : Live :=
  if handle = handleNone then live else (handle, data) :: live

/-- A call, with what the host answers while it runs. -/
inductive Op
  | store (data : List UInt8) (reallocOk : Bool) (junk : Option (Nat → UInt8))
  | load (handle outSize : Nat)
  | free (handle : Nat)

/-- One call that completes. Any handle may be loaded or freed. -/
inductive PoolStep : Sys → Op → Sys → Prop
  | store (s data reallocOk junk pool) (handle : Nat) :
      zpoolStore s.pool data reallocOk junk = some (pool, handle) →
      PoolStep s (.store data reallocOk junk) ⟨pool, record s.live handle data⟩
  | load (s handle outSize pool result) : zpoolLoad s.pool handle outSize = some (pool, result) →
      PoolStep s (.load handle outSize) ⟨pool, s.live⟩
  | free (s) (handle : Nat) (pool) : zpoolFree s.pool handle = some pool →
      PoolStep s (.free handle) ⟨pool, s.live.filter (fun o => o.1 ≠ handle)⟩

end IshAok.Zpool
