import IshAok.Base.Limits
import Mathlib.Logic.Function.Basic

/-!
# The Exec Cache

The cache of translated blocks in `jit/jit.c` that outlives processes. A miss in
a process looks for an entry of the same address whose bytes are those that are
there now, and takes a copy of its block. Otherwise the block is translated, and
then the bytes are fetched again and kept with it.

What the translator does is a parameter: a program that fetches bytes, at any
offsets from its address, and ends with a block or without one. Memory is cells
that any number of address spaces map, and it changes between any two fetches.
The cache has a lock, which a lookup keeps while it fetches.

The counters of hits are left out, and so is what the switch does to the
layout of new processes. A block that comes from a parent is neither looked
up nor kept here. `log` is not in the source: it is what a compile has fetched.

## Main definitions

* `Gen`, `Gen.run`: A translation.
* `Entry`, `xcBucket`: The table.
* `Phase`, `State`: The threads and what they share.
* `exec`, `Step`: What happens.
-/

namespace IshAok.ExecCache

open Base

abbrev Byte := BitVec 8

/-- `struct jit_block`, unchained. -/
structure Block where
  addr : Nat
  endAddr : Nat
  used : Nat
  noShare : Bool
  code : List Nat
  deriving DecidableEq

/-- A translation in progress: it fetches a byte at an offset or is done. -/
inductive Gen
  | fetch (offset : Nat) (next : Option Byte → Gen)
  | done (block : Option Block)

/-- The block that bytes are translated to. -/
def Gen.run (read : Nat → Option Byte) : Gen → Option Block
  | .fetch offset next => (next (read offset)).run read
  | .done block => block

/-- The offsets that are fetched for it. -/
def Gen.offsets (read : Nat → Option Byte) : Gen → List Nat
  | .fetch offset next => offset :: (next (read offset)).offsets read
  | .done _ => []

def xcTail : Nat := 8

/-- `XC_MAX_BYTES`. -/
def xcMaxBytes : Nat := 100663296

/-- `struct xc_entry`. -/
structure Entry where
  addr : Nat
  bytes : List Byte
  block : Block
  deriving DecidableEq

/-- `xc_bucket`. -/
def xcBucket (addr : Nat) : Nat :=
  addr * 0x9e3779b97f4a7c15 % 18446744073709551616 / 281474976710656

/-- How many bytes are kept with a block, as an `unsigned`. -/
def keptLen (block : Block) : Nat := (block.endAddr - block.addr + 1 + xcTail) % 4294967296

/-- What an entry costs: `struct xc_entry`, the bytes and the block. -/
def cost (block : Block) : Nat := 32 + keptLen block + 192 + block.used * 8

/-- The cells that address spaces map for execution. -/
structure Memory (A : Type) where
  maps : A → Nat → Option Nat
  cells : Nat → Byte

/-- `tlb_fetch` of one byte. -/
def Memory.fetch {A : Type} (mem : Memory A) (space : A) (addr : Nat) : Option Byte :=
  (mem.maps space addr).map mem.cells

/-- Where a thread is in `jit_block_inherit_or_compile`. -/
inductive Phase (A : Type)
  | idle
  /-- In `jit_xcache_lookup`, with what it has of the bytes and of a fetch. -/
  | looking (space : A) (ip : Nat) (chain : List Entry) (now part : List Byte)
  | compiling (space : A) (ip : Nat) (gen : Gen) (log : List (Nat × Option Byte))
  /-- In `jit_xcache_store`. -/
  | recording (space : A) (block : Block) (log : List (Nat × Option Byte)) (bytes : List Byte)

structure State (A T : Type) where
  mem : Memory A
  table : Nat → List Entry
  xcBytes : Nat
  enabled : Bool
  lock : Option T
  phase : T → Phase A

/-- What happens. `ok` is whether there is memory for the cache. -/
inductive Action (A T : Type)
  | store (cell : Nat) (value : Byte)
  | map (maps : A → Nat → Option Nat)
  | setEnabled (on : Bool)
  | translate (t : T) (space : A) (ip : Nat)
  | turn (t : T) (ok : Bool)

/-- Memory after it. -/
def Action.memory {A T : Type} (mem : Memory A) : Action A T → Memory A
  | .store cell value => { mem with cells := Function.update mem.cells cell value }
  | .map maps => { mem with maps := maps }
  | _ => mem

/-- A block that a lookup returns, with the bytes it has fetched and how many of
    them were compared: the `len` of the entry. -/
structure Hit where
  ip : Nat
  block : Block
  now : List Byte
  len : Nat

section

variable {A T : Type} [DecidableEq T] (gen : Nat → Gen) (s : State A T)

def State.set (t : T) (phase : Phase A) : State A T :=
  { s with phase := Function.update s.phase t phase }

/-- The end of `jit_xcache_lookup` without a block, after which it is compiled. -/
def miss (t : T) (space : A) (ip : Nat) : State A T :=
  { s.set t (.compiling space ip (gen ip) []) with lock := none }

/-- The loop of `jit_xcache_lookup`, a byte or an entry at a time. -/
def lookupTurn (t : T) (ok : Bool) (space : A) (ip : Nat) (now part : List Byte) :
    List Entry → State A T × Option Hit
  | [] => (miss gen s t space ip, none)
  | e :: rest =>
    if e.addr ≠ ip then (s.set t (.looking space ip rest now []), none)
    else if now.length + part.length < e.bytes.length then
      match s.mem.fetch space (ip + now.length + part.length) with
      | none => (s.set t (.looking space ip rest now []), none)
      | some b => (s.set t (.looking space ip (e :: rest) now (part ++ [b])), none)
    else if (now ++ part).take e.bytes.length = e.bytes then
      -- The clone may fail, and no other entry is tried.
      if ok then
        ({ s.set t .idle with lock := none }, some ⟨ip, e.block, now ++ part, e.bytes.length⟩)
      else (miss gen s t space ip, none)
    else (s.set t (.looking space ip rest (now ++ part) []), none)

/-- Whether `jit_xcache_store` keeps a block, as far as that is known before the
    bytes are fetched. -/
def mayStore (block : Block) (ok : Bool) : Bool :=
  s.enabled && !block.noShare && decide (block.addr ≤ block.endAddr) &&
    decide (keptLen block ≤ pageSize + xcTail) &&
    decide (s.xcBytes + cost block ≤ xcMaxBytes) && ok

/-- The end of `jit_xcache_store`. -/
def insert (block : Block) (bytes : List Byte) : State A T :=
  { s with
    table := Function.update s.table (xcBucket block.addr)
      (⟨block.addr, bytes, block⟩ :: s.table (xcBucket block.addr))
    xcBytes := s.xcBytes + cost block }

/-- A thread goes on. A thread that waits for the lock does not. -/
def turn (t : T) (ok : Bool) : Option (State A T × Option Hit) :=
  match s.phase t with
  | .idle => none
  | .looking space ip chain now part => some (lookupTurn gen s t ok space ip now part chain)
  | .compiling space ip (.fetch offset next) log =>
    let b := s.mem.fetch space (ip + offset)
    some (s.set t (.compiling space ip (next b) (log ++ [(offset, b)])), none)
  | .compiling _ _ (.done none) _ => some (s.set t .idle, none)
  | .compiling space _ (.done (some block)) log =>
    some (s.set t (if mayStore s block ok then .recording space block log [] else .idle), none)
  | .recording space block log bytes =>
    if bytes.length < keptLen block then
      match s.mem.fetch space (block.addr + bytes.length) with
      | none => some (s.set t .idle, none)
      | some b => some (s.set t (.recording space block log (bytes ++ [b])), none)
    else if !ok then some (s.set t .idle, none)
    else if s.lock = none then some ((insert s block bytes).set t .idle, none)
    else none

/-- `jit_xcache_set_enabled`. -/
def setEnabled (on : Bool) : State A T :=
  if !on && s.enabled then { s with enabled := on, table := fun _ => [], xcBytes := 0 }
  else { s with enabled := on }

/-- The start of `jit_block_inherit_or_compile`. -/
def translate (t : T) (space : A) (ip : Nat) : Option (State A T) :=
  match s.phase t with
  | .idle =>
    if !s.enabled then some (s.set t (.compiling space ip (gen ip) []))
    else if s.lock = none then
      some { s.set t (.looking space ip (s.table (xcBucket ip)) [] []) with lock := some t }
    else none
  | _ => none

def exec : Action A T → Option (State A T × Option Hit)
  | .setEnabled on => if s.lock = none then some (setEnabled s on, none) else none
  | .translate t space ip => (translate gen s t space ip).map fun s => (s, none)
  | .turn t ok => turn gen s t ok
  | a => some ({ s with mem := a.memory s.mem }, none)

def Step (a : Action A T) (s' : State A T) : Prop :=
  (exec gen s a).map Prod.fst = some s'

end

end IshAok.ExecCache
