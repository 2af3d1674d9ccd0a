import IshAok.Core.Seccomp

/-!
# Seccomp Filters in a Checkpoint

`seccomp_ckpt_export`, `seccomp_ckpt_import` and `seccomp_ckpt_import_done` of
`kernel/seccomp.c`. A saved chain is its programs, oldest first. Restored
filters are made anew, and here their addresses and reference counts matter, so
they are cells of a heap: an address is an index, and a filter that was freed
is a cell without references.

The import looks for a filter it has made that has the same program on the same
filter below, and makes one otherwise. All it makes are remembered, with a
reference, until the restore is done. Allocations do not fail.

## Main definitions

* `CkptProg`, `seccompCkptExport`: A saved chain.
* `Cell`, `retain`, `release`: Filters and their references.
* `seccompCkptImport`, `importAll`, `importDone`: The restore.
* `filtersOf`, `isAncestorIn`: Chains of a heap.
-/

namespace IshAok.Seccomp

/-- `struct seccomp_ckpt_prog`. -/
structure CkptProg where
  log : Bool
  insns : List SockFilter
  deriving DecidableEq, Repr

/-- `seccomp_ckpt_export`: the chain runs newest first. -/
def seccompCkptExport (chain : List Filter) : List CkptProg :=
  (chain.map fun f => ⟨f.log, f.prog.insns⟩).reverse

/-- `struct seccomp_filter` on the heap. -/
structure Cell where
  refcount : Nat
  prev : Option Nat
  prog : CkptProg
  deriving DecidableEq, Repr

/-- `seccomp_filter_retain`. -/
def retain (heap : List Cell) (i : Nat) : List Cell :=
  heap.modify i fun c => { c with refcount := c.refcount + 1 }

/-- `seccomp_filter_release`, for at most a number of turns. -/
def releaseLoop : Nat → List Cell → Option Nat → List Cell
  | 0, heap, _ => heap
  | _ + 1, heap, none => heap
  | turns + 1, heap, some i =>
    match heap[i]? with
    | none => heap
    | some c =>
      let heap := heap.set i { c with refcount := c.refcount - 1 }
      if c.refcount = 1 then releaseLoop turns heap c.prev else heap

/-- `seccomp_filter_release`. -/
def release (heap : List Cell) (filter : Option Nat) : List Cell :=
  releaseLoop heap.length heap filter

/-- The filters that were made, and `import_seen`. -/
structure Import where
  heap : List Cell
  seen : List Nat
  deriving DecidableEq, Repr

/-- `import_find`. -/
def importFind (st : Import) (prev : Option Nat) (p : CkptProg) : Option Nat :=
  st.seen.find? fun i => (st.heap[i]?.map fun c => (c.prev, c.prog)) = some (prev, p)

/-- `filter_new`, the link to the filter below, and `import_remember`. -/
def importNew (st : Import) (prev : Option Nat) (p : CkptProg) : Import :=
  { heap := retain (st.heap ++ [⟨1, prev, p⟩]) st.heap.length
    seen := st.seen ++ [st.heap.length] }

/-- The checks an installing `seccomp` makes. -/
def importRefused (p : CkptProg) : Bool :=
  if h : 0 < p.insns.length ∧ p.insns.length ≤ bpfMaxInsns then
    match bpfCheck ⟨p.insns, h.1, h.2⟩ true with
    | .ok () => false
    | .error _ => true
  else true

/-- The loop of `seccomp_ckpt_import`, with `head`. -/
def importLoop (st : Import) (head : Option Nat) : List CkptProg → Import × Option Nat
  | [] => (st, head)
  | p :: progs =>
    if importRefused p then ({ st with heap := release st.heap head }, none)
    else match importFind st head p with
      | some same =>
        importLoop { st with heap := release (retain st.heap same) head } (some same) progs
      | none => importLoop (importNew st head p) (some st.heap.length) progs

/-- `seccomp_ckpt_import`. -/
def seccompCkptImport (st : Import) (progs : List CkptProg) : Import × Option Nat :=
  importLoop st none progs

/-- The tasks of a restore, one after the other: what each one gets. -/
def importAll (st : Import) : List (List CkptProg) → Import × List (Option Nat)
  | [] => (st, [])
  | progs :: rest =>
    let r := seccompCkptImport st progs
    let r' := importAll r.1 rest
    (r'.1, r.2 :: r'.2)

/-- `seccomp_ckpt_import_done`. -/
def importDone (st : Import) : List Cell :=
  st.seen.foldl (fun heap i => release heap (some i)) st.heap

/-- The filters of a chain, newest first, for at most a number of links. -/
def filtersOf (heap : List Cell) : Nat → Option Nat → List Nat
  | 0, _ => []
  | _ + 1, none => []
  | links + 1, some i => i :: filtersOf heap links (heap[i]?.bind Cell.prev)

/-- `seccomp_ckpt_export` on a heap. -/
def exportIn (heap : List Cell) (head : Option Nat) : List CkptProg :=
  ((filtersOf heap heap.length head).filterMap fun i => heap[i]?.map Cell.prog).reverse

/-- `is_ancestor` on a heap. -/
def isAncestorIn (heap : List Cell) (parent child : Option Nat) : Bool :=
  match parent with
  | none => true
  | some i => decide (i ∈ filtersOf heap heap.length child)

end IshAok.Seccomp
