import IshAok.Core.SeccompCkpt

/-!
# Restored Filter Chains

A restore gives every task its chain back, and tasks that shared filters share
them again. The import never makes a filter that it has: no two of its cells
have the same program on the same filter below. So a cell is known by the
programs from it down to the oldest, `Spells`, and chains with the same programs
are the same filter.

A reference is counted for every owner: a task, a filter above, and the list of
remembered filters until the restore is done. Every filter has an owner besides
that list, so letting go of the list frees nothing.

## Main definitions

* `shape`: The heap without its counts.
* `Spells`: The programs of a chain, oldest first.
* `owners`: The tasks and filters that point to a filter.
* `Sound`: The invariant of an import.
* `Forest`, `Restored`: Chains that share suffixes, and what a restore makes.

## Theorems

* `spells_inj`: Chains with the same programs are the same.
* `sound_loop`, `sound_all`: An import keeps the invariant.
* `release_seen`: What letting go of the remembered filters does.
* `checkpoint_restores`: Chains and their sharing survive.
-/

namespace IshAok.Seccomp

open List Option

/-- The heap without its counts. -/
def shape (heap : List Cell) : List (Option Nat × CkptProg) :=
  heap.map fun c => (c.prev, c.prog)

/-- The programs of a chain, oldest first. -/
inductive Spells (S : List (Option Nat × CkptProg)) : Option Nat → List CkptProg → Prop
  | nil : Spells S none []
  | snoc {i : Nat} {prev : Option Nat} {p : CkptProg} {ps : List CkptProg}
      (hi : S[i]? = some (prev, p)) (hprev : Spells S prev ps) : Spells S (some i) (ps ++ [p])

/-- Filters are made above ones that are there. -/
def Down (S : List (Option Nat × CkptProg)) : Prop :=
  ∀ (i : Nat) prev p, S[i]? = some (prev, p) → ∀ j, prev = some j → j < i

/-- The tasks and filters that point to a filter. -/
def owners (heads : List (Option Nat)) (S : List (Option Nat × CkptProg)) (i : Nat) : Nat :=
  heads.count (some i) + S.countP fun c => c.1 = some i

/-- The invariant of an import, with what the tasks have so far. -/
structure Sound (st : Import) (heads : List (Option Nat)) : Prop where
  seen : st.seen = List.range st.heap.length
  down : Down (shape st.heap)
  distinct : (shape st.heap).Nodup
  counted : ∀ i c, st.heap[i]? = some c → c.refcount = 1 + owners heads (shape st.heap) i
  owned : ∀ i, i < st.heap.length → 0 < owners heads (shape st.heap) i
  bounded : ∀ i, some i ∈ heads → i < st.heap.length

section

variable {S T : List (Option Nat × CkptProg)} {heap : List Cell} {st : Import}
  {heads : List (Option Nat)} {head h k : Option Nat} {p : CkptProg} {ps : List CkptProg}

/-! ### Chains -/

theorem shape_get (heap : List Cell) (i : Nat) :
    (shape heap)[i]? = heap[i]?.map fun c => (c.prev, c.prog) :=
  getElem?_map

@[simp] theorem shape_length (heap : List Cell) : (shape heap).length = heap.length :=
  length_map _

theorem spells_append (h : Spells S head ps) (T : List (Option Nat × CkptProg)) :
    Spells (S ++ T) head ps := by
  induction h with
  | nil => exact .nil
  | snoc hi _ ih =>
    exact .snoc ((getElem?_append_left (List.getElem?_eq_some_iff.mp hi).1).trans hi) ih

/-- Chains with the same programs are the same. -/
theorem spells_inj (hS : S.Nodup) (hh : Spells S h ps) (hk : Spells S k ps) : h = k := by
  induction hh generalizing k with
  | nil =>
    generalize hnil : ([] : List CkptProg) = l at hk
    cases hk with
    | nil => rfl
    | snoc => exact absurd hnil.symm (concat_ne_nil _ _)
  | @snoc i prev p ps hi _ ih =>
    generalize hl : ps ++ [p] = l at hk
    cases hk with
    | nil => exact absurd hl (concat_ne_nil _ _)
    | @snoc j prev' p' ps' hj hprev' =>
      rcases append_inj' hl rfl with ⟨rfl, hp⟩
      cases hp
      -- The filters below are the same, and so the cells have the same content.
      cases ih hprev'
      rcases List.getElem?_eq_some_iff.mp hi with ⟨hlt, _⟩
      rw [(getElem?_inj hlt hS).mp (hi.trans hj.symm)]

theorem spells_fun (hh : Spells S h ps) {qs : List CkptProg} (hk : Spells S h qs) : ps = qs := by
  induction hh generalizing qs with
  | nil => cases hk; rfl
  | snoc hi _ ih =>
    cases hk with
    | snoc hj hprev =>
      cases hi.symm.trans hj
      rw [ih hprev]

/-- The chain of a heap is walked in as many links as it has addresses. -/
theorem walk_spells (hdown : Down (shape heap)) (hh : Spells (shape heap) h ps) :
    ∀ links, (∀ i, h = some i → i < links) →
      ((filtersOf heap links h).filterMap fun i => heap[i]?.map Cell.prog).reverse = ps := by
  induction hh with
  | nil =>
    intro links _
    cases links <;> rfl
  | @snoc i prev p ps hi _ ih =>
    intro links hlinks
    have hlt := hlinks i rfl
    rw [shape_get] at hi
    rcases map_eq_some_iff.mp hi with ⟨c, hc, hcell⟩
    cases hcell
    cases links with
    | zero => exact absurd hlt (Nat.not_lt_zero i)
    | succ links =>
      have hrest := ih links fun j hj => by
        have hj' := hdown i c.prev c.prog (by rw [shape_get, hc]; rfl) j hj
        omega
      rw [filtersOf, hc, bind_some, filterMap_cons, hc]
      simp [hrest]

/-- A chain whose programs start another's is in it. -/
theorem start_in_chain (hS : (shape heap).Nodup) (hdown : Down (shape heap)) {i : Nat}
    (hh : Spells (shape heap) (some i) ps) {l : List CkptProg}
    (hk : Spells (shape heap) k l) (hpre : ps <+: l) :
    ∀ links, (∀ j, k = some j → j < links) → i ∈ filtersOf heap links k := by
  induction hk with
  | nil =>
    -- The empty chain starts with nothing.
    rw [prefix_nil] at hpre
    rw [hpre] at hh
    cases spells_inj hS hh .nil
  | @snoc j prev p l hj hprev ih =>
    intro links hlinks
    have hlt := hlinks j rfl
    cases links with
    | zero => exact absurd hlt (Nat.not_lt_zero j)
    | succ links =>
      rw [filtersOf]
      rcases prefix_concat_iff.mp hpre with heq | hpre
      · -- It is the chain itself.
        rw [heq] at hh
        cases spells_inj hS hh (.snoc hj hprev)
        exact mem_cons_self
      · have hbelow : heap[j]?.bind Cell.prev = prev := by
          rw [shape_get] at hj
          rcases map_eq_some_iff.mp hj with ⟨c, hc, hcell⟩
          cases hcell
          rw [hc]
          rfl
        rw [hbelow]
        refine mem_cons_of_mem _ (ih hpre links fun m hm => ?_)
        have := hdown j prev p hj m hm
        omega

/-! ### References -/

theorem modify_get (heap : List Cell) (i j : Nat) (f : Cell → Cell) :
    (heap.modify i f)[j]? = heap[j]?.map fun c => if i = j then f c else c :=
  getElem?_modify f i heap j

theorem shape_modify (heap : List Cell) (i : Nat) (f : Nat → Nat) :
    shape (heap.modify i fun c => { c with refcount := f c.refcount }) = shape heap := by
  refine ext_getElem? fun j => ?_
  rw [shape_get, shape_get, modify_get, Option.map_map]
  congr 1
  funext c
  split <;> rfl

/-- A release of a filter that has another owner. -/
theorem release_shared {i : Nat} {c : Cell} (hc : heap[i]? = some c) (href : c.refcount ≠ 1) :
    release heap (some i) = heap.modify i fun c => { c with refcount := c.refcount - 1 } := by
  have hlt := (List.getElem?_eq_some_iff.mp hc).1
  unfold release
  cases hlen : heap.length with
  | zero => omega
  | succ n =>
    simp only [releaseLoop, hc, href, if_false]
    refine ext_getElem? fun j => ?_
    rw [getElem?_set, modify_get]
    by_cases hj : i = j
    · subst hj
      rw [if_pos rfl, if_pos hlt, hc, map_some, if_pos rfl]
    · simp [if_neg hj]

theorem release_none (heap : List Cell) : release heap none = heap := by
  unfold release
  cases heap.length <;> rfl

/-- Letting go of filters that have another owner each takes one reference. -/
theorem release_seen (l : List Nat) (hl : l.Nodup) :
    ∀ heap : List Cell, (∀ i ∈ l, ∃ c, heap[i]? = some c ∧ 2 ≤ c.refcount) → ∀ j,
      (l.foldl (fun heap i => release heap (some i)) heap)[j]? =
        heap[j]?.map fun c => if j ∈ l then { c with refcount := c.refcount - 1 } else c := by
  induction l with
  | nil =>
    intro heap _ j
    simp
  | cons i l ih =>
    intro heap howned j
    rcases nodup_cons.mp hl with ⟨hi, hl⟩
    rcases howned i mem_cons_self with ⟨c, hc, href⟩
    rw [foldl_cons, release_shared hc (by omega), ih hl]
    · rw [modify_get]
      by_cases hj : i = j
      · subst hj
        simp [hc, hi]
      have hmem : j ∈ i :: l ↔ j ∈ l := by
        rw [mem_cons]
        exact ⟨fun h => h.resolve_left fun heq => hj heq.symm, .inr⟩
      simp [hmem, if_neg hj]
    · intro m hm
      rcases howned m (mem_cons_of_mem _ hm) with ⟨d, hd, hdref⟩
      refine ⟨d, ?_, hdref⟩
      have hne : i ≠ m := fun heq => hi (heq ▸ hm)
      rw [modify_get, hd, map_some, if_neg hne]

/-! ### Imports -/

theorem owners_cons (h : Option Nat) (heads : List (Option Nat))
    (S : List (Option Nat × CkptProg)) (i : Nat) :
    owners (h :: heads) S i = owners heads S i + if h = some i then 1 else 0 := by
  unfold owners
  rw [count_cons]
  simp only [beq_iff_eq]
  omega

theorem owners_snoc (heads : List (Option Nat)) (S : List (Option Nat × CkptProg))
    (c : Option Nat × CkptProg) (i : Nat) :
    owners heads (S ++ [c]) i = owners heads S i + if c.1 = some i then 1 else 0 := by
  unfold owners
  rw [countP_append, countP_singleton]
  simp only [decide_eq_true_eq]
  omega

theorem importFind_some {i : Nat} (h : importFind st head p = some i) :
    (shape st.heap)[i]? = some (head, p) := by
  have hfound := find?_some h
  rw [shape_get]
  exact of_decide_eq_true hfound

theorem importFind_none (hseen : st.seen = List.range st.heap.length)
    (h : importFind st head p = none) : (head, p) ∉ shape st.heap := by
  intro hmem
  rcases getElem?_of_mem hmem with ⟨i, hi⟩
  have hlt := (List.getElem?_eq_some_iff.mp hi).1
  rw [shape_length] at hlt
  have hnot := find?_eq_none.mp h i (hseen ▸ mem_range.mpr hlt)
  rw [shape_get] at hi
  exact hnot (decide_eq_true hi)

theorem importNew_heap (st : Import) (head : Option Nat) (p : CkptProg) :
    (importNew st head p).heap = st.heap ++ [⟨2, head, p⟩] := by
  refine ext_getElem? fun j => ?_
  rw [importNew, retain, modify_get, getElem?_append, getElem?_append]
  by_cases hj : j < st.heap.length
  · simp [if_pos hj, if_neg (Nat.ne_of_gt hj)]
  rw [if_neg hj, if_neg hj]
  by_cases heq : st.heap.length = j
  · subst heq
    simp
  simp only [if_neg heq, Option.map_id']
  rw [List.getElem?_eq_none (by rw [length_singleton]; omega),
    List.getElem?_eq_none (by rw [length_singleton]; omega)]

/-- A filter that was found takes the place of the head. -/
theorem sound_found (hs : Sound st (head :: heads)) {same : Nat}
    (hfind : importFind st head p = some same) :
    Sound { st with heap := release (retain st.heap same) head } (some same :: heads) ∧
      shape (release (retain st.heap same) head) = shape st.heap := by
  have hsame := importFind_some hfind
  -- What the two operations do to the cells.
  have hcells : shape (release (retain st.heap same) head) = shape st.heap ∧
      ∀ i c', (release (retain st.heap same) head)[i]? = some c' →
        ∃ c, st.heap[i]? = some c ∧ c'.refcount + (if head = some i then 1 else 0) =
          c.refcount + if same = i then 1 else 0 := by
    have hretained : ∀ i c', (retain st.heap same)[i]? = some c' → ∃ c, st.heap[i]? = some c ∧
        c'.refcount = c.refcount + if same = i then 1 else 0 := by
      intro i c' hc'
      rw [retain, modify_get] at hc'
      rcases map_eq_some_iff.mp hc' with ⟨c, hc, rfl⟩
      exact ⟨c, hc, by split <;> rfl⟩
    have hshape : shape (retain st.heap same) = shape st.heap :=
      shape_modify st.heap same (· + 1)
    cases head with
    | none =>
      rw [release_none]
      refine ⟨hshape, fun i c' hc' => ?_⟩
      rcases hretained i c' hc' with ⟨c, hc, href⟩
      exact ⟨c, hc, by simp only [reduceCtorEq, if_false, Nat.add_zero]; exact href⟩
    | some j =>
      have hj : j < (retain st.heap same).length := by
        rw [← shape_length, hshape, shape_length]
        exact hs.bounded j mem_cons_self
      have hget := getElem?_eq_getElem hj
      rcases hretained j _ hget with ⟨c, hc, href⟩
      have hcount := hs.counted j c hc
      rw [owners_cons, if_pos rfl] at hcount
      rw [release_shared hget (by omega)]
      refine ⟨(shape_modify _ j (· - 1)).trans hshape, fun i c' hc' => ?_⟩
      rw [modify_get] at hc'
      rcases map_eq_some_iff.mp hc' with ⟨d, hd, rfl⟩
      rcases hretained i d hd with ⟨e, he, hdref⟩
      refine ⟨e, he, ?_⟩
      by_cases hij : j = i
      · subst hij
        rw [if_pos rfl, if_pos rfl]
        cases hget.symm.trans hd
        cases he.symm.trans hc
        dsimp only
        omega
      · rw [if_neg hij, if_neg (fun h => hij (some.inj h))]
        exact hdref
  rcases hcells with ⟨hshape, hcells⟩
  have hlen : (release (retain st.heap same) head).length = st.heap.length := by
    rw [← shape_length, hshape, shape_length]
  refine ⟨⟨?_, ?_, ?_, ?_, ?_, ?_⟩, hshape⟩
  · rw [hlen]
    exact hs.seen
  · rw [hshape]
    exact hs.down
  · rw [hshape]
    exact hs.distinct
  · intro i c' hc'
    rcases hcells i c' hc' with ⟨c, hc, href⟩
    have hcount := hs.counted i c hc
    rw [owners_cons] at hcount
    rw [hshape, owners_cons]
    simp only [some.injEq]
    omega
  · intro i hi
    have howned := hs.owned i (hlen ▸ hi)
    rw [hshape, owners_cons]
    rw [owners_cons] at howned
    by_cases hhead : head = some i
    · -- The filter that was found is above the old head.
      have habove : 0 < (shape st.heap).countP fun c => c.1 = some i :=
        countP_pos_iff.mpr ⟨_, mem_of_getElem? hsame, decide_eq_true hhead⟩
      unfold owners
      omega
    · rw [if_neg hhead] at howned
      omega
  · intro i hi
    rw [hlen]
    rcases mem_cons.mp hi with heq | hmem
    · cases heq
      rw [← shape_length]
      exact (List.getElem?_eq_some_iff.mp hsame).1
    · exact hs.bounded i (mem_cons_of_mem _ hmem)

/-- A new filter takes over the reference to the head. -/
theorem sound_new (hs : Sound st (head :: heads)) (hfind : importFind st head p = none) :
    Sound (importNew st head p) (some st.heap.length :: heads) ∧
      shape (importNew st head p).heap = shape st.heap ++ [(head, p)] := by
  have hheap := importNew_heap st head p
  have hshape : shape (importNew st head p).heap = shape st.heap ++ [(head, p)] := by
    rw [hheap, shape, map_append]
    rfl
  have hlen : (importNew st head p).heap.length = st.heap.length + 1 := by
    rw [hheap, length_append, length_singleton]
  have hhead : ∀ j, head = some j → j < st.heap.length := fun j hj =>
    hs.bounded j (hj ▸ mem_cons_self)
  -- Nothing points to where the new filter is.
  have hfresh : owners heads (shape st.heap) st.heap.length = 0 := by
    unfold owners
    rw [Nat.add_eq_zero_iff, count_eq_zero, countP_eq_zero]
    refine ⟨fun hmem => ?_, fun c hc hprev => ?_⟩
    · exact absurd (hs.bounded _ (mem_cons_of_mem _ hmem)) (Nat.lt_irrefl _)
    · rcases getElem?_of_mem hc with ⟨i, hi⟩
      have hlt := (List.getElem?_eq_some_iff.mp hi).1
      rw [shape_length] at hlt
      exact absurd (hs.down i c.1 c.2 hi _ (of_decide_eq_true hprev)) (by omega)
  refine ⟨⟨?_, ?_, ?_, ?_, ?_, ?_⟩, hshape⟩
  · rw [hlen, range_succ, ← hs.seen]
    rfl
  · rw [hshape]
    intro i prev q hi j hj
    rcases Nat.lt_or_ge i (shape st.heap).length with hlt | hge
    · rw [getElem?_append_left hlt] at hi
      exact hs.down i prev q hi j hj
    rw [getElem?_append_right hge] at hi
    cases mem_singleton.mp (mem_of_getElem? hi)
    rw [shape_length] at hge
    exact Nat.lt_of_lt_of_le (hhead j hj) hge
  · rw [hshape]
    exact nodup_append.mpr ⟨hs.distinct, nodup_singleton _, fun a ha b hb heq =>
      importFind_none hs.seen hfind (mem_singleton.mp hb ▸ heq ▸ ha)⟩
  · intro i c hc
    rw [hshape, owners_snoc, owners_cons]
    rw [hheap] at hc
    rcases Nat.lt_or_ge i st.heap.length with hlt | hge
    · rw [getElem?_append_left hlt] at hc
      have hcount := hs.counted i c hc
      rw [owners_cons] at hcount
      rw [if_neg (fun h => Nat.ne_of_lt hlt (some.inj h).symm)]
      omega
    · rw [getElem?_append_right hge] at hc
      have hi : i = st.heap.length := by
        have hlt := (List.getElem?_eq_some_iff.mp hc).1
        rw [length_singleton] at hlt
        omega
      subst hi
      rw [Nat.sub_self] at hc
      cases hc
      rw [hfresh, if_pos rfl, if_neg (fun h => absurd (hhead _ h) (Nat.lt_irrefl _))]
  · intro i hi
    rw [hshape, owners_snoc, owners_cons]
    rcases Nat.lt_or_ge i st.heap.length with hlt | hge
    · have howned := hs.owned i hlt
      rw [owners_cons] at howned
      dsimp only
      omega
    · rw [if_pos (congrArg some (show st.heap.length = i by omega))]
      omega
  · intro i hi
    rw [hlen]
    rcases mem_cons.mp hi with heq | hmem
    · cases heq
      exact Nat.lt_succ_self _
    · exact Nat.lt_succ_of_lt (hs.bounded i (mem_cons_of_mem _ hmem))

/-- A whole import, above what the tasks had before. -/
theorem sound_loop {progs : List CkptProg} (hok : ∀ p ∈ progs, importRefused p = false) :
    ∀ {st : Import} {head : Option Nat} {ps : List CkptProg}, Sound st (head :: heads) →
      Spells (shape st.heap) head ps →
      Sound (importLoop st head progs).1 ((importLoop st head progs).2 :: heads) ∧
        Spells (shape (importLoop st head progs).1.heap) (importLoop st head progs).2
          (ps ++ progs) ∧
        ∃ T, shape (importLoop st head progs).1.heap = shape st.heap ++ T := by
  induction progs with
  | nil =>
    intro st head ps hs hspells
    exact ⟨hs, (append_nil ps).symm ▸ hspells, [], (append_nil _).symm⟩
  | cons p progs ih =>
    intro st head ps hs hspells
    have ih := @ih fun q hq => hok q (mem_cons_of_mem _ hq)
    rw [append_cons, importLoop, hok p mem_cons_self, if_neg Bool.false_ne_true]
    cases hfind : importFind st head p with
    | some same =>
      rcases sound_found hs hfind with ⟨hs', hshape⟩
      rw [← hshape] at hspells ⊢
      exact ih hs' (.snoc (hshape.symm ▸ importFind_some hfind) hspells)
    | none =>
      rcases sound_new hs hfind with ⟨hs', hshape⟩
      have hnew : (shape (importNew st head p).heap)[st.heap.length]? = some (head, p) := by
        rw [hshape, ← shape_length, getElem?_concat_length]
      rcases ih hs' (.snoc hnew (hshape.symm ▸ spells_append hspells _)) with ⟨h₁, h₂, T, hT⟩
      exact ⟨h₁, h₂, (head, p) :: T, by rw [hT, hshape, append_assoc]; rfl⟩

theorem sound_perm (hs : Sound st heads) {heads' : List (Option Nat)} (hp : heads.Perm heads') :
    Sound st heads' := by
  have howners : ∀ i, owners heads' (shape st.heap) i = owners heads (shape st.heap) i := by
    intro i
    unfold owners
    rw [hp.count_eq]
  refine ⟨hs.seen, hs.down, hs.distinct, fun i c hc => ?_, fun i hi => ?_, fun i hi => ?_⟩
  · rw [howners]
    exact hs.counted i c hc
  · rw [howners]
    exact hs.owned i hi
  · exact hs.bounded i (hp.mem_iff.mpr hi)

/-- A task that has nothing yet owns nothing. -/
theorem sound_start (hs : Sound st heads) : Sound st (none :: heads) := by
  have howners : ∀ i, owners (none :: heads) (shape st.heap) i = owners heads (shape st.heap) i :=
    fun i => by rw [owners_cons, if_neg (by simp), Nat.add_zero]
  refine ⟨hs.seen, hs.down, hs.distinct, fun i c hc => ?_, fun i hi => ?_, fun i hi => ?_⟩
  · exact hs.counted i c hc
  · exact hs.owned i hi
  · rcases mem_cons.mp hi with heq | hmem
    · cases heq
    · exact hs.bounded i hmem

/-- All tasks of a restore. -/
theorem sound_all {seqs : List (List CkptProg)}
    (hok : ∀ progs ∈ seqs, ∀ p ∈ progs, importRefused p = false) :
    ∀ {st : Import} {heads : List (Option Nat)}, Sound st heads →
      Sound (importAll st seqs).1 ((importAll st seqs).2 ++ heads) ∧
        List.Forall₂ (Spells (shape (importAll st seqs).1.heap)) (importAll st seqs).2 seqs ∧
        ∃ T, shape (importAll st seqs).1.heap = shape st.heap ++ T := by
  induction seqs with
  | nil => exact fun hs => ⟨hs, .nil, [], (append_nil _).symm⟩
  | cons progs seqs ih =>
    intro st heads hs
    rcases sound_loop (hok progs mem_cons_self) (sound_start hs) .nil with
      ⟨hs₁, hspells, T, hT⟩
    rcases ih (fun q hq => hok q (mem_cons_of_mem _ hq)) hs₁ with ⟨hs₂, hall, T', hT'⟩
    refine ⟨sound_perm hs₂ perm_middle, .cons ?_ hall, T ++ T', ?_⟩
    · exact hT'.symm ▸ spells_append hspells T'
    · exact hT'.trans (by rw [hT, append_assoc])

/-! ### Checkpoints -/

/-- Chains that are the same from a filter they share on down. -/
def Forest (chains : List (List Filter)) : Prop :=
  ∀ c ∈ chains, ∀ d ∈ chains, ∀ f g l m, (f :: l) <:+ c → (g :: m) <:+ d → f.id = g.id →
    f :: l = g :: m

/-- What a restore makes of chains. -/
structure Restored (chains : List (List Filter)) (heads : List (Option Nat)) (heap : List Cell) :
    Prop where
  /-- Every task has its programs again, in order. -/
  programs : List.Forall₂ (fun chain head => exportIn heap head = seccompCkptExport chain)
    chains heads
  /-- Chains are the same exactly when their programs are. -/
  shared : ∀ (t u : Nat) c d h k, chains[t]? = some c → chains[u]? = some d →
    heads[t]? = some h → heads[u]? = some k → (h = k ↔ seccompCkptExport c = seccompCkptExport d)
  ancestors : ∀ (t u : Nat) c d h k, chains[t]? = some c → chains[u]? = some d →
    heads[t]? = some h → heads[u]? = some k → isAncestor c d = true → isAncestorIn heap h k = true
  counted : ∀ (i : Nat) cell, heap[i]? = some cell →
    cell.refcount = heads.count (some i) + heap.countP fun c => c.prev = some i

theorem export_accepted (chain : List Filter) :
    ∀ p ∈ seccompCkptExport chain, importRefused p = false := by
  intro p hp
  rcases mem_map.mp (mem_reverse.mp hp) with ⟨f, _, rfl⟩
  rcases f.checked with ⟨memory, hchecked⟩
  -- What was accepted with or without memory is accepted with it.
  have htrue : bpfCheck f.prog true = .ok () := by
    cases memory with
    | true => exact hchecked
    | false =>
      unfold bpfCheck at hchecked
      split at hchecked
      · cases hchecked
      · split at hchecked <;> cases hchecked
  unfold importRefused
  rw [dif_pos ⟨f.prog.pos, f.prog.short⟩, htrue]

/-- An ancestor's programs start those of the chain. -/
theorem export_ancestor {chains : List (List Filter)} (hforest : Forest chains)
    {c d : List Filter} (hc : c ∈ chains) (hd : d ∈ chains) (h : isAncestor c d = true) :
    seccompCkptExport c <+: seccompCkptExport d := by
  have hsuffix : c <:+ d := by
    cases c with
    | nil => exact nil_suffix
    | cons f l =>
      rcases any_eq_true.mp h with ⟨g, hg, hid⟩
      rcases append_of_mem hg with ⟨front, m, rfl⟩
      have htail : (g :: m) <:+ front ++ g :: m := suffix_append _ _
      rw [hforest _ hc _ hd f g l m (suffix_refl _) htail (of_decide_eq_true hid).symm]
      exact htail
  rcases hsuffix with ⟨front, rfl⟩
  unfold seccompCkptExport
  rw [map_append, reverse_append]
  exact prefix_append _ _

/-- Letting go of the remembered filters leaves one reference for every owner. -/
theorem importDone_get (hs : Sound st heads) (i : Nat) :
    (importDone st)[i]? = st.heap[i]?.map fun c => { c with refcount := c.refcount - 1 } := by
  unfold importDone
  rw [hs.seen, release_seen _ nodup_range]
  · cases hc : st.heap[i]? with
    | none => rfl
    | some c =>
      have hlt := (List.getElem?_eq_some_iff.mp hc).1
      rw [map_some, if_pos (mem_range.mpr hlt), map_some]
  · intro j hj
    have hlt := mem_range.mp hj
    have hcell := getElem?_eq_getElem hlt
    have hcount := hs.counted j _ hcell
    have howned := hs.owned j hlt
    exact ⟨_, hcell, by omega⟩

theorem importDone_shape (hs : Sound st heads) : shape (importDone st) = shape st.heap := by
  refine ext_getElem? fun i => ?_
  rw [shape_get, shape_get, importDone_get hs, Option.map_map]
  rfl

/-- Chains and their sharing survive a checkpoint, in whatever order the tasks
    are restored. -/
theorem checkpoint_restores (chains : List (List Filter)) (hforest : Forest chains) :
    Restored chains (importAll ⟨[], []⟩ (chains.map seccompCkptExport)).2
      (importDone (importAll ⟨[], []⟩ (chains.map seccompCkptExport)).1) := by
  have hempty : Sound ⟨[], []⟩ [] :=
    ⟨rfl, fun i _ _ hi => (by cases hi), nodup_nil, fun i _ hi => (by cases hi),
      fun i hi => absurd hi (Nat.not_lt_zero i), fun i hi => absurd hi not_mem_nil⟩
  have hok : ∀ progs ∈ chains.map seccompCkptExport, ∀ p ∈ progs, importRefused p = false := by
    intro progs hprogs
    rcases mem_map.mp hprogs with ⟨chain, _, rfl⟩
    exact export_accepted chain
  rcases sound_all hok hempty with ⟨hs, hall, _⟩
  generalize importAll ⟨[], []⟩ (chains.map seccompCkptExport) = r at hs hall
  rcases r with ⟨st, heads⟩
  dsimp only at hs hall ⊢
  rw [append_nil] at hs
  rw [← importDone_shape hs, forall₂_map_right_iff] at hall
  have hdistinct : (shape (importDone st)).Nodup := importDone_shape hs ▸ hs.distinct
  have hdown : Down (shape (importDone st)) := importDone_shape hs ▸ hs.down
  -- A task's chain has only filters of the heap.
  have hlinks : ∀ h ∈ heads, ∀ i, h = some i → i < (importDone st).length := by
    intro h hh i hi
    rw [← shape_length, importDone_shape hs, shape_length]
    exact hs.bounded i (hi ▸ hh)
  have hspells : ∀ (t : Nat) c h, chains[t]? = some c → heads[t]? = some h →
      Spells (shape (importDone st)) h (seccompCkptExport c) := by
    intro t c h hc hh
    rcases List.getElem?_eq_some_iff.mp hc with ⟨hlt, rfl⟩
    rcases List.getElem?_eq_some_iff.mp hh with ⟨hlt', rfl⟩
    exact hall.get hlt' hlt
  refine ⟨?_, ?_, ?_, ?_⟩
  · refine (forall₂_iff_get.mpr ⟨hall.length_eq, fun t ht ht' => ?_⟩).flip
    exact walk_spells hdown (hall.get ht ht') _ (hlinks _ (get_mem _ _))
  · intro t u c d h k hc hd hh hk
    constructor
    · rintro rfl
      exact spells_fun (hspells t c h hc hh) (hspells u d h hd hk)
    · intro heq
      exact spells_inj hdistinct (hspells t c h hc hh) (heq ▸ hspells u d k hd hk)
  · intro t u c d h k hc hd hh hk hanc
    cases h with
    | none => rfl
    | some i =>
      have hstart := export_ancestor hforest (mem_of_getElem? hc) (mem_of_getElem? hd)
        hanc
      exact decide_eq_true (start_in_chain hdistinct hdown (hspells t c _ hc hh)
        (hspells u d k hd hk) hstart _ (hlinks k (mem_of_getElem? hk)))
  · intro i cell hcell
    rw [importDone_get hs] at hcell
    rcases map_eq_some_iff.mp hcell with ⟨c, hc, rfl⟩
    have hcount := hs.counted i c hc
    have hprev : (importDone st).countP (fun c => c.prev = some i) =
        (shape st.heap).countP fun c => c.1 = some i := by
      rw [← importDone_shape hs, shape, countP_map]
      rfl
    dsimp only
    unfold owners at hcount
    omega

/-- A filter that allows everything. -/
def allowing (id : Nat) (log : Bool) : Filter :=
  ⟨id, log, ⟨[⟨6, 0, 0, 0x7fff0000⟩], by decide, by decide⟩, true, by rfl⟩

theorem forest_child : Forest [[allowing 1 true, allowing 0 false], [allowing 0 false]] := by
  have hsuffix : ∀ c ∈ [[allowing 1 true, allowing 0 false], [allowing 0 false]], ∀ f l,
      (f :: l) <:+ c →
        f :: l = [allowing 1 true, allowing 0 false] ∨ f :: l = [allowing 0 false] := by
    intro c hc f l hfl
    have hwhole : (f :: l) <:+ [allowing 1 true, allowing 0 false] := by
      rcases mem_cons.mp hc with rfl | hc
      · exact hfl
      cases mem_singleton.mp hc
      exact hfl.trans (suffix_cons _ _)
    rcases suffix_cons_iff.mp hwhole with heq | hwhole
    · exact .inl heq
    rcases suffix_cons_iff.mp hwhole with heq | hnil
    · exact .inr heq
    · cases suffix_nil.mp hnil
  intro c hc d hd f g l m hf hg hid
  rcases hsuffix c hc f l hf with hf | hf <;> rcases hsuffix d hd g m hg with hg | hg
  · rw [hf, hg]
  · cases hf; cases hg; cases hid
  · cases hf; cases hg; cases hid
  · rw [hf, hg]

/-- A child's chain above its parent's. -/
theorem checkpoint_restores_child :
    Forest [[allowing 1 true, allowing 0 false], [allowing 0 false]] ∧
      isAncestor [allowing 0 false] [allowing 1 true, allowing 0 false] = true ∧
      Restored [[allowing 1 true, allowing 0 false], [allowing 0 false]] [some 1, some 0]
        [⟨2, none, ⟨false, [⟨6, 0, 0, 0x7fff0000⟩]⟩⟩,
          ⟨1, some 0, ⟨true, [⟨6, 0, 0, 0x7fff0000⟩]⟩⟩] :=
  ⟨forest_child, rfl, checkpoint_restores _ forest_child⟩

end

end IshAok.Seccomp
