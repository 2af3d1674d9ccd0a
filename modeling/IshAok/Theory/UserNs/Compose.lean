import IshAok.Base.Run
import IshAok.Theory.UserNs.Parse
import Mathlib.Data.List.Pairwise

/-!
# Composition of Id Maps

A namespace's map is written in the parent's ids and stored in kernel ids, so
what is stored ought to be the composition of the lines with the parent's
map. `user_ns_write_map` resolves a line by its two ends: it looks up the
first and the last lower id and asks only that the two kernel ids lie as far
apart as the lower ids do. When the parent's map has several extents that is
not enough. Its extents can leave a gap between the ends, or send the middle
somewhere else, and the child then maps kernel ids the parent does not have.

`composition_of_whole` is the law with the condition that makes it true:
every accepted line lies where the parent's extents leave no gap and all
shift by the same amount. The condition is on the line and on the parent's
map before the write, and `WholeOver` states it by extents, not by what the
write computes. `endpoints_do_not_compose` is the run that breaks the law
without it.

Three things carry the proof. Maps are written once, so a map that is set
stays as it is for the rest of the run (`run_extends`). The extents of every
map of a run whose writes are whole end below the invalid id (`Bounded`), so
the sums in `idMapDown` do not wrap. And a whole line resolves to the kernel
ids of its lower ids, all of them (`resolved_line`).

## Main definitions

* `Extends`: A later table: namespaces stay, and maps that are set.
* `Bounded`: Every extent ends below the invalid id.
* `WholeOver`: The parent's extents over a line leave no gap and shift alike.
* `WriteIsWhole`: A step whose accepted lines are whole.
* `MapsAs`: A stored map is the composition of lines with the parent's map.
* `CompositionLaw`: Every accepted write of a run is stored as a composition.

## Theorems

* `applyOp_cases`: Everything a call can do to the table.
* `run_extends`: A run only adds namespaces and maps.
* `resolved_line`: A whole line is stored as a shift of its lower ids.
* `run_bounded`: Runs of whole writes keep the extents bounded.
* `composition_of_whole`: Runs of whole writes obey the composition law.
* `endpoints_do_not_compose`: A run that does not obey it.
-/

namespace IshAok.UserNs

open Base List

/-- A later table: every namespace is still there with its parent, and a map
    that was set is the same map. -/
def Extends (t t' : NsTable) : Prop :=
  ∀ (i : Nat) (n : UserNamespace), t[i]? = some n →
    ∃ n' : UserNamespace, t'[i]? = some n' ∧ n'.parent = n.parent ∧
      ∀ gid, (n.map gid).set = true → n'.map gid = n.map gid

/-- Every extent of every map ends below the invalid id, on both sides. -/
def Bounded (t : NsTable) : Prop :=
  ∀ (i : Nat) (n : UserNamespace), t[i]? = some n → ∀ gid, ∀ e ∈ (n.map gid).extent, e.Fits

/-- Over the lower ids of a line the parent's extents leave no gap and all
    shift by the same amount. The initial namespace maps every id to itself. -/
def WholeOver (gid : Bool) (t : NsTable) (parent : Option Nat) (l : IdExtent) : Prop :=
  match parent with
  | none => True
  | some p => ∃ n : UserNamespace, t[p]? = some n ∧ ∃ d : Int, ∀ id, l.lower ≤ id →
      id < l.lower + l.count →
      ∃ e, (n.map gid).extentOf id = some e ∧ (e.lower : Int) - e.first = d

/-- If the step writes a map and the write is accepted, each of its lines
    fits and is whole over the parent's map. -/
def WriteIsWhole (t : NsTable) : NsOp → Prop
  | .writeMap cur (some i) gid text copyOk =>
    ∀ (n : UserNamespace) (t' : NsTable), t[i]? = some n →
      userNsWriteMap t cur (some i) gid text copyOk = .ok t' →
      ∀ l ∈ writtenLines text, l.Fits ∧ WholeOver gid t n.parent l
  | _ => True

/-- In `t`, the map of namespace `i` is the composition of the lines with the
    map its parent had in `before`, it maps nothing else, and every kernel id
    it maps is one the parent maps. -/
def MapsAs (t before : NsTable) (i : Nat) (gid : Bool) (lines : List IdExtent) : Prop :=
  ∃ n : UserNamespace, before[i]? = some n ∧
    (∀ l ∈ lines, ∀ k < l.count, userNsMakeKid gid t (some i) (l.first + k)
      = userNsMakeKid gid before n.parent (l.lower + k)) ∧
    (∀ id, (∀ l ∈ lines, ¬ l.Covers id) → userNsMakeKid gid t (some i) id = userNsInvalidId) ∧
    (∀ id, userNsMakeKid gid t (some i) id ≠ userNsInvalidId →
      ∃ id', userNsMakeKid gid t n.parent id' = userNsMakeKid gid t (some i) id)

/-- Every write the run accepted is stored, at its end, as the composition of
    its lines with the parent's map at the write, and every map that is set
    comes from such a write. -/
def CompositionLaw (tr : List (NsTable × NsOp)) (t : NsTable) : Prop :=
  (∀ s cur i gid text copyOk t', (s, NsOp.writeMap cur (some i) gid text copyOk) ∈ tr →
    userNsWriteMap s cur (some i) gid text copyOk = .ok t' →
    MapsAs t s i gid (writtenLines text)) ∧
  ∀ (i : Nat) (n : UserNamespace) (gid : Bool), t[i]? = some n → (n.map gid).set = true →
    ∃ s cur text copyOk t', (s, NsOp.writeMap cur (some i) gid text copyOk) ∈ tr ∧
      userNsWriteMap s cur (some i) gid text copyOk = .ok t'

section Steps

variable (t : NsTable)

@[simp] theorem map_setMap (n : UserNamespace) (gid gid' : Bool) (m : IdMap) :
    (n.setMap gid m).map gid' = if gid' = gid then m else n.map gid' := by
  cases gid <;> cases gid' <;> rfl

@[simp] theorem parent_setMap (n : UserNamespace) (gid : Bool) (m : IdMap) :
    (n.setMap gid m).parent = n.parent := by
  cases gid <;> rfl

/-- A new namespace has its creator's namespace for a parent and no map. -/
theorem userNsNew_ok (cur : Task) (allocOk : Bool) (t' : NsTable) (i : Nat)
    (h : userNsNew t cur allocOk = .ok (t', i)) :
    ∃ n : UserNamespace, (∀ gid, n.map gid = { set := false, extent := [] }) ∧ t' = t ++ [n] := by
  unfold userNsNew at h
  split_ifs at h
  simp only [Except.ok.injEq, Prod.mk.injEq] at h
  exact ⟨_, fun gid => by cases gid <;> rfl, h.1.symm⟩

/-- What an accepted write has checked and done. -/
theorem userNsWriteMap_ok (cur : Task) (ns : Option Nat) (gid : Bool) (text : List Char)
    (copyOk : Bool) (t' : NsTable) (h : userNsWriteMap t cur ns gid text copyOk = .ok t') :
    ∃ i, ∃ n : UserNamespace, ∃ parsed extent, ns = some i ∧ t[i]? = some n ∧
      (n.map gid).set = false ∧ parseMap text = .ok parsed ∧
      resolveExtents gid t n.parent parsed = .ok extent ∧
      t' = t.set i (n.setMap gid { set := true, extent := extent }) := by
  unfold userNsWriteMap at h
  cases ns with
  | none => simp only [reduceCtorEq] at h
  | some i =>
    cases hn : t[i]? with
    | none => simp only [hn, reduceCtorEq] at h
    | some n =>
      simp only [hn] at h
      split_ifs at h
      cases hp : parseMap text with
      | error e => simp only [hp, reduceCtorEq] at h
      | ok parsed =>
        simp only [hp] at h
        unfold writeMap at h
        split_ifs at h with hset
        cases hr : resolveExtents gid t n.parent parsed with
        | error e => simp only [hr, reduceCtorEq] at h
        | ok extent =>
          simp only [hr, Except.ok.injEq] at h
          exact ⟨i, n, parsed, extent, rfl, hn, Bool.eq_false_iff.mpr hset, rfl, hr, h.symm⟩

/-- A `setgroups` write changes nothing or denies. -/
theorem userNsWriteSetgroups_ok (cur : Task) (ns : Option Nat) (text : List Char) (t' : NsTable)
    (h : userNsWriteSetgroups t cur ns text = .ok t') :
    t' = t ∨ ∃ i, ∃ n : UserNamespace, t[i]? = some n ∧
      t' = t.set i { n with setgroupsDenied := true } := by
  unfold userNsWriteSetgroups at h
  cases hs : setgroupsText text with
  | none => simp only [hs, reduceCtorEq] at h
  | some allow =>
    cases ns with
    | none =>
      simp only [hs] at h
      split_ifs at h
      exact .inl (Except.ok.inj h).symm
    | some i =>
      cases hn : t[i]? with
      | none =>
        simp only [hs, hn] at h
        split_ifs at h
      | some n =>
        simp only [hs, hn] at h
        split_ifs at h
        · exact .inl (Except.ok.inj h).symm
        · exact .inr ⟨i, n, hn, (Except.ok.inj h).symm⟩

/-- Everything a call can do to the table: nothing, add a namespace with no
    map, write a map that was not set, or deny `setgroups`. -/
theorem applyOp_cases (op : NsOp) : applyOp t op = t ∨
    (∃ n : UserNamespace, (∀ gid, n.map gid = { set := false, extent := [] }) ∧
      applyOp t op = t ++ [n]) ∨
    (∃ cur i, ∃ n : UserNamespace, ∃ gid text copyOk extent,
      op = .writeMap cur (some i) gid text copyOk ∧ t[i]? = some n ∧ (n.map gid).set = false ∧
      userNsWriteMap t cur (some i) gid text copyOk = .ok (applyOp t op) ∧
      applyOp t op = t.set i (n.setMap gid { set := true, extent := extent })) ∨
    (∃ i, ∃ n : UserNamespace, t[i]? = some n ∧
      applyOp t op = t.set i { n with setgroupsDenied := true }) := by
  cases op with
  | new cur allocOk =>
    cases hw : userNsNew t cur allocOk with
    | error e => exact .inl (by simp only [applyOp, hw])
    | ok r =>
      rcases userNsNew_ok t cur allocOk r.1 r.2 hw with ⟨n, hmap, ht'⟩
      exact .inr (.inl ⟨n, hmap, by simp only [applyOp, hw, ht']⟩)
  | writeMap cur ns gid text copyOk =>
    cases hw : userNsWriteMap t cur ns gid text copyOk with
    | error e => exact .inl (by simp only [applyOp, hw])
    | ok t' =>
      have happ : applyOp t (.writeMap cur ns gid text copyOk) = t' := by
        simp only [applyOp, hw]
      rcases userNsWriteMap_ok t cur ns gid text copyOk t' hw with
        ⟨i, n, parsed, extent, rfl, hn, hset, _, _, ht'⟩
      rw [happ]
      exact .inr (.inr (.inl ⟨cur, i, n, gid, text, copyOk, extent, rfl, hn, hset, hw, ht'⟩))
  | writeSetgroups cur ns text =>
    cases hw : userNsWriteSetgroups t cur ns text with
    | error e => exact .inl (by simp only [applyOp, hw])
    | ok t' =>
      have happ : applyOp t (.writeSetgroups cur ns text) = t' := by
        simp only [applyOp, hw]
      rw [happ]
      rcases userNsWriteSetgroups_ok t cur ns text t' hw with ht' | hdeny
      · exact .inl ht'
      · exact .inr (.inr (.inr hdeny))

theorem extends_refl : Extends t t :=
  fun _ n hn => ⟨n, hn, rfl, fun _ _ => rfl⟩

theorem extends_trans {t₁ t₂ t₃ : NsTable} (h₁ : Extends t₁ t₂) (h₂ : Extends t₂ t₃) :
    Extends t₁ t₃ := by
  intro i n hn
  rcases h₁ i n hn with ⟨n₂, hn₂, hp₂, hm₂⟩
  rcases h₂ i n₂ hn₂ with ⟨n₃, hn₃, hp₃, hm₃⟩
  refine ⟨n₃, hn₃, by rw [hp₃, hp₂], fun gid hset => ?_⟩
  rw [hm₃ gid (by rw [hm₂ gid hset]; exact hset), hm₂ gid hset]

/-- Replacing one namespace extends the table when the parent stays and only
    a map that was not set may change. -/
theorem extends_set {i : Nat} {n n' : UserNamespace} (hn : t[i]? = some n)
    (hp : n'.parent = n.parent)
    (hm : ∀ gid, (n.map gid).set = true → n'.map gid = n.map gid) : Extends t (t.set i n') := by
  intro j m hj
  by_cases hij : i = j
  · subst hij
    rw [hn, Option.some.injEq] at hj
    subst hj
    have hlt : i < t.length := (List.getElem?_eq_some_iff.mp hn).1
    exact ⟨n', getElem?_set_self hlt, hp, hm⟩
  · exact ⟨m, by rw [getElem?_set_ne hij, hj], rfl, fun _ _ => rfl⟩

theorem applyOp_extends (op : NsOp) : Extends t (applyOp t op) := by
  rcases applyOp_cases t op with h | ⟨n, _, h⟩ | ⟨_, i, n, gid, _, _, extent, _, hn, hset, _, h⟩ |
    ⟨i, n, hn, h⟩
  · rw [h]
    exact extends_refl t
  · rw [h]
    intro i m hm
    exact ⟨m, by rw [getElem?_append_left (List.getElem?_eq_some_iff.mp hm).1, hm], rfl,
      fun _ _ => rfl⟩
  · rw [h]
    refine extends_set t hn (parent_setMap n gid _) fun gid' hset' => ?_
    rw [map_setMap, if_neg]
    rintro rfl
    rw [hset] at hset'
    cases hset'
  · rw [h]
    exact extends_set t hn rfl fun gid _ => by cases gid <;> rfl

end Steps

variable {t t' : NsTable} {tr : List (NsTable × NsOp)} {gid : Bool} {i : Nat} {l : IdExtent}
  {text : List Char}

/-- A run only adds namespaces and maps. -/
theorem run_extends (hr : Run nsStep t tr t') : Extends t t' := by
  refine run_invariant (Extends t) hr (extends_refl t) fun u op v _ hu hs => ?_
  rw [hs]
  exact extends_trans hu (applyOp_extends u op)

/-- A mapped id stays mapped to the same kernel id. -/
theorem makeKid_extends (h : Extends t t') (gid : Bool) (ns : Option Nat)
    (hset : ∀ i, ns = some i → ∃ n : UserNamespace, t[i]? = some n ∧ (n.map gid).set = true)
    (id : Nat) : userNsMakeKid gid t' ns id = userNsMakeKid gid t ns id := by
  cases ns with
  | none => rfl
  | some i =>
    rcases hset i rfl with ⟨n, hn, hs⟩
    rcases h i n hn with ⟨n', hn', _, hm⟩
    simp only [userNsMakeKid, hn, hn', hm gid hs]

/-- Only a namespace whose map is set maps anything. -/
theorem set_of_makeKid (id : Nat) (h : userNsMakeKid gid t (some i) id ≠ userNsInvalidId) :
    ∃ n : UserNamespace, t[i]? = some n ∧ (n.map gid).set = true := by
  cases hn : t[i]? with
  | none => simp only [userNsMakeKid, hn, ne_eq, not_true] at h
  | some n =>
    refine ⟨n, rfl, ?_⟩
    cases hs : (n.map gid).set with
    | true => rfl
    | false =>
      simp only [userNsMakeKid, hn, idMapDown, hs, or_true, if_true, ne_eq, not_true] at h

/-- What the resolution of the lines leaves: each line with its lower id
    replaced by a kernel id that is valid. -/
theorem resolveExtents_ok (gid : Bool) (t : NsTable) (parent : Option Nat) :
    ∀ (es out : List IdExtent), resolveExtents gid t parent es = .ok out →
      out = es.map (fun e => { e with lower := userNsMakeKid gid t parent e.lower }) ∧
      ∀ e ∈ es, userNsMakeKid gid t parent e.lower ≠ userNsInvalidId := by
  intro es
  induction es with
  | nil =>
    intro out h
    simp only [resolveExtents, Except.ok.injEq] at h
    subst h
    exact ⟨rfl, fun e he => absurd he not_mem_nil⟩
  | cons e rest ih =>
    intro out h
    unfold resolveExtents at h
    simp only [] at h
    split_ifs at h with hbad
    cases hrest : resolveExtents gid t parent rest with
    | error err => simp only [hrest, reduceCtorEq] at h
    | ok done =>
      simp only [hrest, Except.ok.injEq] at h
      rcases ih done hrest with ⟨hdone, hvalid⟩
      subst h
      refine ⟨by rw [hdone, map_cons], fun x hx => ?_⟩
      rcases mem_cons.mp hx with rfl | hx
      · exact fun hc => hbad (Or.inl hc)
      · exact hvalid x hx

theorem find_covers {es : List IdExtent} {id : Nat} {e : IdExtent}
    (h : es.find? (fun e => decide (e.Covers id)) = some e) : e ∈ es ∧ e.Covers id := by
  refine ⟨mem_of_find?_eq_some h, ?_⟩
  simpa only [decide_eq_true_eq] using find?_some h

/-- Over a whole line the parent's map is a shift, and none of its values
    reaches the invalid id. -/
theorem resolved_line {parent : Option Nat} (hb : Bounded t) (hfit : l.Fits)
    (hwhole : WholeOver gid t parent l)
    (hvalid : userNsMakeKid gid t parent l.lower ≠ userNsInvalidId) (k : Nat) (hk : k < l.count) :
    userNsMakeKid gid t parent (l.lower + k) = userNsMakeKid gid t parent l.lower + k ∧
      userNsMakeKid gid t parent (l.lower + k) < userNsInvalidId := by
  cases parent with
  | none =>
    refine ⟨rfl, ?_⟩
    have := hfit.2
    simp only [userNsMakeKid]
    omega
  | some p =>
    rcases hwhole with ⟨n, hn, d, hd⟩
    rcases set_of_makeKid l.lower hvalid with ⟨n', hn', hset⟩
    rw [hn, Option.some.injEq] at hn'
    subst hn'
    -- Every id of the line goes through an extent of displacement `d`.
    have hat : ∀ id, l.lower ≤ id → id < l.lower + l.count →
        (userNsMakeKid gid t (some p) id : Int) = id + d ∧
          userNsMakeKid gid t (some p) id < userNsInvalidId := by
      intro id h1 h2
      rcases hd id h1 h2 with ⟨e, he, hde⟩
      rcases find_covers he with ⟨hmem, hcov⟩
      have hefit : e.Fits := hb p n hn gid e hmem
      have hne : id ≠ userNsInvalidId := by have := hfit.2; omega
      have hval : userNsMakeKid gid t (some p) id = e.lower + (id - e.first) := by
        simp only [userNsMakeKid, hn, idMapDown, hset, hne, he, or_self, if_false,
          Bool.true_eq_false]
        have h1 := hefit.2
        have h2 := hcov.2
        unfold userNsInvalidId at h1
        rw [Nat.mod_eq_of_lt (by omega)]
      have h3 := hcov.1
      have h4 := hcov.2
      have h5 := hefit.2
      constructor <;> omega
    have h0 := hat l.lower (Nat.le_refl _) (by omega)
    have hk' := hat (l.lower + k) (by omega) (by omega)
    refine ⟨?_, hk'.2⟩
    have := h0.1
    have := hk'.1
    omega

/-- The accepted lines that fit: at most one of them covers an id. -/
theorem writtenLines_covers_unique {parsed : List IdExtent} (hp : parseMap text = .ok parsed)
    (hfit : ∀ l ∈ writtenLines text, l.Fits) (id : Nat) :
    ∀ l ∈ writtenLines text, ∀ l' ∈ writtenLines text, l.Covers id → l'.Covers id → l = l' := by
  rcases parseMap_ok text parsed hp with ⟨_, _, _, hpw⟩
  have hdisj : (writtenLines text).Pairwise (fun e l => ¬ (e.Covers id ∧ l.Covers id)) :=
    hpw.imp_of_mem (fun {e l} he hl hno =>
      not_covers_of_not_overlaps e l id (hfit e he) (hfit l hl) hno)
  intro l hl l' hl' hc hc'
  by_contra hne
  have hsymm : Std.Symm (fun e l : IdExtent => ¬ (e.Covers id ∧ l.Covers id)) :=
    ⟨fun _ _ h hc => h ⟨hc.2, hc.1⟩⟩
  exact hdisj.forall hl hl' hne ⟨hc, hc'⟩

/-- Looking an id up among the stored lines finds the line that covers it. -/
theorem find_resolved {f : IdExtent → IdExtent} {ls : List IdExtent} {id : Nat}
    (hf : ∀ x, (f x).first = x.first ∧ (f x).count = x.count)
    (huniq : ∀ x ∈ ls, ∀ y ∈ ls, x.Covers id → y.Covers id → x = y) (hl : l ∈ ls)
    (hc : l.Covers id) : (ls.map f).find? (fun e => decide (e.Covers id)) = some (f l) := by
  have hcov : ∀ x, (f x).Covers id ↔ x.Covers id := by
    intro x
    unfold IdExtent.Covers
    rw [(hf x).1, (hf x).2]
  cases hfind : (ls.map f).find? (fun e => decide (e.Covers id)) with
  | none =>
    have h := find?_eq_none.mp hfind (f l) (mem_map_of_mem hl)
    exact absurd (decide_eq_true ((hcov l).mpr hc)) h
  | some e =>
    rcases find_covers hfind with ⟨hmem, hcove⟩
    rcases mem_map.mp hmem with ⟨x, hx, rfl⟩
    rw [huniq x hx l hl ((hcov x).mp hcove) hc]

/-- A line with its lower id resolved through the parent's map. -/
def resolved (gid : Bool) (t : NsTable) (parent : Option Nat) (l : IdExtent) : IdExtent :=
  { l with lower := userNsMakeKid gid t parent l.lower }

/-- What an accepted write of whole lines stores. -/
theorem write_stored {cur : Task} {copyOk : Bool}
    (hw : userNsWriteMap t cur (some i) gid text copyOk = .ok t')
    (hwhole : WriteIsWhole t (.writeMap cur (some i) gid text copyOk)) :
    ∃ (n : UserNamespace) (parsed : List IdExtent), t[i]? = some n ∧ (n.map gid).set = false ∧
      parseMap text = .ok parsed ∧
      (∀ l ∈ writtenLines text, l.Fits ∧ WholeOver gid t n.parent l ∧
        userNsMakeKid gid t n.parent l.lower ≠ userNsInvalidId) ∧
      t' = t.set i (n.setMap gid
        { set := true, extent := (writtenLines text).map (resolved gid t n.parent) }) := by
  rcases userNsWriteMap_ok t cur (some i) gid text copyOk t' hw with
    ⟨j, n, parsed, extent, hij, hn, hset, hp, hres, ht'⟩
  cases hij
  have hlines := hwhole n t' hn hw
  rcases parseMap_ok text parsed hp with ⟨hparsed, _, _, _⟩
  -- Lines that fit are stored as they were written.
  have hsame : parsed = writtenLines text := by
    rw [hparsed, map_congr_left (fun l hl => narrow_of_fits l (hlines l hl).1), map_id']
  rw [hsame] at hres
  rcases resolveExtents_ok gid t n.parent _ extent hres with ⟨hext, hvalid⟩
  refine ⟨n, parsed, hn, hset, hp, fun l hl => ⟨(hlines l hl).1, (hlines l hl).2, hvalid l hl⟩, ?_⟩
  rw [ht', hext]
  rfl

/-- Reading the stored map back. -/
theorem makeKid_stored {n : UserNamespace} (gid : Bool) (m : IdMap) (hn : t[i]? = some n)
    (id : Nat) : userNsMakeKid gid (t.set i (n.setMap gid m)) (some i) id = idMapDown m id := by
  have hlt : i < t.length := (List.getElem?_eq_some_iff.mp hn).1
  simp [userNsMakeKid, getElem?_set_self hlt, map_setMap]

/-- An id that a stored line covers goes where its lower id goes. -/
theorem idMapDown_resolved {parent : Option Nat} {ls : List IdExtent} {k : Nat} (hb : Bounded t)
    (huniq : ∀ id, ∀ x ∈ ls, ∀ y ∈ ls, x.Covers id → y.Covers id → x = y) (hl : l ∈ ls)
    (hfit : l.Fits) (hwhole : WholeOver gid t parent l)
    (hvalid : userNsMakeKid gid t parent l.lower ≠ userNsInvalidId) (hk : k < l.count) :
    idMapDown { set := true, extent := ls.map (resolved gid t parent) } (l.first + k)
      = userNsMakeKid gid t parent (l.lower + k) := by
  have hfind : (ls.map (resolved gid t parent)).find? (fun e => decide (e.Covers (l.first + k)))
      = some (resolved gid t parent l) :=
    find_resolved (fun _ => ⟨rfl, rfl⟩) (huniq _) hl ⟨by omega, by omega⟩
  rcases resolved_line hb hfit hwhole hvalid k hk with ⟨hshift, hlt⟩
  have hne : l.first + k ≠ userNsInvalidId := by have := hfit.1; omega
  simp only [idMapDown, IdMap.extentOf, hfind, hne, Bool.true_eq_false, or_self, if_false, resolved]
  unfold userNsInvalidId at hlt
  rw [Nat.add_sub_cancel_left, ← hshift, Nat.mod_eq_of_lt (by omega)]

/-- An accepted write of whole lines stores their composition with the
    parent's map. -/
theorem write_mapsAs {cur : Task} {copyOk : Bool} (hb : Bounded t)
    (hw : userNsWriteMap t cur (some i) gid text copyOk = .ok t')
    (hwhole : WriteIsWhole t (.writeMap cur (some i) gid text copyOk)) :
    MapsAs t' t i gid (writtenLines text) := by
  rcases write_stored hw hwhole with ⟨n, parsed, hn, hset, hp, hlines, ht'⟩
  have huniq := fun id => writtenLines_covers_unique hp (fun l hl => (hlines l hl).1) id
  have hkid := makeKid_stored gid
    { set := true, extent := (writtenLines text).map (resolved gid t n.parent) } hn
  rw [← ht'] at hkid
  have hat : ∀ l ∈ writtenLines text, ∀ k < l.count, userNsMakeKid gid t' (some i) (l.first + k)
      = userNsMakeKid gid t n.parent (l.lower + k) := by
    intro l hl k hk
    rcases hlines l hl with ⟨hfit, hwl, hvalid⟩
    rw [hkid, idMapDown_resolved hb huniq hl hfit hwl hvalid hk]
  have hnone : ∀ id, (∀ l ∈ writtenLines text, ¬ l.Covers id) →
      userNsMakeKid gid t' (some i) id = userNsInvalidId := by
    intro id hno
    have hfind : ((writtenLines text).map (resolved gid t n.parent)).find?
        (fun e => decide (e.Covers id)) = none := by
      refine find?_eq_none.mpr fun e he hc => ?_
      rcases mem_map.mp he with ⟨l, hl, rfl⟩
      exact hno l hl (of_decide_eq_true hc)
    rw [hkid]
    simp [idMapDown, IdMap.extentOf, hfind]
  refine ⟨n, hn, hat, hnone, fun id hmapped => ?_⟩
  -- A mapped id is covered by a line, and its value is one of the parent's.
  by_contra hno
  refine hmapped (hnone id (fun l hl hc => hno ⟨l.lower + (id - l.first), ?_⟩))
  have hk := hat l hl (id - l.first) hc.2
  rw [show l.first + (id - l.first) = id by have := hc.1; omega] at hk
  rw [hk]
  have hext : Extends t t' := by
    have h := applyOp_extends t (.writeMap cur (some i) gid text copyOk)
    simpa only [applyOp, hw] using h
  refine makeKid_extends hext gid n.parent (fun j hj => ?_) _
  rw [hj] at hk
  exact set_of_makeKid (l.lower + (id - l.first)) (by rw [← hk]; exact hmapped)

/-- Setting one namespace keeps the extents bounded when its own are. -/
theorem bounded_set {n' : UserNamespace} (hb : Bounded t)
    (hn' : ∀ gid, ∀ e ∈ (n'.map gid).extent, e.Fits) : Bounded (t.set i n') := by
  intro j m hj gid e he
  rw [getElem?_set] at hj
  split_ifs at hj with hij
  · cases hj
    exact hn' gid e he
  · exact hb j m hj gid e he

/-- A step whose accepted lines are whole keeps the extents bounded: the last
    kernel id of a line is one the parent maps, and that is below the invalid
    id. -/
theorem applyOp_bounded {op : NsOp} (hb : Bounded t) (hwhole : WriteIsWhole t op) :
    Bounded (applyOp t op) := by
  rcases applyOp_cases t op with h | ⟨n, hmap, h⟩ |
    ⟨cur, i, n, gid, text, copyOk, _, rfl, _, _, hw, _⟩ | ⟨i, n, hn, h⟩
  · rw [h]
    exact hb
  · rw [h]
    intro i m hm gid e he
    rcases mem_append.mp (mem_of_getElem? hm) with hold | hnew
    · rcases getElem?_of_mem hold with ⟨j, hj⟩
      exact hb j m hj gid e he
    · rw [mem_singleton.mp hnew, hmap gid] at he
      cases he
  · rcases write_stored hw hwhole with ⟨n, parsed, hn, _, hp, hlines, ht'⟩
    rw [ht']
    refine bounded_set hb fun gid' e he => ?_
    rw [map_setMap] at he
    split_ifs at he with hg
    · rcases mem_map.mp he with ⟨l, hl, rfl⟩
      rcases hlines l hl with ⟨hfit, hwl, hvalid⟩
      have hpos : 0 < l.count := by
        have href := (parseMap_ok text parsed hp).2.2.1 l hl
        unfold lineRefused at href
        omega
      rcases resolved_line hb hfit hwl hvalid (l.count - 1) (by omega) with ⟨hshift, hlt⟩
      refine ⟨hfit.1, ?_⟩
      simp only [resolved]
      omega
    · exact hb i n hn gid' e he
  · rw [h]
    exact bounded_set hb fun gid e he => hb i n hn gid e (by cases gid <;> exact he)

theorem run_bounded (hr : Run nsStep [] tr t) (hwhole : ∀ p ∈ tr, WriteIsWhole p.1 p.2) :
    Bounded t := by
  refine run_invariant Bounded hr (fun i n hn => ?_) fun u op v hmem hu hs => ?_
  · cases hn
  · rw [hs]
    exact applyOp_bounded hu (hwhole (u, op) hmem)

/-- The composition law of a write survives the rest of the run. -/
theorem mapsAs_extends {before : NsTable} {lines : List IdExtent} (hext : Extends t t')
    (hset : ∃ n : UserNamespace, t[i]? = some n ∧ (n.map gid).set = true)
    (h : MapsAs t before i gid lines) : MapsAs t' before i gid lines := by
  rcases h with ⟨n, hn, hat, hnone, himg⟩
  have hsame : ∀ id, userNsMakeKid gid t' (some i) id = userNsMakeKid gid t (some i) id :=
    makeKid_extends hext gid (some i) fun j hj => by cases hj; exact hset
  refine ⟨n, hn, fun l hl k hk => by rw [hsame]; exact hat l hl k hk,
    fun id hno => by rw [hsame]; exact hnone id hno, fun id hmapped => ?_⟩
  rw [hsame] at hmapped ⊢
  rcases himg id hmapped with ⟨id', hid'⟩
  refine ⟨id', ?_⟩
  rw [← hid']
  refine makeKid_extends hext gid n.parent (fun p hp => ?_) id'
  exact set_of_makeKid id' (by rw [← hp, hid']; exact hmapped)

/-- Every map that is set was written by an accepted write of the run. -/
theorem set_from_write (hr : Run nsStep [] tr t) :
    ∀ (i : Nat) (n : UserNamespace) (gid : Bool), t[i]? = some n → (n.map gid).set = true →
      ∃ s cur text copyOk t', (s, NsOp.writeMap cur (some i) gid text copyOk) ∈ tr ∧
        userNsWriteMap s cur (some i) gid text copyOk = .ok t' := by
  induction hr with
  | nil => intro i n gid hn; rw [getElem?_nil] at hn; cases hn
  | snoc u v op tr _ hs ih =>
    intro i n gid hn hset
    -- Either the map was set before the step, or this step wrote it.
    have hold : (∃ n' : UserNamespace, u[i]? = some n' ∧ (n'.map gid).set = true) →
        ∃ s cur text copyOk t', (s, NsOp.writeMap cur (some i) gid text copyOk) ∈ tr ++ [(u, op)] ∧
          userNsWriteMap s cur (some i) gid text copyOk = .ok t' := by
      rintro ⟨n', hn', hset'⟩
      rcases ih i n' gid hn' hset' with ⟨s, cur, text, copyOk, t', hmem, hw⟩
      exact ⟨s, cur, text, copyOk, t', mem_append_left _ hmem, hw⟩
    rw [hs] at hn
    rcases applyOp_cases u op with h | ⟨m, hmap, h⟩ |
      ⟨cur, j, m, gid', text, copyOk, extent, rfl, hj, _, hw, h⟩ | ⟨j, m, hj, h⟩
    · rw [h] at hn
      exact hold ⟨n, hn, hset⟩
    · rw [h] at hn
      by_cases hi : i < u.length
      · rw [getElem?_append_left hi] at hn
        exact hold ⟨n, hn, hset⟩
      · have hnew := mem_of_getElem? hn
        rw [getElem?_append_right (by omega)] at hn
        rw [mem_singleton.mp (mem_of_getElem? hn), hmap gid] at hset
        cases hset
    · rw [h, getElem?_set] at hn
      split_ifs at hn with hji
      · cases hn
        rw [map_setMap] at hset
        split_ifs at hset with hg
        · subst hg
          subst hji
          exact ⟨u, cur, text, copyOk, _,
            mem_append_right _ (mem_singleton_self _), hw⟩
        · exact hold ⟨m, by rw [← hji]; exact hj, hset⟩
      · exact hold ⟨n, hn, hset⟩
    · rw [h, getElem?_set] at hn
      split_ifs at hn with hji
      · cases hn
        exact hold ⟨m, by rw [← hji]; exact hj, by cases gid <;> exact hset⟩
      · exact hold ⟨n, hn, hset⟩

/-- Runs whose accepted writes are all whole obey the composition law. -/
theorem composition_of_whole (tr : List (NsTable × NsOp)) (t : NsTable)
    (hr : Run nsStep [] tr t) (hwhole : ∀ p ∈ tr, WriteIsWhole p.1 p.2) :
    CompositionLaw tr t := by
  refine ⟨fun s cur i gid text copyOk t' hmem hw => ?_, set_from_write hr⟩
  rcases run_split hr _ _ hmem with ⟨tr₁, tr₂, v, htr, h₁, hs, h₂⟩
  have hv : v = t' := by rw [hs]; simp only [applyOp, hw]
  subst hv
  have hwhole₁ : ∀ p ∈ tr₁, WriteIsWhole p.1 p.2 :=
    fun p hp => hwhole p (by rw [htr]; exact mem_append_left _ hp)
  have hhere := write_mapsAs (run_bounded h₁ hwhole₁) hw (hwhole _ hmem)
  refine mapsAs_extends (run_extends h₂) ?_ hhere
  rcases write_stored hw (hwhole _ hmem) with ⟨n, _, hn, _, _, _, ht'⟩
  have hlt : i < s.length := (List.getElem?_eq_some_iff.mp hn).1
  exact ⟨_, by rw [ht']; exact getElem?_set_self hlt, by rw [map_setMap, if_pos rfl]⟩

/-- Root in the initial namespace, with every capability. -/
def hostRoot : Task :=
  { userNs := none, euid := 0, egid := 0, capEffective := BitVec.allOnes 64, chrooted := false }

/-- Root of the first namespace, which is kernel id 1000. -/
def nsRoot : Task :=
  { userNs := some 0, euid := 1000, egid := 0, capEffective := BitVec.allOnes 64,
    chrooted := false }

/-- Make a namespace, give it the uid map `uidText` and a gid map, and make a
    namespace below it whose uid map is `childText`. -/
def nestedOps (uidText childText : List Char) : List NsOp :=
  [.new hostRoot true, .writeMap hostRoot (some 0) false uidText true,
    .writeMap hostRoot (some 0) true ['0', ' ', '0', ' ', '1'] true, .new nsRoot true,
    .writeMap nsRoot (some 1) false childText true]

/-- The history of a list of calls. -/
def traceOf : NsTable → List NsOp → List (NsTable × NsOp)
  | _, [] => []
  | t, op :: ops => (t, op) :: traceOf (applyOp t op) ops

theorem run_traceOf (ops : List NsOp) :
    ∀ t, Run nsStep t (traceOf t ops) (ops.foldl applyOp t) := by
  induction ops with
  | nil => exact fun t => Run.nil
  | cons op ops ih =>
    intro t
    have hone : Run nsStep t ([] ++ [(t, op)]) (applyOp t op) := Run.snoc _ _ _ _ Run.nil rfl
    exact run_append hone (ih (applyOp t op))

/-- One extent of ten ids over the kernel ids from 1000. -/
def oneExtent : List Char := ['0', ' ', '1', '0', '0', '0', ' ', '1', '0']

/-- Three extents of ten ids. The first and the last lie thirty kernel ids
    apart, end to end, and the middle one is elsewhere. -/
def threeExtents : List Char :=
  ['0', ' ', '1', '0', '0', '0', ' ', '1', '0', '\n',
   '1', '0', ' ', '2', '0', '0', '0', ' ', '1', '0', '\n',
   '2', '0', ' ', '1', '0', '2', '0', ' ', '1', '0']

/-- The first namespace of `nestedOps`, with both its maps written. -/
def outerNs (extents : List IdExtent) : UserNamespace :=
  { parent := none, level := 1, owner := 0, group := 0
    uidMap := { set := true, extent := extents }
    gidMap := { set := true, extent := [⟨0, 0, 1⟩] }, setgroupsDenied := false }

/-- The second one, before its uid map is written. -/
def innerNs : UserNamespace :=
  { parent := some 0, level := 2, owner := 1000, group := 0
    uidMap := { set := false, extent := [] }, gidMap := { set := false, extent := [] }
    setgroupsDenied := false }

/-- A child whose line lies inside its parent's one extent. -/
theorem composition_of_whole_nested :
    CompositionLaw (traceOf [] (nestedOps oneExtent ['0', ' ', '2', ' ', '5']))
      ((nestedOps oneExtent ['0', ' ', '2', ' ', '5']).foldl applyOp []) := by
  refine composition_of_whole _ _ (run_traceOf _ []) fun p hp => ?_
  have h4 : applyOp (applyOp (applyOp (applyOp [] (.new hostRoot true))
      (.writeMap hostRoot (some 0) false oneExtent true))
      (.writeMap hostRoot (some 0) true ['0', ' ', '0', ' ', '1'] true)) (.new nsRoot true)
      = [outerNs [⟨0, 1000, 10⟩], innerNs] := by decide
  -- Nothing above a namespace of the host limits its lines.
  have htop : ∀ (t : NsTable) text gid, (∀ m ∈ t, m.parent = none) →
      (∀ l ∈ writtenLines text, l.first + l.count ≤ userNsInvalidId ∧
        l.lower + l.count ≤ userNsInvalidId) →
      WriteIsWhole t (.writeMap hostRoot (some 0) gid text true) := by
    intro t text gid hnone hfit n t' hn _ l hl
    rw [hnone n (mem_of_getElem? hn)]
    exact ⟨hfit l hl, trivial⟩
  simp only [traceOf, nestedOps, mem_cons, not_mem_nil, or_false] at hp
  rcases hp with rfl | rfl | rfl | rfl | rfl
  · trivial
  · exact htop _ _ _ (by decide) (by decide)
  · exact htop _ _ _ (by decide) (by decide)
  · trivial
  · intro n t' hn _ l hl
    simp only [h4, getElem?_cons_succ, getElem?_cons_zero, Option.some.injEq] at hn ⊢
    subst hn
    have hlines : writtenLines ['0', ' ', '2', ' ', '5'] = [⟨0, 2, 5⟩] := by decide
    rw [hlines, mem_singleton] at hl
    subst hl
    refine ⟨⟨by decide, by decide⟩, outerNs [⟨0, 1000, 10⟩], rfl, 1000, fun id h1 h2 => ?_⟩
    refine ⟨⟨0, 1000, 10⟩, find?_cons_of_pos (decide_eq_true ⟨Nat.zero_le _, ?_⟩), rfl⟩
    simp only [] at h1 h2 ⊢
    omega

/-- The law fails on a parent with several extents: the line is accepted by
    its two ends, and its eleventh id is stored as kernel id 1010, where the
    parent has 2000 and maps no id to 1010 at all. -/
theorem endpoints_do_not_compose :
    ¬ ∀ tr t, Run nsStep [] tr t → CompositionLaw tr t := by
  intro hlaw
  have hchild := (hlaw _ _ (run_traceOf
    (nestedOps threeExtents ['0', ' ', '0', ' ', '3', '0']) [])).1
  have h4 : applyOp (applyOp (applyOp (applyOp [] (.new hostRoot true))
      (.writeMap hostRoot (some 0) false threeExtents true))
      (.writeMap hostRoot (some 0) true ['0', ' ', '0', ' ', '1'] true)) (.new nsRoot true)
      = [outerNs [⟨0, 1000, 10⟩, ⟨10, 2000, 10⟩, ⟨20, 1020, 10⟩], innerNs] := by decide
  have hw : userNsWriteMap [outerNs [⟨0, 1000, 10⟩, ⟨10, 2000, 10⟩, ⟨20, 1020, 10⟩], innerNs]
      nsRoot (some 1) false ['0', ' ', '0', ' ', '3', '0'] true
      = .ok [outerNs [⟨0, 1000, 10⟩, ⟨10, 2000, 10⟩, ⟨20, 1020, 10⟩],
          innerNs.setMap false ⟨true, [⟨0, 1000, 30⟩]⟩] := by rfl
  simp only [traceOf, nestedOps, h4, foldl_cons, foldl_nil] at hchild
  rcases hchild _ nsRoot 1 false _ true _ (mem_cons_of_mem _ (mem_cons_of_mem _
    (mem_cons_of_mem _ (mem_cons_of_mem _ (mem_cons_self))))) hw with
    ⟨n, hn, hat, _, _⟩
  simp only [getElem?_cons_succ, getElem?_cons_zero, Option.some.injEq] at hn
  subst hn
  have hline : (⟨0, 0, 30⟩ : IdExtent) ∈ writtenLines ['0', ' ', '0', ' ', '3', '0'] := by decide
  have hval := hat _ hline 10 (by decide)
  cases hval

end IshAok.UserNs
