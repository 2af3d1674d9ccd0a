import IshAok.Theory.UserNs.Compose

/-!
# Setgroups Stays Denied

Whether `setgroups` is denied in a namespace is decided before its gid map is written: after that
it can not be denied any more, and it can never be allowed again. A namespace is made below another
one only by a task whose group that one maps. So the gid map of a parent is written before it has
a child, and what the child takes over is what the parent has for good. That is why the denial
reaches every namespace below and not only the children.

A gid map that is written without `CAP_SETGID` over the parent is accepted only with `setgroups`
denied, and hence `setgroups` stays refused there.

## Main definitions

* `Denied`: `setgroups` is denied in a namespace.
* `Below`: A namespace was made below another one.
* `Inherits`: A parent has its gid map, and a child its parent's denial.
* `Made`: What a call does to the switch and to the gid maps.

## Theorems

* `applyOp_made`: Every call is of that kind.
* `run_denied`: A denial stays.
* `denied_below`: A denial reaches every namespace below.
* `setgroups_stays_denied`: Both over runs, and for maps written without the capability.
-/

namespace IshAok.UserNs

open Base List

variable {t t' : NsTable}

/-- `setgroups` is denied in a namespace. -/
def Denied (t : NsTable) (i : Nat) : Prop :=
  ∃ n : UserNamespace, t[i]? = some n ∧ n.setgroupsDenied = true

/-- A namespace was made below another one, directly or not. -/
inductive Below (t : NsTable) (i : Nat) : Nat → Prop
  | child (j : Nat) (m : UserNamespace) : t[j]? = some m → m.parent = some i → Below t i j
  | under (j k : Nat) (m : UserNamespace) : t[j]? = some m → m.parent = some k → Below t i k →
      Below t i j

/-- A parent has its gid map, and a child its parent's denial. -/
def Inherits (t : NsTable) : Prop :=
  ∀ (j : Nat) (m : UserNamespace) (p : Nat), t[j]? = some m → m.parent = some p →
    ∃ n : UserNamespace, t[p]? = some n ∧ n.gidMap.set = true ∧
      (n.setgroupsDenied = true → m.setgroupsDenied = true)

/-! ## What a call does -/

variable {i : Nat} {cur : Task}

/-- A namespace maps a group only if its gid map is written. -/
theorem gidMap_of_fromKgid {kid : Nat} (h : userNsFromKgid t (some i) kid ≠ userNsInvalidId) :
    ∃ n : UserNamespace, t[i]? = some n ∧ n.gidMap.set = true := by
  rw [userNsFromKgid, userNsFromKid] at h
  cases hn : t[i]? with
  | none =>
    rw [hn] at h
    exact absurd rfl h
  | some n =>
    refine ⟨n, rfl, ?_⟩
    cases hset : n.gidMap.set with
    | true => rfl
    | false =>
      rw [hn] at h
      exact absurd (if_pos (.inr hset)) h

/-- A namespace that is made takes over the denial of a parent whose gid map is written. -/
theorem userNsNew_inherits {allocOk : Bool} (h : userNsNew t cur allocOk = .ok (t', i)) :
    ∃ m : UserNamespace, t' = t ++ [m] ∧ ∀ p, m.parent = some p →
      ∃ n : UserNamespace, t[p]? = some n ∧ n.gidMap.set = true ∧
        m.setgroupsDenied = n.setgroupsDenied := by
  rw [userNsNew] at h
  split at h
  · cases h
  split at h
  · cases h
  split at h
  · cases h
  next hmapped =>
  split at h
  · cases h
  rw [Except.ok.injEq, Prod.mk.injEq] at h
  refine ⟨_, h.1.symm, fun p hp => ?_⟩
  change cur.userNs = some p at hp
  rw [not_or, hp] at hmapped
  rcases gidMap_of_fromKgid hmapped.2 with ⟨n, hn, hset⟩
  refine ⟨n, hn, hset, ?_⟩
  simp only [hp, hn]

/-- `setgroups` is denied only before the gid map is written. -/
theorem userNsWriteSetgroups_inTime {ns : Option Nat} {text : List Char}
    (h : userNsWriteSetgroups t cur ns text = .ok t') :
    t' = t ∨ ∃ i, ∃ n : UserNamespace, t[i]? = some n ∧
      (n.gidMap.set = true → n.setgroupsDenied = true) ∧
      t' = t.set i { n with setgroupsDenied := true } := by
  rw [userNsWriteSetgroups] at h
  split at h
  · cases h
  split at h
  · cases h
  split at h
  · split at h
    · exact .inl (Except.ok.inj h).symm
    · cases h
  · next i _ =>
    split at h
    · cases h
    next n hn =>
    split at h
    · split at h
      · cases h
      · exact .inl (Except.ok.inj h).symm
    · split at h
      · cases h
      next hlate =>
      refine .inr ⟨i, n, hn, fun hset => ?_, (Except.ok.inj h).symm⟩
      rw [not_and, Bool.not_eq_false] at hlate
      exact hlate hset

/-- A gid map that is accepted without the capability over the parent, with `setgroups` denied. -/
theorem writeMap_unprivileged {text : List Char} {copyOk : Bool} {n : UserNamespace}
    (h : userNsWriteMap t cur (some i) true text copyOk = .ok t') (hn : t[i]? = some n)
    (hcap : nsCapable t cur n.parent capSetgid = false) : n.setgroupsDenied = true := by
  rw [userNsWriteMap] at h
  simp only [hn] at h
  split_ifs at h
  split at h
  · cases h
  next parsed _ =>
  rw [writeMap] at h
  split at h
  · cases h
  split at h
  · cases h
  next hallowed =>
  -- It is the writer's own group, and that one needs the denial.
  have hown : ownId true t cur n parsed = true := by
    by_contra hno
    exact hallowed ⟨Bool.eq_false_iff.mpr hno, hcap⟩
  rw [ownId.eq_def] at hown
  split at hown
  · split at hown
    · simp only [if_true, Bool.and_eq_true] at hown
      exact hown.1
    · cases hown
  · cases hown

/-! ## One call -/

/-- What a call does to a namespace that is there: it keeps its parent, its gid map if that is
    written, and its denial, and it is not denied after its gid map is written. -/
structure Kept (n n' : UserNamespace) : Prop where
  parent : n'.parent = n.parent
  gidMap : n.gidMap.set = true → n'.gidMap.set = true
  denied : n.setgroupsDenied = true → n'.setgroupsDenied = true
  inTime : n.gidMap.set = true → n'.setgroupsDenied = n.setgroupsDenied

theorem Kept.refl (n : UserNamespace) : Kept n n :=
  ⟨rfl, id, id, fun _ => rfl⟩

/-- What a call does to the table: namespaces are kept, and one that is made takes over the denial
    of a parent whose gid map is written. -/
structure Made (t t' : NsTable) : Prop where
  kept : ∀ (j : Nat) (m : UserNamespace), t[j]? = some m → ∃ m', t'[j]? = some m' ∧ Kept m m'
  made : ∀ (j : Nat) (m' : UserNamespace), t'[j]? = some m' → t[j]? = none →
    ∀ p, m'.parent = some p → ∃ n : UserNamespace, t[p]? = some n ∧ n.gidMap.set = true ∧
      m'.setgroupsDenied = n.setgroupsDenied

theorem made_refl (t : NsTable) : Made t t := by
  refine ⟨fun j m hm => ⟨m, hm, Kept.refl m⟩, fun j m' hm' hnone => ?_⟩
  rw [hm'] at hnone
  cases hnone

/-- One namespace changes, and none is made. -/
theorem made_set {n n' : UserNamespace} (hn : t[i]? = some n) (h : Kept n n') :
    Made t (t.set i n') := by
  refine ⟨fun j m hm => ?_, fun j m' hm' hnone => ?_⟩
  · by_cases hij : i = j
    · subst hij
      rw [hn, Option.some.injEq] at hm
      rw [← hm]
      exact ⟨n', getElem?_set_self (List.getElem?_eq_some_iff.mp hn).1, h⟩
    · exact ⟨m, by rw [getElem?_set_ne hij, hm], Kept.refl m⟩
  · have hlt := (List.getElem?_eq_some_iff.mp hm').1
    rw [length_set] at hlt
    rw [getElem?_eq_getElem hlt] at hnone
    cases hnone

theorem applyOp_made (op : NsOp) : Made t (applyOp t op) := by
  cases op with
  | new cur allocOk =>
    rw [applyOp]
    split
    · next made i hnew =>
      rcases userNsNew_inherits hnew with ⟨m, rfl, hm⟩
      refine ⟨fun j x hx => ⟨x, ?_, Kept.refl x⟩, fun j m' hm' hnone => ?_⟩
      · rw [getElem?_append_left (List.getElem?_eq_some_iff.mp hx).1, hx]
      · rw [getElem?_append_right (List.getElem?_eq_none_iff.mp hnone)] at hm'
        rw [mem_singleton.mp (mem_of_getElem? hm')]
        exact hm
    · exact made_refl t
  | writeMap cur ns gid text copyOk =>
    rw [applyOp]
    split
    · next made hwrite =>
      rcases userNsWriteMap_ok t cur ns gid text copyOk made hwrite with
        ⟨i, n, _, extent, _, hn, _, _, _, rfl⟩
      refine made_set hn ?_
      cases gid with
      | true => exact ⟨rfl, fun _ => rfl, id, fun _ => rfl⟩
      | false => exact ⟨rfl, id, id, fun _ => rfl⟩
    · exact made_refl t
  | writeSetgroups cur ns text =>
    rw [applyOp]
    split
    · next made hwrite =>
      rcases userNsWriteSetgroups_inTime hwrite with rfl | ⟨i, n, hn, htime, rfl⟩
      · exact made_refl _
      · exact made_set hn ⟨rfl, id, fun _ => rfl, fun hmap => (htime hmap).symm⟩
    · exact made_refl t

/-! ## Runs -/

theorem applyOp_denied (op : NsOp) (h : Denied t i) : Denied (applyOp t op) i := by
  rcases h with ⟨n, hn, hdenied⟩
  rcases (applyOp_made op).kept i n hn with ⟨n', hn', hkept⟩
  exact ⟨n', hn', hkept.denied hdenied⟩

/-- A denial stays. -/
theorem run_denied {tr : List (NsTable × NsOp)} (hrun : Run nsStep t tr t') (h : Denied t i) :
    Denied t' i := by
  refine run_invariant (fun u => Denied u i) hrun h fun u op v _ hu hstep => ?_
  rw [hstep]
  exact applyOp_denied op hu

theorem applyOp_inherits (op : NsOp) (h : Inherits t) : Inherits (applyOp t op) := by
  rcases applyOp_made (t := t) op with ⟨hkept, hmade⟩
  -- The parent is kept, and its gid map being written, so is whether it is denied.
  have hparent : ∀ (p : Nat) (n : UserNamespace) (d : Bool), t[p]? = some n →
      n.gidMap.set = true → (n.setgroupsDenied = true → d = true) →
      ∃ n' : UserNamespace, (applyOp t op)[p]? = some n' ∧ n'.gidMap.set = true ∧
        (n'.setgroupsDenied = true → d = true) := by
    intro p n d hn hset hd
    rcases hkept p n hn with ⟨n', hn', hk⟩
    exact ⟨n', hn', hk.gidMap hset, fun hdenied => hd (hk.inTime hset ▸ hdenied)⟩
  intro j m' p hm' hp
  cases hm : t[j]? with
  | none =>
    rcases hmade j m' hm' hm p hp with ⟨n, hn, hset, hdenied⟩
    exact hparent p n m'.setgroupsDenied hn hset fun hd => hdenied.trans hd
  | some m =>
    rcases hkept j m hm with ⟨m'', hm'', hk⟩
    rw [hm', Option.some.injEq] at hm''
    rw [hm'', hk.parent] at hp
    rcases h j m p hm hp with ⟨n, hn, hset, hdenied⟩
    rw [hm'']
    exact hparent p n m''.setgroupsDenied hn hset fun hd => hk.denied (hdenied hd)

theorem run_inherits {tr : List (NsTable × NsOp)} (hrun : Run nsStep [] tr t) : Inherits t := by
  refine run_invariant Inherits hrun ?_ fun u op v _ hu hstep => ?_
  · intro j m p hm
    cases hm
  · rw [hstep]
    exact applyOp_inherits op hu

/-- A denial reaches every namespace below. -/
theorem denied_below {j : Nat} (hin : Inherits t) (h : Denied t i) (hbelow : Below t i j) :
    Denied t j := by
  -- By induction down the chain of parents.
  induction hbelow with
  | child j m hm hp =>
    rcases hin j m i hm hp with ⟨n, hn, _, hdenied⟩
    rcases h with ⟨n', hn', hd⟩
    rw [hn, Option.some.injEq] at hn'
    exact ⟨m, hm, hdenied (hn' ▸ hd)⟩
  | under j k m hm hp _ ih =>
    rcases hin j m k hm hp with ⟨n, hn, _, hdenied⟩
    rcases ih with ⟨n', hn', hd⟩
    rw [hn, Option.some.injEq] at hn'
    exact ⟨m, hm, hdenied (hn' ▸ hd)⟩

theorem maySetgroups_denied (h : Denied t i) : userNsMaySetgroups t (some i) = false := by
  rcases h with ⟨n, hn, hdenied⟩
  simp [userNsMaySetgroups, hn, hdenied]

/-- Over any run of calls: a namespace in which `setgroups` was denied has it denied ever after, and
    so has every namespace below it; and where a gid map was accepted from a writer without
    `CAP_SETGID` over the parent, `setgroups` is refused ever after. -/
theorem setgroups_stays_denied {tr tr' : List (NsTable × NsOp)} (hrun : Run nsStep [] tr t)
    (hrun' : Run nsStep t tr' t') :
    (∀ i, Denied t i → Denied t' i ∧ ∀ j, Below t' i j → Denied t' j) ∧
    ∀ (u u' : NsTable) (cur : Task) (i : Nat) (text : List Char) (copyOk : Bool)
      (n : UserNamespace), (u, NsOp.writeMap cur (some i) true text copyOk) ∈ tr ++ tr' →
      userNsWriteMap u cur (some i) true text copyOk = .ok u' → u[i]? = some n →
      nsCapable u cur n.parent capSetgid = false → userNsMaySetgroups t' (some i) = false := by
  have hall := run_append hrun hrun'
  refine ⟨fun i hi => ?_, fun u u' cur i text copyOk n hmem hwrite hn hcap => ?_⟩
  · have hlater := run_denied hrun' hi
    exact ⟨hlater, fun j hj => denied_below (run_inherits hall) hlater hj⟩
  · -- It was denied when the map was written.
    have hdenied : Denied u i := ⟨n, hn, writeMap_unprivileged hwrite hn hcap⟩
    rcases run_split hall u _ hmem with ⟨_, _, v, _, _, hstep, hrest⟩
    refine maySetgroups_denied (run_denied hrest ?_)
    rw [hstep]
    exact applyOp_denied _ hdenied

/-- A user of the initial namespace without any capability. -/
def plainUser : Task :=
  { userNs := none, euid := 1000, egid := 1000, capEffective := 0#64, chrooted := false }

/-- The same user in the namespace it made, where it has every capability. -/
def plainUserInside : Task :=
  { plainUser with userNs := some 0, capEffective := BitVec.allOnes 64 }

/-- A user makes a namespace, denies `setgroups`, and maps its own ids there. -/
def plainUserOps : List NsOp :=
  [.new plainUser true, .writeSetgroups plainUserInside (some 0) ['d', 'e', 'n', 'y'],
    .writeMap plainUserInside (some 0) true ['0', ' ', '1', '0', '0', '0', ' ', '1'] true,
    .writeMap plainUserInside (some 0) false ['0', ' ', '1', '0', '0', '0', ' ', '1'] true]

/-- Then `setgroups` is refused there, and in a namespace that is made below. -/
theorem setgroups_stays_denied_below :
    userNsMaySetgroups (applyOp (plainUserOps.foldl applyOp []) (.new plainUserInside true))
        (some 0) = false ∧
      Denied (applyOp (plainUserOps.foldl applyOp []) (.new plainUserInside true)) 1 := by
  have hfirst := run_traceOf plainUserOps []
  have hsecond := run_traceOf [.new plainUserInside true] (plainUserOps.foldl applyOp [])
  have hall := setgroups_stays_denied hfirst hsecond
  constructor
  · refine hall.2 (applyOp (applyOp [] (.new plainUser true))
        (.writeSetgroups plainUserInside (some 0) ['d', 'e', 'n', 'y']))
      (applyOp (applyOp (applyOp [] (.new plainUser true))
        (.writeSetgroups plainUserInside (some 0) ['d', 'e', 'n', 'y']))
        (.writeMap plainUserInside (some 0) true ['0', ' ', '1', '0', '0', '0', ' ', '1'] true))
      plainUserInside 0 ['0', ' ', '1', '0', '0', '0', ' ', '1'] true
      ⟨none, 1, 1000, 1000, ⟨false, []⟩, ⟨false, []⟩, true⟩ (mem_append_left _ ?_) ?_ ?_ ?_
    · exact mem_cons_of_mem _ (mem_cons_of_mem _ mem_cons_self)
    · decide +kernel
    · decide +kernel
    · decide +kernel
  · refine (hall.1 0 ⟨⟨none, 1, 1000, 1000, ⟨true, [⟨0, 1000, 1⟩]⟩, ⟨true, [⟨0, 1000, 1⟩]⟩, true⟩,
      by decide +kernel, rfl⟩).2 1 ?_
    exact .child 1 ⟨some 0, 2, 1000, 1000, ⟨false, []⟩, ⟨false, []⟩, true⟩ (by decide +kernel) rfl

end IshAok.UserNs
