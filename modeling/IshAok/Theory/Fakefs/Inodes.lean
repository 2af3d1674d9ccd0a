import IshAok.Core.FakeDb

/-!
# Inode Numbers of fakefs

A number that was handed out is not handed out again, even when its file is
gone. The mark in the database is what keeps it: every claim starts at it and
moves it on, in the transaction that makes the file, so the numbers of
committed files increase. The counters of the mounts may be stale and do not
matter.

A mark past 32 bits is read as none, and the mount is meant to compact then.
But the mark is one more than the last number. Once `2 ^ 32 - 1` is handed out
the mark is past 32 bits while all numbers fit, nothing is compacted, and a
stale counter or a fresh one that starts over is used as it is.

## Main definitions

* `mark`: The mark of the database.
* `committed`: The numbers of the files that a run made, in commit order.

## Theorems

* `claim_ge`: A claim is not below the mark.
* `marked_step`: One step keeps all numbers below the mark.
* `inodes_never_reused`: No number is handed out twice.
* `rename_moves_subtree`: What a rename does to the names.
-/

namespace IshAok.FakeDb

open Base List

variable {ι : Type} [DecidableEq ι]

/-- `next_inode` of `meta`. -/
def mark (db : Db) : Nat :=
  db.nextInode.getD 0

/-- The numbers of committed files and of those the open transaction made. -/
def account (acc : List Nat × List Nat) (l : Action ι × Option Nat) : List Nat × List Nat :=
  match l with
  | (.begin _, _) => (acc.1, [])
  | (.create _ _, some n) => if n = 0 then acc else (acc.1, acc.2 ++ [n])
  | (.commit, _) => (acc.1 ++ acc.2, [])
  | (.rollback, _) => (acc.1, [])
  | _ => acc

/-- The accounts of a run. -/
def accounts (tr : List (State ι × Action ι × Option Nat)) : List Nat × List Nat :=
  tr.foldl (fun acc p => account acc p.2) ([], [])

/-- The numbers of the files whose transaction was committed. -/
def committed (tr : List (State ι × Action ι × Option Nat)) : List Nat :=
  (accounts tr).1

omit [DecidableEq ι] in
theorem account_create (acc : List Nat × List Nat) (path : Text) (stat : Stat) (n : Nat) :
    account acc ((.create path stat : Action ι), some n) = acc ∨
      account acc ((.create path stat : Action ι), some n) = (acc.1, acc.2 ++ [n]) := by
  rw [account]
  split
  · exact .inl rfl
  · exact .inr rfl

theorem mark_of_low {db : Db} (h : mark db ≤ uint32Max) : nextInodeMark db = mark db :=
  if_neg (Nat.not_lt.mpr h)

/-- A claim is not below the mark. -/
theorem claim_ge {db : Db} (h : mark db ≤ uint32Max) {attempts next n next' : Nat}
    (hclaim : claim db attempts next = (some n, next')) : mark db ≤ n := by
  induction attempts generalizing next with
  | zero => cases hclaim
  | succ attempts ih =>
    rw [claim, mark_of_low h] at hclaim
    have hge : mark db ≤ if next < mark db then mark db else next := by
      split <;> omega
    generalize (if next < mark db then mark db else next) = inode at hclaim hge
    split at hclaim
    · exact ih hclaim
    · cases hclaim
      exact hge

/-- What a creation does to the mark: its number was not below, and is now. -/
theorem pathCreate_mark {db : Db} (h : mark db ≤ uint32Max) (next : Nat) (path : Text)
    (stat : Stat) :
    (pathCreate db next path stat).1 = 0 ∧ (pathCreate db next path stat).2.1 = db ∨
      mark db ≤ (pathCreate db next path stat).1 ∧ mark (pathCreate db next path stat).2.1 =
          max (mark db) ((pathCreate db next path stat).1 + 1) := by
  unfold pathCreate
  rcases hclaim : claim db 8 next with ⟨_ | n, next'⟩
  · exact .inl ⟨rfl, rfl⟩
  · exact .inr ⟨claim_ge h hclaim, rfl⟩

theorem mark_pathLink {db db' : Db} {src dst : Text} (h : pathLink db src dst = some db') :
    mark db' = mark db := by
  unfold pathLink at h
  split at h <;> cases h
  rfl

theorem mark_pathUnlink (db : Db) (path : Text) : mark (pathUnlink db path).2 = mark db := by
  unfold pathUnlink
  split <;> rfl

/-- A creation starts with a mark that is looked at. -/
def low (s : State ι) : Action ι → Bool
  | .create _ _ => s.txn.all fun t => mark t.2 ≤ uint32Max
  | _ => true

/-- All numbers are below the mark and in order, in the tables and in the copy
    of the writer. -/
structure Marked (s : State ι) (acc : List Nat × List Nat) : Prop where
  below : ∀ n ∈ acc.1, n < mark s.db
  sorted : acc.1.Pairwise (· < ·)
  writer : ∀ t, s.txn = some t → (∀ n ∈ acc.1 ++ acc.2, n < mark t.2) ∧
    (acc.1 ++ acc.2).Pairwise (· < ·)

theorem sorted_snoc {l : List Nat} {n m : Nat} (h : l.Pairwise (· < ·)) (hlt : ∀ x ∈ l, x < m)
    (hle : m ≤ n) : (l ++ [n]).Pairwise (· < ·) := by
  refine pairwise_append.mpr ⟨h, pairwise_singleton _ _, fun x hx y hy => ?_⟩
  rw [mem_singleton.mp hy]
  exact Nat.lt_of_lt_of_le (hlt x hx) hle

/-- One step keeps all numbers below the mark. -/
theorem marked_step {s t : State ι} {acc : List Nat × List Nat} {a : Action ι} {r : Option Nat}
    (h : Marked s acc) (hlow : low s a = true) (hstep : Step s (a, r) t) :
    Marked t (account acc (a, r)) := by
  unfold Step at hstep
  cases a with
  | mount | sweep =>
    rcases Option.ite_none_left_eq_some.mp hstep with ⟨_, hres⟩
    cases hres
    exact { h with }
  | begin i =>
    rcases Option.ite_none_left_eq_some.mp hstep with ⟨_, hres⟩
    cases hres
    refine { h with writer := fun t ht => ?_ }
    cases ht
    exact ⟨by rw [account, append_nil]; exact h.below,
      by rw [account, append_nil]; exact h.sorted⟩
  | create path stat =>
    simp only [exec] at hstep
    split at hstep
    · cases hstep
    next i db htxn =>
    cases hstep
    rcases h.writer _ htxn with ⟨hbelow, hsorted⟩
    have hdb : mark db ≤ uint32Max := by simpa [low, htxn] using hlow
    rcases pathCreate_mark hdb ((s.next i).getD 0) path stat with ⟨hzero, hsame⟩ | ⟨hge, hmark⟩
    · -- No number could be claimed.
      rw [account, if_pos hzero]
      refine { h with writer := fun t ht => ?_ }
      cases ht
      rw [hsame]
      exact ⟨hbelow, hsorted⟩
    · generalize (pathCreate db ((s.next i).getD 0) path stat).1 = n at hge hmark ⊢
      have hkept : ∀ m ∈ acc.1 ++ acc.2, m < max (mark db) (n + 1) :=
        fun m hm => Nat.lt_of_lt_of_le (hbelow m hm) (Nat.le_max_left _ _)
      rcases account_create acc path stat n with hacc | hacc <;> rw [hacc] <;>
        refine { h with writer := fun t ht => ?_ } <;> cases ht <;> dsimp only <;>
        rw [hmark]
      · exact ⟨hkept, hsorted⟩
      · rw [← append_assoc]
        refine ⟨fun m hm => ?_, sorted_snoc hsorted hbelow hge⟩
        rcases mem_append.mp hm with hm | hm
        · exact hkept m hm
        · rw [mem_singleton.mp hm]
          omega
  | link src dst =>
    rcases Option.bind_eq_some_iff.mp hstep with ⟨t, htxn, hlink⟩
    rcases Option.map_eq_some_iff.mp hlink with ⟨db, hdb, hres⟩
    cases hres
    refine { h with writer := fun t ht => ?_ }
    cases ht
    rw [mark_pathLink hdb]
    exact h.writer _ htxn
  | unlink path =>
    rcases Option.map_eq_some_iff.mp hstep with ⟨t, htxn, hres⟩
    cases hres
    refine { h with writer := fun t ht => ?_ }
    cases ht
    rw [mark_pathUnlink]
    exact h.writer _ htxn
  | rename | cleanup =>
    rcases Option.map_eq_some_iff.mp hstep with ⟨t, htxn, hres⟩
    cases hres
    refine { h with writer := fun u hu => ?_ }
    cases hu
    exact h.writer t htxn
  | commit =>
    rcases Option.map_eq_some_iff.mp hstep with ⟨t, htxn, hres⟩
    cases hres
    rcases h.writer t htxn with ⟨hbelow, hsorted⟩
    exact ⟨hbelow, hsorted, fun t ht => by cases ht⟩
  | rollback =>
    rcases Option.map_eq_some_iff.mp hstep with ⟨t, htxn, hres⟩
    cases hres
    exact { h with writer := fun t ht => by cases ht }

theorem marked_run {s₀ s : State ι} {tr : List (State ι × Action ι × Option Nat)}
    (htxn : s₀.txn = none) (hrun : Run Step s₀ tr s)
    (hlow : ∀ p ∈ tr, low p.1 p.2.1 = true) : Marked s (accounts tr) := by
  induction hrun with
  | nil =>
    refine ⟨fun n hn => absurd hn not_mem_nil, List.Pairwise.nil, fun t ht => ?_⟩
    rw [htxn] at ht
    cases ht
  | snoc u v a tr hrun hstep ih =>
    rw [accounts, foldl_append]
    exact marked_step (ih fun p hp => hlow p (mem_append_left _ hp))
      (hlow _ (mem_append_right _ (mem_singleton_self _))) hstep

/-- No number is handed out twice, as long as no file is made once the mark is
    past 32 bits. The database may have any files and the counters may be
    anything. -/
theorem inodes_never_reused {s₀ s : State ι} {tr : List (State ι × Action ι × Option Nat)}
    (htxn : s₀.txn = none) (hrun : Run Step s₀ tr s)
    (hlow : ∀ p ∈ tr, low p.1 p.2.1 = true) : (committed tr).Nodup :=
  (marked_run htxn hrun hlow).sorted.imp fun hlt => Nat.ne_of_lt hlt

/-- Metadata for the runs below. -/
def plainStat : Stat := ⟨0o100644, 0, 0, 0⟩

/-- A root with one more file of a given number, and two mounts to come. -/
def rootWith (inode : Nat) : State Bool :=
  { db := ⟨[(1, plainStat), (inode, plainStat)], [([], 1), ([47, 97], inode)], some (inode + 1)⟩
    txn := none
    next := fun _ => none }

/-- Two mounts. The first makes two files and removes one, the second makes one. -/
def twoMounts (inode : Nat) : List (Action Bool) :=
  [.mount false, .mount true, .begin false, .create [47, 98] plainStat,
    .create [47, 99] plainStat, .commit, .begin false, .unlink [47, 98], .cleanup (inode + 1),
    .commit, .begin true, .create [47, 100] plainStat, .commit]

/-- The second mount has a stale counter and gets a new number, the last of 32
    bits. -/
theorem inodes_never_reused_stale : ∃ (tr : List (State Bool × Action Bool × Option Nat))
    (s : State Bool), Run Step (rootWith (2 ^ 32 - 4)) tr s ∧
      committed tr = [2 ^ 32 - 3, 2 ^ 32 - 2, 2 ^ 32 - 1] ∧ (committed tr).Nodup := by
  have hrun : (runList exec (rootWith (2 ^ 32 - 4)) (twoMounts (2 ^ 32 - 4))).map (fun r =>
      (r.1.all fun p => low p.1 p.2.1, committed r.1)) =
        some (true, [2 ^ 32 - 3, 2 ^ 32 - 2, 2 ^ 32 - 1]) := by decide +kernel
  rcases Option.map_eq_some_iff.mp hrun with ⟨⟨tr, s⟩, htr, hval⟩
  simp only [Prod.mk.injEq, all_eq_true] at hval
  have hsteps : Run Step (rootWith (2 ^ 32 - 4)) tr s := run_of_runList _ _ _ _ htr
  exact ⟨tr, s, hsteps, hval.2, inodes_never_reused rfl hsteps hval.1⟩

/-- Once the last number of 32 bits is handed out the mark is not looked at, and
    the second mount gets a number that the first had. -/
theorem inode_handed_out_twice : ∃ (s₀ s : State Bool)
    (tr : List (State Bool × Action Bool × Option Nat)), s₀.txn = none ∧
      mark s₀.db ≤ uint32Max ∧ Run Step s₀ tr s ∧
      (∀ p ∈ tr, ∀ n, p.2.2 = some n → n ≤ uint32Max) ∧
      committed tr = [2 ^ 32 - 2, 2 ^ 32 - 1, 2 ^ 32 - 2] ∧ ¬(committed tr).Nodup := by
  have hrun : (runList exec (rootWith (2 ^ 32 - 3)) (twoMounts (2 ^ 32 - 3))).map (fun r =>
      (r.1.all fun p => decide (p.2.2.getD 0 ≤ uint32Max), committed r.1)) =
        some (true, [2 ^ 32 - 2, 2 ^ 32 - 1, 2 ^ 32 - 2]) := by decide +kernel
  rcases Option.map_eq_some_iff.mp hrun with ⟨⟨tr, s⟩, htr, hval⟩
  simp only [Prod.mk.injEq, all_eq_true, decide_eq_true_eq] at hval
  have hsteps : Run Step (rootWith (2 ^ 32 - 3)) tr s := run_of_runList _ _ _ _ htr
  refine ⟨_, s, tr, rfl, by decide, hsteps, fun p hp n hn => ?_, hval.2, ?_⟩
  · have hlow := hval.1 p hp
    rw [hn] at hlow
    exact hlow
  · rw [hval.2]
    decide

/-- The path itself, or what follows it in a path below it. -/
def Tail (rest : Text) : Prop :=
  rest = [] ∨ rest.head? = some 47

/-- The byte after a slash is the zero, so the comparisons pick what is below `src`. -/
theorem inSubtree_iff (src path : Text) :
    inSubtree src path = true ↔ ∃ rest, Tail rest ∧ path = src ++ rest := by
  simp only [inSubtree, decide_eq_true_eq, Tail]
  induction src generalizing path with
  | nil =>
    have hc : ∀ c : UInt8, 47 ≤ c ∧ c < 48 ↔ c = 47 := by decide +kernel
    cases path <;> simp [List.cons_lt_cons_iff, hc]
  | cons a src ih =>
    cases path with
    | nil => simp
    | cons c path =>
      by_cases hc : c = a
      · simpa [hc, List.cons_lt_cons_iff] using ih path
      · simp [hc, List.cons_lt_cons_iff]

theorem tail_left {a b : Text} (h : Tail (a ++ b)) : Tail a := by
  cases a with
  | nil => exact .inl rfl
  | cons c a => exact .inr (h.resolve_left (cons_ne_nil _ _))

theorem changePrefix_append (src rest dst : Text) :
    changePrefix (src ++ rest) src.length dst = dst ++ rest := by
  rw [changePrefix, drop_left]

/-- The rows after an update, where no new name is that of another row that is
    changed, before or after. -/
theorem mem_updateOrReplace {change : Text → Text} {x : Text × Nat} (todo : List (Text × Nat)) :
    ∀ rows, (todo.map Prod.fst).Nodup → (∀ r ∈ todo, r.1 ∉ rows.map Prod.fst) →
      (∀ r ∈ todo, ∀ q ∈ todo, change r.1 = q.1 ∨ change r.1 = change q.1 → r.1 = q.1) →
      (x ∈ updateOrReplace change todo rows ↔ (∃ r ∈ todo, x = (change r.1, r.2)) ∨
        x ∈ rows ∧ ∀ r ∈ todo, x.1 ≠ change r.1) := by
  induction todo with
  | nil => simp [updateOrReplace]
  | cons r todo ih =>
    intro rows hkey hrows hnew
    rcases nodup_cons.mp hkey with ⟨hr, hkey⟩
    have hother : ∀ q ∈ todo, ¬ (change r.1 = q.1 ∨ change r.1 = change q.1) := fun q hq h =>
      hr (hnew r mem_cons_self q (mem_cons_of_mem _ hq) h ▸ mem_map_of_mem hq)
    rw [updateOrReplace, if_neg (hrows r mem_cons_self), ih _ hkey ?_ fun q hq p hp =>
      hnew q (mem_cons_of_mem _ hq) p (mem_cons_of_mem _ hp)]
    · simp only [putPath, mem_cons, mem_filter, decide_eq_true_eq]
      grind
    · simp only [putPath, map_cons, mem_cons, mem_map, mem_filter]
      grind

/-- A rename moves what is below `src`, and what is in its way goes, where neither
    path is below the other. -/
theorem rename_moves_subtree {db : Db} (hkey : (db.paths.map Prod.fst).Nodup) {src dst : Text}
    (hapart : inSubtree src dst = true ∨ inSubtree dst src = true → src = dst) (path : Text)
    (inode : Nat) :
    (path, inode) ∈ (pathRename db src dst).paths ↔
      (∃ rest, Tail rest ∧ path = dst ++ rest ∧ (src ++ rest, inode) ∈ db.paths) ∨
      (path, inode) ∈ db.paths ∧ ∀ rest, Tail rest → path ≠ src ++ rest ∧
        (path = dst ++ rest → ∀ i, (src ++ rest, i) ∉ db.paths) := by
  have hbelow : ∀ r : Text × Nat, r ∈ db.paths.filter (fun r => inSubtree src r.1) →
      ∃ rest, Tail rest ∧ r.1 = src ++ rest := fun r hr =>
    (inSubtree_iff src _).mp (mem_filter.mp hr).2
  unfold pathRename
  rw [mem_updateOrReplace _ _ (hkey.sublist (filter_sublist.map _))]
  · simp only [mem_filter, inSubtree_iff, Bool.not_eq_true', Bool.eq_false_iff, ne_eq]
    constructor
    · rintro (⟨⟨p, i⟩, ⟨hp, rest, hrest, rfl⟩, heq⟩ | ⟨⟨hp, hout⟩, hfree⟩)
      · rw [changePrefix_append, Prod.mk.injEq] at heq
        exact .inl ⟨rest, hrest, heq.1, heq.2 ▸ hp⟩
      · refine .inr ⟨hp, fun rest hrest => ⟨fun h => hout ⟨rest, hrest, h⟩, fun h i hi => ?_⟩⟩
        exact hfree (_, i) ⟨hi, rest, hrest, rfl⟩ (by rw [changePrefix_append, h])
    · rintro (⟨rest, hrest, rfl, hp⟩ | ⟨hp, hfree⟩)
      · exact .inl ⟨_, ⟨hp, rest, hrest, rfl⟩, by rw [changePrefix_append]⟩
      · refine .inr ⟨⟨hp, fun ⟨rest, hrest, h⟩ => (hfree rest hrest).1 h⟩, ?_⟩
        rintro ⟨p, i⟩ ⟨hi, rest, hrest, rfl⟩ h
        exact (hfree rest hrest).2 (by rw [h, changePrefix_append]) i hi
  · intro r hr hmem
    rcases mem_map.mp hmem with ⟨q, hq, heq⟩
    have hout := (mem_filter.mp hq).2
    rw [heq, (mem_filter.mp hr).2] at hout
    cases hout
  · intro r hr q hq h
    rcases hbelow r hr with ⟨k, hk, hr⟩
    rcases hbelow q hq with ⟨k', hk', hq⟩
    rw [hr, hq, changePrefix_append, changePrefix_append, append_cancel_left_eq] at h
    rw [hr, hq]
    rcases h with h | h
    · -- A new name below `src` makes one of the paths the other or below it.
      have hsame : src = dst := by
        refine hapart ?_
        rcases append_eq_append_iff.mp h with ⟨a, ha, rfl⟩ | ⟨a, ha, rfl⟩
        · exact .inr ((inSubtree_iff _ _).mpr ⟨a, tail_left hk, ha⟩)
        · exact .inl ((inSubtree_iff _ _).mpr ⟨a, tail_left hk', ha⟩)
      rw [hsame, append_cancel_left_eq] at h ⊢
      exact h
    · rw [h]

/-- The names of a directory `/a` with one in it and one in that. -/
def nested : Db :=
  ⟨[], [([47, 97], 2), ([47, 97, 47, 120], 3), ([47, 97, 47, 120, 47, 120], 4)], none⟩

/-- A rename to `/b` takes along what is in the directory. -/
theorem rename_moves_subtree_in :
    ([47, 98, 47, 120], 3) ∈ (pathRename nested [47, 97] [47, 98]).paths :=
  (rename_moves_subtree (by decide) (by decide) _ _).mpr
    (.inl ⟨[47, 120], .inr rfl, rfl, by decide⟩)

-- A rename to `/a/x` loses the number of that.
example : (pathRename nested [47, 97] [47, 97, 47, 120]).paths =
    [([47, 97, 47, 120, 47, 120, 47, 120], 4), ([47, 97, 47, 120], 2)] := by decide

end IshAok.FakeDb
