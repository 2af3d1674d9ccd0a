import IshAok.Base.Grouped
import IshAok.Core.FileLock

/-!
# Placing a Record Lock

What the pass of `file_lock_acquire` does to the bytes. An inode's list is
read as a map from an owner and a byte to a type by `lockAt`, with `unlck`
for a byte nobody has locked, and placing a request sets exactly the
request's bytes.

The request grows while the pass runs, so the induction is on the locks not
yet visited and for an arbitrary request: at every point, the locks that are
left over together with the request as it stands give the byte map that was
asked for. One turn of the loop is described once, by `Meets`, and everything
about the pass is read off that.

The pass gives up at the first lock of another owner behind its own. `Kept`
is the invariant that makes this sound: an owner's locks stand together, no
two of them share a byte, and each is a range of real offsets.

## Main definitions

* `Lock.Covers`: A byte is in the range of a lock.
* `Lock.Valid`: The range is not empty and holds only offsets.
* `lockAt`: The list read as a map.
* `Kept`: The invariant of an inode's list.
* `Meets`: What one turn of the pass does.

## Theorems

* `meetLock_meets`: One turn of the loop.
* `place_own_at`: The pass over one owner's locks, byte by byte.
* `place_own_quiet`: A pass that notifies nobody overrides nothing.
* `placeLock_split`: The pass only touches the group of its owner.
* `lockAt_placeLock`: The pass sets the bytes of the request.
* `placeLock_kept`: The pass keeps the invariant.
* `remove_kept`, `lockAt_remove`: The same for dropping an owner's locks.
-/

namespace IshAok.FileLock

open Base List

variable {Owner : Type} (q l : Lock Owner)

/-- A byte lies in the range of a lock. -/
def Lock.Covers (l : Lock Owner) (b : Int) : Prop :=
  l.start ≤ b ∧ b ≤ l.last

instance (l : Lock Owner) (b : Int) : Decidable (l.Covers b) :=
  inferInstanceAs (Decidable (_ ∧ _))

/-- The range of a lock is a nonempty range of file offsets. -/
def Lock.Valid (l : Lock Owner) : Prop :=
  0 ≤ l.start ∧ l.start ≤ l.last ∧ l.last ≤ offTMax

theorem offT_of_valid (x : Int) (h0 : -1 ≤ x) (h1 : x ≤ offTMax) : offT x = x := by
  unfold offT
  unfold offTMax at h1
  omega

theorem overlap_of_covers (k l : Lock Owner) (b : Int) (hk : k.Covers b) (hl : l.Covers b) :
    fileLocksOverlap k l := by
  unfold Lock.Covers at hk hl
  unfold fileLocksOverlap
  omega

theorem covers_of_overlap (k l : Lock Owner) (hk : k.Valid) (hl : l.Valid)
    (h : fileLocksOverlap k l) : ∃ b, k.Covers b ∧ l.Covers b := by
  by_cases hs : k.start ≤ l.start
  · exact ⟨l.start, ⟨hs, h.1⟩, Int.le_refl _, hl.2.1⟩
  · exact ⟨k.start, ⟨Int.le_refl _, hk.2.1⟩, by omega, h.2⟩

/-- What one turn of the pass makes of a lock and the request: the pieces that
    are kept, and the request that goes on. -/
structure Meets (q l : Lock Owner) (kept : List (Lock Owner)) (q' : Lock Owner) : Prop where
  type_eq : q'.type = q.type
  owner_eq : q'.owner = q.owner
  valid : q'.Valid
  grows : ∀ b, q.Covers b → q'.Covers b
  new_bytes : ∀ b, q'.Covers b → ¬ q.Covers b → l.Covers b ∧ l.type = q.type
  piece : ∀ k ∈ kept, k.Valid ∧ k.type = l.type ∧ k.owner = l.owner ∧
    ∀ b, k.Covers b → l.Covers b ∧ ¬ q'.Covers b
  left_over : ∀ b, l.Covers b → ¬ q'.Covers b → ∃ k ∈ kept, k.Covers b
  apart : kept.Pairwise fun a b => ¬ fileLocksOverlap a b

theorem meets_untouched (hq : q.Valid) (hl : l.Valid)
    (h : ¬ fileLocksOverlap l q) : Meets q l [l] q := by
  refine ⟨rfl, rfl, hq, fun b hb => hb, fun b hb hn => absurd hb hn, ?_, ?_, ?_⟩
  · intro k hk
    rw [mem_singleton] at hk
    subst hk
    exact ⟨hl, rfl, rfl, fun b hb => ⟨hb, fun hc => h (overlap_of_covers k q b hb hc)⟩⟩
  · intro b hb _
    exact ⟨l, mem_singleton.mpr rfl, hb⟩
  · exact pairwise_singleton _ _

/-- Merging: the two ranges leave no gap, so the grown request has exactly the
    bytes of both. -/
theorem meets_merged (hq : q.Valid) (hl : l.Valid) (ht : q.type = l.type)
    (h : ¬ (¬ fileLocksOverlap l q ∧ ¬ fileLocksAdjacent q l)) :
    Meets q l [] { q with
      start := if l.start < q.start then l.start else q.start
      last := if l.last > q.last then l.last else q.last } := by
  unfold Lock.Valid at hq hl
  have hls : offT (l.start - 1) = l.start - 1 := offT_of_valid _ (by omega) (by omega)
  have hqs : offT (q.start - 1) = q.start - 1 := offT_of_valid _ (by omega) (by omega)
  unfold fileLocksOverlap fileLocksAdjacent at h
  refine ⟨rfl, rfl, ?_, ?_, ?_, ?_, ?_, List.Pairwise.nil⟩
  · unfold Lock.Valid
    simp only []
    split <;> split <;> omega
  · intro b hb
    unfold Lock.Covers at hb ⊢
    simp only []
    split <;> split <;> omega
  · intro b hb hn
    unfold Lock.Covers at hb hn ⊢
    simp only [] at hb
    refine ⟨?_, ht.symm⟩
    split at hb <;> split at hb <;> omega
  · intro k hk
    exact absurd hk not_mem_nil
  · intro b hb hn
    unfold Lock.Covers at hb hn
    simp only [] at hn
    split at hn <;> split at hn <;> omega

/-- What is left of a lock outside of the request. -/
def IsPiece (q l k : Lock Owner) : Prop :=
  k.Valid ∧ k.type = l.type ∧ k.owner = l.owner ∧ ∀ b, k.Covers b → l.Covers b ∧ ¬ q.Covers b

/-- A lock of another type loses the bytes of the request, which stays as it
    was. The pieces are given by what they have to satisfy. -/
theorem meets_cut (kept : List (Lock Owner)) (hq : q.Valid)
    (hpiece : ∀ k ∈ kept, IsPiece q l k)
    (hleft : ∀ b, l.Covers b → ¬ q.Covers b → ∃ k ∈ kept, k.Covers b)
    (hapart : kept.Pairwise (fun a b => ¬ fileLocksOverlap a b)) : Meets q l kept q :=
  ⟨rfl, rfl, hq, fun _ hb => hb, fun _ hb hn => absurd hb hn, hpiece, hleft, hapart⟩

/-- The part of a lock below the request. -/
theorem lower_piece (hq : q.Valid) (hl : l.Valid) (ho : fileLocksOverlap l q)
    (h : l.start < q.start) (k : Lock Owner) (hk : k = { l with last := offT (q.start - 1) }) :
    IsPiece q l k ∧ ∀ b, l.Covers b → b < q.start → k.Covers b := by
  unfold Lock.Valid at hq hl
  unfold fileLocksOverlap at ho
  have hs : offT (q.start - 1) = q.start - 1 := offT_of_valid _ (by omega) (by omega)
  subst hk
  unfold IsPiece Lock.Valid Lock.Covers
  refine ⟨⟨⟨hl.1, ?_, ?_⟩, rfl, rfl, fun b => ?_⟩, fun b => ?_⟩ <;> simp only [] <;> omega

/-- The part of a lock above the request. -/
theorem upper_piece (hq : q.Valid) (hl : l.Valid) (ho : fileLocksOverlap l q)
    (h : q.last < l.last) (k : Lock Owner) (hk : k = { l with start := offT (q.last + 1) }) :
    IsPiece q l k ∧ ∀ b, l.Covers b → q.last < b → k.Covers b := by
  unfold Lock.Valid at hq hl
  unfold fileLocksOverlap at ho
  have hs : offT (q.last + 1) = q.last + 1 := offT_of_valid _ (by omega) (by omega)
  subst hk
  unfold IsPiece Lock.Valid Lock.Covers
  refine ⟨⟨⟨?_, ?_, hl.2.2⟩, rfl, rfl, fun b => ?_⟩, fun b => ?_⟩ <;> simp only [] <;> omega

theorem meetLock_meets (hq : q.Valid) (hl : l.Valid) :
    Meets q l (meetLock q l).1 (meetLock q l).2.1 := by
  unfold meetLock
  by_cases ht : q.type = l.type
  · rw [if_pos ht]
    by_cases hn : ¬ fileLocksOverlap l q ∧ ¬ fileLocksAdjacent q l
    · rw [if_pos hn]
      exact meets_untouched q l hq hl hn.1
    rw [if_neg hn]
    exact meets_merged q l hq hl ht hn
  rw [if_neg ht]
  by_cases hn : ¬ fileLocksOverlap l q
  · rw [if_pos hn]
    exact meets_untouched q l hq hl hn
  rw [if_neg hn]
  rw [not_not] at hn
  by_cases hboth : q.start > l.start ∧ q.last < l.last
  · -- The request is inside the lock, and a piece is left on each side.
    rw [if_pos hboth]
    obtain ⟨hp1, hc1⟩ := lower_piece q l hq hl hn hboth.1 _ rfl
    obtain ⟨hp2, hc2⟩ := upper_piece q l hq hl hn hboth.2 _ rfl
    refine meets_cut q l _ hq (forall_mem_cons.mpr ⟨hp1, forall_mem_singleton.mpr hp2⟩) ?_ ?_
    · intro b hb hqb
      by_cases hlt : b < q.start
      · exact ⟨_, mem_cons_self, hc1 b hb hlt⟩
      · refine ⟨_, mem_cons_of_mem _ mem_cons_self, hc2 b hb ?_⟩
        unfold Lock.Covers at hqb
        omega
    · refine pairwise_pair.mpr (fun ho => ?_)
      obtain ⟨h1, -⟩ := ho
      unfold Lock.Valid at hq hl
      simp only [] at h1
      rw [offT_of_valid (q.start - 1) (by omega) (by omega),
        offT_of_valid (q.last + 1) (by omega) (by omega)] at h1
      omega
  rw [if_neg hboth]
  by_cases hin : q.start ≤ l.start ∧ q.last ≥ l.last
  · rw [if_pos hin]
    refine meets_cut q l [] hq (fun k hk => absurd hk not_mem_nil) ?_ List.Pairwise.nil
    intro b hb hqb
    unfold Lock.Covers at hb hqb
    omega
  rw [if_neg hin]
  by_cases hlow : l.start < q.start
  · rw [if_pos hlow]
    obtain ⟨hp, hc⟩ := lower_piece q l hq hl hn hlow _ rfl
    refine meets_cut q l _ hq (forall_mem_singleton.mpr hp) ?_ (pairwise_singleton _ _)
    intro b hb hqb
    refine ⟨_, mem_singleton.mpr rfl, hc b hb ?_⟩
    unfold Lock.Covers at hb hqb
    omega
  · rw [if_neg hlow]
    have hhigh : l.last > q.last := by omega
    rw [if_pos hhigh]
    obtain ⟨hp, hc⟩ := upper_piece q l hq hl hn hhigh _ rfl
    refine meets_cut q l _ hq (forall_mem_singleton.mpr hp) ?_ (pairwise_singleton _ _)
    intro b hb hqb
    refine ⟨_, mem_singleton.mpr rfl, hc b hb ?_⟩
    unfold Lock.Covers at hb hqb
    omega

/-- The request meets the first lock of its owner, and goes on as it has grown. -/
theorem meets_cons {rest : List (Lock Owner)} (hq : q.Valid)
    (h : ∀ k ∈ l :: rest, k.Valid ∧ k.owner = q.owner) :
    l.owner = q.owner ∧ Meets q l (meetLock q l).1 (meetLock q l).2.1 ∧
      ∀ k ∈ rest, k.Valid ∧ k.owner = (meetLock q l).2.1.owner := by
  obtain ⟨hl, hlo⟩ := h l mem_cons_self
  have hm := meetLock_meets q l hq hl
  refine ⟨hlo, hm, fun k hk => ?_⟩
  rw [hm.owner_eq]
  exact h k (mem_cons_of_mem _ hk)

/-- What holds of an inode's list at all times. -/
structure Kept (locks : List (Lock Owner)) : Prop where
  grouped : Grouped Lock.owner locks
  valid : ∀ l ∈ locks, l.Valid
  locked : ∀ l ∈ locks, l.type ≠ .unlck
  apart : locks.Pairwise fun a b => a.owner = b.owner → ¬ fileLocksOverlap a b

theorem kept_nil : Kept ([] : List (Lock Owner)) :=
  ⟨grouped_nil _, fun _ hl => absurd hl not_mem_nil,
    fun _ hl => absurd hl not_mem_nil, List.Pairwise.nil⟩

variable [DecidableEq Owner] (locks : List (Lock Owner)) (q : Lock Owner)

/-- The type an owner holds a byte with, and `unlck` if it does not hold it. -/
def lockAt (o : Owner) (b : Int) : LockType :=
  ((locks.find? (fun l => decide (l.owner = o ∧ l.Covers b))).map Lock.type).getD .unlck

@[simp]
theorem lockAt_nil (o : Owner) (b : Int) : lockAt [] o b = .unlck := rfl

theorem lockAt_cons (l : Lock Owner) (ls : List (Lock Owner)) (o : Owner) (b : Int) :
    lockAt (l :: ls) o b = if l.owner = o ∧ l.Covers b then l.type else lockAt ls o b := by
  unfold lockAt
  rw [find?_cons]
  by_cases h : l.owner = o ∧ l.Covers b
  · rw [if_pos h, decide_eq_true h]
    rfl
  · rw [if_neg h, decide_eq_false h]

/-- No lock of a list holds the byte. -/
theorem find_none {xs : List (Lock Owner)} {o : Owner} {b : Int}
    (h : ∀ l ∈ xs, ¬ (l.owner = o ∧ l.Covers b)) :
    xs.find? (fun l => decide (l.owner = o ∧ l.Covers b)) = none :=
  find?_eq_none.mpr fun l hl => by simpa using h l hl

/-- Locks in front that do not hold the byte do not matter. -/
theorem lockAt_append_of_not (xs ys : List (Lock Owner)) (o : Owner) (b : Int)
    (h : ∀ l ∈ xs, ¬ (l.owner = o ∧ l.Covers b)) : lockAt (xs ++ ys) o b = lockAt ys o b := by
  rw [lockAt, find?_append, find_none h]
  rfl

/-- Locks behind that belong to others do not matter. -/
theorem lockAt_append_right (xs ys : List (Lock Owner)) (o : Owner) (b : Int)
    (h : ∀ l ∈ ys, l.owner ≠ o) : lockAt (xs ++ ys) o b = lockAt xs o b := by
  rw [lockAt, find?_append, find_none fun l hl hc => h l hl hc.1, Option.or_none, lockAt]

/-- If all locks that hold a byte have one type, that is the type found. -/
theorem lockAt_append_of_covered (xs ys : List (Lock Owner)) (o : Owner) (b : Int) (t : LockType)
    (hall : ∀ l ∈ xs, l.type = t) (h : ∃ l ∈ xs, l.owner = o ∧ l.Covers b) :
    lockAt (xs ++ ys) o b = t := by
  obtain ⟨l, hl, hc⟩ := h
  rw [lockAt, find?_append]
  cases hf : xs.find? (fun l => decide (l.owner = o ∧ l.Covers b)) with
  | none => exact absurd (decide_eq_true hc) (find?_eq_none.mp hf l hl)
  | some k => exact hall k (mem_of_find?_eq_some hf)

/-- A byte that reads as locked is in the range of a lock of that type. -/
theorem exists_of_lockAt (o : Owner) (b : Int)
    (h : lockAt locks o b ≠ .unlck) :
    ∃ l ∈ locks, l.owner = o ∧ l.Covers b ∧ l.type = lockAt locks o b := by
  unfold lockAt at h ⊢
  cases hf : locks.find? (fun l => decide (l.owner = o ∧ l.Covers b)) with
  | none =>
    rw [hf] at h
    exact absurd rfl h
  | some l =>
    have hl := find?_some hf
    rw [decide_eq_true_eq] at hl
    exact ⟨l, mem_of_find?_eq_some hf, hl.1, hl.2, rfl⟩

theorem placeLock_cons_own (found : Bool) (q l : Lock Owner) (rest : List (Lock Owner))
    (h : l.owner = q.owner) :
    placeLock found q (l :: rest) = ((meetLock q l).1 ++ (placeLock true (meetLock q l).2.1 rest).1,
        (meetLock q l).2.2 || (placeLock true (meetLock q l).2.1 rest).2) := by
  rw [placeLock, if_neg (not_not.mpr h)]

/-- The locks left by the visited part, and the request as it has grown, are
    the byte map asked for. -/
theorem place_own_at (mine : List (Lock Owner)) : ∀ (found : Bool) (q : Lock Owner),
    q.Valid → (∀ l ∈ mine, l.Valid ∧ l.owner = q.owner) → ∀ b,
      lockAt (placeLock found q mine).1 q.owner b =
        if q.Covers b then q.type else lockAt mine q.owner b := by
  induction mine with
  | nil =>
    intro found q hq _ b
    rw [placeLock, addRequest]
    by_cases hu : q.type = .unlck
    · rw [if_pos hu, hu, lockAt_nil, ite_self]
    rw [if_neg hu, lockAt_cons]
    simp
  | cons l rest ih =>
    intro found q hq hmine b
    obtain ⟨hlo, hm, hrest⟩ := meets_cons q l hq hmine
    rw [placeLock_cons_own found q l rest hlo, lockAt_cons]
    have hplaced := ih true (meetLock q l).2.1 hm.valid hrest b
    rw [hm.owner_eq, hm.type_eq] at hplaced
    by_cases hkept : ∃ k ∈ (meetLock q l).1, k.Covers b
    · -- The byte stays with a piece of this lock, so it is not the request's.
      obtain ⟨k, hk, hkb⟩ := hkept
      obtain ⟨-, -, hko, hkc⟩ := hm.piece k hk
      have hqb : ¬ q.Covers b := fun hc => (hkc b hkb).2 (hm.grows b hc)
      rw [if_neg hqb, if_pos ⟨hlo, (hkc b hkb).1⟩]
      exact lockAt_append_of_covered _ _ _ _ _ (fun m hmem => (hm.piece m hmem).2.1)
        ⟨k, hk, hko.trans hlo, hkb⟩
    · rw [lockAt_append_of_not _ _ _ _ (fun k hk hc => hkept ⟨k, hk, hc.2⟩), hplaced]
      by_cases hqb : q.Covers b
      · rw [if_pos hqb, if_pos (hm.grows b hqb)]
      rw [if_neg hqb]
      by_cases hqb' : (meetLock q l).2.1.Covers b
      · -- A byte the request took over from a lock of its own type.
        obtain ⟨hlb, hlt⟩ := hm.new_bytes b hqb' hqb
        rw [if_pos hqb', if_pos ⟨hlo, hlb⟩, hlt]
      · have hlb : ¬ l.Covers b := fun hc => hkept (hm.left_over b hc hqb')
        rw [if_neg hqb', if_neg (fun hc => hlb hc.2)]

/-- Every lock the pass leaves comes from the request or from a lock that was
    there. -/
theorem place_own_mem (mine : List (Lock Owner)) : ∀ (found : Bool) (q : Lock Owner),
    q.Valid → (∀ l ∈ mine, l.Valid ∧ l.owner = q.owner) → (∀ l ∈ mine, l.type ≠ .unlck) →
    ∀ r ∈ (placeLock found q mine).1, r.Valid ∧ r.owner = q.owner ∧ r.type ≠ .unlck ∧
      ∀ b, r.Covers b → q.Covers b ∨ ∃ l ∈ mine, l.Covers b := by
  induction mine with
  | nil =>
    intro found q hq _ _ r hr
    rw [placeLock, addRequest] at hr
    by_cases hu : q.type = .unlck
    · rw [if_pos hu] at hr
      cases hr
    rw [if_neg hu, mem_singleton] at hr
    subst hr
    exact ⟨hq, rfl, hu, fun b hb => .inl hb⟩
  | cons l rest ih =>
    intro found q hq hmine htype r hr
    obtain ⟨hlo, hm, hrest⟩ := meets_cons q l hq hmine
    rw [placeLock_cons_own found q l rest hlo] at hr
    rcases mem_append.mp hr with hr | hr
    · obtain ⟨hv, ht, ho, hc⟩ := hm.piece r hr
      refine ⟨hv, ho.trans hlo, ?_, fun b hb => .inr ⟨l, mem_cons_self, (hc b hb).1⟩⟩
      rw [ht]
      exact htype l mem_cons_self
    · obtain ⟨hv, ho, ht, hc⟩ := ih true _ hm.valid hrest
        (fun k hk => htype k (mem_cons_of_mem _ hk)) r hr
      refine ⟨hv, ho.trans hm.owner_eq, ht, fun b hb => ?_⟩
      rcases hc b hb with hq' | ⟨k, hk, hkb⟩
      · by_cases hqb : q.Covers b
        · exact .inl hqb
        · exact .inr ⟨l, mem_cons_self, (hm.new_bytes b hq' hqb).1⟩
      · exact .inr ⟨k, mem_cons_of_mem _ hk, hkb⟩

/-- No two locks the pass leaves share a byte. -/
theorem place_own_apart (mine : List (Lock Owner)) : ∀ (found : Bool) (q : Lock Owner),
    q.Valid → (∀ l ∈ mine, l.Valid ∧ l.owner = q.owner) → (∀ l ∈ mine, l.type ≠ .unlck) →
    mine.Pairwise (fun a b => ¬ fileLocksOverlap a b) →
    (placeLock found q mine).1.Pairwise (fun a b => ¬ fileLocksOverlap a b) := by
  induction mine with
  | nil =>
    intro found q _ _ _ _
    rw [placeLock, addRequest]
    split
    · exact List.Pairwise.nil
    · exact pairwise_singleton _ _
  | cons l rest ih =>
    intro found q hq hmine htype hpw
    obtain ⟨hlo, hm, hrest⟩ := meets_cons q l hq hmine
    have htrest : ∀ k ∈ rest, k.type ≠ .unlck := fun k hk => htype k (mem_cons_of_mem _ hk)
    obtain ⟨hlrest, hpw'⟩ := pairwise_cons.mp hpw
    rw [placeLock_cons_own found q l rest hlo]
    refine pairwise_append.mpr ⟨hm.apart, ih true _ hm.valid hrest htrest hpw', ?_⟩
    -- A kept piece is outside the request, and its lock is apart from the rest.
    intro k hk r hr ho
    obtain ⟨hkv, -, -, hkc⟩ := hm.piece k hk
    obtain ⟨hrv, -, -, hrc⟩ := place_own_mem rest true _ hm.valid hrest htrest r hr
    obtain ⟨b, hkb, hrb⟩ := covers_of_overlap k r hkv hrv ho
    rcases hrc b hrb with hqb | ⟨m, hmem, hmb⟩
    · exact (hkc b hkb).2 hqb
    · exact hlrest m hmem (overlap_of_covers l m b (hkc b hkb).1 hmb)

/-- A pass that notifies nobody overrides nothing: each byte of the request
    was free or already had its type. -/
theorem place_own_quiet (mine : List (Lock Owner)) : ∀ (found : Bool) (q : Lock Owner),
    q.Valid → (∀ l ∈ mine, l.Valid ∧ l.owner = q.owner) → (placeLock found q mine).2 = false →
    ∀ b, q.Covers b → lockAt mine q.owner b = .unlck ∨ lockAt mine q.owner b = q.type := by
  induction mine with
  | nil =>
    intro found q _ _ _ b _
    exact .inl rfl
  | cons l rest ih =>
    intro found q hq hmine hquiet b hb
    obtain ⟨hlo, hm, hrest⟩ := meets_cons q l hq hmine
    rw [placeLock_cons_own found q l rest hlo, Bool.or_eq_false_iff] at hquiet
    rw [lockAt_cons]
    by_cases hlb : l.Covers b
    · right
      rw [if_pos ⟨hlo, hlb⟩]
      by_contra hne
      have hover := overlap_of_covers l q b hlb hb
      have hloud : (meetLock q l).2.2 = true := by
        unfold meetLock
        rw [if_neg (fun he => hne he.symm), if_neg (not_not.mpr hover)]
        split
        · rfl
        split
        · rfl
        split
        · rfl
        · split <;> rfl
      rw [hloud] at hquiet
      exact absurd hquiet.1 (by simp)
    · rw [if_neg (fun hc => hlb hc.2), ← hm.owner_eq, ← hm.type_eq]
      exact ih true _ hm.valid hrest hquiet.2 b (hm.grows b hb)

/-- The pass leaves the locks in front of its owner's group alone. -/
theorem placeLock_append_left (q : Lock Owner) (pre rest : List (Lock Owner))
    (h : ∀ l ∈ pre, l.owner ≠ q.owner) :
    placeLock false q (pre ++ rest) =
      (pre ++ (placeLock false q rest).1, (placeLock false q rest).2) := by
  induction pre with
  | nil => rfl
  | cons l pre ih =>
    rw [cons_append, placeLock, if_pos (h l mem_cons_self),
      ih (fun k hk => h k (mem_cons_of_mem _ hk))]
    rfl

/-- Once it has met a lock of its owner, the pass leaves everything behind the
    group alone. -/
theorem placeLock_append_right (mine post : List (Lock Owner)) : ∀ q : Lock Owner,
    q.Valid → (∀ l ∈ mine, l.Valid ∧ l.owner = q.owner) → (∀ l ∈ post, l.owner ≠ q.owner) →
    placeLock true q (mine ++ post) =
      ((placeLock true q mine).1 ++ post, (placeLock true q mine).2) := by
  induction mine with
  | nil =>
    intro q _ _ hpost
    cases post with
    | nil => rw [append_nil, append_nil]
    | cons l post =>
      simp only [nil_append, placeLock, if_pos (hpost l mem_cons_self), addRequest,
        if_true]
      split <;> rfl
  | cons l mine ih =>
    intro q hq hmine hpost
    obtain ⟨hlo, hm, hrest⟩ := meets_cons q l hq hmine
    rw [cons_append, placeLock_cons_own true q l (mine ++ post) hlo,
      placeLock_cons_own true q l mine hlo, ih _ hm.valid hrest, append_assoc]
    intro k hk
    rw [hm.owner_eq]
    exact hpost k hk

/-- The pass over a whole list: only the owner's group changes. -/
theorem placeLock_split (q : Lock Owner) (pre mine post : List (Lock Owner)) (hq : q.Valid)
    (hpre : ∀ l ∈ pre, l.owner ≠ q.owner) (hmine : ∀ l ∈ mine, l.Valid ∧ l.owner = q.owner)
    (hpost : ∀ l ∈ post, l.owner ≠ q.owner) (hempty : mine = [] → post = []) :
    placeLock false q (pre ++ mine ++ post) =
      (pre ++ (placeLock true q mine).1 ++ post, (placeLock true q mine).2) := by
  rw [append_assoc, placeLock_append_left q pre _ hpre, append_assoc]
  have hsame : placeLock false q (mine ++ post) = placeLock true q (mine ++ post) := by
    cases mine with
    | nil =>
      rw [hempty rfl]
      rfl
    | cons l mine =>
      have hlo := (hmine l mem_cons_self).2
      rw [cons_append, placeLock_cons_own false q l _ hlo, placeLock_cons_own true q l _ hlo]
  rw [hsame, placeLock_append_right mine post q hq hmine hpost]

/-- In a kept list the byte map says what every single lock says. -/
theorem lockAt_of_mem (h : Kept locks) (l : Lock Owner) (b : Int)
    (hl : l ∈ locks) (hb : l.Covers b) : lockAt locks l.owner b = l.type := by
  have hpw := h.apart
  clear h
  induction locks with
  | nil => cases hl
  | cons k ks ih =>
    obtain ⟨hk, hks⟩ := pairwise_cons.mp hpw
    rw [lockAt_cons]
    rcases mem_cons.mp hl with rfl | hl
    · rw [if_pos ⟨rfl, hb⟩]
    · have hn : ¬ (k.owner = l.owner ∧ k.Covers b) := fun hc =>
        hk l hl hc.1 (overlap_of_covers k l b hc.2 hb)
      rw [if_neg hn]
      exact ih hl hks

/-- How the pass acts on a kept list: it replaces the group of its owner. -/
theorem placeLock_kept_split (h : Kept locks)
    (hq : q.Valid) :
    ∃ pre mine post, locks = pre ++ mine ++ post ∧ (∀ l ∈ pre, l.owner ≠ q.owner) ∧
      (∀ l ∈ mine, l.Valid ∧ l.owner = q.owner) ∧ (∀ l ∈ post, l.owner ≠ q.owner) ∧
      (∀ mine', (∀ l ∈ mine', l.owner = q.owner) → Grouped Lock.owner (pre ++ mine' ++ post)) ∧
      placeLock false q locks =
        (pre ++ (placeLock true q mine).1 ++ post, (placeLock true q mine).2) := by
  obtain ⟨pre, mine, post, rfl, hpre, hmine, hpost, hempty, hrep⟩ :=
    grouped_split Lock.owner locks q.owner h.grouped
  have hmine' : ∀ l ∈ mine, l.Valid ∧ l.owner = q.owner := fun l hl =>
    ⟨h.valid l (mem_append_left _ (mem_append_right _ hl)), hmine l hl⟩
  exact ⟨pre, mine, post, rfl, hpre, hmine', hpost, hrep,
    placeLock_split q pre mine post hq hpre hmine' hpost hempty⟩

theorem lockAt_three_own (pre mine post : List (Lock Owner)) (o : Owner) (b : Int)
    (hpre : ∀ l ∈ pre, l.owner ≠ o) (hpost : ∀ l ∈ post, l.owner ≠ o) :
    lockAt (pre ++ mine ++ post) o b = lockAt mine o b := by
  rw [lockAt_append_right _ _ _ _ hpost, lockAt_append_of_not _ _ _ _
    (fun l hl hc => hpre l hl hc.1)]

theorem lockAt_three_other (pre mine mine' post : List (Lock Owner)) (o : Owner) (b : Int)
    (hmine : ∀ l ∈ mine, l.owner ≠ o) (hmine' : ∀ l ∈ mine', l.owner ≠ o) :
    lockAt (pre ++ mine ++ post) o b = lockAt (pre ++ mine' ++ post) o b := by
  have hnone := find_none (b := b) fun l hl hc => hmine l hl hc.1
  have hnone' := find_none (b := b) fun l hl hc => hmine' l hl hc.1
  simp only [lockAt, find?_append, hnone, hnone']

theorem placeLock_kept (h : Kept locks)
    (hq : q.Valid) : Kept (placeLock false q locks).1 := by
  obtain ⟨pre, mine, post, rfl, hpre, hmine, hpost, hrep, heq⟩ :=
    placeLock_kept_split locks q h hq
  have hlocked : ∀ l ∈ mine, l.type ≠ .unlck := fun l hl =>
    h.locked l (mem_append_left _ (mem_append_right _ hl))
  have hout := place_own_mem mine true q hq hmine hlocked
  have hpw := h.apart
  rw [append_assoc, pairwise_append, pairwise_append] at hpw
  obtain ⟨hpw1, ⟨hpwm, hpw2, -⟩, hcross⟩ := hpw
  have hpwout := place_own_apart mine true q hq hmine hlocked
    (hpwm.imp_of_mem (fun ha hb hab => hab ((hmine _ ha).2.trans (hmine _ hb).2.symm)))
  rw [heq]
  have hall : ∀ l ∈ pre ++ (placeLock true q mine).1 ++ post, l.Valid ∧ l.type ≠ .unlck := by
    intro l hl
    have hold := fun hl => And.intro (h.valid l hl) (h.locked l hl)
    rcases mem_append.mp hl with hl | hl
    · rcases mem_append.mp hl with hl | hl
      · exact hold (mem_append_left _ (mem_append_left _ hl))
      · exact ⟨(hout l hl).1, (hout l hl).2.2.1⟩
    · exact hold (mem_append_right _ hl)
  refine ⟨hrep _ (fun l hl => (hout l hl).2.1), fun l hl => (hall l hl).1,
    fun l hl => (hall l hl).2, ?_⟩
  -- Across the seams the owners differ, so only the pass itself matters.
  rw [append_assoc, pairwise_append, pairwise_append]
  refine ⟨hpw1, ⟨?_, hpw2, ?_⟩, ?_⟩
  · exact hpwout.imp fun {a b} hab (_ : a.owner = b.owner) => hab
  · intro a ha b hb he
    exact absurd (he.symm.trans (hout a ha).2.1) (hpost b hb)
  · intro a ha b hb he
    rcases mem_append.mp hb with hb | hb
    · exact absurd (he.trans (hout b hb).2.1) (hpre a ha)
    · exact hcross a ha b (mem_append_right _ hb) he

theorem lockAt_placeLock (h : Kept locks)
    (hq : q.Valid) (o : Owner) (b : Int) :
    lockAt (placeLock false q locks).1 o b =
      if o = q.owner ∧ q.Covers b then q.type else lockAt locks o b := by
  obtain ⟨pre, mine, post, rfl, hpre, hmine, hpost, -, heq⟩ := placeLock_kept_split locks q h hq
  have hlocked : ∀ l ∈ mine, l.type ≠ .unlck := fun l hl =>
    h.locked l (mem_append_left _ (mem_append_right _ hl))
  rw [heq]
  by_cases ho : o = q.owner
  · subst ho
    rw [lockAt_three_own _ _ _ _ _ hpre hpost, lockAt_three_own _ _ _ _ _ hpre hpost,
      place_own_at mine true q hq hmine b]
    simp
  · rw [if_neg (fun hc => ho hc.1)]
    refine lockAt_three_other _ _ _ _ _ _ (fun l hl hc => ?_) fun l hl hc => ?_
    · exact ho (hc.symm.trans (place_own_mem mine true q hq hmine hlocked l hl).2.1)
    · exact ho (hc.symm.trans (hmine l hl).2)

/-- A pass that notifies nobody takes no byte from anyone, its owner
    included, unless it gives it back with the same type. -/
theorem placeLock_quiet (h : Kept locks)
    (hq : q.Valid) (hquiet : (placeLock false q locks).2 = false) (o : Owner) (b : Int)
    (hb : lockAt locks o b ≠ .unlck) :
    lockAt (placeLock false q locks).1 o b = lockAt locks o b := by
  rw [lockAt_placeLock locks q h hq o b]
  by_cases hc : o = q.owner ∧ q.Covers b
  · obtain ⟨rfl, hcb⟩ := hc
    rw [if_pos ⟨rfl, hcb⟩]
    obtain ⟨pre, mine, post, rfl, hpre, hmine, hpost, -, heq⟩ := placeLock_kept_split locks q h hq
    rw [heq] at hquiet
    rw [lockAt_three_own _ _ _ _ _ hpre hpost] at hb ⊢
    exact ((place_own_quiet mine true q hq hmine hquiet b hcb).resolve_left hb).symm
  · rw [if_neg hc]

theorem remove_kept (o : Owner) (h : Kept locks) :
    Kept (fileLockRemoveOwnedBy locks o).1 :=
  ⟨grouped_filter _ _ _ h.grouped, fun l hl => h.valid l (mem_filter.mp hl).1,
    fun l hl => h.locked l (mem_filter.mp hl).1, h.apart.filter _⟩

theorem lockAt_remove (o o' : Owner) (b : Int) :
    lockAt (fileLockRemoveOwnedBy locks o).1 o' b =
      if o' = o then .unlck else lockAt locks o' b := by
  unfold fileLockRemoveOwnedBy lockAt
  by_cases ho : o' = o
  · rw [if_pos ho, find_none]
    · rfl
    · intro l hl hc
      exact of_decide_eq_true (mem_filter.mp hl).2 (hc.1.trans ho)
  · -- A lock of `o'` is not one of `o`.
    rw [if_neg ho, find?_filter]
    congr 3
    funext l
    by_cases hl : l.owner = o' <;> simp [hl, ho]

end IshAok.FileLock
