import IshAok.Theory.DataOwner.Frames
import Mathlib.Data.Multiset.Filter

/-!
# Exclusive Ownership of a Mapping

The record names at most two address spaces and counts the entries of all others together.
While something is counted there no slot is freed and no newcomer takes one, so an address
space is never counted in both places: a slot has the number of entries of its address
space, and the overflow has those of all that have no slot. When the overflow is empty the
empty slots have been swept.

So a mapping that reads as exclusive is exclusive. The converse depends on who was counted
where. An address space that came third and stays last is still counted in the overflow,
next to two empty slots, and the mapping does not read as exclusive to it.

## Main definitions

* `Fits`: An update after which the count of entries it changes is below its limit.
* `Counts`, `Record`: What the record says about the live entries.
* `Named`: An address space with a slot.
* `SoleHolder`: The only address space with entries.

## Theorems

* `record_step`: An update keeps the record.
* `exclusive_sound`: A mapping that reads as exclusive is, and the frame counts are right.
* `exclusive_iff_named`: It reads as exclusive to a sole holder that has a slot.
* `last_owner_overflowed`: It does not read as exclusive to one that has none.
-/

namespace IshAok.DataOwner

open Base List

variable {M : Type}

/-- The entries of a run belong to its address space. -/
theorem countP_entriesOf_mem (P : M → Prop) [DecidablePred P] (mem : M) (offset pages : Nat) :
    (entriesOf mem offset pages).countP (fun e => P e.1) = if P mem then pages else 0 := by
  rw [entriesOf, Multiset.coe_countP, countP_map]
  by_cases h : P mem
  · rw [if_pos h]
    refine Eq.trans (countP_eq_length.mpr ?_) length_range
    exact fun k _ => decide_eq_true h
  · rw [if_neg h]
    refine countP_eq_zero.mpr ?_
    exact fun k _ => of_decide_eq_true.mt h

variable {live : Multiset (M × Nat)} {g : Nat → Nat} {offset : Nat} {s : State M}

theorem countP_le_of_imp {P Q : M × Nat → Prop} [DecidablePred P]
    [DecidablePred Q] (h : ∀ e, P e → Q e) : live.countP P ≤ live.countP Q := by
  rw [Multiset.countP_eq_card_filter, Multiset.countP_eq_card_filter]
  exact Multiset.card_le_card (Multiset.monotone_filter_right live h)

theorem dataFrameRefsAddLocked_owners (realPageSize : Nat) (data : Data M)
    (offset pages : Nat) (add : Bool) :
    (dataFrameRefsAddLocked realPageSize data offset pages add).owners = data.owners ∧
      (dataFrameRefsAddLocked realPageSize data offset pages add).overflowEntries =
        data.overflowEntries := by
  unfold dataFrameRefsAddLocked
  split
  · exact ⟨rfl, rfl⟩
  · split <;> exact ⟨rfl, rfl⟩

variable [DecidableEq M]

/-- The address spaces that are named. -/
def names (data : Data M) : List M :=
  data.owners.map Owner.mem

/-- The count of entries that an acquire of an address space adds to. -/
def counter (data : Data M) (mem : M) : Nat :=
  match data.owners.find? (fun o => decide (o.mem = mem)) with
  | some o => o.entries
  | none => data.overflowEntries

/-- The count of entries that an update changes stays below its limit. -/
def Fits (s : State M) : Action M → Prop
  | .init _ _ pages => pages < countLimit
  | .acquire mem _ pages => counter s.data mem + pages < countLimit
  | .release _ _ _ => True

instance (s : State M) : DecidablePred (Fits s)
  | .init _ _ _ => inferInstanceAs (Decidable (_ < _))
  | .acquire _ _ _ => inferInstanceAs (Decidable (_ < _))
  | .release _ _ _ => inferInstanceAs (Decidable True)

/-- The counts of the record are those of the live entries. -/
structure Counts (data : Data M) (live : Multiset (M × Nat)) : Prop where
  distinct : (names data).Nodup
  named : ∀ o, o ∈ data.owners → o.entries = live.countP fun e => e.1 = o.mem
  named_lt : ∀ o, o ∈ data.owners → o.entries < countLimit
  overflow : data.overflowEntries = live.countP fun e => e.1 ∉ names data
  overflow_lt : data.overflowEntries < countLimit

/-- The invariant: the counts are right, and empty slots are gone when nothing is
    overflowed. -/
structure Record (data : Data M) (live : Multiset (M × Nat)) : Prop
    extends Counts data live where
  swept : data.overflowEntries = 0 → ∀ o, o ∈ data.owners → o.entries ≠ 0

/-! ## Slots -/

variable {mem : M} {data : Data M} {pages realPageSize : Nat}

theorem updateSlot_none {os : List (Owner M)} (h : updateSlot mem g os = none) :
    mem ∉ os.map Owner.mem := by
  induction os with
  | nil => exact not_mem_nil
  | cons o os ih =>
    unfold updateSlot at h
    by_cases ho : o.mem = mem
    · rw [if_pos ho] at h
      cases h
    · rw [if_neg ho, Option.map_eq_none_iff] at h
      rw [map_cons, mem_cons, not_or]
      exact ⟨fun heq => ho heq.symm, ih h⟩

/-- The slots are those of before, with one new count. -/
theorem updateSlot_some {os : List (Owner M)} :
    ∀ {os' : List (Owner M)}, updateSlot mem g os = some os' → (os.map Owner.mem).Nodup →
      mem ∈ os.map Owner.mem ∧ os'.map Owner.mem = os.map Owner.mem ∧
        ∀ o', o' ∈ os' → ∃ o, o ∈ os ∧ o'.mem = o.mem ∧
          o'.entries = if o.mem = mem then g o.entries else o.entries := by
  induction os with
  | nil =>
    intro os' h _
    cases h
  | cons o os ih =>
    intro os' h hnodup
    rw [map_cons, nodup_cons] at hnodup
    unfold updateSlot at h
    by_cases ho : o.mem = mem
    · rw [if_pos ho] at h
      cases h
      refine ⟨by rw [map_cons, ho]; exact mem_cons_self, rfl, ?_⟩
      intro o' ho'
      rcases mem_cons.mp ho' with rfl | hold
      · exact ⟨o, mem_cons_self, rfl, (if_pos ho).symm⟩
      · -- No other slot has this address space.
        have hne : o'.mem ≠ mem :=
          fun heq => hnodup.1 (ho.trans heq.symm ▸ mem_map_of_mem hold)
        exact ⟨o', mem_cons_of_mem _ hold, rfl, (if_neg hne).symm⟩
    · rw [if_neg ho] at h
      rcases Option.map_eq_some_iff.mp h with ⟨os'', hrest, rfl⟩
      rcases ih hrest hnodup.2 with ⟨hmem, hnames, hslots⟩
      refine ⟨mem_cons_of_mem _ hmem, by rw [map_cons, map_cons, hnames], ?_⟩
      intro o' ho'
      rcases mem_cons.mp ho' with rfl | hold
      · exact ⟨o', mem_cons_self, rfl, (if_neg ho).symm⟩
      · rcases hslots o' hold with ⟨p, hp, hpm, hpe⟩
        exact ⟨p, mem_cons_of_mem _ hp, hpm, hpe⟩

/-- The counter of a named address space is that of its slot. -/
theorem counter_named (hnodup : (names data).Nodup) {o : Owner M} (ho : o ∈ data.owners) :
    counter data o.mem = o.entries := by
  unfold counter
  split
  · next o' hfind =>
    have hmem : o'.mem = o.mem := by simpa only [decide_eq_true_iff] using List.find?_some hfind
    rw [inj_on_of_nodup_map hnodup (mem_of_find?_eq_some hfind) ho hmem]
  · next hfind =>
    exact absurd rfl (of_decide_eq_false (Bool.not_eq_true _ ▸ List.find?_eq_none.mp hfind o ho))

theorem counter_unnamed (h : mem ∉ names data) : counter data mem = data.overflowEntries := by
  unfold counter
  split
  · next o hfind =>
    have hmem : o.mem = mem := by simpa only [decide_eq_true_iff] using List.find?_some hfind
    exact absurd (hmem ▸ mem_map_of_mem (mem_of_find?_eq_some hfind)) h
  · rfl

/-! ## Counting entries -/

theorem dataOwnerCount_eq (h : pages < countLimit) : dataOwnerCount pages = pages :=
  if_neg (by unfold countLimit at *; omega)

theorem lessEntries_eq {n : Nat} (h : pages ≤ n) (hn : n < countLimit) :
    lessEntries pages n = n - pages := by
  unfold lessEntries
  rw [dataOwnerCount_eq (Nat.lt_of_le_of_lt h hn), if_pos h]

/-- An address space without a slot has its entries in the overflow. -/
theorem countP_unnamed_le (live : Multiset (M × Nat)) {l : List M} (h : mem ∉ l) :
    live.countP (fun e => e.1 = mem) ≤ live.countP (fun e => e.1 ∉ l) :=
  countP_le_of_imp fun _ he => he ▸ h

/-! ## The updates -/

/-- The counts after one slot changed, along with the entries of its address space. -/
theorem counts_slot {live' : Multiset (M × Nat)} {owners : List (Owner M)}
    (h : Counts data live) (hslot : updateSlot mem g data.owners = some owners)
    (hself : ∀ o, o ∈ data.owners → o.mem = mem →
      g o.entries = live'.countP (fun e => e.1 = mem) ∧ g o.entries < countLimit)
    (hother : ∀ P : M → Prop, ∀ [DecidablePred P], ¬ P mem →
      live'.countP (fun e => P e.1) = live.countP fun e => P e.1) :
    Counts { data with owners := owners } live' := by
  rcases updateSlot_some hslot h.distinct with ⟨hmem, hnames, hslots⟩
  have hnames' : names { data with owners := owners } = names data := hnames
  have hnew : ∀ o', o' ∈ owners →
      o'.entries = live'.countP (fun e => e.1 = o'.mem) ∧ o'.entries < countLimit := by
    intro o' ho'
    rcases hslots o' ho' with ⟨o, ho, hm, he⟩
    rw [he, hm]
    by_cases hsame : o.mem = mem
    · rw [if_pos hsame, hsame]
      exact hself o ho hsame
    · rw [if_neg hsame, hother (fun m => m = o.mem) (Ne.symm hsame)]
      exact ⟨h.named o ho, h.named_lt o ho⟩
  refine ⟨hnames' ▸ h.distinct, fun o' ho' => (hnew o' ho').1, fun o' ho' => (hnew o' ho').2, ?_,
    h.overflow_lt⟩
  rw [hnames', hother (fun m => m ∉ names data) (not_not_intro hmem)]
  exact h.overflow

/-- The counts after a named address space acquired entries. -/
theorem counts_acquire_named (offset : Nat) {owners : List (Owner M)}
    (h : Counts data live) (hfits : counter data mem + pages < countLimit)
    (hslot : updateSlot mem (fun n => (n + dataOwnerCount pages) % countLimit) data.owners =
      some owners) :
    Counts { data with owners := owners } (live + entriesOf mem offset pages) := by
  refine counts_slot h hslot (fun o ho hsame => ?_) fun P _ hP => ?_
  · -- The new count of the slot does not wrap.
    have hlt : o.entries + pages < countLimit := by
      rw [← counter_named h.distinct ho, hsame]
      exact hfits
    rw [dataOwnerCount_eq (by omega), Nat.mod_eq_of_lt hlt, Multiset.countP_add,
      countP_entriesOf_mem (fun m => m = mem) mem offset pages, if_pos rfl, ← hsame, ← h.named o ho]
    exact ⟨rfl, hlt⟩
  · rw [Multiset.countP_add, countP_entriesOf_mem P mem offset pages, if_neg hP, Nat.add_zero]

/-- The counts after an address space without a slot acquired entries in the overflow. -/
theorem counts_acquire_over (h : Counts data live)
    (hmem : mem ∉ names data) (hfits : data.overflowEntries + pages < countLimit) :
    Counts { data with overflowEntries := data.overflowEntries + pages }
      (live + entriesOf mem offset pages) where
  distinct := h.distinct
  named := by
    intro o ho
    have hne : mem ≠ o.mem := fun heq => hmem (heq ▸ mem_map_of_mem ho)
    rw [Multiset.countP_add, countP_entriesOf_mem (fun m => m = o.mem) mem offset pages,
      if_neg hne, Nat.add_zero]
    exact h.named o ho
  named_lt := h.named_lt
  overflow := by
    have hover := h.overflow
    rw [Multiset.countP_add]
    refine congrArg₂ (· + ·) hover ?_
    exact (countP_entriesOf_mem (fun m => m ∉ names data) mem offset pages).symm ▸
      (if_pos hmem).symm
  overflow_lt := hfits

/-- The record after a newcomer took a slot. -/
theorem record_acquire_slot (h : Record data live) (hmem : mem ∉ names data)
    (hempty : data.overflowEntries = 0) (hpages : pages ≠ 0) (hfits : pages < countLimit) :
    Record { data with owners := data.owners ++ [⟨mem, pages⟩] }
      (live + entriesOf mem offset pages) := by
  have hnames : names { data with owners := data.owners ++ [⟨mem, pages⟩] } =
      names data ++ [mem] := by
    simp [names]
  have hover : live.countP (fun e => e.1 ∉ names data) = 0 := h.overflow.symm.trans hempty
  have hnone : live.countP (fun e => e.1 = mem) = 0 :=
    Nat.le_zero.mp (hover ▸ countP_unnamed_le _ hmem)
  have hcases : ∀ o, o ∈ data.owners ++ [⟨mem, pages⟩] → o ∈ data.owners ∨ o = ⟨mem, pages⟩ :=
    fun o ho => (mem_append.mp ho).imp_right mem_singleton.mp
  refine ⟨⟨?_, ?_, ?_, ?_, h.overflow_lt⟩, ?_⟩
  · rw [hnames]
    exact nodup_append.mpr ⟨h.distinct, nodup_singleton mem,
      fun a ha b hb heq => hmem (mem_singleton.mp hb ▸ heq ▸ ha)⟩
  · intro o ho
    rw [Multiset.countP_add, countP_entriesOf_mem (fun m => m = o.mem) mem offset pages]
    rcases hcases o ho with hold | rfl
    · have hne : mem ≠ o.mem := fun heq => hmem (heq ▸ mem_map_of_mem hold)
      rw [if_neg hne, Nat.add_zero]
      exact h.named o hold
    · rw [if_pos rfl, hnone, Nat.zero_add]
  · intro o ho
    rcases hcases o ho with hold | rfl
    · exact h.named_lt o hold
    · exact hfits
  · rw [hnames, Multiset.countP_add,
      countP_entriesOf_mem (fun m => m ∉ names data ++ [mem]) mem offset pages,
      if_neg (not_not_intro (mem_append_right _ (mem_singleton_self mem))),
      Nat.add_zero]
    have hle : live.countP (fun e => e.1 ∉ names data ++ [mem]) ≤
        live.countP (fun e => e.1 ∉ names data) :=
      countP_le_of_imp fun _ he hin => he (mem_append_left _ hin)
    exact hempty.trans (Nat.le_zero.mp (hover ▸ hle)).symm
  · intro _ o ho
    rcases hcases o ho with hold | rfl
    · exact h.swept hempty o hold
    · exact hpages

theorem record_acquire (offset : Nat) (h : Record data live)
    (hpages : pages ≠ 0) (hfits : counter data mem + pages < countLimit) :
    Record (acquireOwners data mem pages) (live + entriesOf mem offset pages) := by
  have hcount : dataOwnerCount pages = pages := dataOwnerCount_eq (by omega)
  unfold acquireOwners
  split
  · next owners hslot =>
    refine ⟨counts_acquire_named offset h.toCounts hfits hslot, fun hempty o' ho' => ?_⟩
    rcases (updateSlot_some hslot h.distinct).2.2 o' ho' with ⟨o, ho, _, he⟩
    have hpos := h.swept hempty o ho
    by_cases hsame : o.mem = mem
    · rw [← hsame, counter_named h.distinct ho] at hfits
      rw [he, if_pos hsame, hcount, Nat.mod_eq_of_lt hfits]
      omega
    · rw [he, if_neg hsame]
      exact hpos
  · next hslot =>
    have hmem : mem ∉ names data := updateSlot_none hslot
    rw [counter_unnamed hmem] at hfits
    rw [hcount]
    split
    · rw [Nat.mod_eq_of_lt hfits]
      exact ⟨counts_acquire_over h.toCounts hmem hfits,
        fun hempty => absurd hempty (by dsimp only; omega)⟩
    · next hfree =>
      rw [not_or, not_not] at hfree
      exact record_acquire_slot h hmem hfree.1 hpages (by omega)

/-- The counts after entries were released. -/
theorem counts_release (h : Counts data live) (hthere : entriesOf mem offset pages ≤ live) :
    Counts (releaseOwners data mem pages) (live - entriesOf mem offset pages) := by
  have hheld : pages ≤ live.countP (fun e => e.1 = mem) := by
    have hle := Multiset.countP_le_of_le (fun e : M × Nat => e.1 = mem) hthere
    rwa [countP_entriesOf_mem (fun m => m = mem) mem offset pages, if_pos rfl] at hle
  have hsub : ∀ P : M → Prop, ∀ [DecidablePred P],
      (live - entriesOf mem offset pages).countP (fun e => P e.1) =
        live.countP (fun e => P e.1) - if P mem then pages else 0 := by
    intro P _
    rw [Multiset.countP_sub hthere, countP_entriesOf_mem P mem offset pages]
  unfold releaseOwners
  split
  · next owners hslot =>
    refine counts_slot h hslot (fun o ho hsame => ?_) fun P _ hP => ?_
    · -- The slot of the address space has what is taken off.
      have hle : pages ≤ o.entries := by
        rw [h.named o ho, hsame]
        exact hheld
      rw [lessEntries_eq hle (h.named_lt o ho), hsub (fun m => m = mem), if_pos rfl, ← hsame,
        ← h.named o ho]
      exact ⟨rfl, Nat.lt_of_le_of_lt (Nat.sub_le _ _) (h.named_lt o ho)⟩
    · rw [hsub P, if_neg hP, Nat.sub_zero]
  · next hslot =>
    have hmem : mem ∉ names data := updateSlot_none hslot
    have hle : pages ≤ data.overflowEntries :=
      h.overflow ▸ Nat.le_trans hheld (countP_unnamed_le _ hmem)
    rw [lessEntries_eq hle h.overflow_lt]
    refine ⟨h.distinct, ?_, h.named_lt, ?_, Nat.lt_of_le_of_lt (Nat.sub_le _ _) h.overflow_lt⟩
    · intro o ho
      have hne : mem ≠ o.mem := fun heq => hmem (heq ▸ mem_map_of_mem ho)
      rw [hsub (fun m => m = o.mem), if_neg hne, Nat.sub_zero]
      exact h.named o ho
    · have hover := h.overflow
      refine Eq.trans ?_ (hsub (fun m => m ∉ names data)).symm
      rw [if_pos hmem]
      exact congrArg (· - pages) hover

/-- The sweep takes off slots without entries. -/
theorem record_sweep (h : Counts data live) : Record (sweepOwners data) live := by
  unfold sweepOwners
  split
  · next hempty =>
    have hkept : ∀ o, o ∈ data.owners.filter (fun o => decide (o.entries ≠ 0)) →
        o ∈ data.owners ∧ o.entries ≠ 0 := by
      intro o ho
      rw [mem_filter, decide_eq_true_iff] at ho
      exact ho
    refine ⟨⟨?_, ?_, ?_, ?_, h.overflow_lt⟩, fun _ o ho => (hkept o ho).2⟩
    · exact List.Nodup.sublist (filter_sublist.map Owner.mem) h.distinct
    · exact fun o ho => h.named o (hkept o ho).1
    · exact fun o ho => h.named_lt o (hkept o ho).1
    · -- The address space of each live entry has a slot, and that slot is not empty.
      refine hempty.trans (Multiset.countP_eq_zero.mpr ?_).symm
      intro e he hswept
      have hnamed : e.1 ∈ names data :=
        not_not.mp (Multiset.countP_eq_zero.mp (h.overflow.symm.trans hempty) e he)
      rcases mem_map.mp hnamed with ⟨o, ho, hm⟩
      refine hswept (mem_map.mpr ⟨o, mem_filter.mpr ⟨ho, decide_eq_true ?_⟩, hm⟩)
      rw [h.named o ho]
      exact (Multiset.countP_pos.mpr ⟨e, he, hm.symm⟩).ne'
  · next hover => exact ⟨h, fun hempty => absurd hempty hover⟩

/-- The frame counts are not part of the record. -/
theorem record_frames (h : Record data live) (offset pages : Nat)
    (add : Bool) : Record (dataFrameRefsAddLocked realPageSize data offset pages add) live := by
  rcases dataFrameRefsAddLocked_owners realPageSize data offset pages add with ⟨howners, hover⟩
  have hnames : names (dataFrameRefsAddLocked realPageSize data offset pages add) =
      names data := congrArg (List.map Owner.mem) howners
  exact
    { distinct := hnames ▸ h.distinct
      named := howners ▸ h.named
      named_lt := howners ▸ h.named_lt
      overflow := by rw [hover, hnames]; exact h.overflow
      overflow_lt := hover ▸ h.overflow_lt
      swept := by rw [howners, hover]; exact h.swept }

/-- The record of a mapping that was just published. -/
theorem record_init (data : Data M) (mem : M) (offset : Nat) (hpages : pages ≠ 0)
    (hfits : pages < countLimit) :
    Record { data with owners := [⟨mem, dataOwnerCount pages⟩], overflowEntries := 0 }
      (entriesOf mem offset pages) := by
  rw [dataOwnerCount_eq hfits]
  have hnames : names { data with owners := [⟨mem, pages⟩], overflowEntries := 0 } = [mem] :=
    rfl
  refine ⟨⟨nodup_singleton mem, ?_, ?_, ?_, Nat.two_pow_pos 32⟩, ?_⟩
  · intro o ho
    cases mem_singleton.mp ho
    rw [countP_entriesOf_mem (fun m => m = mem) mem offset pages, if_pos rfl]
  · intro o ho
    cases mem_singleton.mp ho
    exact hfits
  · rw [hnames, countP_entriesOf_mem (fun m => m ∉ [mem]) mem offset pages,
      if_neg (not_not_intro (mem_singleton_self mem))]
  · intro _ o ho
    cases mem_singleton.mp ho
    exact hpages

/-- An update keeps the record. -/
theorem record_step {u : State M} {a : Action M} (hstep : Step realPageSize s a u)
    (hfits : Fits s a) (h : Record s.data s.live) : Record u.data u.live := by
  rcases hstep with ⟨henabled, rfl⟩
  cases a with
  | init mem offset pages =>
    simp only [exec, dataOwnerInit]
    by_cases hpages : pages = 0
    · rw [if_pos hpages, hpages, entriesOf_zero, Multiset.add_zero]
      exact h
    · rw [if_neg hpages, henabled.2, Multiset.zero_add]
      exact record_frames (record_init s.data mem offset hpages hfits) offset pages true
  | acquire mem offset pages =>
    simp only [exec, dataOwnerAcquire]
    by_cases hpages : pages = 0
    · rw [if_pos hpages, hpages, entriesOf_zero, Multiset.add_zero]
      exact h
    · rw [if_neg hpages]
      exact record_frames (record_acquire offset h hpages hfits) offset pages true
  | release mem offset pages =>
    simp only [exec, dataOwnerRelease]
    by_cases hpages : pages = 0
    · rw [if_pos hpages, hpages, entriesOf_zero, Multiset.sub_zero]
      exact h
    · rw [if_neg hpages]
      exact record_frames (record_sweep (counts_release h.toCounts henabled.2)) offset pages
        false

theorem record_start (size : Nat) (counted : Bool) :
    Record (State.start size counted : State M).data 0 where
  distinct := nodup_nil
  named := fun _ ho => absurd ho not_mem_nil
  named_lt := fun _ ho => absurd ho not_mem_nil
  overflow := rfl
  overflow_lt := Nat.two_pow_pos 32
  swept := fun _ _ ho => absurd ho not_mem_nil

theorem record_run {size : Nat} {counted : Bool} {tr : List (State M × Action M)} {u : State M}
    (hrun : Run (Step realPageSize) (State.start size counted) tr u)
    (hfits : ∀ x, x ∈ tr → Fits x.1 x.2) : Record u.data u.live :=
  run_invariant (fun s => Record s.data s.live) hrun (record_start size counted)
    (fun v a _ hmem hv hstep => record_step hstep (hfits (v, a) hmem) hv)

/-! ## Exclusive mappings -/

/-- An address space with a slot. -/
def Named (data : Data M) (mem : M) : Prop :=
  ∃ o, o ∈ data.owners ∧ o.mem = mem

/-- The only address space with entries. -/
def SoleHolder (s : State M) (mem : M) : Prop :=
  0 < holds s mem ∧ ∀ other, other ≠ mem → holds s other = 0

theorem dataIsExclusiveTo_iff :
    dataIsExclusiveTo data mem = true ↔
      ∃ o, data.owners = [o] ∧ data.overflowEntries = 0 ∧ o.mem = mem ∧ o.entries ≠ 0 := by
  unfold dataIsExclusiveTo
  constructor
  · intro h
    split at h
    · next o howners => exact ⟨o, howners, of_decide_eq_true h⟩
    · cases h
  · rintro ⟨o, howners, h⟩
    rw [howners]
    exact decide_eq_true h

/-- A record that reads as exclusive has one holder. -/
theorem record_exclusive (h : Record s.data s.live)
    (hex : dataIsExclusiveTo s.data mem = true) : SoleHolder s mem := by
  rcases dataIsExclusiveTo_iff.mp hex with ⟨o, howners, hempty, rfl, hne⟩
  refine ⟨?_, ?_⟩
  · have hcount := h.named o (howners ▸ mem_singleton_self o)
    exact Nat.pos_of_ne_zero fun hzero => hne (hcount.trans hzero)
  · intro other hother
    have hunnamed : other ∉ names s.data := by
      intro hin
      rw [names, howners] at hin
      exact hother (mem_singleton.mp hin)
    have hle := countP_unnamed_le s.live hunnamed
    rw [← h.overflow, hempty] at hle
    exact Nat.le_zero.mp hle

/-- A sole holder with a slot is the only one in the record. -/
theorem record_named (h : Record s.data s.live) (hsole : SoleHolder s mem)
    (hnamed : Named s.data mem) : dataIsExclusiveTo s.data mem = true := by
  rcases hnamed with ⟨o, ho, rfl⟩
  have hempty : s.data.overflowEntries = 0 := by
    refine h.overflow.trans (Multiset.countP_eq_zero.mpr ?_)
    intro e he hout
    have hne : e.1 ≠ o.mem := fun heq => hout (heq ▸ mem_map_of_mem ho)
    have hpos : 0 < holds s e.1 := Multiset.countP_pos.mpr ⟨e, he, rfl⟩
    exact absurd (hsole.2 e.1 hne) hpos.ne'
  -- A slot that is not swept has entries, so it is that of the sole holder.
  have hall : ∀ o', o' ∈ s.data.owners → o' = o := by
    intro o' ho'
    refine inj_on_of_nodup_map h.distinct ho' ho ?_
    by_contra hne
    exact h.swept hempty o' ho' ((h.named o' ho').trans (hsole.2 o'.mem hne))
  have howners : s.data.owners = [o] := by
    have hnodup : s.data.owners.Nodup := List.Nodup.of_map Owner.mem h.distinct
    have hperm : s.data.owners.Perm [o] :=
      (perm_ext_iff_of_nodup hnodup (nodup_singleton o)).mpr
        (fun x => ⟨fun hx => mem_singleton.mpr (hall x hx),
          fun hx => mem_singleton.mp hx ▸ ho⟩)
    exact perm_singleton.mp hperm
  exact dataIsExclusiveTo_iff.mpr ⟨o, howners, hempty, rfl, h.swept hempty o ho⟩

/-- A mapping that reads as exclusive to an address space has entries of it and of no other,
    and each frame count that did not reach its limit is the number of live entries whose
    data offset lies in the frame. -/
theorem exclusive_sound {realPageSize size : Nat} {counted : Bool}
    (hpage : PageSizeOk realPageSize) {tr : List (State M × Action M)} {u : State M}
    (hrun : Run (Step realPageSize) (State.start size counted) tr u)
    (hfits : ∀ x, x ∈ tr → Fits x.1 x.2) :
    (∀ mem, dataIsExclusiveTo u.data mem = true →
        0 < holds u mem ∧ ∀ other, other ≠ mem → holds u other = 0) ∧
      ∀ refs f, u.data.frameRefs = some refs → f < memFrameCount realPageSize u.data.size →
        refs f ≠ saturated → refs f = pointing realPageSize u f := by
  refine ⟨fun mem hex => record_exclusive (record_run hrun hfits) hex, ?_⟩
  have hframes : FramesExact realPageSize u.data u.live :=
    run_invariant (fun s => FramesExact realPageSize s.data s.live) hrun
      (framesExact_start realPageSize size counted)
      (fun _ _ _ _ hv hstep => framesExact_step hpage hstep hv)
  exact fun refs f hrefs hf hsat => hframes refs hrefs f hf hsat

/-- A child comes and goes, and the mapping is exclusive to its parent again. -/
theorem exclusive_sound_forked :
    ∃ (tr : List (State (Fin 3) × Action (Fin 3))) (u : State (Fin 3)) (refs : Nat → Nat),
      Run (Step 16384) (State.start 8192 true) tr u ∧
        dataIsExclusiveTo u.data 0 = true ∧ 0 < holds u 0 ∧ holds u 1 = 0 ∧
        u.data.frameRefs = some refs ∧ refs 0 = pointing 16384 u 0 := by
  have h0 := Run.start (Step 16384) (State.start 8192 true : State (Fin 3))
  have h1 := h0.next (.init 0 0 2) ⟨⟨Nat.dvd_zero _, rfl⟩, rfl⟩
  have h2 := h1.next (.acquire 1 0 2) ⟨Nat.dvd_zero _, rfl⟩
  have h3 := h2.next (.release 1 0 2) ⟨⟨Nat.dvd_zero _, Multiset.le_add_left _ _⟩, rfl⟩
  have hsound := exclusive_sound ⟨14, rfl⟩ h3 (by decide)
  have hex := hsound.1 0 rfl
  exact ⟨_, _, _, h3, rfl, hex.1, hex.2 1 (by decide), rfl,
    hsound.2 _ 0 rfl (by decide) (by decide)⟩

/-- A mapping with one holder reads as exclusive to it just when the holder has a slot. -/
theorem exclusive_iff_named {realPageSize size : Nat} {counted : Bool}
    {tr : List (State M × Action M)} {u : State M}
    (hrun : Run (Step realPageSize) (State.start size counted) tr u)
    (hfits : ∀ x, x ∈ tr → Fits x.1 x.2) {mem : M} (hsole : SoleHolder u mem) :
    dataIsExclusiveTo u.data mem = true ↔ Named u.data mem := by
  constructor
  · intro hex
    rcases dataIsExclusiveTo_iff.mp hex with ⟨o, howners, _, hmem, _⟩
    exact ⟨o, howners ▸ mem_singleton_self o, hmem⟩
  · exact record_named (record_run hrun hfits) hsole

/-- Two address spaces share a mapping and the first lets go of it. The second has a slot,
    and the mapping reads as exclusive to it. -/
theorem exclusive_iff_named_second :
    ∃ (tr : List (State (Fin 3) × Action (Fin 3))) (u : State (Fin 3)),
      Run (Step 16384) (State.start 4096 true) tr u ∧ SoleHolder u 1 ∧
        dataIsExclusiveTo u.data 1 = true := by
  have h0 := Run.start (Step 16384) (State.start 4096 true : State (Fin 3))
  have h1 := h0.next (.init 0 0 1) ⟨⟨Nat.dvd_zero _, rfl⟩, rfl⟩
  have h2 := h1.next (.acquire 1 0 1) ⟨Nat.dvd_zero _, rfl⟩
  have h3 := h2.next (.release 0 0 1) ⟨⟨Nat.dvd_zero _, by decide⟩, rfl⟩
  refine ⟨_, _, h3, ⟨by decide, by decide⟩, ?_⟩
  refine (exclusive_iff_named h3 (by decide) ⟨by decide, by decide⟩).mpr ⟨⟨1, 1⟩, ?_, rfl⟩
  exact mem_singleton_self _

/-- Three address spaces share a mapping, and the first two let go of it. The third was
    counted in the overflow. It is the only holder left, and the mapping does not read as
    exclusive to it. -/
theorem last_owner_overflowed : ∃ (tr : List (State (Fin 3) × Action (Fin 3))) (u : State (Fin 3)),
      Run (Step 16384) (State.start 4096 true) tr u ∧
        (∀ x, x ∈ tr → Fits x.1 x.2) ∧ SoleHolder u 2 ∧
        dataIsExclusiveTo u.data 2 = false := by
  have h0 := Run.start (Step 16384) (State.start 4096 true : State (Fin 3))
  have h1 := h0.next (.init 0 0 1) ⟨⟨Nat.dvd_zero _, rfl⟩, rfl⟩
  have h2 := h1.next (.acquire 1 0 1) ⟨Nat.dvd_zero _, rfl⟩
  have h3 := h2.next (.acquire 2 0 1) ⟨Nat.dvd_zero _, rfl⟩
  have h4 := h3.next (.release 0 0 1) ⟨⟨Nat.dvd_zero _, by decide⟩, rfl⟩
  have h5 := h4.next (.release 1 0 1) ⟨⟨Nat.dvd_zero _, by decide⟩, rfl⟩
  exact ⟨_, _, h5, by decide, ⟨by decide, by decide⟩, rfl⟩

end IshAok.DataOwner
