import IshAok.Base.Run
import IshAok.Core.DataOwner
import Mathlib.Algebra.Order.Ring.Nat
import Mathlib.Data.Multiset.Count

/-!
# The Frame Counts of a Mapping

The record adds up a run of pages frame by frame. For pages at multiples of the page size,
what it adds for a frame is the number of entries of the run whose data offset lies there,
so a count that has not saturated is the number of live entries of its frame. A count that
has saturated is never changed again.

## Main definitions

* `FramesExact`: Each count that has not saturated is right.

## Theorems

* `frameRefsLoop_apply`: What the loop does to each count.
* `countP_entriesOf`: The entries of a run that point into a frame.
* `framesExact_step`: An update keeps the counts right.
-/

namespace IshAok.DataOwner

open Base Multiset List Function

variable {M : Type} {realPageSize pages offset : Nat}

/-- The entries of a run point into the frames from that of the first to that of the last. -/
theorem countP_entriesOf_outside (frame : Nat) (mem : M) {g : Nat}
    (hout : ¬(offset / frame ≤ g ∧ g ≤ (offset + (pages - 1) * pageSize) / frame)) :
    (entriesOf mem offset pages).countP (fun e => e.2 / frame = g) = 0 := by
  refine Multiset.countP_eq_zero.mpr ?_
  intro e he heq
  rcases List.mem_map.mp (Multiset.mem_coe.mp he) with ⟨k, hk, rfl⟩
  have hkp : k ≤ pages - 1 := Nat.le_sub_one_of_lt (List.mem_range.mp hk)
  refine hout ⟨?_, ?_⟩
  · rw [← heq]
    exact Nat.div_le_div_right (Nat.le_add_right _ _)
  · rw [← heq]
    exact Nat.div_le_div_right (Nat.add_le_add_left (Nat.mul_le_mul_right _ hkp) _)

theorem dataFrameRefsAddLocked_size (realPageSize : Nat) (data : Data M) (offset pages : Nat)
    (add : Bool) :
    (dataFrameRefsAddLocked realPageSize data offset pages add).size = data.size := by
  unfold dataFrameRefsAddLocked
  split
  · rfl
  · split <;> rfl

theorem entriesOf_zero (mem : M) (offset : Nat) : entriesOf mem offset 0 = 0 := rfl

variable [DecidableEq M]

/-! ## Host frames -/

/-- The host page size is a power of two. -/
def PageSizeOk (realPageSize : Nat) : Prop :=
  ∃ k, realPageSize = 2 ^ k

/-- A host frame is a whole number of guest pages. -/
theorem memFrameSize_pages (h : PageSizeOk realPageSize) :
    ∃ c, memFrameSize realPageSize = pageSize * c ∧ 0 < c := by
  rcases h with ⟨k, rfl⟩
  unfold memFrameSize
  split
  · next hlarge =>
    have hk : 12 < k := (Nat.pow_lt_pow_iff_right (by decide : 1 < 2)).mp hlarge
    refine ⟨2 ^ (k - 12), ?_, Nat.two_pow_pos _⟩
    rw [show pageSize = 2 ^ 12 from rfl, ← Nat.pow_add, Nat.add_sub_cancel' hk.le]
  · exact ⟨1, (Nat.mul_one _).symm, Nat.one_pos⟩

/-! ## The loop -/

/-- Each count of the frames from the first one on is adjusted once. -/
theorem frameRefsLoop_apply (frame frames first last : Nat) (add : Bool) :
    ∀ (turns f : Nat) (refs : Nat → Nat) (g : Nat),
      frameRefsLoop frame frames first last add turns f refs g =
        if f ≤ g ∧ g < f + turns ∧ g < frames then
          adjust add (refs g) (framePages frame first last g)
        else refs g := by
  intro turns
  induction turns with
  | zero =>
    intro f refs g
    rw [if_neg (by omega)]
    rfl
  | succ turns ih =>
    intro f refs g
    unfold frameRefsLoop
    by_cases hend : frames ≤ f
    · rw [if_pos hend, if_neg (by omega)]
    rw [if_neg hend, ih]
    by_cases hfirst : g = f
    · -- The frame of this turn is not met again.
      rw [hfirst, if_neg (by omega), if_pos (by omega), update_self]
    rw [update_of_ne hfirst]
    by_cases hin : f + 1 ≤ g ∧ g < f + 1 + turns ∧ g < frames
    · rw [if_pos hin, if_pos (by omega)]
    · rw [if_neg hin, if_neg (by omega)]

/-! ## The entries of a run -/

/-- The numbers below a bound that lie in an interval. -/
theorem countP_range_interval (lo hi : Nat) :
    ∀ n, (List.range n).countP (fun k => decide (lo ≤ k ∧ k < hi)) = min hi n - lo := by
  intro n
  induction n with
  | zero => simp
  | succ n ih =>
    rw [List.range_succ, List.countP_append, ih, List.countP_singleton]
    by_cases hin : lo ≤ n ∧ n < hi
    · rw [if_pos (decide_eq_true hin)]
      omega
    · rw [if_neg (by rw [decide_eq_true_iff]; exact hin)]
      omega

theorem framePages_eq {c p : Nat} (hpages : 0 < pages) (g : Nat) :
    framePages (pageSize * c) (pageSize * p) (pageSize * p + (pages - 1) * pageSize) g =
      min (g * c + c - p) pages - (g * c - p) := by
  have hpos : 0 < pageSize := by decide
  have hlast : pageSize * p + (pages - 1) * pageSize + pageSize = pageSize * (p + pages) := by
    rw [Nat.mul_comm (pages - 1), Nat.add_assoc, ← Nat.mul_succ, ← Nat.mul_add]
    congr 2
    omega
  have hstart : g * (pageSize * c) = pageSize * (g * c) := Nat.mul_left_comm _ _ _
  have hend : pageSize * (g * c) + pageSize * c = pageSize * (g * c + c) :=
    (Nat.mul_add _ _ _).symm
  unfold framePages
  dsimp only
  rw [hlast, hstart, hend]
  have hlo : (if pageSize * (g * c) < pageSize * p then pageSize * p else pageSize * (g * c)) =
      pageSize * max p (g * c) := by
    split
    · next h => rw [max_eq_left (Nat.le_of_lt (Nat.lt_of_mul_lt_mul_left h))]
    · next h => rw [max_eq_right (Nat.le_of_mul_le_mul_left (Nat.le_of_not_lt h) hpos)]
  have hhi : (if pageSize * (p + pages) < pageSize * (g * c + c) then pageSize * (p + pages)
      else pageSize * (g * c + c)) = pageSize * min (p + pages) (g * c + c) := by
    split
    · next h => rw [min_eq_left (Nat.le_of_lt (Nat.lt_of_mul_lt_mul_left h))]
    · next h => rw [min_eq_right (Nat.le_of_mul_le_mul_left (Nat.le_of_not_lt h) hpos)]
  rw [hlo, hhi, ← Nat.mul_sub, Nat.mul_div_cancel_left _ hpos]
  omega

omit [DecidableEq M] in
/-- What the loop adds for a frame is the number of entries of the run that point into it. -/
theorem countP_entriesOf (h : PageSizeOk realPageSize) (mem : M) (hoffset : pageSize ∣ offset)
    (hpages : 0 < pages) (g : Nat) :
    (entriesOf mem offset pages).countP (fun e => e.2 / memFrameSize realPageSize = g) =
      framePages (memFrameSize realPageSize) offset (offset + (pages - 1) * pageSize) g := by
  rcases memFrameSize_pages h with ⟨c, hframe, hc⟩
  rcases hoffset with ⟨p, rfl⟩
  have hpos : 0 < pageSize := by decide
  rw [hframe, framePages_eq hpages, ← countP_range_interval, entriesOf, Multiset.coe_countP,
    List.countP_map]
  refine List.countP_congr ?_
  intro k _
  simp only [comp_apply, decide_eq_true_iff]
  -- The page of the entry lies between the first pages of this frame and of the next one.
  rw [Nat.mul_comm k, ← Nat.mul_add, Nat.mul_div_mul_left _ _ hpos, Nat.div_eq_iff hc]
  omega

/-! ## The counts -/

/-- A count that is not saturated after it was adjusted was not saturated before. -/
theorem adjust_eq {add : Bool} {slot n : Nat} (h : adjust add slot n ≠ saturated) :
    slot ≠ saturated ∧ adjust add slot n = if add then slot + n else slot - n := by
  unfold adjust at h ⊢
  by_cases hslot : slot = saturated
  · rw [if_pos hslot] at h
    exact absurd hslot h
  rw [if_neg hslot] at h ⊢
  refine ⟨hslot, ?_⟩
  cases add with
  | true =>
    by_cases hsum : saturated ≤ slot + n
    · rw [if_pos hsum] at h
      exact absurd rfl h
    · exact if_neg hsum
  | false =>
    rw [if_neg Bool.false_ne_true, if_neg Bool.false_ne_true]
    split
    · omega
    · rfl

/-- Each count that has not saturated is the number of entries that point into its frame. -/
def FramesExact (realPageSize : Nat) (data : Data M) (live : Multiset (M × Nat)) : Prop :=
  ∀ refs, data.frameRefs = some refs →
    ∀ f, f < memFrameCount realPageSize data.size → refs f ≠ saturated →
      refs f = live.countP fun e => e.2 / memFrameSize realPageSize = f

omit [DecidableEq M] in
/-- What an update of the frame counts does to those that do not saturate. -/
theorem dataFrameRefsAddLocked_counts (h : PageSizeOk realPageSize) (mem : M) {data : Data M}
    (hoffset : pageSize ∣ offset) (hpages : pages ≠ 0) (add : Bool) {refs' : Nat → Nat}
    (hrefs : (dataFrameRefsAddLocked realPageSize data offset pages add).frameRefs = some refs')
    {f : Nat} (hf : f < memFrameCount realPageSize data.size) (hsat : refs' f ≠ saturated) :
    ∃ refs, data.frameRefs = some refs ∧ refs f ≠ saturated ∧ refs' f = if add then
          refs f + (entriesOf mem offset pages).countP
            (fun e => e.2 / memFrameSize realPageSize = f)
        else
          refs f - (entriesOf mem offset pages).countP
            (fun e => e.2 / memFrameSize realPageSize = f) := by
  unfold dataFrameRefsAddLocked at hrefs
  split at hrefs
  · next hnone => exact absurd (hnone.symm.trans hrefs) (by simp)
  next refs hsome =>
  rw [if_neg hpages] at hrefs
  refine ⟨refs, hsome, ?_⟩
  cases hrefs
  rw [frameRefsLoop_apply] at hsat ⊢
  by_cases hin : offset / memFrameSize realPageSize ≤ f ∧
      f ≤ (offset + (pages - 1) * pageSize) / memFrameSize realPageSize
  · -- The frame is met by the run.
    rw [if_pos (by omega)] at hsat ⊢
    rw [countP_entriesOf h mem hoffset (Nat.pos_of_ne_zero hpages)]
    exact adjust_eq hsat
  · rw [if_neg (by omega)] at hsat ⊢
    rw [countP_entriesOf_outside _ mem hin]
    cases add with
    | true | false => exact ⟨hsat, rfl⟩

/-! ## The owners leave the frame counts alone -/

theorem acquireOwners_frames (data : Data M) (mem : M) (pages : Nat) :
    (acquireOwners data mem pages).frameRefs = data.frameRefs ∧
      (acquireOwners data mem pages).size = data.size := by
  unfold acquireOwners
  split
  · exact ⟨rfl, rfl⟩
  · split <;> exact ⟨rfl, rfl⟩

theorem releaseOwners_frames (data : Data M) (mem : M) (pages : Nat) :
    (sweepOwners (releaseOwners data mem pages)).frameRefs = data.frameRefs ∧
      (sweepOwners (releaseOwners data mem pages)).size = data.size := by
  have hrelease : (releaseOwners data mem pages).frameRefs = data.frameRefs ∧
      (releaseOwners data mem pages).size = data.size := by
    unfold releaseOwners
    split <;> exact ⟨rfl, rfl⟩
  unfold sweepOwners
  split <;> exact hrelease

omit [DecidableEq M] in
/-- The counts after entries were added or taken off. -/
theorem framesExact_update (h : PageSizeOk realPageSize) (mem : M) {data data' : Data M}
    {live live' : Multiset (M × Nat)} (hoffset : pageSize ∣ offset) (hpages : pages ≠ 0)
    (hexact : FramesExact realPageSize data live) (hrefs : data'.frameRefs = data.frameRefs)
    (hsize : data'.size = data.size) (add : Bool)
    (hlive : ∀ P : M × Nat → Prop, ∀ [DecidablePred P], live'.countP P =
      if add then live.countP P + (entriesOf mem offset pages).countP P
      else live.countP P - (entriesOf mem offset pages).countP P) :
    FramesExact realPageSize (dataFrameRefsAddLocked realPageSize data' offset pages add)
      live' := by
  intro refs' hrefs' f hf hsat
  rw [dataFrameRefsAddLocked_size] at hf
  rcases dataFrameRefsAddLocked_counts h mem hoffset hpages add hrefs' hf hsat with
    ⟨refs, hold, holdSat, hnew⟩
  rw [hnew, hlive, hexact refs (hrefs ▸ hold) f (hsize ▸ hf) holdSat]

/-- An update keeps the counts right. -/
theorem framesExact_step (h : PageSizeOk realPageSize) {s u : State M} {a : Action M}
    (hstep : Step realPageSize s a u) (hexact : FramesExact realPageSize s.data s.live) :
    FramesExact realPageSize u.data u.live := by
  rcases hstep with ⟨henabled, rfl⟩
  cases a with
  | init mem offset pages =>
    simp only [exec, dataOwnerInit]
    by_cases hpages : pages = 0
    · rw [if_pos hpages, hpages, entriesOf_zero, Multiset.add_zero]
      exact hexact
    rw [if_neg hpages]
    exact framesExact_update h mem henabled.1 hpages hexact (by rfl) (by rfl) true fun P _ =>
      countP_add _ _ _
  | acquire mem offset pages =>
    simp only [exec, dataOwnerAcquire]
    by_cases hpages : pages = 0
    · rw [if_pos hpages, hpages, entriesOf_zero, Multiset.add_zero]
      exact hexact
    rw [if_neg hpages]
    rcases acquireOwners_frames s.data mem pages with ⟨hrefs, hsize⟩
    exact framesExact_update h mem henabled hpages hexact hrefs hsize true fun P _ =>
      countP_add _ _ _
  | release mem offset pages =>
    simp only [exec, dataOwnerRelease]
    by_cases hpages : pages = 0
    · rw [if_pos hpages, hpages, entriesOf_zero, Multiset.sub_zero]
      exact hexact
    rw [if_neg hpages]
    rcases releaseOwners_frames s.data mem pages with ⟨hrefs, hsize⟩
    exact framesExact_update h mem henabled.1 hpages hexact hrefs hsize false fun P _ =>
      countP_sub henabled.2 _

omit [DecidableEq M] in
theorem framesExact_start (realPageSize size : Nat) (counted : Bool) :
    FramesExact realPageSize (State.start size counted : State M).data 0 := by
  intro refs hrefs f _ _
  simp only [State.start] at hrefs
  split at hrefs
  · cases hrefs
    rw [countP_zero]
  · cases hrefs

end IshAok.DataOwner
