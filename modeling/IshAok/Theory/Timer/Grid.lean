import IshAok.Theory.Timer.Moves

/-!
# The Grid of a Timer

A timer armed at `a` with value `v` and interval `i` expires at the points
`a + v + k * i`. Its thread may wake late, past many of them, and then
delivers all of them in one callback and moves the deadline behind the last.

`OnGrid` ties the deadline to what has been delivered: it stands `made`
points behind the first. A callback counts the points from the deadline to
the reading by a division, so after it `made` is the number of points up to
the reading, and `made` times the interval is where the deadline goes.

The count saturates. A reading that is `INT64_MAX / 10^9 - 1` seconds or more
behind the deadline is taken for one that is exactly that far, and the points
after it are left for the next callback. `Saturates` says that of a step, and
the grid is exact for threads that never take one.

## Main definitions

* `Small`: A pair whose nanoseconds fit 64 bits.
* `delivered`, `callbacks`: What the callbacks of an arming have been given.
* `Saturates`: The clock is centuries ahead of the deadline.
* `OnGrid`: The invariant.

## Theorems

* `periodsPast_eq`, `periods_total`: The division and the product.
* `onGrid_set`: An arming starts the grid.
* `onGrid_step`, `onGrid_run`: The thread keeps it.
* `timer_grid`: Every run of the thread.
* `timer_grid_saturates`: A reading past the limit.
-/

namespace IshAok.Timers

open Base List Bool

/-- A pair whose nanoseconds fit a signed 64-bit integer. -/
def Small (t : Timespec) : Prop :=
  t.Normal ∧ -2 ^ 63 ≤ t.total ∧ t.total < 2 ^ 63

instance (t : Timespec) : Decidable (Small t) :=
  inferInstanceAs (Decidable (_ ∧ _))

theorem Small.within {t : Timespec} (h : Small t) : t.Within :=
  ⟨h.1, by have := h.2.1; omega, by have := h.2.2; omega⟩

/-! ### The division and the product -/

theorem saturation_eq : int64Max / timerNs - 1 = 9223372035 := by
  decide

/-- The periods from a deadline to a reading, when the count does not saturate. -/
theorem periodsPast_eq {deadline now interval : Timespec} (hd : deadline.Within)
    (hn : now.Within) (hi : Small interval) (hpos : 0 < interval.total)
    (hle : deadline.total ≤ now.total)
    (hsat : now.total - deadline.total < 9223372035 * 1000000000) :
    (timerPeriodsPast deadline now interval : Int) =
      (now.total - deadline.total) / interval.total := by
  rcases Timespec.subtract_total hn hd with ⟨⟨hb1, hb2⟩, hbehind⟩
  have hipos : interval.positive = true := (Timespec.positive_iff hi.1).mpr hpos
  have hi1 := hi.1
  have hi2 := hi.2
  unfold Timespec.Normal at hi1
  unfold timerPeriodsPast
  simp only [hipos, Bool.not_true, false_eq_true, if_false]
  set behind := now.subtract deadline with hbehinddef
  have hbt : behind.total = behind.sec * 1000000000 + behind.nsec := rfl
  have hit : interval.total = interval.sec * 1000000000 + interval.nsec := rfl
  split
  · next hnone =>
    -- Nothing is due, or the interval is longer than what has passed.
    have hshort : now.total - deadline.total < interval.total := by
      simp only [or_eq_true, not_eq_true', decide_eq_true_eq] at hnone
      rcases hnone with hnone | hlong
      · have hzero : ¬0 < behind.total := by
          rw [← Timespec.positive_iff ⟨hb1, hb2⟩, hnone]
          exact Bool.false_ne_true
        omega
      · omega
    rw [Int.ediv_eq_zero_of_lt (by omega) hshort]
    rfl
  · rw [saturation_eq, if_neg (by omega)]
    dsimp only [timerNs]
    rw [← hbt, ← hit, wrap64_eq (by omega) (by omega), wrap64_eq (by omega) (by omega), hbehind,
      Int.tdiv_eq_ediv_of_nonneg (by omega)]
    have hq0 : 0 ≤ (now.total - deadline.total) / interval.total :=
      Int.ediv_nonneg (by omega) (by omega)
    have hq1 : (now.total - deadline.total) / interval.total ≤ now.total - deadline.total :=
      Int.ediv_le_self _ (by omega)
    rw [Int.emod_eq_of_lt hq0 (by omega), Int.toNat_of_nonneg hq0]

/-- The length of some periods. -/
theorem periods_total {interval : Timespec} {n : Nat} (hi : Small interval)
    (hpos : 0 < interval.total) (hfits : n * interval.total < 2 ^ 63) :
    (timerPeriods n interval).Normal ∧ (timerPeriods n interval).total = n * interval.total := by
  have hi2 := hi.2
  have hit : interval.total = interval.sec * 1000000000 + interval.nsec := rfl
  unfold timerPeriods
  by_cases hn : n = 0
  · subst hn
    rw [if_pos rfl]
    refine ⟨by decide, ?_⟩
    simp [Timespec.total]
  · rw [if_neg hn]
    have hle : (n : Int) ≤ n * interval.total := by
      have hmul := Int.mul_le_mul_of_nonneg_left (show (1 : Int) ≤ interval.total by omega)
        (show (0 : Int) ≤ n by omega)
      omega
    have hcount : wrap64 (n : Int) = n := wrap64_eq (by omega) (by omega)
    have hinterval : wrap64 interval.total = interval.total := wrap64_eq (by omega) (by omega)
    dsimp only [timerNs]
    rw [← hit, hcount, hinterval, wrap64_eq (by omega) hfits]
    have hnn : (0 : Int) ≤ n * interval.total := by omega
    rw [Int.tdiv_eq_ediv_of_nonneg hnn, Int.tmod_eq_emod_of_nonneg hnn]
    unfold Timespec.Normal Timespec.total
    dsimp only
    omega

/-! ### Callbacks of an arming -/

/-- What the next step gives to a callback of an arming. -/
def delivers (g : Nat) (s : State) : Nat :=
  match s.phase with
  | .firing a expirations => if a.generation = g then expirations else 0
  | _ => 0

/-- Whether the next step is a callback of an arming. -/
def callsBack (g : Nat) (s : State) : Bool :=
  match s.phase with
  | .firing a _ => a.generation = g
  | _ => false

/-- The sum of the expirations given to the callbacks of an arming. -/
def delivered (g : Nat) (tr : List (State × Timespec)) : Nat :=
  (tr.map fun p => delivers g p.1).sum

/-- The number of callbacks of an arming. -/
def callbacks (g : Nat) (tr : List (State × Timespec)) : Nat :=
  tr.countP fun p => callsBack g p.1

/-- The thread is about to decide, and the clock is centuries ahead of the deadline. -/
def Saturates (s : State) (now : Timespec) : Prop :=
  match s.phase with
  | .check a => s.timer.generation = a.generation ∧
      9223372035 * 1000000000 ≤ now.total - s.timer.deadline.total
  | _ => False

instance (s : State) (now : Timespec) : Decidable (Saturates s now) := by
  unfold Saturates
  split <;> infer_instance

/-! ### The invariant -/

/-- The deadline stands `made` points behind the first, except that a callback
    that has been made has not moved it yet. An arming without an interval has
    one callback, and then the thread ends. -/
structure OnGrid (g : Nat) (first i : Int) (made calls : Nat) (s : State) : Prop where
  generation : s.timer.generation = g
  active : s.timer.active = true
  small : Small s.timer.interval
  interval : s.timer.interval.total = i
  deadline : s.timer.deadline.Normal ∧ -2 ^ 64 ≤ s.timer.deadline.total ∧
    s.timer.deadline.total < 2 ^ 65
  copied : ∀ a, s.phase.arming = some a → a.generation = g → a = s.timer.copied
  pending : ∀ a n, s.phase = .firing a n ∨ s.phase = .returned a n → a.generation = g →
    1 ≤ n ∧ (n - 1 : Nat) * i < 2 ^ 63 ∧ s.timer.deadline.total + n * i < 2 ^ 65
  due : s.phase ≠ .none → (∀ a n, s.phase = .returned a n → a.generation ≠ g) →
    s.timer.deadline.total = first + made * i ∧ (i = 0 → calls = 0)
  made_due : ∀ a n, s.phase = .returned a n → a.generation = g →
    s.timer.deadline.total + n * i = first + made * i ∧ (i = 0 → calls = 1)
  ended : s.phase = .none → i = 0 ∧ calls = 1

/-- A phase between callbacks. -/
def Phase.between : Phase → Bool
  | .none => false
  | .firing _ _ => false
  | .returned _ _ => false
  | _ => true

section

variable {g made calls : Nat} {first i : Int} {s s' : State} {now : Timespec}

theorem OnGrid.within (h : OnGrid g first i made calls s) : s.timer.deadline.Within :=
  ⟨h.deadline.1, by have := h.deadline.2; omega, by have := h.deadline.2; omega⟩

/-- Between callbacks the deadline is the next point. -/
theorem OnGrid.of_between (hgen : s.timer.generation = g) (hactive : s.timer.active = true)
    (hsmall : Small s.timer.interval) (hinterval : s.timer.interval.total = i)
    (hdeadline : s.timer.deadline.Normal ∧ -2 ^ 64 ≤ s.timer.deadline.total ∧
      s.timer.deadline.total < 2 ^ 65)
    (hcopied : ∀ a, s.phase.arming = some a → a.generation = g → a = s.timer.copied)
    (hdue : s.timer.deadline.total = first + made * i ∧ (i = 0 → calls = 0))
    (hbetween : s.phase.between = true) : OnGrid g first i made calls s := by
  refine ⟨hgen, hactive, hsmall, hinterval, hdeadline, hcopied, fun a n hphase _ => ?_,
    fun _ _ => hdue, fun a n hphase _ => ?_, fun hphase => ?_⟩
  · rcases hphase with hphase | hphase <;>
    · rw [hphase] at hbetween
      cases hbetween
  · rw [hphase] at hbetween
    cases hbetween
  · rw [hphase] at hbetween
    cases hbetween

/-- The thread moves on with the timer as it is. -/
theorem OnGrid.moved (h : OnGrid g first i made calls s) (hne : s.phase ≠ .none)
    (hfrom : ∀ a n, s.phase = .returned a n → a.generation ≠ g) (hsame : s'.timer = s.timer)
    (hcopied : ∀ a, s'.phase.arming = some a → a.generation = g → a = s'.timer.copied)
    (hto : s'.phase.between = true) : OnGrid g first i made calls s' := by
  rcases s' with ⟨timer, phase⟩
  cases hsame
  exact .of_between h.generation h.active h.small h.interval h.deadline hcopied
    (h.due hne hfrom) hto

variable {timer : Timer} {a : Arming} {n : Nat}

/-- What a decision to fire has found: the deadline has come, and the periods
    since are counted exactly. -/
theorem fire_count (h : OnGrid g first i made calls ⟨timer, .check a⟩) (hi : 0 ≤ i)
    (hnow : Small now) (hsat : 0 < i → ¬Saturates ⟨timer, .check a⟩ now)
    (hsame : timer.generation = a.generation) (hdue : timer.early now = false) :
    a = timer.copied ∧ timer.deadline.total ≤ now.total ∧
    (0 < i → now.total - timer.deadline.total < 9223372035 * 1000000000) ∧
    (timerPeriodsPast timer.deadline now timer.interval : Int) =
      (now.total - timer.deadline.total) / i := by
  have hinterval : timer.interval.total = i := h.interval
  have hsmall : Small timer.interval := h.small
  have hle : timer.deadline.total ≤ now.total := by
    by_contra hlt
    have hearly : timer.early now = true :=
      (Timespec.subtract_positive_iff h.within hnow.within).mpr (Int.not_le.mp hlt)
    rw [hearly] at hdue
    cases hdue
  have hlate : 0 < i → now.total - timer.deadline.total < 9223372035 * 1000000000 := by
    intro hpos
    by_contra hge
    exact hsat hpos ⟨hsame, Int.not_lt.mp hge⟩
  refine ⟨h.copied a rfl (hsame.symm.trans h.generation), hle, hlate, ?_⟩
  by_cases hpos : 0 < i
  · have hcount := periodsPast_eq h.within hnow.within hsmall (hinterval ▸ hpos) hle (hlate hpos)
    rwa [hinterval] at hcount
  -- A timer without an interval has no periods.
  have hzero : timer.interval.positive = false := by
    rw [← not_eq_true, Timespec.positive_iff hsmall.1, hinterval]
    exact hpos
  rw [show i = 0 by omega, Int.ediv_zero, timerPeriodsPast, hzero]
  rfl

/-- The count of a decision leaves room for the next deadline. -/
theorem fire_room {phase : Phase} (h : OnGrid g first i made calls ⟨timer, phase⟩) (hi : 0 ≤ i)
    (hnow : Small now) (hle : timer.deadline.total ≤ now.total)
    (hsat : 0 < i → now.total - timer.deadline.total < 9223372035 * 1000000000)
    (hcount : (n : Int) = (now.total - timer.deadline.total) / i) :
    n * i < 2 ^ 63 ∧ timer.deadline.total + (1 + n : Nat) * i < 2 ^ 65 := by
  have hbounds := h.deadline
  have hsmall := h.small.2
  have hinterval := h.interval
  have hnow2 := hnow.2
  rw [Nat.cast_add, Nat.cast_one, Int.add_mul, Int.one_mul]
  by_cases hpos : 0 < i
  · -- The periods counted are not longer than the time they were counted over.
    have hprod : (n : Int) * i ≤ now.total - timer.deadline.total := by
      rw [hcount]
      exact Int.ediv_mul_le _ (by omega)
    have hlate := hsat hpos
    omega
  · rw [show i = 0 by omega, Int.mul_zero]
    omega

theorem onGrid_fire (h : OnGrid g first i made calls ⟨timer, .check a⟩) (hi : 0 ≤ i)
    (hnow : Small now) (hsat : 0 < i → ¬Saturates ⟨timer, .check a⟩ now)
    (hsame : timer.generation = a.generation) (hdue : timer.early now = false) :
    OnGrid g first i made calls
      ⟨timer.fire, .firing a (1 + timerPeriodsPast a.deadline now a.interval)⟩ := by
  rcases fire_count h hi hnow hsat hsame hdue with ⟨hcopy, hle, hlate, hcount⟩
  rcases fire_room h hi hnow hle hlate hcount with ⟨hfits, hroom⟩
  refine ⟨h.generation, h.active, h.small, h.interval, h.deadline, h.copied,
    fun b n hphase _ => ?_, fun _ _ => h.due (by simp) nofun, nofun, nofun⟩
  rcases hphase with hphase | hphase
  · cases hphase
    rw [hcopy, Nat.add_sub_cancel_left]
    exact ⟨by omega, hfits, hroom⟩
  · cases hphase

theorem onGrid_call (h : OnGrid g first i made calls ⟨timer, .firing a n⟩) :
    OnGrid g first i (made + delivers g ⟨timer, .firing a n⟩)
      (calls + if callsBack g ⟨timer, .firing a n⟩ then 1 else 0) ⟨timer, .returned a n⟩ := by
  rcases h.due (by simp) nofun with ⟨hdue, hcalls⟩
  refine ⟨h.generation, h.active, h.small, h.interval, h.deadline, h.copied,
    fun b m hphase hb => ?_, fun _ hfrom => ?_, fun b m hphase hb => ?_,
    nofun⟩
  · rcases hphase with hphase | hphase
    · cases hphase
    cases hphase
    exact h.pending a n (.inl rfl) hb
  · -- A callback of another arming.
    have hother := hfrom a n rfl
    simp only [delivers, callsBack, hother, if_false, decide_false, false_eq_true,
      Nat.add_zero]
    exact ⟨hdue, hcalls⟩
  · cases hphase
    simp only [delivers, callsBack, hb, if_true, decide_true]
    refine ⟨?_, fun hz => by rw [hcalls hz]⟩
    rw [hdue, Nat.cast_add, Int.add_mul]
    omega

section

variable (h : OnGrid g first i made calls ⟨timer, .returned a n⟩)

include h

/-- Where a periodic timer goes after its callback: over the periods delivered,
    and one more. -/
theorem advance_total (hsame : timer.generation = a.generation) (hpos : 0 < i) :
    (timer.advance a n).deadline.Normal ∧
      (timer.advance a n).deadline.total = timer.deadline.total + n * i := by
  have hgen : a.generation = g := hsame.symm.trans h.generation
  have hcopy : a = timer.copied := h.copied a rfl hgen
  rcases h.pending a n (Or.inr rfl) hgen with ⟨hn, hfits, hroom⟩
  have hinterval : timer.interval.total = i := h.interval
  have hsmall : Small timer.interval := h.small
  have hbounds := h.deadline
  dsimp only at hbounds hroom
  rcases periods_total hsmall (hinterval ▸ hpos) (hinterval ▸ hfits) with ⟨hpn, hpt⟩
  rw [hinterval] at hpt
  have hsub : ((n - 1 : Nat) : Int) * i = n * i - i := by
    rw [Nat.cast_sub hn, Nat.cast_one, Int.sub_mul, Int.one_mul]
  have hnn : 0 ≤ ((n - 1 : Nat) : Int) * i := Int.mul_nonneg (by omega) (by omega)
  rcases Timespec.add_total h.within ⟨hpn, by omega, by omega⟩ with ⟨hsn, hst⟩
  dsimp only at hsn hst
  have hstart : (timer.deadline.add (timerPeriods (n - 1) timer.interval)).Within :=
    ⟨hsn, by omega, by omega⟩
  rcases Timespec.add_total hstart hsmall.within with ⟨hdn, hdt⟩
  rw [hcopy]
  refine ⟨hdn, hdt.trans ?_⟩
  omega

theorem onGrid_advance
    (hsame : timer.generation = a.generation) (hperiodic : a.interval.positive = true) :
    OnGrid g first i made calls ⟨timer.advance a n, .head⟩ := by
  have hgen : a.generation = g := hsame.symm.trans h.generation
  have hcopy : a = timer.copied := h.copied a rfl hgen
  have hpos : 0 < i := by
    rw [← h.interval, ← Timespec.positive_iff h.small.1]
    rw [hcopy] at hperiodic
    exact hperiodic
  rcases advance_total h hsame hpos with ⟨hnormal, htotal⟩
  rcases h.pending a n (Or.inr rfl) hgen with ⟨hn, -, hroom⟩
  rcases h.made_due a n rfl hgen with ⟨hdue, -⟩
  have hbounds := h.deadline
  dsimp only at hbounds hroom hdue
  have hnn : 0 ≤ (n : Int) * i := Int.mul_nonneg (by omega) (by omega)
  have hdeadline : (timer.advance a n).deadline.Normal ∧
      -2 ^ 64 ≤ (timer.advance a n).deadline.total ∧
      (timer.advance a n).deadline.total < 2 ^ 65 := ⟨hnormal, by omega, by omega⟩
  exact .of_between h.generation h.active h.small h.interval hdeadline nofun
    ⟨htotal.trans hdue, fun hz => absurd hz (by omega)⟩ rfl

/-- Without an interval the thread ends, and the callback it made is the one. -/
theorem onGrid_done (hi : 0 ≤ i) (hsame : timer.generation = a.generation)
    (hlast : timer.active = true → a.interval.positive = false) :
    OnGrid g first i made calls ⟨{ timer.calledBack with threadRunning := false }, .none⟩ := by
  have hgen : a.generation = g := hsame.symm.trans h.generation
  have hcopy : a = timer.copied := h.copied a rfl hgen
  have hzero : i = 0 := by
    have hnot : ¬0 < timer.interval.total := by
      rw [← Timespec.positive_iff h.small.1, not_eq_true]
      have hinterval := hlast h.active
      rwa [hcopy] at hinterval
    have hinterval : timer.interval.total = i := h.interval
    omega
  exact ⟨h.generation, h.active, h.small, h.interval, h.deadline, nofun,
    fun b m hphase => (by rcases hphase with hphase | hphase <;> cases hphase),
    fun hne => absurd rfl hne, nofun,
    fun _ => ⟨hzero, (h.made_due a n rfl hgen).2 hzero⟩⟩

end

/-- A step of the thread keeps the grid. -/
theorem onGrid_step (h : OnGrid g first i made calls s) (hi : 0 ≤ i) (hnow : Small now)
    (hsat : 0 < i → ¬Saturates s now) (hmove : Move now s s') :
    OnGrid g first i (made + delivers g s) (calls + if callsBack g s then 1 else 0) s' := by
  cases hmove with
  | enter timer =>
    exact h.moved (by simp) nofun rfl nofun rfl
  | nap | look =>
    exact h.moved (by simp) nofun rfl (fun a ha _ => (Option.some.inj ha).symm) rfl
  | quitNap _ _ hactive | quit _ _ hactive => exact absurd (h.active.symm.trans hactive) (by decide)
  | napAgain timer a hactive hsame hearly => exact h
  | wake timer a hactive hdue =>
    exact h.moved (by simp) nofun rfl h.copied rfl
  | stale _ a | tooEarly _ a =>
    exact h.moved (by simp) nofun rfl nofun rfl
  | fire timer a hactive hsame hdue => exact onGrid_fire h hi hnow hsat hsame hdue
  | call timer a n => exact onGrid_call h
  | returnStale timer a n hother =>
    have hne : a.generation ≠ g := fun hb => hother (h.generation.trans hb.symm)
    exact .of_between h.generation h.active h.small h.interval h.deadline nofun
      (h.due (by simp) fun b m hphase => (by cases hphase; exact hne)) rfl
  | advance timer a n hsame hactive hperiodic => exact onGrid_advance h hsame hperiodic
  | done timer a n hsame hlast => exact onGrid_done h hi hsame hlast

/-! ### Runs -/

theorem delivered_snoc (tr : List (State × Timespec)) (p : State × Timespec) :
    delivered g (tr ++ [p]) = delivered g tr + delivers g p.1 := by
  simp [delivered]

theorem callbacks_snoc (tr : List (State × Timespec)) (p : State × Timespec) :
    callbacks g (tr ++ [p]) = callbacks g tr + if callsBack g p.1 then 1 else 0 := by
  simp [callbacks]

/-- A run of the thread keeps the grid. -/
theorem onGrid_run {tr : List (State × Timespec)} (hrun : Run ThreadStep s tr s')
    (h : OnGrid g first i 0 0 s) (hi : 0 ≤ i) (hsmall : ∀ p ∈ tr, Small p.2)
    (hsat : 0 < i → ∀ p ∈ tr, ¬Saturates p.1 p.2) :
    OnGrid g first i (delivered g tr) (callbacks g tr) s' := by
  induction hrun with
  | nil => exact h
  | snoc u v now tr hrun hstep ih =>
    have hbefore := ih (fun p hp => hsmall p (mem_append_left _ hp))
      (fun hpos p hp => hsat hpos p (mem_append_left _ hp))
    have hlast : (u, now) ∈ tr ++ [(u, now)] :=
      mem_append_right _ (mem_singleton.mpr rfl)
    rw [delivered_snoc, callbacks_snoc]
    exact onGrid_step hbefore hi (hsmall _ hlast) (fun hpos => hsat hpos _ hlast)
      (threadStep_move hstep)

/-- An arming with a positive value starts a grid. -/
theorem onGrid_set {spec : TimerSpec} {created : Bool} (hc : Coherent s)
    (hnow : Small now) (hv : Small spec.value)
    (hvpos : 0 < spec.value.total) (hi : Small spec.interval)
    (hset : timerSet s spec now created = (s', .ok ())) :
    OnGrid s'.timer.generation (now.total + spec.value.total) spec.interval.total 0 0 s' := by
  have hv2 := hv.2
  have hnow2 := hnow.2
  rcases Timespec.add_total hnow.within hv.within with ⟨hdn, hdt⟩
  -- The sum does not wrap, so the deadline is not pinned.
  have hpin : ¬(spec.value.sec ≥ 0 ∧ (now.add spec.value).sec < now.sec) := by
    rintro ⟨-, hlt⟩
    have h1 := hnow.1
    unfold Timespec.Normal at h1 hdn
    unfold Timespec.total at hdt hvpos
    omega
  have hdeadline : (s.timer.set spec now).deadline = now.add spec.value := by
    simp only [Timer.set, if_neg hpin]
  have hactive : (s.timer.set spec now).active = true := by
    show (!spec.value.isZero) = true
    rw [not_eq_true', ← not_eq_true, Timespec.isZero_iff hv.1]
    omega
  have hbounds : (s.timer.set spec now).deadline.Normal ∧
      -2 ^ 64 ≤ (s.timer.set spec now).deadline.total ∧
      (s.timer.set spec now).deadline.total < 2 ^ 65 := by
    rw [hdeadline]
    exact ⟨hdn, by omega, by omega⟩
  have hdue : (s.timer.set spec now).deadline.total =
      now.total + spec.value.total + (0 : Nat) * spec.interval.total := by
    rw [hdeadline, hdt, Nat.cast_zero, Int.zero_mul, Int.add_zero]
  unfold timerSet at hset
  dsimp only at hset
  split_ifs at hset with hrunning hcreated
  · cases hset
    -- The thread is at work for an older arming.
    have holder : ∀ a, s.phase.arming = some a → a.generation ≠ s.timer.generation + 1 := by
      intro a ha hgen
      have hle := hc.older a ha
      omega
    have hsome : s.phase ≠ .none := by
      intro hnone
      have hstopped := hc.running.mp hnone
      rw [show s.timer.threadRunning = true from hrunning] at hstopped
      cases hstopped
    refine ⟨rfl, hactive, hi, rfl, hbounds, fun a ha hgen => absurd hgen (holder a ha),
      fun a n hphase hgen => ?_, fun _ _ => ⟨hdue, fun _ => rfl⟩, fun a n hphase hgen => ?_,
      fun hphase => absurd hphase hsome⟩
    · refine absurd hgen (holder a ?_)
      rcases hphase with hphase | hphase <;>
      · rw [show s.phase = _ from hphase]
        rfl
    · refine absurd hgen (holder a ?_)
      rw [show s.phase = _ from hphase]
      rfl
  · cases hset
    exact .of_between rfl hactive hi rfl hbounds nofun ⟨hdue, fun _ => rfl⟩ rfl
  · cases hset

/-- A decision to fire, and what it counts. -/
theorem decision_count (h : OnGrid g first i made calls s) (hi : 0 ≤ i) (hnow : Small now)
    (hsat : 0 < i → ¬Saturates s now) (hstep : ThreadStep s now s')
    (hfire : s'.phase = .firing a n) :
    a.generation = g ∧ s.timer.deadline.total ≤ now.total ∧
      s.timer.deadline.total = first + made * i ∧ (i = 0 → calls = 0) ∧
      (n : Int) = 1 + (now.total - s.timer.deadline.total) / i := by
  cases threadStep_move hstep with
  | fire timer b hactive hsame hdue =>
    cases hfire
    rcases fire_count h hi hnow hsat hsame hdue with ⟨hcopy, hle, -, hcount⟩
    rcases h.due (by simp) nofun with ⟨hdeadline, hcalls⟩
    refine ⟨hsame.symm.trans h.generation, hle, hdeadline, hcalls, ?_⟩
    rw [hcopy, Nat.cast_add, Nat.cast_one]
    exact congrArg (1 + ·) hcount
  | _ => cases hfire

/-- The points of a grid up to a time, counted from one of them. -/
theorem grid_iff {first i now : Int} {made : Nat} (hi : 0 < i)
    (hn : (n : Int) = 1 + (now - (first + made * i)) / i) (k : Nat) :
    first + k * i ≤ now ↔ k < made + n := by
  have hdiv : ((k : Int) - made) ≤ (now - (first + made * i)) / i ↔
      ((k : Int) - made) * i ≤ now - (first + made * i) := Int.le_ediv_iff_mul_le hi
  rw [Int.sub_mul] at hdiv
  constructor
  · intro hk
    have := hdiv.mpr (by omega)
    omega
  · intro hk
    have := hdiv.mp (by omega)
    omega

/-- After a decision come the callback and the next deadline. -/
theorem decision_advance {w x y : State} {t1 t2 : Timespec} (h : OnGrid g first i made calls w)
    (hi : 0 < i) (hfire : w.phase = .firing a n) (hgen : a.generation = g)
    (hcall : ThreadStep w t1 x) (hnext : ThreadStep x t2 y) :
    delivers g w = n ∧ y.timer.deadline.total = first + (made + n : Nat) * i := by
  rcases w with ⟨timer, phase⟩
  cases hfire
  have hdelivers : delivers g ⟨timer, .firing a n⟩ = n := by
    simp [delivers, hgen]
  refine ⟨hdelivers, ?_⟩
  cases hcall
  have hmade := onGrid_call h
  rw [hdelivers] at hmade
  cases threadStep_move hnext with
  | returnStale _ _ _ hother => exact absurd (h.generation.trans hgen.symm) hother
  | advance _ _ _ hsame hactive hperiodic =>
    exact (advance_total hmade hsame hi).2.trans (hmade.made_due a n rfl hgen).1
  | done _ _ _ hsame hlast =>
    have hshot := (onGrid_done hmade (Int.le_of_lt hi) hsame hlast).ended rfl
    exact absurd hshot.1 (by omega)

/-! ### Armings without an interval -/

/-- How many steps the thread is from its end, once the deadline has come. -/
def stepsLeft (g : Nat) : Phase → Nat
  | .none => 0
  | .begun => 5
  | .head => 4
  | .napping a => if a.generation = g then 4 else 6
  | .check a => if a.generation = g then 3 else 5
  | .firing a _ => if a.generation = g then 2 else 6
  | .returned a _ => if a.generation = g then 1 else 5

/-- Once the deadline has come, a thread without an interval to keep goes to its end. -/
theorem oneShot_step (h : OnGrid g first 0 made calls s) (hne : s.phase ≠ .none)
    (hnow : Small now) (hle : first ≤ now.total) :
    ∃ s', ThreadStep s now s' ∧ stepsLeft g s'.phase < stepsLeft g s.phase := by
  rcases s with ⟨timer, phase⟩
  have hactive : timer.active = true := h.active
  have hgen : timer.generation = g := h.generation
  -- Before its callback the arming is due.
  have hdue : (∀ a n, phase = .returned a n → a.generation ≠ g) → timer.early now = false := by
    intro hfrom
    have hdeadline := (h.due hne hfrom).1
    rw [Timer.early, ← not_eq_true, Timespec.subtract_positive_iff h.within hnow.within,
      hdeadline]
    omega
  have hshot : timer.interval.positive = false := by
    rw [← not_eq_true, Timespec.positive_iff h.small.1, h.interval]
    omega
  cases phase with
  | none => exact absurd rfl hne
  | begun => exact ⟨_, move_threadStep (.enter timer), by simp only [stepsLeft]; omega⟩
  | head =>
    have hearly := hdue nofun
    refine ⟨_, move_threadStep (.look timer fun _ => hearly), ?_⟩
    simp only [stepsLeft, Timer.copied, hgen, if_true]
    omega
  | napping a =>
    have hearly := hdue nofun
    refine ⟨_, move_threadStep (.wake timer a hactive fun _ => hearly), ?_⟩
    simp only [stepsLeft]
    split <;> omega
  | check a =>
    by_cases hsame : a.generation = g
    · have hearly := hdue nofun
      refine ⟨_, move_threadStep (.fire timer a hactive (hgen.trans hsame.symm) hearly), ?_⟩
      simp only [stepsLeft, hsame, if_true]
      omega
    · refine ⟨_, move_threadStep (.stale timer a hactive fun h => hsame (h.symm.trans hgen)), ?_⟩
      simp only [stepsLeft, hsame, if_false]
      omega
  | firing a n =>
    refine ⟨_, move_threadStep (.call timer a n), ?_⟩
    simp only [stepsLeft]
    split <;> omega
  | returned a n =>
    by_cases hsame : a.generation = g
    · have hlast : a.interval.positive = false := by
        rw [h.copied a rfl hsame]
        exact hshot
      refine ⟨_, move_threadStep (.done timer a n (hgen.trans hsame.symm) fun _ => hlast), ?_⟩
      simp only [stepsLeft, hsame, if_true]
      omega
    · refine ⟨_, move_threadStep (.returnStale timer a n fun h => hsame (h.symm.trans hgen)), ?_⟩
      simp only [stepsLeft, hsame, if_false]
      omega

theorem stepsLeft_le (g : Nat) (phase : Phase) : stepsLeft g phase ≤ 6 := by
  cases phase <;> simp only [stepsLeft] <;> (try split) <;> omega

/-- Once the deadline has come, the thread ends after a few steps. -/
theorem oneShot_run (ts : Nat → Timespec) (hts : ∀ k, Small (ts k) ∧ first ≤ (ts k).total)
    (h : OnGrid g first 0 made calls s) (k : Nat) :
    ∃ tr s', Run ThreadStep s tr s' ∧ tr.map (·.2) = (List.range' k tr.length).map ts ∧
      tr.length ≤ stepsLeft g s.phase ∧ s'.phase = .none := by
  induction hn : stepsLeft g s.phase using Nat.strongRecOn generalizing s made calls k with
  | ind n ih =>
  by_cases hnone : s.phase = .none
  · exact ⟨[], s, Run.nil, rfl, Nat.zero_le _, hnone⟩
  rcases oneShot_step h hnone (hts k).1 (hts k).2 with ⟨u, hstep, hless⟩
  have hnext := onGrid_step h (Int.le_refl 0) (hts k).1 (fun hpos => absurd hpos (by omega))
    (threadStep_move hstep)
  rcases ih _ (by omega) hnext (k + 1) rfl with ⟨tr, s', hrun, htimes, hlen, hend⟩
  refine ⟨(s, ts k) :: tr, s', ?_, ?_, ?_, hend⟩
  · exact run_append (Run.snoc s u (ts k) [] Run.nil hstep) hrun
  · simp only [map_cons, htimes, length_cons, List.range'_succ]
  · simp only [length_cons]
    omega

end

/-- Every run of the thread of an arming. With an interval, what the callbacks
    have been given when one is decided at `t` is the number of grid points up to
    `t`, and the deadline is then the first point after `t`. Without one there is
    one callback, not before the deadline, and it comes once the clock is there. -/
theorem timer_grid {tr₀ : List (State × Action)} {s₀ s₁ s : State} {a v i : Timespec}
    {created : Bool} {tr : List (State × Timespec)} (hbefore : Run Step timerNew tr₀ s₀)
    (hset : timerSet s₀ ⟨v, i⟩ a created = (s₁, .ok ()))
    (ha : Small a) (hv : Small v) (hvpos : 0 < v.total) (hi : Small i) (hi0 : 0 ≤ i.total)
    (hrun : Run ThreadStep s₁ tr s) (hsmall : ∀ p ∈ tr, Small p.2)
    (hsat : 0 < i.total → ∀ p ∈ tr, ¬Saturates p.1 p.2) :
    (0 < i.total → ∀ t w b n, Small t → ¬Saturates s t → ThreadStep s t w →
      w.phase = .firing b n →
      (∀ k : Nat, a.total + v.total + k * i.total ≤ t.total ↔
        k < delivered s₁.timer.generation tr + n) ∧
      ∀ t₁ t₂ x y, ThreadStep w t₁ x → ThreadStep x t₂ y →
        delivers s₁.timer.generation w = n ∧
        y.timer.deadline.total = a.total + v.total +
          (delivered s₁.timer.generation tr + n : Nat) * i.total) ∧
    (i.total = 0 →
      callbacks s₁.timer.generation tr ≤ 1 ∧
      (s.phase = .none → callbacks s₁.timer.generation tr = 1) ∧
      (∀ t w b n, Small t → ThreadStep s t w → w.phase = .firing b n →
        callbacks s₁.timer.generation tr = 0 ∧ a.total + v.total ≤ t.total) ∧
      ∀ ts : Nat → Timespec, (∀ k, Small (ts k) ∧ a.total + v.total ≤ (ts k).total) →
        ∃ tr' s', Run ThreadStep s tr' s' ∧ tr'.map (·.2) = (List.range tr'.length).map ts ∧
          tr'.length ≤ 6 ∧ s'.phase = .none ∧ callbacks s₁.timer.generation (tr ++ tr') = 1) := by
  have hstart : OnGrid s₁.timer.generation (a.total + v.total) i.total 0 0 s₁ :=
    onGrid_set (coherent_run hbefore) ha hv hvpos hi hset
  have hgrid := onGrid_run hrun hstart hi0 hsmall hsat
  constructor
  · intro hpos t w b n ht hnot hstep hfire
    rcases decision_count hgrid hi0 ht (fun _ => hnot) hstep hfire
      with ⟨hgen, -, hdeadline, -, hn⟩
    rw [hdeadline] at hn
    refine ⟨grid_iff hpos hn, fun t₁ t₂ x y hcall hnext => ?_⟩
    have hw := onGrid_step hgrid hi0 ht (fun _ => hnot) (threadStep_move hstep)
    -- A decision is not itself a callback.
    have hquiet : delivers s₁.timer.generation s = 0 := by
      cases threadStep_move hstep with
      | fire => rfl
      | _ => cases hfire
    rw [hquiet, Nat.add_zero] at hw
    exact decision_advance hw hpos hfire hgen hcall hnext
  · intro hz
    have hz' : OnGrid s₁.timer.generation (a.total + v.total) 0 (delivered _ tr)
        (callbacks _ tr) s := hz ▸ hgrid
    refine ⟨?_, fun hnone => (hgrid.ended hnone).2, fun t w b n ht hstep hfire => ?_,
      fun ts hts => ?_⟩
    · by_cases hnone : s.phase = .none
      · exact Nat.le_of_eq (hgrid.ended hnone).2
      by_cases hreturned : ∃ b n, s.phase = .returned b n ∧ b.generation = s₁.timer.generation
      · rcases hreturned with ⟨b, n, hphase, hgen⟩
        exact Nat.le_of_eq ((hgrid.made_due b n hphase hgen).2 hz)
      have hcalls := (hgrid.due hnone
        fun b n hphase hgen => hreturned ⟨b, n, hphase, hgen⟩).2 hz
      omega
    · rcases decision_count hgrid hi0 ht (fun hpos => absurd hpos (by omega)) hstep hfire
        with ⟨-, hle, hdeadline, hcalls, -⟩
      refine ⟨hcalls hz, ?_⟩
      rw [hdeadline, hz, Int.mul_zero] at hle
      omega
    · rcases oneShot_run ts hts hz' 0 with ⟨tr', s', hrun', htimes, hlen, hend⟩
      refine ⟨tr', s', hrun', ?_, hlen.trans (stepsLeft_le _ _), hend, ?_⟩
      · rw [htimes, range_eq_range']
      · have hall : ∀ p ∈ tr ++ tr', Small p.2 := by
          intro p hp
          rcases mem_append.mp hp with hp | hp
          · exact hsmall p hp
          have hmem : p.2 ∈ tr'.map (·.2) := mem_map.mpr ⟨p, hp, rfl⟩
          rw [htimes] at hmem
          rcases mem_map.mp hmem with ⟨k, -, hk⟩
          exact hk ▸ (hts k).1
        have hend' := onGrid_run (run_append hrun hrun') hstart hi0 hall
          (fun hpos => absurd hpos (by omega))
        exact (hend'.ended hend).2

/-- A timer armed at 100 seconds for half a second later and every second from
    then on. Its thread wakes at 103.7 and decides at 103.8, four points late. -/
theorem timer_grid_late :
    ∃ s₁ tr s w b, timerSet timerNew ⟨⟨0, 500000000⟩, ⟨1, 0⟩⟩ ⟨100, 0⟩ true = (s₁, .ok ()) ∧
      Run ThreadStep s₁ tr s ∧ ThreadStep s ⟨103, 800000000⟩ w ∧ w.phase = .firing b 4 ∧
      ∀ k : Nat, (100500000000 : Int) + k * 1000000000 ≤ 103800000000 ↔
        k < delivered s₁.timer.generation tr + 4 := by
  have hcomputed : (runActions threadStep
      (timerSet timerNew ⟨⟨0, 500000000⟩, ⟨1, 0⟩⟩ ⟨100, 0⟩ true).1
      [⟨100, 0⟩, ⟨100, 100000000⟩, ⟨103, 700000000⟩]).bind (fun r =>
      (threadStep r.2 ⟨103, 800000000⟩).map fun w =>
        (r.1.all (fun p => Small p.2 ∧ ¬Saturates p.1 p.2),
          decide (Saturates r.2 ⟨103, 800000000⟩), w.phase)) =
      some (true, false, .firing ⟨1, ⟨100, 500000000⟩, ⟨1, 0⟩⟩ 4) := by
    decide +kernel
  rcases Option.bind_eq_some_iff.mp hcomputed with ⟨⟨tr, s⟩, htr, hlast⟩
  rcases Option.map_eq_some_iff.mp hlast with ⟨w, hstep, hval⟩
  simp only [Prod.mk.injEq, all_eq_true, decide_eq_true_eq, decide_eq_false_iff_not] at hval
  rcases hval with ⟨hall, hnot, hfire⟩
  have hset : timerSet timerNew ⟨⟨0, 500000000⟩, ⟨1, 0⟩⟩ ⟨100, 0⟩ true =
      ((timerSet timerNew ⟨⟨0, 500000000⟩, ⟨1, 0⟩⟩ ⟨100, 0⟩ true).1, .ok ()) := rfl
  have hrun := run_of_runActions _ _ _ _ htr
  refine ⟨_, tr, s, w, _, hset, hrun, hstep, hfire, ?_⟩
  exact ((timer_grid Run.nil hset (by decide) (by decide) (by decide) (by decide) (by decide) hrun
    (fun p hp => (hall p hp).1) (fun _ p hp => (hall p hp).2)).1 (by decide) _ w _ 4 (by decide)
    hnot hstep hfire).1

/-- A timer armed at zero for the next nanosecond and every second from then
    on, whose thread first looks 9223372036.5 seconds later. All of these fit 64
    bits of nanoseconds. The count saturates one point short, and the next
    deadline is still in the past. -/
theorem timer_grid_saturates :
    ∃ s₁ tr s w b x y, timerSet timerNew ⟨⟨0, 1⟩, ⟨1, 0⟩⟩ ⟨0, 0⟩ true = (s₁, .ok ()) ∧
      Run ThreadStep s₁ tr s ∧ (∀ p ∈ tr, Small p.2) ∧ Small ⟨9223372036, 500000000⟩ ∧
      ThreadStep s ⟨9223372036, 500000000⟩ w ∧ w.phase = .firing b 9223372036 ∧
      delivered s₁.timer.generation tr = 0 ∧
      (1 : Int) + (9223372036 : Nat) * 1000000000 ≤ 9223372036500000000 ∧
      ThreadStep w ⟨9223372036, 500000000⟩ x ∧ ThreadStep x ⟨9223372036, 500000000⟩ y ∧
      y.timer.deadline.total ≤ 9223372036500000000 := by
  have hcomputed : (runActions threadStep (timerSet timerNew ⟨⟨0, 1⟩, ⟨1, 0⟩⟩ ⟨0, 0⟩ true).1
      [⟨0, 0⟩, ⟨9223372036, 500000000⟩]).bind (fun r =>
      (threadStep r.2 ⟨9223372036, 500000000⟩).bind fun w =>
      (threadStep w ⟨9223372036, 500000000⟩).bind fun x =>
      (threadStep x ⟨9223372036, 500000000⟩).map fun y =>
        (r.1.all (fun p => Small p.2), w.phase, delivered 1 r.1,
          decide (y.timer.deadline.total ≤ 9223372036500000000))) =
      some (true, .firing ⟨1, ⟨0, 1⟩, ⟨1, 0⟩⟩ 9223372036, 0, true) := by
    decide +kernel
  rcases Option.bind_eq_some_iff.mp hcomputed with ⟨⟨tr, s⟩, htr, h⟩
  rcases Option.bind_eq_some_iff.mp h with ⟨w, hw, h⟩
  rcases Option.bind_eq_some_iff.mp h with ⟨x, hx, h⟩
  rcases Option.map_eq_some_iff.mp h with ⟨y, hy, hval⟩
  simp only [Prod.mk.injEq, all_eq_true, decide_eq_true_eq] at hval
  rcases hval with ⟨hall, hfire, hnone, hlate⟩
  exact ⟨_, tr, s, w, _, x, y, rfl, run_of_runActions _ _ _ _ htr, hall, by decide, hw, hfire,
    hnone, by decide, hx, hy, hlate⟩

end IshAok.Timers
