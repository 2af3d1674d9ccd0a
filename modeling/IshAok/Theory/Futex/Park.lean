import IshAok.Theory.Futex.Wake

/-!
# A Wake While a Wait is Parked

A wait that a signal interrupts leaves its queue and keeps the object pinned,
with the wake counter as it was. When it restarts, a counter that has moved on is
taken for a wake that it missed.

The object outlives the window, because the park holds a reference on it. In the
window its counter is advanced by every `futexWakelike` on its key and by nothing
else, so the restart sees the number of these modulo the size of the counter. The
other operations that wake, `futexWakeOp` and `futexCmpRequeue`, go unseen.

## Main definitions

* `SeqIs`: An object with its key and its counter.
* `advances`, `wakes`: The steps that advance the counter of a key.

## Theorems

* `seqIs_wakelike`: What `futexWakelike` does to the counters.
* `parked_run`: A park and its counter over a window.
* `restart_returns_at_once_iff`: When a restarted wait returns at once.
* `wake_op_missed`: A wake that a restarted wait does not see.
-/

namespace IshAok.Futex

open Base List Option

variable {K T : Type}

/-- An object, as long as it is there, has this key and this counter. -/
def SeqIs (id : Nat) (key : K) (c : Nat) (s : State K T) : Prop :=
  Wf s ∧ id < s.next ∧ ∀ o, s.getObj id = some o → o.key = key ∧ o.wakeSeq = c

variable {id c : Nat} {s : State K T} {r : Option Result} {t : T} {p : Park K}

variable {key : K} {s' u v : State K T}

theorem seqIs_same (h : SeqIs id key c s) (hobjs : s'.objs = s.objs)
    (hnext : s'.next = s.next) : SeqIs id key c s' := by
  rcases h with ⟨hwf, hlt, hobj⟩
  refine ⟨⟨by rw [hobjs]; exact hwf.ids, by rw [hobjs]; exact hwf.keys,
    by rw [hobjs, hnext]; exact hwf.bound⟩, by rw [hnext]; exact hlt, fun o ho => hobj o ?_⟩
  unfold State.getObj at ho ⊢
  rw [← hobjs]
  exact ho

theorem seqIs_modifyObj {d : Nat} (h : SeqIs id key c s) (i : Nat)
    (f : FutexObj K T → FutexObj K T) (hf : Keeps f)
    (hd : i = id → ∀ o, o.wakeSeq = c → (f o).wakeSeq = d) (hne : i ≠ id → d = c) :
    SeqIs id key d (s.modifyObj i f) := by
  rcases h with ⟨hwf, hlt, hobj⟩
  refine ⟨wf_modifyObj hwf i f hf, hlt, fun o ho => ?_⟩
  rw [getObj_modifyObj s i id f hf] at ho
  by_cases hi : id = i
  · rw [if_pos hi] at ho
    rcases map_eq_some_iff.mp ho with ⟨p, hp, rfl⟩
    rcases hobj p hp with ⟨hkey, hseq⟩
    exact ⟨(hf p).2.trans hkey, hd hi.symm p hseq⟩
  · rw [if_neg hi] at ho
    rw [hne (fun heq => hi heq.symm)]
    exact hobj o ho

theorem seqIs_bump (h : SeqIs id key c s) (i : Nat) :
    SeqIs id key (if i = id then (c + 1) % 2 ^ 64 else c) (bumpSeq s i) := by
  refine seqIs_modifyObj h i _ (fun _ => ⟨rfl, rfl⟩) (fun hi o ho => ?_) fun hi => if_neg hi
  rw [if_pos hi, ← ho]

theorem putBoth_result [DecidableEq T] {id2 : Nat} {r : Result}
    {r' : Option Result} (h : putBoth s id2 id r = some (v, r')) : r' = some r := by
  unfold putBoth at h
  split at h
  · cases h
  · exact putAndReturn_result h

theorem futexLoad_congr (hmem : s'.mem = s.mem) (hacc : s'.access = s.access)
    (t : T) (key : K) : futexLoad s' t key = futexLoad s t key := by
  unfold futexLoad
  rw [hmem, hacc]

variable [DecidableEq K] [DecidableEq T]

/-- No small change touches a counter. -/
theorem closed_seqIs (u : T) (id : Nat) (key : K) (c : Nat) :
    Closed u (SeqIs (T := T) id key c) where
  object s i f hf h := by
    exact seqIs_modifyObj h i f (fun o => ⟨(hf o).1, (hf o).2.1⟩)
      (fun _ o ho => (hf o).2.2.trans ho) fun _ => rfl
  remove s i h := by
    rcases h with ⟨hwf, hlt, hobj⟩
    refine ⟨wf_removeObj hwf i, hlt, fun o ho => hobj o ?_⟩
    rw [getObj_removeObj] at ho
    split at ho
    · cases ho
    · exact ho
  fresh s k hfind h := by
    rcases h with ⟨hwf, hlt, hobj⟩
    refine ⟨wf_cons hwf _ rfl hfind, Nat.lt_succ_of_lt hlt, fun o ho => hobj o ?_⟩
    -- The new object has another identity.
    have hne : id ≠ s.next := Nat.ne_of_lt hlt
    exact (((getObj_cons s _ _ id).trans (if_neg hne)).symm.trans ho)
  own _ _ _ h := seqIs_same h rfl rfl
  unlink _ _ h := seqIs_same h rfl rfl
  move _ _ _ h := seqIs_same h rfl rfl
  handOver _ _ h := seqIs_same h rfl rfl
  store _ _ _ h := seqIs_same h rfl rfl
  access _ _ h := seqIs_same h rfl rfl

/-- A call of `futexWakelike` advances the counter of its key, unless it fails for
    want of memory. -/
theorem seqIs_wakelike (u : T) (h : SeqIs id key c s) (hex : ∃ o, s.getObj id = some o) {k : K}
    {wakeMax : Nat} {wakeMask : BitVec 32} {requeue : Option (K × Nat)} {malloc malloc2 : Bool}
    (hexec : futexWakelike s k wakeMax wakeMask requeue malloc malloc2 = some (s', r)) :
    SeqIs id key (if k = key ∧ r ≠ some (.error .enomem) then (c + 1) % 2 ^ 64 else c) s' := by
  rcases hex with ⟨o, ho⟩
  have hokey := (h.2.2 o ho).1
  -- The object that the call works on is ours exactly if the key is.
  have hsame : ∀ s₁ i, futexGetUnlocked s k malloc = (s₁, some i) → (i = id ↔ k = key) := by
    intro s₁ i hget
    constructor
    · rintro rfl
      rcases futexGetUnlocked_key h.1 hget with ⟨o₁, ho₁, hkey₁⟩
      exact hkey₁.symm.trans ((closed_get (closed_seqIs u i key c).calm h hget).2.2 o₁ ho₁).1
    · intro hk
      rw [hk, ← hokey, futexGetUnlocked_of_getObj h.1 ho] at hget
      simp only [Prod.mk.injEq, some.injEq] at hget
      exact hget.2.symm
  unfold futexWakelike at hexec
  split at hexec
  · next s₁ hget =>
    -- Without the object: then it is not ours.
    have hk : k ≠ key := by
      intro hk
      rw [hk, ← hokey, futexGetUnlocked_of_getObj h.1 ho] at hget
      cases hget
    simp only [some.injEq, Prod.mk.injEq] at hexec
    rw [if_neg (fun hand => hk hand.1), ← hexec.1]
    exact closed_get (closed_seqIs u id key c).calm h hget
  · next s₁ i hget =>
    have h₁ := closed_get (closed_seqIs u id key c).calm h hget
    have hiff := hsame s₁ i hget
    have hcount : ∀ n, r = some (.value n) →
        (if k = key ∧ r ≠ some (.error .enomem) then (c + 1) % 2 ^ 64 else c) =
          if i = id then (c + 1) % 2 ^ 64 else c := by
      intro n hr
      simp [hr, hiff]
    split at hexec
    · split at hexec
      · cases hexec
      next s₂ n hwake =>
      rw [hcount n (putAndReturn_result hexec)]
      have hclosed := closed_seqIs u id key (if i = id then (c + 1) % 2 ^ 64 else c)
      exact post_putAndReturn hclosed.calm
        (closed_wakeWaiters hclosed.calm (seqIs_bump h₁ i) hwake) _ _ s' r hexec
    · split at hexec
      · next s₂ hget2 =>
        have hr := putAndReturn_result hexec
        rw [if_neg (fun hand => hand.2 hr)]
        have hclosed := closed_seqIs u id key c
        exact post_putAndReturn hclosed.calm (closed_get hclosed.calm h₁ hget2) _ _ s' r hexec
      · next s₂ id2 hget2 =>
        have h₂ := closed_get (closed_seqIs u id key c).calm h₁ hget2
        split at hexec
        · cases hexec
        next s₃ n hwake =>
        have hclosed := closed_seqIs u id key (if i = id then (c + 1) % 2 ^ 64 else c)
        have h₃ := closed_wakeWaiters hclosed.calm (seqIs_bump h₂ i) hwake
        split at hexec
        · cases hexec
        next s₄ m hmove =>
        rw [hcount (n + m) (putBoth_result hexec)]
        exact post_putBoth hclosed.calm (closed_requeueWaiters hclosed.calm h₃ hmove) _ _ _ s' r
          hexec

/-- A step that advances the counter of a key. -/
def advances (key : K) (e : Action K T × Option Result) : Bool :=
  match e.1 with
  | .wakelike _ k _ _ _ _ _ => decide (k = key ∧ e.2 ≠ some (.error .enomem))
  | _ => false

/-- How often a run advances the counter of a key. -/
def wakes (key : K) (tr : List (State K T × (Action K T × Option Result))) : Nat :=
  tr.countP fun x => advances key x.2

/-- What a task has parked is its own. -/
theorem closed_park (t : T) (p : Option (Park K)) :
    Closed t (fun s : State K T => (s.tasks t).park = p) where
  object _ _ _ _ h := h
  remove _ _ h := h
  fresh _ _ _ h := h
  own s f hf h := by
    simp only [State.modifyTask, Function.update_self]
    exact (hf _).trans h
  unlink s ts h := (untouched_modifyWaits t s ts (fun w => { w with linked := false })
    (fun _ => ⟨rfl, rfl, rfl, rfl, fun _ => rfl⟩)).park.trans h
  move s ts target h := (untouched_modifyWaits t s ts (fun w => { w with futex := target })
    (fun _ => ⟨rfl, rfl, rfl, rfl, fun hl => hl⟩)).park.trans h
  handOver s x h := (untouched_handOver t x s).park.trans h
  store _ _ _ h := h
  access _ _ h := h

/-- Counters stay below the size of their type. -/
theorem closed_seqBound (u : T) :
    Closed u (fun s : State K T => ∀ o ∈ s.objs, o.wakeSeq < 2 ^ 64) where
  object s id f hf h o ho := by
    rcases mem_map.mp ho with ⟨q, hq, rfl⟩
    split
    · rw [(hf q).2.2]; exact h q hq
    · exact h q hq
  remove _ _ h o ho := h o (mem_filter.mp ho).1
  fresh _ _ _ h o ho := by
    rcases mem_cons.mp ho with rfl | ho
    · exact Nat.two_pow_pos 64
    · exact h o ho
  own _ _ _ h := h
  unlink _ _ h := h
  move _ _ _ h := h
  handOver _ _ h := h
  store _ _ _ h := h
  access _ _ h := h

omit [DecidableEq K] in
/-- The end of a wait that looks at the word: it sleeps if the word is as expected. -/
theorem waitQueue_result {val bitset : BitVec 32}
    (h : futexWaitQueue s t id key val bitset = some (v, r)) :
    r ≠ none ↔ futexLoad s t key ≠ some val := by
  unfold futexWaitQueue at h
  split at h
  · next hload =>
    rw [putAndReturn_result h, hload]
    simp
  · next word hload =>
    rw [hload]
    split at h
    · next hne =>
      rw [putAndReturn_result h]
      simp [hne]
    · next heq =>
      simp only [some.injEq, Prod.mk.injEq] at h
      rw [← h.2]
      simp only [ne_eq, not_true_eq_false, some.injEq, false_iff]
      exact heq

omit [DecidableEq K] in
theorem futexClearRestartPark_load (h : futexClearRestartPark s t = some s')
    (key : K) : futexLoad s' t key = futexLoad s t key := by
  unfold futexClearRestartPark at h
  split at h
  · rw [some.inj h]
  split at h
  · cases h
  next s₁ hput =>
  have hframe := futexPutUnlocked_frame hput
  cases h
  exact futexLoad_congr hframe.mem hframe.access t key

/-- The restart of a parked wait: it returns at once if the counter has moved, or if
    a new wait on the word would. -/
theorem restart_result (hp : (s.tasks t).park = some p) (hseq : SeqIs p.futex key c s)
    {o : FutexObj K T} (ho : s.getObj p.futex = some o) {k : K} {val bitset : BitVec 32}
    {malloc : Bool} (h : futexWaitMasked s t k val bitset malloc = some (v, r)) :
    r ≠ none ↔ (key = k ∧ c ≠ p.seq) ∨ futexLoad s t k ≠ some val ∨
      (futexGetUnlocked s k malloc).2 = none := by
  have hokey := (hseq.2.2 o ho).1
  have hload := fun b => futexLoad_congr (futexGetUnlocked_frame s k b).mem
    (futexGetUnlocked_frame s k b).access t k
  unfold futexWaitMasked at h
  split at h
  · next s₁ hget =>
    simp only [some.injEq, Prod.mk.injEq] at h
    rw [← h.2, hget]
    simp
  · next s₁ id hget =>
    have hload₁ : futexLoad s₁ t k = futexLoad s t k := by
      have := hload malloc
      rw [hget] at this
      exact this
    have hseq₁ := closed_get (closed_seqIs t p.futex key c).calm hseq hget
    have hp₁ : (s₁.tasks t).park = some p := by
      have := (futexGetUnlocked_frame s k malloc).tasks
      rw [hget] at this
      rw [this]
      exact hp
    have hnone : ¬ (futexGetUnlocked s k malloc).2 = none := by
      rw [hget]
      simp
    simp only [hp₁] at h
    by_cases hsame : p.futex = id
    · -- The same object: the keys agree, and the counter decides.
      have hkey : key = k := by
        rcases futexGetUnlocked_key hseq.1 hget with ⟨o₁, ho₁, hkey₁⟩
        rw [← hsame] at ho₁
        exact (hseq₁.2.2 o₁ ho₁).1.symm.trans hkey₁
      rw [if_pos hsame] at h
      split at h
      · cases h
      next s₂ hput =>
      have hframe := futexPutUnlocked_frame hput
      have hload₂ : futexLoad (s₂.setPark t none) t k = futexLoad s t k :=
        (futexLoad_congr hframe.mem hframe.access t k).trans hload₁
      have hseq₂ := closed_put (closed_seqIs t p.futex key c).calm hseq₁ hput
      split at h
      · cases h
      next o₂ ho₂ =>
      rw [← hsame] at ho₂
      rw [(hseq₂.2.2 o₂ ho₂).2] at h
      split at h
      · next hne =>
        rw [putAndReturn_result h]
        simp [hkey, hne]
      · next heq =>
        rw [waitQueue_result h, hload₂]
        simp [hkey, heq, hnone]
    · have hkey : key ≠ k := by
        intro hkey
        rw [← hkey, ← hokey, futexGetUnlocked_of_getObj hseq.1 ho] at hget
        simp only [Prod.mk.injEq, some.injEq] at hget
        exact hsame hget.2
      rw [if_neg hsame] at h
      split at h
      · cases h
      next s₂ hclear =>
      rw [waitQueue_result h, futexClearRestartPark_load hclear, hload₁]
      simp [hkey, hnone]

variable [Fintype T] (ids : Tids T)

theorem seqIs_step (t : T)
    {e : Action K T × Option Result} (h : SeqIs id key c s) (hex : ∃ o, s.getObj id = some o)
    (hstep : Step ids s e u) : SeqIs id key (if advances key e then (c + 1) % 2 ^ 64 else c) u := by
  rcases e with ⟨a, r⟩
  have hexec := hstep.2
  cases ha : actor a with
  | none =>
    cases a with
    | store k val =>
      simp only [exec, some.injEq, Prod.mk.injEq] at hexec
      rw [← hexec.1]
      exact seqIs_same h rfl rfl
    | _ => cases ha
  | some x =>
    by_cases hw : ∃ y k max mask requeue b d, a = .wakelike y k max mask requeue b d
    · rcases hw with ⟨y, k, max, mask, requeue, b, d, rfl⟩
      simp only [advances, decide_eq_true_eq]
      exact seqIs_wakelike t h hex hexec
    · have hno : advances key (a, r) = false := by
        cases a with
        | wakelike y k max mask requeue b d => exact absurd ⟨y, k, max, mask, requeue, b, d, rfl⟩ hw
        | _ => rfl
      rw [hno]
      exact closed_exec ids (closed_seqIs x id key c) ha
        (fun y k max mask requeue b d heq => absurd ⟨y, k, max, mask, requeue, b, d, heq⟩ hw)
        (fun _ _ _ h => seqIs_same h rfl rfl) h hexec

theorem park_step {p : Option (Park K)} {e : Action K T × Option Result}
    (h : (s.tasks t).park = p) (hkept : actor e.1 = some t → movesPark e.1 = false)
    (hstep : Step ids s e u) : (u.tasks t).park = p := by
  by_cases ht : actor e.1 = some t
  · refine closed_exec ids (closed_park t p) ht (fun _ _ _ _ _ _ _ _ _ _ h => h) (fun hm => ?_) h
      hstep.2
    rw [hkept ht] at hm
    cases hm
  · exact (untouched_exec ids hstep.2 ht).park.trans h

omit [DecidableEq K] [DecidableEq T] in
theorem getObj_of_parked {extra : Nat → Nat} (h : Inv s extra) (hp : (s.tasks t).park = some p) :
    ∃ o, s.getObj p.futex = some o := by
  have hpos : 0 < taskRefs (s.tasks t) p.futex := by
    simp only [taskRefs, hp, parkRefs, if_true]
    omega
  rcases getObj_of_refs h p.futex (Nat.add_pos_left (refs_pos _ t hpos) _) with ⟨o, ho, _⟩
  exact ⟨o, ho⟩

/-- Over a window in which the task leaves its park alone, the counter of the object
    is what it was and the number of wakes since. -/
theorem parked_run {tr : List (State K T × (Action K T × Option Result))}
    (hrun : Run (Step ids) s tr u) (hinv : Inv s 0) (hp : (s.tasks t).park = some p)
    (hseq : SeqIs p.futex key c s) (hc : c < 2 ^ 64)
    (hkept : ∀ x ∈ tr, actor x.2.1 = some t → movesPark x.2.1 = false) :
    Inv u 0 ∧ (u.tasks t).park = some p ∧ SeqIs p.futex key ((c + wakes key tr) % 2 ^ 64) u := by
  induction hrun with
  | nil =>
    refine ⟨hinv, hp, ?_⟩
    simp only [wakes, countP_nil, Nat.add_zero, Nat.mod_eq_of_lt hc]
    exact hseq
  | snoc v w e tr _ hstep ih =>
    have hkept' := fun x hx => hkept x (mem_append_left _ hx)
    rcases ih hkept' with ⟨hinv', hp', hseq'⟩
    have hlast := hkept (v, e) (mem_append_right _ (mem_singleton_self _))
    refine ⟨inv_step ids hinv' hstep, park_step ids hp' hlast hstep, ?_⟩
    have hnext := seqIs_step ids t hseq' (getObj_of_parked hinv' hp') hstep
    have hcount : wakes key (tr ++ [(v, e)]) = wakes key tr + if advances key e then 1 else 0 := by
      simp [wakes]
    rw [hcount]
    split at hnext
    · next hadv =>
      rw [if_pos hadv, ← Nat.add_assoc]
      rw [Nat.mod_add_mod] at hnext
      exact hnext
    · next hadv =>
      rw [if_neg hadv, Nat.add_zero]
      exact hnext

theorem seqBound_run {tr : List (State K T × (Action K T × Option Result))} (hinit : Initial s)
    (hrun : Run (Step ids) s tr u) : ∀ o ∈ u.objs, o.wakeSeq < 2 ^ 64 := by
  refine run_invariant (fun s : State K T => ∀ o ∈ s.objs, o.wakeSeq < 2 ^ 64) hrun ?_ ?_
  · rw [hinit.objs]
    exact fun o ho => absurd ho not_mem_nil
  · rintro v ⟨a, r⟩ w _ h ⟨_, hexec⟩
    cases ha : actor a with
    | none =>
      cases a with
      | store k val =>
        simp only [exec, some.injEq, Prod.mk.injEq] at hexec
        rw [← hexec.1]
        exact h
      | _ => cases ha
    | some x =>
      refine closed_exec ids (closed_seqBound x) ha (fun _ _ _ _ _ _ _ _ v id h o ho => ?_)
        (fun _ _ _ h => h) h hexec
      rcases mem_map.mp ho with ⟨q, hq, rfl⟩
      split
      · exact Nat.mod_lt _ (Nat.two_pow_pos 64)
      · exact h q hq

/-- What an interrupted wait leaves behind. -/
theorem waitResume_eintr {s₁ : State K T} {b : Bool} {w : Wait K}
    (hw : (s.tasks t).phase = .waiting w)
    (hstep : Step ids s (.waitResume t b, some (.error .eintr)) s₁) :
    ∃ o, s₁.getObj w.futex = some o ∧
      (s₁.tasks t).park = some { futex := w.futex, key := w.key, seq := o.wakeSeq } := by
  have hpark : ∀ {v : State K T}, futexWaitPark s t w = some (v, some (.error .eintr)) →
      ∃ o, v.getObj w.futex = some o ∧
        (v.tasks t).park = some { futex := w.futex, key := w.key, seq := o.wakeSeq } := by
    intro v h
    unfold futexWaitPark at h
    split at h
    · cases h
    next o ho =>
    cases h
    refine ⟨{ o with queue := o.queue.erase t }, ?_, ?_⟩
    · have hgets := getObj_modifyObj s w.futex w.futex
        (fun o => { o with queue := o.queue.erase t }) fun _ => ⟨rfl, rfl⟩
      rw [if_pos rfl, ho, map_some] at hgets
      exact hgets
    · simp [State.setPark, State.modifyTask]
  have hleave : ∀ {v : State K T} {r : Result},
      futexWaitLeave s t w r = some (v, some (.error .eintr)) → r = .error .eintr := by
    intro v r h
    exact (some.inj (putAndReturn_result h)).symm
  have hexec := hstep.2
  simp only [exec, futexWaitResume, hw] at hexec
  split at hexec
  · exact hpark hexec
  split at hexec
  · exact absurd (hleave hexec) (by simp)
  split at hexec
  · split at hexec
    · exact hpark hexec
    · exact absurd (hleave hexec) (by simp [Result.error.injEq])
  · cases hexec

/-- A wait is interrupted and parked, and its task leaves the park alone until it
    restarts the wait. The restart returns at once exactly if the object that it
    parked on is the one of its word and has seen a number of wakes that the counter
    can tell, or if a new wait on the word would return at once. -/
theorem restart_returns_at_once_iff (ids : Tids T) {s₀ s s₁ u : State K T}
    {tr tr' : List (State K T × (Action K T × Option Result))} (hinit : Initial s₀)
    (hrun : Run (Step ids) s₀ tr s) {t : T} {b : Bool} {w : Wait K}
    (hw : (s.tasks t).phase = .waiting w)
    (hpark : Step ids s (.waitResume t b, some (.error .eintr)) s₁)
    (hrest : Run (Step ids) s₁ tr' u)
    (hkept : ∀ x ∈ tr', actor x.2.1 = some t → movesPark x.2.1 = false)
    (hready : isRunning (u.tasks t)) (val bitset : BitVec 32) (malloc : Bool) :
    ∃ o, s₁.getObj w.futex = some o ∧
      (∃ r v, Step ids u (.wait t w.key val bitset malloc, r) v) ∧
      ∀ r v, Step ids u (.wait t w.key val bitset malloc, r) v →
        (r ≠ none ↔ (o.key = w.key ∧ wakes o.key tr' % 2 ^ 64 ≠ 0) ∨
          futexLoad u t w.key ≠ some val ∨ (futexGetUnlocked u w.key malloc).2 = none) := by
  rcases waitResume_eintr ids hw hpark with ⟨o, ho, hp⟩
  have hrun₁ := Run.snoc s s₁ _ tr hrun hpark
  have hinv₁ := inv_run ids hinit hrun₁
  have hbound : o.wakeSeq < 2 ^ 64 := seqBound_run ids hinit hrun₁ o (getObj_mem ho)
  have hseq₁ : SeqIs w.futex o.key o.wakeSeq s₁ := by
    refine ⟨hinv₁.wf, ?_, fun q hq => ?_⟩
    · have hlt := hinv₁.wf.bound o (getObj_mem ho)
      rw [getObj_id ho] at hlt
      exact hlt
    · rw [← some.inj (ho.symm.trans hq)]
      exact ⟨rfl, rfl⟩
  rcases parked_run ids hrest hinv₁ hp hseq₁ hbound hkept with ⟨hinv, hp', hseq⟩
  rcases getObj_of_parked hinv hp' with ⟨o', ho'⟩
  refine ⟨o, ho, ?_, fun r v hstep => ?_⟩
  · rcases safe_exec ids hinv (.wait t w.key val bitset malloc) hready with ⟨v, r, hexec, _⟩
    exact ⟨r, v, hready, hexec⟩
  · have hiff := restart_result hp' hseq ho' hstep.2
    have hmoved : (o.wakeSeq + wakes o.key tr') % 2 ^ 64 ≠ o.wakeSeq ↔
        wakes o.key tr' % 2 ^ 64 ≠ 0 := by omega
    rw [hmoved] at hiff
    exact hiff

/-- A wake in the window is seen by the restart. -/
theorem restart_returns_at_once_iff_wake :
    ∃ (u v : State Bool Bool) (r : Option Result), futexLoad u false false = some 0 ∧
      Step pairTids u (.wait false false 0 1 true, r) v ∧ r ≠ none := by
  have h0 := Run.start (Step pairTids) pairStart
  have h1 := h0.next (.wait false false 0 1 true, none) ⟨⟨rfl, rfl⟩, rfl⟩
  have h2 := h1.next (.waitResume false false, none) ⟨⟨_, rfl⟩, rfl⟩
  have h3 := h2.next (.signal false true, none) ⟨trivial, rfl⟩
  have hres := restart_returns_at_once_iff pairTids pairStart_initial h3 (t := false)
    (b := false) rfl ⟨⟨_, rfl⟩, rfl⟩
    (Run.snoc _ _ (Action.wakelike true false 1 1 none true true, some (Result.value 0)) _
      Run.nil ⟨rfl, rfl⟩)
    (fun x hx => by
      rw [nil_append, mem_singleton] at hx
      rw [hx]
      exact fun _ => rfl)
    ⟨rfl, rfl⟩ 0 1 true
  rcases hres with ⟨o, ho, ⟨r, v, hstep⟩, hiff⟩
  refine ⟨_, v, r, ?_, hstep, (hiff r v hstep).mpr (.inl ?_)⟩
  · rfl
  · cases ho
    exact ⟨rfl, by decide⟩

/-- A wake that a restarted wait does not see: `FUTEX_WAKE_OP` on the word of a
    parked wait, which then goes to sleep again. -/
theorem wake_op_missed :
    ∃ (tr : List (State Bool Bool × (Action Bool Bool × Option Result))) (u : State Bool Bool),
      Run (Step pairTids) pairStart tr u ∧
      tr.map Prod.snd = [(.wait false false 0 1 true, none), (.waitResume false false, none),
          (.signal false true, none), (.waitResume false false, some (.error .eintr)),
          (.wakeOp true false true 1 0 0 true true, some (.value 0)),
          (.signal false false, none), (.wait false false 0 1 true, none),
          (.waitResume false false, none)] ∧
      linked (u.tasks false).phase = true := by
  have h0 := Run.start (Step pairTids) pairStart
  have h1 := h0.next (.wait false false 0 1 true, none) ⟨⟨rfl, rfl⟩, rfl⟩
  have h2 := h1.next (.waitResume false false, none) ⟨⟨_, rfl⟩, rfl⟩
  have h3 := h2.next (.signal false true, none) ⟨trivial, rfl⟩
  have h4 := h3.next (.waitResume false false, some (.error .eintr)) ⟨⟨_, rfl⟩, rfl⟩
  have h5 := h4.next (.wakeOp true false true 1 0 0 true true, some (.value 0)) ⟨⟨rfl, rfl⟩, rfl⟩
  have h6 := h5.next (.signal false false, none) ⟨trivial, rfl⟩
  have h7 := h6.next (.wait false false 0 1 true, none) ⟨⟨rfl, rfl⟩, rfl⟩
  have h8 := h7.next (.waitResume false false, none) ⟨⟨_, rfl⟩, rfl⟩
  exact ⟨_, _, h8, rfl, rfl⟩

end IshAok.Futex
