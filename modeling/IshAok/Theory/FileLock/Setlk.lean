import IshAok.Base.Run
import IshAok.Theory.FileLock.Place

/-!
# Record Locks Are a Byte Map

`fcntl_setlk` against what POSIX asks of it. The abstract side is a map from
an owner and a byte to a lock type, and `PosixBytes` says which bytes a
`struct flock` names, in integers that do not wrap.

The range checks follow Linux, and Linux looks at `base + l_start` before it
looks at `l_len`. A request with a negative length whose start is one past
the last offset is therefore refused although every byte it names exists.
`RangeFits` is the exact condition: the start and all the bytes are offsets.

## Main definitions

* `IsOffset`: An integer that is a file offset.
* `PosixBytes`: The bytes a request names.
* `RangeFits`: The requests whose range is accepted.
* `Blocks`: A held type that excludes a requested one.
* `SetlkSpec`: What an attempt at a lock does to the byte map.

## Theorems

* `flockRange_ok`, `flockRange_error`: The range checks against `RangeFits`.
* `fcntlSetlk_cases`: What an attempt does.
* `lockStep_kept`, `run_kept`: The invariant along every run.
* `setlk_refines_byte_map`: Every reachable list implements the byte map.
* `start_past_end_refused`: A range inside the file that is refused.
* `locks_exclusive`: Write locks exclude.
-/

namespace IshAok.FileLock

open Base

/-- The offsets of a file. -/
def IsOffset (x : Int) : Prop :=
  0 ≤ x ∧ x ≤ offTMax

instance (x : Int) : Decidable (IsOffset x) :=
  inferInstanceAs (Decidable (_ ∧ _))

/-- The bytes POSIX gives to a base, a start and a length: forward for a
    positive length, to the last offset for zero, and the bytes before the
    start for a negative one. -/
def PosixBytes (base start len b : Int) : Prop :=
  if len > 0 then base + start ≤ b ∧ b < base + start + len
  else if len < 0 then base + start + len ≤ b ∧ b < base + start
  else base + start ≤ b ∧ b ≤ offTMax

instance (base start len b : Int) : Decidable (PosixBytes base start len b) :=
  inferInstanceAs (Decidable (if len > 0 then _ ∧ _ else if len < 0 then _ ∧ _ else _ ∧ _))

/-- The start and every byte named are offsets. -/
def RangeFits (base start len : Int) : Prop :=
  IsOffset (base + start) ∧ ∀ b, PosixBytes base start len b → IsOffset b

/-- A type another owner holds that a request of type `t` has to wait for. -/
def Blocks (held t : LockType) : Prop :=
  t ≠ .unlck ∧ held ≠ .unlck ∧ (held = .wrlck ∨ t = .wrlck)

instance (held t : LockType) : Decidable (Blocks held t) :=
  inferInstanceAs (Decidable (_ ∧ _))

theorem flockRange_ok (base start len s l : Int) (hbase : IsOffset base)
    (hstart : -2 ^ 63 ≤ start) (hlen : -2 ^ 63 ≤ len ∧ len < 2 ^ 63)
    (h : flockRange base start len = .ok (s, l)) :
    RangeFits base start len ∧ 0 ≤ s ∧ s ≤ l ∧ l ≤ offTMax ∧
      ∀ b, (s ≤ b ∧ b ≤ l) ↔ PosixBytes base start len b := by
  unfold flockRange at h
  unfold RangeFits PosixBytes IsOffset at *
  unfold offTMax offT at *
  split at h
  · cases h
  simp only [] at h
  split at h
  · cases h
  split at h
  · split at h
    · cases h
    · simp only [Except.ok.injEq, Prod.mk.injEq] at h
      simp only [if_pos (show len > 0 by assumption)]
      exact ⟨⟨by omega, fun b => by omega⟩, by omega, by omega, by omega, fun b => by omega⟩
  · split at h
    · split at h
      · cases h
      · simp only [Except.ok.injEq, Prod.mk.injEq] at h
        simp only [if_neg (show ¬ len > 0 by assumption), if_pos (show len < 0 by assumption)]
        exact ⟨⟨by omega, fun b => by omega⟩, by omega, by omega, by omega, fun b => by omega⟩
    · simp only [Except.ok.injEq, Prod.mk.injEq] at h
      simp only [if_neg (show ¬ len > 0 by assumption), if_neg (show ¬ len < 0 by assumption)]
      exact ⟨⟨by omega, fun b => by omega⟩, by omega, by omega, by omega, fun b => by omega⟩

theorem flockRange_error (base start len : Int) (e : Errno) (hbase : IsOffset base)
    (hstart : -2 ^ 63 ≤ start) (hlen : -2 ^ 63 ≤ len ∧ len < 2 ^ 63)
    (h : flockRange base start len = .error e) :
    (e = .einval ∨ e = .eoverflow) ∧ ¬ RangeFits base start len := by
  unfold flockRange at h
  unfold IsOffset offTMax at hbase
  unfold offTMax offT at h
  by_cases h1 : start > 2 ^ 63 - 1 - base
  · rw [if_pos h1, Except.error.injEq] at h
    refine ⟨.inr h.symm, fun hf => ?_⟩
    have := hf.1.2
    unfold offTMax at this
    omega
  rw [if_neg h1] at h
  by_cases h2 : (base + start + 2 ^ 63) % 2 ^ 64 - 2 ^ 63 < 0
  · rw [if_pos h2, Except.error.injEq] at h
    refine ⟨.inl h.symm, fun hf => ?_⟩
    have := hf.1.1
    omega
  rw [if_neg h2] at h
  by_cases h3 : len > 0
  · rw [if_pos h3] at h
    split at h
    · -- The last byte named is past the last offset.
      rw [Except.error.injEq] at h
      refine ⟨.inr h.symm, fun hf => ?_⟩
      have := (hf.2 (base + start + len - 1) (by unfold PosixBytes; rw [if_pos h3]; omega)).2
      unfold offTMax at this
      omega
    · cases h
  rw [if_neg h3] at h
  by_cases h4 : len < 0
  · rw [if_pos h4] at h
    split at h
    · -- The first byte named is below zero.
      rw [Except.error.injEq] at h
      refine ⟨.inl h.symm, fun hf => ?_⟩
      have := (hf.2 (base + start + len)
        (by unfold PosixBytes; rw [if_neg h3, if_pos h4]; omega)).1
      omega
    · cases h
  · rw [if_neg h4] at h
    cases h

variable {Owner : Type}

/-- The bytes a call names, counted from the given base. -/
def SetlkCall.Bytes (call : SetlkCall Owner) (base : Fin (2 ^ 63)) (b : Int) : Prop :=
  PosixBytes base call.flock.start.toInt call.flock.len.toInt b

instance (call : SetlkCall Owner) (base : Fin (2 ^ 63)) (b : Int) : Decidable (call.Bytes base b) :=
  inferInstanceAs (Decidable (PosixBytes _ _ _ _))

/-- The range a call names is accepted. -/
def SetlkCall.Fits (call : SetlkCall Owner) (base : Fin (2 ^ 63)) : Prop :=
  RangeFits base call.flock.start.toInt call.flock.len.toInt

/-- The checks `fcntl_setlk` makes before it looks at the range: the type is
    known, the file was opened for it, there is an inode, and the base of the
    range is known. -/
structure SetlkCall.Proper (call : SetlkCall Owner) (type : LockType) (base : Fin (2 ^ 63)) :
    Prop where
  type_eq : lockTypeOf call.flock.type = some type
  mode : modeAllows call.fd.accMode type
  inode : call.fd.hasInode = true
  base_eq : flockBase call.fd call.flock.whence = .ok base

theorem fileLockFromFlock_cases (call : SetlkCall Owner) (type : LockType) (base : Fin (2 ^ 63))
    (hbase : flockBase call.fd call.flock.whence = .ok base) :
    (∃ e, fileLockFromFlock call.fd call.flock type call.owner = .error e ∧
      (e = .einval ∨ e = .eoverflow) ∧ ¬ call.Fits base) ∨
    (∃ q : Lock Owner, fileLockFromFlock call.fd call.flock type call.owner = .ok q ∧
      q.type = type ∧ q.owner = call.owner ∧ q.Valid ∧ call.Fits base ∧
      ∀ b, q.Covers b ↔ call.Bytes base b) := by
  have hb : IsOffset base := by
    unfold IsOffset offTMax
    omega
  have hs : -2 ^ 63 ≤ call.flock.start.toInt := Int64.le_toInt _
  have hl : -2 ^ 63 ≤ call.flock.len.toInt ∧ call.flock.len.toInt < 2 ^ 63 :=
    ⟨Int64.le_toInt _, Int64.toInt_lt _⟩
  unfold fileLockFromFlock
  rw [hbase]
  simp only []
  cases hr : flockRange base call.flock.start.toInt call.flock.len.toInt with
  | error e => exact Or.inl ⟨e, rfl, flockRange_error _ _ _ _ hb hs hl hr⟩
  | ok r =>
    obtain ⟨s, l⟩ := r
    obtain ⟨hfits, h0, hsl, hmax, hbytes⟩ := flockRange_ok _ _ _ _ _ hb hs hl hr
    exact Or.inr ⟨_, rfl, rfl, rfl, ⟨h0, hsl, hmax⟩, hfits, hbytes⟩

variable [DecidableEq Owner] (locks : List (Lock Owner)) (call : SetlkCall Owner)

/-- Some other owner holds one of the bytes with a type that blocks. -/
def SetlkCall.Blocked (call : SetlkCall Owner) (locks : List (Lock Owner)) (type : LockType)
    (base : Fin (2 ^ 63)) : Prop :=
  ∃ o b, o ≠ call.owner ∧ call.Bytes base b ∧ Blocks (lockAt locks o b) type

/-- What one attempt at a lock has to do, in terms of the byte map. -/
structure SetlkSpec (locks : List (Lock Owner)) (call : SetlkCall Owner) (type : LockType)
    (base : Fin (2 ^ 63)) : Prop where
  granted_iff : (fcntlSetlk locks call).1 = .granted ↔
    call.Fits base ∧ ¬ call.Blocked locks type base
  granted_map : (fcntlSetlk locks call).1 = .granted → ∀ o b,
    lockAt (fcntlSetlk locks call).2.1 o b =
      if o = call.owner ∧ call.Bytes base b then type else lockAt locks o b
  eagain_iff : (fcntlSetlk locks call).1 = (if call.blocking then .waits else .refused .eagain) ↔
    call.Fits base ∧ call.Blocked locks type base
  range_iff : (fcntlSetlk locks call).1 = .refused .einval ∨
    (fcntlSetlk locks call).1 = .refused .eoverflow ↔ ¬ call.Fits base

/-- A request meets a conflicting lock exactly when the byte map blocks it. -/
theorem conflict_iff_blocked (base : Fin (2 ^ 63)) (q : Lock Owner) (h : Kept locks) (hq : q.Valid)
    (ho : q.owner = call.owner) (hbytes : ∀ b, q.Covers b ↔ call.Bytes base b) :
    (q.type ≠ .unlck ∧ ∃ l ∈ locks, fileLocksConflict l q) ↔
      call.Blocked locks q.type base := by
  constructor
  · rintro ⟨hu, l, hl, hne, hover, hwr⟩
    obtain ⟨b, hlb, hqb⟩ := covers_of_overlap l q (h.valid l hl) hq hover
    refine ⟨l.owner, b, fun hc => hne (hc.trans ho.symm), (hbytes b).mp hqb, hu, ?_, ?_⟩
    · rw [lockAt_of_mem locks h l b hl hlb]
      exact h.locked l hl
    · rw [lockAt_of_mem locks h l b hl hlb]
      exact hwr
  · rintro ⟨o, b, hne, hb, hu, hheld, hwr⟩
    obtain ⟨l, hl, hlo, hlb, hlt⟩ := exists_of_lockAt locks o b hheld
    refine ⟨hu, l, hl, ?_, overlap_of_covers l q b hlb ((hbytes b).mpr hb), ?_⟩
    · rw [hlo, ho]
      exact hne
    · rw [hlt]
      exact hwr

/-- What an attempt does once its early checks have passed. -/
theorem fcntlSetlk_cases (type : LockType)
    (base : Fin (2 ^ 63)) (h : Kept locks) (hp : call.Proper type base) :
    (¬ call.Fits base ∧ ∃ e, (e = .einval ∨ e = .eoverflow) ∧
      fcntlSetlk locks call = (.refused e, locks, false)) ∨
    (call.Fits base ∧ call.Blocked locks type base ∧ fcntlSetlk locks call =
      (if call.blocking then .waits else .refused .eagain, locks, false)) ∨
    (call.Fits base ∧ ¬ call.Blocked locks type base ∧ ∃ q : Lock Owner, q.type = type ∧
      q.owner = call.owner ∧ q.Valid ∧ (∀ b, q.Covers b ↔ call.Bytes base b) ∧
      fcntlSetlk locks call = (.granted, placeLock false q locks)) := by
  rcases fileLockFromFlock_cases call type base hp.base_eq with
    ⟨e, he, herr, hfits⟩ | ⟨q, hq, rfl, ho, hv, hfits, hbytes⟩
  · left
    refine ⟨hfits, e, herr, ?_⟩
    unfold fcntlSetlk
    simp [hp.type_eq, not_not.mpr hp.mode, hp.inode, he]
  · right
    have hearly : fcntlSetlk locks call = setlkAttempt locks q call.blocking := by
      unfold fcntlSetlk
      simp [hp.type_eq, not_not.mpr hp.mode, hp.inode, hq]
    rw [hearly]
    simp only [setlkAttempt, fileLockAcquire]
    have hiff := conflict_iff_blocked locks call base q h hv ho hbytes
    by_cases hc : q.type ≠ .unlck ∧ ∃ l ∈ locks, fileLocksConflict l q
    · left
      rw [if_pos hc]
      exact ⟨hfits, hiff.mp hc, rfl⟩
    · right
      rw [if_neg hc]
      exact ⟨hfits, fun hb => hc (hiff.mpr hb), q, rfl, ho, hv, hbytes, rfl⟩

theorem setlk_spec (type : LockType)
    (base : Fin (2 ^ 63)) (h : Kept locks) (hp : call.Proper type base) :
    SetlkSpec locks call type base := by
  have hw : ∀ e, (if call.blocking then Outcome.waits else .refused .eagain) = .refused e →
      e = .eagain := by
    intro e he
    split at he
    · cases he
    · exact (Outcome.refused.inj he).symm
  have hg : (if call.blocking then Outcome.waits else .refused .eagain) ≠ .granted := by
    split <;> simp only [ne_eq, reduceCtorEq, not_false_eq_true]
  rcases fcntlSetlk_cases locks call type base h hp with
    ⟨hfits, e, herr, heq⟩ | ⟨hfits, hbl, heq⟩ | ⟨hfits, hbl, q, rfl, ho, hv, hbytes, heq⟩
  · constructor <;> rw [heq] <;> simp only [hfits, false_and, iff_false, not_false_eq_true,
      iff_true, reduceCtorEq, false_implies]
    · intro hc
      have := hw e hc.symm
      rcases herr with rfl | rfl <;> cases this
    · rcases herr with rfl | rfl
      · exact .inl rfl
      · exact .inr rfl
  · constructor <;> rw [heq] <;> simp only [hfits, hbl, hg, true_and, not_true_eq_false,
      iff_false, false_implies, not_or, and_self]
    constructor <;> intro hc <;> exact absurd (hw _ hc) (by simp)
  · constructor <;> rw [heq] <;> simp only [hfits, hbl, true_and, not_true_eq_false,
      iff_false, not_false_eq_true, reduceCtorEq, or_self, true_implies]
    · intro o b
      rw [lockAt_placeLock locks q h hv o b, ho]
      simp only [hbytes b]
    · exact fun hc => hg hc.symm

/-- Whatever the call, the list is left alone or a request is placed in it. -/
theorem fcntlSetlk_locks :
    (fcntlSetlk locks call).2 = (locks, false) ∨
      ∃ q : Lock Owner, q.Valid ∧ fcntlSetlk locks call = (.granted, placeLock false q locks) := by
  unfold fcntlSetlk
  cases lockTypeOf call.flock.type with
  | none => exact Or.inl rfl
  | some type =>
    simp only []
    by_cases hm : modeAllows call.fd.accMode type
    · rw [if_neg (not_not.mpr hm)]
      by_cases hi : call.fd.hasInode = false
      · rw [if_pos hi]
        exact Or.inl rfl
      rw [if_neg hi]
      cases hb : flockBase call.fd call.flock.whence with
      | error e =>
        unfold fileLockFromFlock
        rw [hb]
        exact Or.inl rfl
      | ok base =>
        rcases fileLockFromFlock_cases call type base hb with
          ⟨e, he, -⟩ | ⟨q, hq, -, -, hv, -⟩
        · rw [he]
          exact Or.inl rfl
        · rw [hq]
          simp only [setlkAttempt, fileLockAcquire]
          by_cases hc : q.type ≠ .unlck ∧ ∃ l ∈ locks, fileLocksConflict l q
          · rw [if_pos hc]
            exact Or.inl rfl
          · rw [if_neg hc]
            exact Or.inr ⟨q, hv, rfl⟩
    · rw [if_pos hm]
      exact Or.inl rfl

theorem lockStep_kept (locks locks' : List (Lock Owner)) (op : LockOp Owner) (h : Kept locks)
    (hs : lockStep locks op locks') : Kept locks' := by
  cases op with
  | setlk call =>
    have hs' : locks' = (fcntlSetlk locks call).2.1 := hs
    rw [hs']
    rcases fcntlSetlk_locks locks call with he | ⟨q, hv, he⟩
    · rw [he]
      exact h
    · rw [he]
      exact placeLock_kept locks q h hv
  | removeOwnedBy o =>
    have hs' : locks' = (fileLockRemoveOwnedBy locks o).1 := hs
    rw [hs']
    exact remove_kept locks o h

theorem run_kept (tr : List (List (Lock Owner) × LockOp Owner)) (locks : List (Lock Owner))
    (hr : Run lockStep [] tr locks) : Kept locks :=
  run_invariant Kept hr kept_nil fun u a v _ h hs => lockStep_kept u v a h hs

/-- In every reachable list the locks read as a map, an attempt that is not
    granted leaves it alone, an attempt that passes the early checks does to
    the map what POSIX asks, and dropping an owner clears exactly its bytes. -/
theorem setlk_refines_byte_map (tr : List (List (Lock Owner) × LockOp Owner))
    (locks : List (Lock Owner)) (hr : Run lockStep [] tr locks) :
    (∀ l ∈ locks, ∀ b, l.Covers b → lockAt locks l.owner b = l.type) ∧
    (∀ call, (fcntlSetlk locks call).1 ≠ .granted → (fcntlSetlk locks call).2.1 = locks) ∧
    (∀ call type base, call.Proper type base → SetlkSpec locks call type base) ∧
    (∀ o o' b, lockAt (fileLockRemoveOwnedBy locks o).1 o' b =
      if o' = o then .unlck else lockAt locks o' b) := by
  have hkept := run_kept tr locks hr
  refine ⟨fun l hl b hb => lockAt_of_mem locks hkept l b hl hb, ?_,
    fun call type base hp => setlk_spec locks call type base hkept hp,
    fun o o' b => lockAt_remove locks o o' b⟩
  intro call hne
  rcases fcntlSetlk_locks locks call with he | ⟨q, -, he⟩
  · rw [he]
  · rw [he] at hne
    exact absurd rfl hne

/-- A file open for both, at offset `pos`. -/
def openAt (pos : Fin (2 ^ 63)) : Fd :=
  { accMode := .rdwr, hasInode := true, lseek := some (.ok pos), fstat := none }

/-- Owner 1 write-locks ten bytes at its offset, and owner 2 may then not have
    the last of them. -/
theorem setlk_refines_byte_map_second :
    (fcntlSetlk [⟨4, 13, .wrlck, 1⟩] ⟨openAt 20, ⟨0, 1, -7, 5⟩, false, 2⟩).1 =
      .refused .eagain := by
  have hr : Run lockStep [] [([], LockOp.setlk ⟨openAt 4, ⟨1, 1, 0, 10⟩, false, 1⟩)]
      [⟨4, 13, .wrlck, (1 : Nat)⟩] :=
    Run.snoc _ _ _ _ Run.nil (by unfold lockStep; decide)
  obtain ⟨-, -, hspec, -⟩ := setlk_refines_byte_map _ _ hr
  have hp : SetlkCall.Proper ⟨openAt 20, ⟨0, 1, -7, 5⟩, false, (2 : Nat)⟩ .rdlck 20 :=
    ⟨by decide, by decide, rfl, rfl⟩
  refine (hspec _ _ _ hp).eagain_iff.mpr ⟨⟨?_, fun b hb => ?_⟩, 1, 13, by decide, ?_, ?_⟩
  · decide
  · have hb' : PosixBytes 20 (-7) 5 b := hb
    unfold PosixBytes at hb'
    unfold IsOffset offTMax
    rw [if_pos (by decide)] at hb'
    omega
  · decide
  · decide

/-- The byte named is the last offset of the file, and the request for it is
    still refused: its start is one past that. -/
theorem start_past_end_refused :
    (fcntlSetlk ([] : List (Lock Nat)) ⟨openAt 1, ⟨1, 1, Int64.maxValue, -1⟩, false, 0⟩).1 =
      .refused .eoverflow ∧
    SetlkCall.Proper ⟨openAt 1, ⟨1, 1, Int64.maxValue, -1⟩, false, 0⟩ .wrlck 1 ∧
    ∀ b, SetlkCall.Bytes ⟨openAt 1, ⟨1, 1, Int64.maxValue, -1⟩, false, 0⟩ 1 b ↔ b = 2 ^ 63 - 1 := by
  refine ⟨by decide, ⟨by decide, by decide, rfl, rfl⟩, fun b => ?_⟩
  have hb : SetlkCall.Bytes ⟨openAt 1, ⟨1, 1, Int64.maxValue, -1⟩, false, 0⟩ 1 b ↔
      PosixBytes 1 (2 ^ 63 - 1) (-1) b := Iff.rfl
  rw [hb]
  unfold PosixBytes
  rw [if_neg (by decide), if_pos (by decide)]
  omega

/-- A call that changes the list has passed the early checks. -/
theorem proper_of_changed (h : (fcntlSetlk locks call).2.1 ≠ locks) :
    ∃ type base, call.Proper type base := by
  unfold fcntlSetlk at h
  split at h
  · exact absurd rfl h
  next type htype =>
  split_ifs at h with hm hi
  · exact absurd rfl h
  · cases hbase : flockBase call.fd call.flock.whence with
    | error e =>
      rw [fileLockFromFlock, hbase] at h
      exact absurd rfl h
    | ok base => exact ⟨type, base, htype, hm, Bool.eq_true_of_not_eq_false hi, hbase⟩
  · exact absurd rfl h

/-- A byte that is locked for writing has no other owner. -/
def Exclusive (locks : List (Lock Owner)) : Prop :=
  ∀ o o' b, o ≠ o' → lockAt locks o b = .wrlck → lockAt locks o' b = .unlck

theorem lockStep_exclusive {locks locks' : List (Lock Owner)} {op : LockOp Owner}
    (hkept : Kept locks) (h : Exclusive locks) (hs : lockStep locks op locks') :
    Exclusive locks' := by
  cases op with
  | setlk call =>
    have hs' : locks' = (fcntlSetlk locks call).2.1 := hs
    by_cases hsame : locks' = locks
    · rw [hsame]
      exact h
    rcases proper_of_changed locks call (hs' ▸ hsame) with ⟨type, base, hp⟩
    rcases fcntlSetlk_cases locks call type base hkept hp with
      ⟨-, e, -, heq⟩ | ⟨-, -, heq⟩ | ⟨-, hfree, q, rfl, ho, hv, hbytes, heq⟩
    · exact absurd (hs'.trans (by rw [heq])) hsame
    · exact absurd (hs'.trans (by rw [heq])) hsame
    -- Whatever another owner has of the request's bytes does not block it.
    have hother : ∀ o b, o ≠ q.owner → q.Covers b → ¬ Blocks (lockAt locks o b) q.type :=
      fun o b hne hb hblocks => hfree ⟨o, b, ho ▸ hne, (hbytes b).mp hb, hblocks⟩
    intro o o' b hne hw
    rw [hs', heq, lockAt_placeLock locks q hkept hv] at hw ⊢
    grind [Blocks, Exclusive]
  | removeOwnedBy owner =>
    have hs' : locks' = (fileLockRemoveOwnedBy locks owner).1 := hs
    intro o o' b hne hw
    rw [hs', lockAt_remove] at hw ⊢
    split_ifs at hw ⊢
    · rfl
    · exact h o o' b hne hw

/-- Write locks exclude the other owners in every reachable list. -/
theorem locks_exclusive {tr : List (List (Lock Owner) × LockOp Owner)} {locks : List (Lock Owner)}
    (hr : Run lockStep [] tr locks) : Exclusive locks := by
  refine (run_invariant (fun l => Kept l ∧ Exclusive l) hr ⟨kept_nil, ?_⟩ ?_).2
  · rintro o o' b - ⟨⟩
  · exact fun u op v _ hu hs => ⟨lockStep_kept u v op hu.1 hs, lockStep_exclusive hu.1 hu.2 hs⟩

/-- Two owners with a write lock each: neither has a byte of the other's. -/
theorem locks_exclusive_two :
    lockAt [⟨4, 13, .wrlck, (1 : Nat)⟩, ⟨14, 23, .wrlck, 2⟩] 2 13 = .unlck ∧
      lockAt [⟨4, 13, .wrlck, (1 : Nat)⟩, ⟨14, 23, .wrlck, 2⟩] 1 14 = .unlck := by
  have h0 := Run.start lockStep ([] : List (Lock Nat))
  have h1 : Run lockStep [] _ [⟨4, 13, .wrlck, 1⟩] :=
    h0.next (.setlk ⟨openAt 4, ⟨1, 1, 0, 10⟩, false, 1⟩) (by unfold lockStep; decide)
  have h2 : Run lockStep [] _ [⟨4, 13, .wrlck, 1⟩, ⟨14, 23, .wrlck, 2⟩] :=
    h1.next (.setlk ⟨openAt 14, ⟨1, 1, 0, 10⟩, false, 2⟩) (by unfold lockStep; decide)
  exact ⟨locks_exclusive h2 1 2 13 (by decide) (by decide),
    locks_exclusive h2 2 1 14 (by decide) (by decide)⟩

end IshAok.FileLock
