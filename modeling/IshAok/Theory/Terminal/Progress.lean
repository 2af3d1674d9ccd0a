import IshAok.Theory.Terminal.Buffer
import IshAok.Theory.Terminal.Flags

/-!
# Readers and Writers of a Full Buffer

A canonical reader waits for a flag and a writer waits for room. They wait for each other
when the buffer is full and has no flag in it: the reader takes nothing before a delimiter
is stored, and the delimiter has no place to be stored in. Nothing keeps a place free for
it, and a line of as many bytes as the buffer has is enough.

A full buffer without a flag comes about in one way only. A byte without a flag is stored
in the last place while there is no flag before it. Everything else that changes the buffer
takes something away, or puts a flag.

## Main definitions

* `typed`: The bytes that a run has typed.
* `HasFlag`, `NotStuck`: A flag in use, and a buffer that has one or has room.
* `LeavesRoom`: A step that stores no byte of that kind.
* `ReaderReturns`, `DelimiterAccepted`: The two ways in which it goes on.

## Theorems

* `exec_notStuck`: A step that leaves room does not fill the buffer without a flag.
* `never_wedges`: A reader returns or a delimiter is accepted, in every such run.
* `long_line_wedges`: A line of 4096 bytes stops a reader and the writer of its newline.
-/

namespace IshAok.Terminal

open Base Function Nat List

variable {T : Type} [DecidableEq T]

/-- The byte that a step takes from the input. -/
def typedByte (s : State T) : Action T → Option (BitVec 8)
  | .turn t =>
    match s.phase t with
    | .typing inp => inp.rest.head?
    | _ => none
  | _ => none

/-- The bytes that a run has typed. -/
def typed (tr : List (State T × Action T × Result)) : List (BitVec 8) :=
  tr.filterMap fun x => typedByte x.1 x.2.1

/-- A flag is in use. -/
def HasFlag (tty : Tty) : Prop :=
  ∃ i, i < tty.bufsize ∧ tty.bufFlag i = true

/-- The buffer is not overrun, and it has room or a flag. -/
structure NotStuck (tty : Tty) : Prop where
  bound : tty.bufsize ≤ ttyBufSize
  free : tty.bufsize < ttyBufSize ∨ HasFlag tty

/-- What is pushed ends a line. -/
def Pending.delimits : Pending → Bool
  | .canon _ flag _ => flag
  | .raw _ => false

/-- There is a flag, or room for a byte and a delimiter. -/
def RoomForTwo (tty : Tty) : Prop :=
  tty.bufsize + 1 < ttyBufSize ∨ HasFlag tty

/-- A byte that is to be stored without a flag finds a flag, or leaves room for one. -/
def LeavesRoom (sgn : Bool) (s : State T) : Action T → Prop
  | .turn t =>
    ∀ inp b rest l p, s.phase t = .typing inp → inp.rest = b :: rest →
      inputByte sgn ⟨s.tty, { inp with rest := rest, doneSize := inp.doneSize + 1 }⟩ b =
        (l, .push p) →
      p.delimits = false → RoomForTwo l.tty
  | .wake t _ _ _ =>
    ∀ inp p, s.phase t = .pushing inp p → p.delimits = false → RoomForTwo s.tty
  | _ => True

theorem setPhase_self (s : State T) (t : T) (q : Phase) : (s.setPhase t q).phase t = q :=
  update_self _ _ _

variable {s : State T} {tty : Tty} {l : Loop} {p : Pending} {sgn : Bool} {r : State T × Result}

theorem setPhase_same {t : T} {q : Phase} (h : s.phase t = q) : s.setPhase t q = s := by
  rw [State.setPhase, ← h, update_eq_self]

/-! ## The buffer -/

/-- To take bytes off the end leaves room. -/
theorem notStuck_kept {tty' : Tty} (h : Kept tty tty') (hok : NotStuck tty) : NotStuck tty' := by
  refine ⟨Nat.le_trans h.bufsize hok.bound, ?_⟩
  by_cases hsize : tty'.bufsize = tty.bufsize
  · rcases hok.free with hroom | ⟨i, hi, hflag⟩
    · exact .inl (hsize ▸ hroom)
    · exact .inr ⟨i, hsize ▸ hi, by rw [h.bufFlag]; exact hflag⟩
  · refine .inl ?_
    have := h.bufsize
    have := hok.bound
    omega

/-- To take bytes off the front leaves room. -/
theorem notStuck_read (hok : NotStuck tty) (n : Nat) : NotStuck (ttyReadIntoBuf tty n).2 := by
  refine ⟨Nat.le_trans (sub_le _ _) hok.bound, ?_⟩
  by_cases hn : n = 0 ∨ tty.bufsize = 0
  · rcases hok.free with hroom | ⟨i, hi, hflag⟩
    · exact .inl (Nat.lt_of_le_of_lt (sub_le _ _) hroom)
    · have hzero : n = 0 := by omega
      refine .inr ⟨i, ?_, ?_⟩
      · simp only [ttyReadIntoBuf, hzero]
        omega
      · simp only [ttyReadIntoBuf, hzero, Nat.sub_zero, Nat.add_zero, ite_self]
        exact hflag
  · refine .inl ?_
    have := hok.bound
    simp only [ttyReadIntoBuf]
    omega

theorem notStuck_readLine (hok : NotStuck tty) (room : Nat) (header : List (BitVec 8))
    (size : Nat) : NotStuck (readLine tty room header size).1 := by
  unfold readLine
  dsimp only
  split
  · split
    · exact notStuck_read (notStuck_read hok _) 1
    · exact notStuck_read hok _
  · split
    · exact notStuck_read (notStuck_read hok _) 1
    · exact notStuck_read hok _

/-- A push of a flag, or of a byte that leaves room for one. -/
theorem notStuck_pushed (sgn : Bool) (hroom : l.tty.bufsize < ttyBufSize)
    (hleaves : p.delimits = false → RoomForTwo l.tty) : NotStuck (pushed sgn l p).tty := by
  have hkeeps : ∀ tty : Tty, tty.bufsize = l.tty.bufsize + 1 →
      (∀ i, i < l.tty.bufsize → tty.bufFlag i = l.tty.bufFlag i) → RoomForTwo l.tty →
      NotStuck tty := by
    intro tty hsize hsame htwo
    refine ⟨by omega, ?_⟩
    rcases htwo with hroom' | ⟨i, hi, hflag⟩
    · exact .inl (by omega)
    · exact .inr ⟨i, by omega, by rw [hsame i hi]; exact hflag⟩
  cases p with
  | raw cell => exact hkeeps _ rfl (fun _ _ => rfl) (hleaves rfl)
  | canon cell flag echo =>
    have hstore : NotStuck (storeCanon l.tty cell flag) := by
      cases flag with
      | false =>
        refine hkeeps _ rfl (fun i hi => ?_) (hleaves rfl)
        simp only [storeCanon, update_of_ne (Nat.ne_of_lt hi)]
      | true =>
        refine ⟨hroom, .inr ⟨l.tty.bufsize, lt_succ_self _, ?_⟩⟩
        simp [storeCanon]
    rcases pushed_echoed sgn l cell flag echo with ⟨out, buf, hpushed⟩
    rw [hpushed]
    exact ⟨hstore.bound, hstore.free⟩

/-! ## The step -/

theorem endInput_notStuck (t : T) (hok : NotStuck l.tty) (err : Option Errno) :
    NotStuck (endInput s t l err).1.tty := by
  unfold endInput
  split
  · exact notStuck_kept (ttyEchoFlush_kept l) hok
  · exact hok

theorem pushRound_notStuck (t : T) (hok : NotStuck l.tty)
    (hleaves : p.delimits = false → RoomForTwo l.tty) : NotStuck (pushRound sgn s t l p).1.tty := by
  unfold pushRound
  split
  · next hroom => exact notStuck_pushed sgn hroom hleaves
  split
  · exact endInput_notStuck t (l := ⟨l.tty, l.inp.undone⟩) hok _
  · exact hok

section

variable (hok : NotStuck s.tty)

include hok

theorem inputTurn_notStuck {t : T} {inp : Input} (hphase : s.phase t = .typing inp)
    (hleaves : LeavesRoom sgn s (.turn t)) : NotStuck (inputTurn sgn s t inp).1.tty := by
  unfold inputTurn
  split
  · exact endInput_notStuck t (l := ⟨s.tty, inp⟩) hok _
  next b rest hrest =>
  have hkept := inputByte_kept sgn
    ⟨s.tty, { inp with rest := rest, doneSize := inp.doneSize + 1 }⟩ b
  split
  · next l heq =>
    rw [heq] at hkept
    exact notStuck_kept hkept hok
  · next l ch echo heq =>
    rw [heq] at hkept
    split
    · exact notStuck_kept (echoChar_kept sgn l ch) (notStuck_kept hkept hok)
    · exact notStuck_kept hkept hok
  · next l p heq =>
    rw [heq] at hkept
    exact pushRound_notStuck t (notStuck_kept hkept hok) (hleaves inp b rest l p hphase hrest heq)

theorem canonRound_notStuck (t : T) (room : Nat) (header : List (BitVec 8))
    (closed nonblock : Bool) : NotStuck (canonRound s t room header closed nonblock).1.tty := by
  unfold canonRound
  split
  · exact notStuck_readLine hok room header _
  repeat' split
  all_goals exact hok

theorem rawRound_notStuck (t : T) (room : Nat) (header : List (BitVec 8))
    (vmin vtime : BitVec 8) (closed nonblock : Bool) :
    NotStuck (rawRound s t room header vmin vtime closed nonblock).1.tty := by
  unfold rawRound
  split
  · repeat' split
    all_goals exact hok
  · exact notStuck_read hok _

theorem ttyRead_notStuck (t : T) (room : Nat) (closed nonblock : Bool) :
    NotStuck (ttyRead s t room closed nonblock).1.tty := by
  unfold ttyRead
  dsimp only
  split
  · exact hok
  split
  · exact canonRound_notStuck hok t _ _ closed nonblock
  · exact rawRound_notStuck hok t _ _ _ _ closed nonblock

theorem resume_notStuck {t : T} {w : Wake} {closed nonblock : Bool}
    (hleaves : LeavesRoom sgn s (.wake t w closed nonblock))
    (hr : resume sgn s t w closed nonblock = some r) : NotStuck r.1.tty := by
  unfold resume at hr
  split at hr
  · cases hr
    exact hok
  · cases hr
    exact canonRound_notStuck hok t _ _ closed nonblock
  · cases hr
    exact hok
  · cases hr
    exact rawRound_notStuck hok t _ _ _ _ closed nonblock
  · cases hr
    exact notStuck_read hok _
  · cases hr
    exact endInput_notStuck t (l := ⟨s.tty, _⟩) hok _
  · next inp p hphase =>
    cases hr
    exact pushRound_notStuck t (l := ⟨s.tty, inp⟩) hok (hleaves inp p hphase)
  · cases hr

end

theorem setTermios_kept (tty : Tty) (flush : Bool) (termios : Termios) :
    (setTermios tty flush termios).bufFlag = tty.bufFlag ∧
      ((setTermios tty flush termios).bufsize = 0 ∨
        (setTermios tty flush termios).bufsize = tty.bufsize) := by
  cases flush with
  | true =>
    unfold setTermios
    dsimp only
    split <;> exact ⟨rfl, Or.inl rfl⟩
  | false =>
    unfold setTermios
    dsimp only
    split <;> exact ⟨rfl, Or.inr rfl⟩

theorem notStuck_empty (h : tty.bufsize = 0) : NotStuck tty := by
  refine ⟨?_, .inl ?_⟩
  · rw [h]
    exact Nat.zero_le _
  · rw [h]
    exact succ_pos _

theorem notStuck_same {tty' : Tty} (hok : NotStuck tty) (hflag : tty'.bufFlag = tty.bufFlag)
    (hsize : tty'.bufsize = tty.bufsize) : NotStuck tty' := by
  refine ⟨hsize ▸ hok.bound, ?_⟩
  unfold HasFlag
  rw [hflag, hsize]
  exact hok.free

theorem execFree_notStuck (hok : NotStuck s.tty) {a : Action T} (hleaves : LeavesRoom sgn s a)
    (hr : execFree sgn s a = some r) : NotStuck r.1.tty := by
  cases a with
  | turn t => cases hr
  | input | readRefused =>
    simp only [execFree] at hr
    split at hr
    · cases hr
      exact hok
    · cases hr
  | read t room closed nonblock =>
    simp only [execFree] at hr
    split at hr
    · cases hr
      split
      · exact hok
      · exact ttyRead_notStuck hok t room closed nonblock
    · cases hr
  | wake t w closed nonblock => exact resume_notStuck hok hleaves hr
  | setTermios flush termios =>
    cases hr
    rcases setTermios_kept s.tty flush termios with ⟨hflag, hzero | hsame⟩
    · exact notStuck_empty hzero
    · exact notStuck_same hok hflag hsame
  | tcflsh =>
    cases hr
    exact notStuck_empty rfl
  | tcxonc off =>
    cases hr
    dsimp only [tcxonc]
    repeat' split
    all_goals exact notStuck_same hok rfl rfl
  | setFgGroup | setPacketMode =>
    cases hr
    exact notStuck_same hok rfl rfl

/-- A step that leaves room does not fill the buffer without a flag. -/
theorem exec_notStuck (hok : NotStuck s.tty) {a : Action T} (hleaves : LeavesRoom sgn s a)
    (hr : exec sgn s a = some r) : NotStuck r.1.tty := by
  unfold exec at hr
  split at hr
  · exact execFree_notStuck hok hleaves hr
  next holder _ =>
  cases a with
  | turn t =>
    dsimp only at hr
    split at hr
    · next inp hphase =>
      split at hr
      · cases hr
        exact inputTurn_notStuck hok hphase hleaves
      · cases hr
    · cases hr
  | _ => cases hr

/-! ## Going on -/

/-- A read that returned, and not with an error. -/
def Result.Returned : Result → Prop
  | .read _ _ => True
  | .line _ _ _ _ => True
  | _ => False

/-- A reader returns without further input, whether it comes now or has waited. -/
def ReaderReturns (sgn : Bool) (s : State T) : Prop :=
  ∀ (t : T) (closed nonblock : Bool), (∀ room, s.phase t = .idle → 0 < room →
      ∃ v r, exec sgn s (.read t room closed nonblock) = some (v, r) ∧ r.Returned) ∧
    ∀ room header, s.phase t = .canonReading room header →
      ∃ v r, exec sgn s (.wake t .woken closed nonblock) = some (v, r) ∧ r.Returned

/-- The delimiter is the last byte of the buffer, and the writer goes on. -/
def Accepted (t : T) (cell : Cell) (v : State T) : Prop :=
  0 < v.tty.bufsize ∧ v.tty.buf (v.tty.bufsize - 1) = cell ∧
    v.tty.bufFlag (v.tty.bufsize - 1) = true ∧ ∃ inp, v.phase t = .typing inp

/-- A delimiter is stored without a read before it, whether it is typed now or its writer
    has waited. -/
def DelimiterAccepted (sgn : Bool) (s : State T) : Prop :=
  (∀ t inp b rest l cell echo, s.holder = some t → s.phase t = .typing inp → inp.rest = b :: rest →
    inputByte sgn ⟨s.tty, { inp with rest := rest, doneSize := inp.doneSize + 1 }⟩ b =
      (l, .push (.canon cell true echo)) →
    ∃ v, exec sgn s (.turn t) = some (v, .quiet) ∧ Accepted t cell v) ∧
  ∀ t inp cell echo closed nonblock, s.holder = none →
    s.phase t = .pushing inp (.canon cell true echo) →
    ∃ v, exec sgn s (.wake t .woken closed nonblock) = some (v, .quiet) ∧ Accepted t cell v

theorem pushRound_accepted (sgn : Bool) (s : State T) (t : T) (cell : Cell) (echo : Bool)
    (hroom : l.tty.bufsize < ttyBufSize) :
    ∃ v, pushRound sgn s t l (.canon cell true echo) = (v, .quiet) ∧ Accepted t cell v := by
  rcases pushed_echoed sgn l cell true echo with ⟨out, buf, hpushed⟩
  unfold pushRound
  rw [if_pos hroom]
  refine ⟨_, rfl, ?_⟩
  rw [hpushed]
  refine ⟨succ_pos _, ?_, ?_, _, setPhase_self _ _ _⟩
  · simp [State.setPhase, storeCanon]
  · simp [State.setPhase, storeCanon]

/-- With room a delimiter is accepted. -/
theorem delimiterAccepted_of_room (hroom : s.tty.bufsize < ttyBufSize) :
    DelimiterAccepted sgn s := by
  refine ⟨?_, ?_⟩
  · intro t inp b rest l cell echo hholder hphase hrest hbyte
    have hkept := inputByte_kept sgn
      ⟨s.tty, { inp with rest := rest, doneSize := inp.doneSize + 1 }⟩ b
    rw [hbyte] at hkept
    rcases pushRound_accepted sgn s t cell echo (Nat.lt_of_le_of_lt hkept.bufsize hroom) with
      ⟨v, hpush, hv⟩
    refine ⟨v, ?_, hv⟩
    simp [exec, hholder, hphase, inputTurn, hrest, hbyte, hpush]
  · intro t inp cell echo closed nonblock hholder hphase
    rcases pushRound_accepted sgn s t (l := ⟨s.tty, inp⟩) cell echo hroom with
      ⟨v, hpush, hv⟩
    refine ⟨v, ?_, hv⟩
    simp only [exec, hholder, execFree, resume, hphase, hpush]

theorem ttyCanonSize_of_flag (h : HasFlag tty) : ∃ size, ttyCanonSize tty = some size := by
  rcases h with ⟨i, hi, hflag⟩
  unfold ttyCanonSize
  cases hfind : (List.range tty.bufsize).find? tty.bufFlag with
  | none =>
    rw [find?_eq_none] at hfind
    exact absurd hflag (hfind i (mem_range.mpr hi))
  | some j => exact ⟨j + 1, rfl⟩

theorem readLine_returned (tty : Tty) (room : Nat) (header : List (BitVec 8)) (size : Nat) :
    (readLine tty room header size).2.Returned := by
  unfold readLine
  dsimp only
  repeat' split
  all_goals trivial

theorem canonRound_returned (h : HasFlag s.tty) (t : T) (room : Nat) (header : List (BitVec 8))
    (closed nonblock : Bool) : (canonRound s t room header closed nonblock).2.Returned := by
  rcases ttyCanonSize_of_flag h with ⟨size, hsize⟩
  unfold canonRound
  rw [hsize]
  exact readLine_returned s.tty room header size

/-- With a flag a reader returns. -/
theorem readerReturns_of_flag (h : HasFlag s.tty)
    (hcanon : has s.tty.termios.lflags icanon = true) (hholder : s.holder = none) :
    ReaderReturns sgn s := by
  intro t closed nonblock
  refine ⟨fun room hidle hpos => ?_, fun room header hphase => ?_⟩
  · have hroom : (room == 0) = false := beq_false_of_ne (Nat.ne_of_gt hpos)
    refine ⟨(ttyRead s t room closed nonblock).1, (ttyRead s t room closed nonblock).2, ?_, ?_⟩
    · simp [exec, hholder, execFree, hidle, hroom]
    · unfold ttyRead
      dsimp only
      split
      · trivial
      · exact canonRound_returned h t _ _ closed nonblock
  · refine ⟨(canonRound s t room header closed nonblock).1,
      (canonRound s t room header closed nonblock).2, ?_,
      canonRound_returned h t room header closed nonblock⟩
    simp only [exec, hholder, execFree, resume, hphase]

/-- In canonical mode, with the buffer as it is and whatever the tasks do, a reader returns
    without further input or a delimiter is accepted without a read before it, as long as no
    byte without a flag takes the last place of a buffer without a flag. A reader and the
    writer of a delimiter then do not wait for each other. -/
theorem never_wedges {sgn : Bool} {tr : List (State T × Action T × Result)} {u : State T}
    (hrun : Run (Step sgn) State.start tr u) (hleaves : ∀ x ∈ tr, LeavesRoom sgn x.1 x.2.1)
    (hcanon : has u.tty.termios.lflags icanon = true) :
    ((∀ s : State T, s.tty = u.tty → s.holder = none → ReaderReturns sgn s) ∨
        ∀ s : State T, s.tty = u.tty → DelimiterAccepted sgn s) ∧
      ∀ t t' room header inp cell echo, u.holder = none → u.phase t = .canonReading room header →
        u.phase t' = .pushing inp (.canon cell true echo) →
        (∃ v r, exec sgn u (.wake t .woken false false) = some (v, r) ∧ r.Returned) ∨
          ∃ v, exec sgn u (.wake t' .woken false false) = some (v, .quiet) ∧
            Accepted t' cell v := by
  have hok : NotStuck u.tty :=
    run_invariant (fun s => NotStuck s.tty) hrun (notStuck_empty rfl)
      (fun v a w hmem hv hstep => exec_notStuck hv (hleaves (v, a) hmem) hstep)
  have hgoes : (∀ s : State T, s.tty = u.tty → s.holder = none → ReaderReturns sgn s) ∨
      ∀ s : State T, s.tty = u.tty → DelimiterAccepted sgn s := by
    rcases hok.free with hroom | hflag
    · exact .inr fun s hs => delimiterAccepted_of_room (hs ▸ hroom)
    · exact .inl fun s hs => readerReturns_of_flag (hs ▸ hflag) (hs ▸ hcanon)
  refine ⟨hgoes, ?_⟩
  intro t t' room header inp cell echo hholder hreader hwriter
  rcases hgoes with hreads | haccepts
  · exact .inl ((hreads u rfl hholder t false false).2 room header hreader)
  · exact .inr ((haccepts u rfl).2 t' inp cell echo false false hholder hwriter)

omit [DecidableEq T] in
/-- A step with room for two leaves room. -/
theorem leavesRoom_of_room (a : Action T) (h : s.tty.bufsize + 1 < ttyBufSize) :
    LeavesRoom sgn s a := by
  cases a with
  | turn t =>
    intro inp b rest l p _ _ hbyte _
    have hkept := inputByte_kept sgn
      ⟨s.tty, { inp with rest := rest, doneSize := inp.doneSize + 1 }⟩ b
    rw [hbyte] at hkept
    exact .inl (Nat.lt_of_le_of_lt (succ_le_succ hkept.bufsize) h)
  | wake t w closed nonblock => exact fun _ _ _ _ => .inl h
  | _ => trivial

/-- A line is typed. -/
theorem never_wedges_line : ∃ (tr : List (State Bool × Action Bool × Result)) (u : State Bool),
      Run (Step true) State.start tr u ∧ typed tr = [0x61, 0x0a] ∧
        ((∀ s : State Bool, s.tty = u.tty → s.holder = none → ReaderReturns true s) ∨
          ∀ s : State Bool, s.tty = u.tty → DelimiterAccepted true s) := by
  have hrun : (runList (exec true) (State.start : State Bool)
      [.input false [0x61, 0x0a] true, .turn false, .turn false, .turn false]).map
        (fun r => (typed r.1, r.1.all (fun x => decide (x.1.tty.bufsize + 1 < ttyBufSize)),
          has r.2.tty.termios.lflags icanon)) =
      some ([0x61, 0x0a], true, true) := by
    decide +kernel
  rcases Option.map_eq_some_iff.mp hrun with ⟨⟨tr, u⟩, htr, heq⟩
  rw [Prod.mk.injEq, Prod.mk.injEq] at heq
  rcases heq with ⟨htyped, hcheck, hcanon⟩
  have hsteps : Run (Step true) State.start tr u := run_of_runList _ _ _ _ htr
  refine ⟨tr, u, hsteps, htyped, (never_wedges hsteps (fun x hx => ?_) hcanon).1⟩
  exact leavesRoom_of_room _ (of_decide_eq_true (all_eq_true.mp hcheck x hx))

/-! ## A line as long as the buffer -/

/-- A call that types a byte until the buffer is full and then a newline, after some of its
    turns. -/
structure Filled (n : Nat) (s : State Bool) : Prop where
  holder : s.holder = some false
  termios : s.tty.termios = ttyInitTermios
  lnext : s.tty.lnextPending = false
  size : s.tty.bufsize = n
  flags : ∀ i, i < n → s.tty.bufFlag i = false
  typing : ∃ inp, s.phase false = .typing inp ∧ inp.lflags = ttyInitTermios.lflags ∧
    inp.iflags = ttyInitTermios.iflags ∧ inp.blocking = true ∧
    inp.rest = List.replicate (ttyBufSize - n) 0x61 ++ [0x0a]
  packet : s.tty.packetMode = false
  idle : s.phase true = .idle

theorem filled_start : ∃ v, Run (Step true) (State.start : State Bool)
        [(State.start, .input false (List.replicate ttyBufSize 0x61 ++ [0x0a]) true, .quiet)] v ∧
      Filled 0 v := by
  refine ⟨_, Run.snoc _ _ _ [] Run.nil rfl, rfl, rfl, rfl, rfl, ?_, ?_, rfl, rfl⟩
  · exact fun i hi => absurd hi (Nat.not_lt_zero i)
  · exact ⟨_, rfl, rfl, rfl, rfl, rfl⟩

/-- The body of the loop at the two characters that are typed here. -/
theorem inputByte_init {ch : BitVec 8} (hch : ch = 0x61 ∨ ch = 0x0a)
    (htm : l.tty.termios = ttyInitTermios) (hlflags : l.inp.lflags = ttyInitTermios.lflags)
    (hiflags : l.inp.iflags = ttyInitTermios.iflags) (hlnext : l.tty.lnextPending = false) :
    inputByte true l ch = roleTodo true l ch (role ttyInitTermios ch) := by
  have hplain : mapInput ttyInitTermios.iflags ch = some ch ∧ ch ≠ 0 ∧
      role ttyInitTermios ch ≠ .flow ∧ role ttyInitTermios ch ≠ .signal ∧ ch.toNat < 0x80 := by
    rcases hch with rfl | rfl
    · decide
    · decide
  rcases hplain with ⟨hmap, hzero, hflow, hsignal, hlow⟩
  have hcontrol : ttyFlowControl l.tty ch ttyInitTermios.iflags = (l.tty, false) := by
    simp only [ttyFlowControl, htm]
    rcases hch with rfl | rfl
    · rfl
    · rfl
  unfold inputByte
  rw [hlflags, if_pos (by decide)]
  unfold canonByte
  rw [hiflags, hmap]
  simp only [hlnext, hcontrol, Bool.false_eq_true, if_false]
  exact canonSpecial_role htm hlflags (by decide) hzero hflow hsignal
    (fun _ hhigh => absurd hlow (Nat.not_lt.mpr hhigh))

/-- A turn of the call that has the lock, up to the push. -/
theorem exec_push {s : State Bool} {inp : Input} {ch : BitVec 8} {rest : List (BitVec 8)}
    (hholder : s.holder = some false) (hphase : s.phase false = .typing inp)
    (hrest : inp.rest = ch :: rest)
    (hbyte : inputByte true ⟨s.tty, { inp with rest := rest, doneSize := inp.doneSize + 1 }⟩ ch =
      (l, .push p)) : exec true s (.turn false) = some (pushRound true s false l p) := by
  simp [exec, hholder, hphase, inputTurn, hrest, hbyte]

/-- A turn that stores a letter. -/
theorem filled_step {n : Nat} {s : State Bool} (h : Filled n s) (hn : n < ttyBufSize) :
    ∃ v, Step true s (.turn false, .quiet) v ∧ Filled (n + 1) v := by
  rcases h.typing with ⟨inp, hphase, hlflags, hiflags, hblocking, hrest⟩
  have hcons : inp.rest = 0x61 :: (List.replicate (ttyBufSize - (n + 1)) 0x61 ++ [0x0a]) := by
    rw [hrest, show ttyBufSize - n = ttyBufSize - (n + 1) + 1 by omega, replicate_succ]
    rfl
  have hpush := exec_push h.holder hphase hcons
    (inputByte_init (.inl rfl) h.termios hlflags hiflags h.lnext)
  rw [← h.size] at hn
  unfold pushRound at hpush
  rw [if_pos hn] at hpush
  refine ⟨_, hpush, ?_⟩
  rcases pushed_echoed true ⟨s.tty, _⟩ ⟨0x61, _⟩ false _ with ⟨out, buf, hpushed⟩
  rw [hpushed]
  refine ⟨rfl, h.termios, h.lnext, congrArg (· + 1) h.size, ?_, ?_, h.packet, h.idle⟩
  · intro i hi
    simp only [State.setPhase, storeCanon]
    by_cases hlast : i = s.tty.bufsize
    · rw [hlast, update_self]
    rw [update_of_ne hlast]
    exact h.flags i (by have := h.size; omega)
  · exact ⟨_, setPhase_self _ _ _, hlflags, hiflags, hblocking, rfl⟩

theorem filled_run : ∀ n, n ≤ ttyBufSize →
    ∃ tr v, Run (Step true) (State.start : State Bool) tr v ∧ Filled n v := by
  intro n
  induction n with
  | zero =>
    intro _
    rcases filled_start with ⟨v, hrun, hv⟩
    exact ⟨_, v, hrun, hv⟩
  | succ n ih =>
    intro hn
    rcases ih (le_of_succ_le hn) with ⟨tr, v, hrun, hv⟩
    rcases filled_step hv hn with ⟨w, hstep, hw⟩
    exact ⟨_, w, Run.snoc v w _ tr hrun hstep, hw⟩

theorem ttyCanonSize_none (h : ∀ i, i < tty.bufsize → tty.bufFlag i = false) :
    ttyCanonSize tty = none := by
  have hnone : (List.range tty.bufsize).find? tty.bufFlag = none := by
    rw [find?_eq_none]
    intro i hi
    rw [h i (mem_range.mp hi)]
    exact Bool.false_ne_true
  rw [ttyCanonSize, hnone, Option.map_none]

theorem pushRound_full (t : T) (p : Pending) (hfull : l.tty.bufsize = ttyBufSize)
    (hblocking : l.inp.blocking = true) :
    pushRound sgn s t l p =
      ({ s with tty := l.tty, holder := none }.setPhase t (.pushing l.inp p), .quiet) := by
  unfold pushRound
  rw [hfull, if_neg (Nat.lt_irrefl _), hblocking, Bool.not_true, if_neg Bool.false_ne_true]

/-- The buffer is full of letters, and the writer of a newline sleeps. -/
structure Blocked (s : State Bool) : Prop where
  holder : s.holder = none
  termios : s.tty.termios = ttyInitTermios
  size : s.tty.bufsize = ttyBufSize
  flags : ∀ i, i < ttyBufSize → s.tty.bufFlag i = false
  packet : s.tty.packetMode = false
  writer : ∃ inp cell echo, s.phase false = .pushing inp (.canon cell true echo) ∧
    cell.ch = 0x0a ∧ inp.blocking = true

/-- The newline finds no room, and its writer goes to sleep. -/
theorem filled_blocks {s : State Bool} (h : Filled ttyBufSize s) :
    ∃ v, Step true s (.turn false, .quiet) v ∧ Blocked v ∧ v.phase true = .idle := by
  rcases h.typing with ⟨inp, hphase, hlflags, hiflags, hblocking, hrest⟩
  have hpush := exec_push h.holder hphase hrest
    (inputByte_init (.inr rfl) h.termios hlflags hiflags h.lnext)
  have hechoed := ttyEchoBuffered_echoed
    ⟨s.tty, { inp with rest := [], doneSize := inp.doneSize + 1 }⟩ [0x0d, 0x0a]
  have hecho : has inp.lflags echoBit = true := by
    rw [hlflags]
    decide
  rcases hechoed with ⟨out, buf, hechoed⟩
  rw [hecho, if_pos rfl, hechoed, pushRound_full false _ h.size hblocking] at hpush
  refine ⟨_, hpush, { h with holder := rfl, writer := ?_ }, h.idle⟩
  exact ⟨_, _, _, setPhase_self _ _ _, rfl, hblocking⟩

/-- Neither the reader nor the writer goes on when it is woken. -/
theorem blocked_waits {s : State Bool} (h : Blocked s)
    (hreader : s.phase true = .canonReading 10 []) :
    exec true s (.wake true .woken false false) = some (s, .quiet) ∧
      exec true s (.wake false .woken false false) = some (s, .quiet) := by
  rcases h.writer with ⟨inp, cell, echo, hwriter, _, hblocking⟩
  have hnone : ttyCanonSize s.tty = none := by
    refine ttyCanonSize_none fun i hi => h.flags i ?_
    rw [← h.size]
    exact hi
  constructor
  · simp only [exec, h.holder, execFree, resume, hreader, canonRound, hnone, Bool.false_eq_true,
      if_false]
    rw [setPhase_same hreader]
  · simp only [exec, h.holder, execFree, resume, hwriter]
    rw [pushRound_full false _ h.size hblocking, ← h.holder]
    exact congrArg (fun u => some (u, Result.quiet)) (setPhase_same hwriter)

/-- A line of as many letters as the buffer has places: the writer of its newline waits for
    room, a reader waits for the newline, and neither goes on when it is woken. -/
theorem long_line_wedges :
    ∃ (tr : List (State Bool × Action Bool × Result)) (u : State Bool) (inp : Input)
        (cell : Cell) (echo : Bool),
      Run (Step true) State.start tr u ∧
        has u.tty.termios.lflags icanon = true ∧ u.holder = none ∧
        u.phase true = .canonReading 10 [] ∧
        u.phase false = .pushing inp (.canon cell true echo) ∧ cell.ch = 0x0a ∧
        exec true u (.wake true .woken false false) = some (u, .quiet) ∧
        exec true u (.wake false .woken false false) = some (u, .quiet) ∧
        ¬ReaderReturns true u ∧ ¬DelimiterAccepted true u := by
  rcases filled_run ttyBufSize (Nat.le_refl _) with ⟨tr, s, hrun, hs⟩
  rcases filled_blocks hs with ⟨v, hturn, hv, hidle⟩
  have hrun' := Run.snoc s v _ tr hrun hturn
  -- A reader comes, finds no flag and goes to sleep as well.
  have hread : exec true v (.read true 10 false false) =
      some (v.setPhase true (.canonReading 10 []), .quiet) := by
    have hnone : ttyCanonSize v.tty = none := by
      refine ttyCanonSize_none fun i hi => hv.flags i ?_
      rw [← hv.size]
      exact hi
    have hcanon : has ttyInitTermios.lflags icanon = true := by decide
    simp only [exec, hv.holder, execFree, hidle, ttyRead, hv.packet, packetRoom, packetHeader,
      hv.termios, hcanon, canonRound, hnone, Bool.false_and, Bool.false_eq_true, if_false, if_true]
    rfl
  have hu : Blocked (v.setPhase true (.canonReading 10 [])) :=
    { hv with }
  have hreader := setPhase_self v true (.canonReading 10 [])
  rcases blocked_waits hu hreader with ⟨hwake, hwake'⟩
  rcases hu.writer with ⟨inp, cell, echo, hwriter, hnl, _⟩
  refine ⟨_, _, inp, cell, echo, Run.snoc v _ (_, _) _ hrun' hread, ?_, hu.holder, hreader,
    hwriter, hnl, hwake, hwake', ?_, ?_⟩
  · rw [hu.termios]
    decide
  · intro hreturns
    rcases (hreturns true false false).2 10 [] hreader with ⟨w, r, hw, hr⟩
    rw [hwake] at hw
    cases hw
    exact hr
  · intro haccepts
    rcases haccepts.2 false inp cell echo false false hu.holder hwriter with ⟨w, hw, _, _, _, hp⟩
    rw [hwake'] at hw
    cases hw
    rcases hp with ⟨inp', hp⟩
    exact absurd (hwriter.symm.trans hp) (by simp)

end IshAok.Terminal
