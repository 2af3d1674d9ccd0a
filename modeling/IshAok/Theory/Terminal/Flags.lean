import IshAok.Base.Run
import IshAok.Theory.Terminal.Turn

/-!
# The Flags of the Input Buffer

A flag of the input buffer is meant to say that its byte ends a line. What a byte is was
decided when it was typed, and the key that is kept with it says so: a line delimiter is a
newline, `VEOL` or `VEOF` that a canonical call took and that was not quoted.

Almost everything keeps the flags right. To erase and to flush only lower the count, to
read moves the bytes and their flags together, and the canonical loop writes a flag with
each byte. The raw loop writes no flag, so its byte gets the flag that was left in its
place by a line that has been read or flushed since. A run in which every raw byte finds
no such flag keeps the flags exact, and then a canonical read ends where a line does.

## Main definitions

* `FlagsExact`: The flags in use are those of the delimiters.
* `Clean`: A step that finds no stale flag.
* `LineRead`: A read that ends at a delimiter, or where the room of the caller ends.

## Theorems

* `readLine_spec`: A canonical read of a buffer with exact flags ends at a delimiter.
* `exec_good`: A clean step keeps the flags exact.
* `flags_exact`: They are exact in every run of clean steps.
* `stale_flag_ends_line`: A raw byte under a stale flag ends a line.
-/

namespace IshAok.Terminal

open Base List Function

variable {T : Type} [DecidableEq T]

/-- The flags in use are those of the delimiters. -/
def FlagsExact (tty : Tty) : Prop :=
  ∀ i, i < tty.bufsize → tty.bufFlag i = (tty.buf i).isDelimiter

/-- A step that stores no raw byte under a stale flag. Where characters are signed, it also
    takes no `VEOF` or `VEOL` from the upper half of the codes. -/
def Clean (sgn : Bool) (s : State T) : Action T → Prop
  | .turn t =>
    ∀ inp ch rest, s.phase t = .typing inp → inp.rest = ch :: rest → if has inp.lflags icanon then
        ∀ key, mapInput inp.iflags ch = some key → PlainKey sgn s.tty key
      else NoStaleFlag s.tty
  | .wake t _ _ _ =>
    ∀ inp cell, s.phase t = .pushing inp (.raw cell) → NoStaleFlag s.tty
  | _ => True

/-- A read of a line ends at a delimiter, which is its last byte or the end-of-file that was
    taken with it, or it ends because the caller has no more room. -/
def LineRead (room : Nat) (cells : List Cell) (eof : Option Cell) : Prop :=
  cells.length = room ∨ (∃ c, cells.getLast? = some c ∧ c.isDelimiter = true) ∨
    ∃ c, eof = some c ∧ c.isDelimiter = true

/-- The reads of lines among the results. -/
def Result.EndsRight : Result → Prop
  | .line room _ cells eof => LineRead room cells eof
  | _ => True

/-! ## The buffer -/

/-- The flags are exact and the buffer is not overrun. -/
structure BufferOk (tty : Tty) : Prop where
  exact : FlagsExact tty
  bound : tty.bufsize ≤ ttyBufSize

variable {tty : Tty} {sgn : Bool} {s : State T} {t : T} {inp : Input} {r : State T × Result}

theorem bufferOk_kept {tty' : Tty} (h : Kept tty tty') (hok : BufferOk tty) : BufferOk tty' where
  exact := by
    intro i hi
    rw [h.bufFlag, h.buf]
    exact hok.exact i (Nat.lt_of_lt_of_le hi h.bufsize)
  bound := Nat.le_trans h.bufsize hok.bound

/-- A push with the right flag keeps the flags exact, and so does one without a flag where
    none was left. -/
theorem pushed_bufferOk {l : Loop} {p : Pending} (hok : BufferOk l.tty)
    (hroom : l.tty.bufsize < ttyBufSize) (hright : p.Right) (hfinds : p.Finds l.tty) :
    BufferOk (pushed sgn l p).tty := by
  cases p with
  | canon cell flag echo =>
    have hstore : BufferOk (storeCanon l.tty cell flag) := by
      refine ⟨fun i hi => ?_, hroom⟩
      simp only [storeCanon] at hi ⊢
      by_cases hlast : i = l.tty.bufsize
      · rw [hlast, update_self, update_self]
        exact hright
      rw [update_of_ne hlast, update_of_ne hlast]
      exact hok.exact i (by omega)
    simp only [pushed]
    split
    · exact bufferOk_kept (ttyEchoFlush_kept ⟨_, l.inp⟩) hstore
    split
    · exact bufferOk_kept (echoChar_kept sgn ⟨_, l.inp⟩ cell.ch) hstore
    · exact hstore
  | raw cell =>
    refine ⟨fun i hi => ?_, hroom⟩
    simp only [pushed, storeRaw] at hi ⊢
    by_cases hlast : i = l.tty.bufsize
    · -- The flag of the new byte is the one that was there.
      rw [hlast, update_self, hfinds hroom]
      exact hright.symm
    · rw [update_of_ne hlast]
      exact hok.exact i (by omega)

theorem ttyReadIntoBuf_bufferOk (hok : BufferOk tty) (n : Nat) :
    BufferOk (ttyReadIntoBuf tty n).2 where
  exact := by
    intro i hi
    simp only [ttyReadIntoBuf] at hi ⊢
    rw [if_pos hi, if_pos hi]
    exact hok.exact (i + n) (by omega)
  bound := Nat.le_trans (Nat.sub_le _ _) hok.bound

/-- The size of a line is one more than the place of a flag. -/
theorem ttyCanonSize_some {size : Nat} (h : ttyCanonSize tty = some size) :
    ∃ j, size = j + 1 ∧ j < tty.bufsize ∧ tty.bufFlag j = true := by
  rcases Option.map_eq_some_iff.mp h with ⟨j, hfind, rfl⟩
  exact ⟨j, rfl, mem_range.mp (mem_of_find?_eq_some hfind), List.find?_some hfind⟩

theorem getLast_range_map {α : Type*} (f : Nat → α) (n : Nat) :
    ((List.range (n + 1)).map f).getLast? = some (f n) := by
  rw [range_succ, map_append, map_singleton, List.getLast?_concat]

/-- A canonical read of a buffer with exact flags ends at a delimiter. -/
theorem readLine_spec (hok : BufferOk tty) (room : Nat) (header : List (BitVec 8)) {size : Nat}
    (hsize : ttyCanonSize tty = some size) :
    BufferOk (readLine tty room header size).1 ∧
      (readLine tty room header size).2.EndsRight := by
  rcases ttyCanonSize_some hsize with ⟨j, rfl, hj, hflag⟩
  have hdelim : (tty.buf j).isDelimiter = true := (hok.exact j hj).symm.trans hflag
  have hread : ∀ n, BufferOk (ttyReadIntoBuf tty n).2 := ttyReadIntoBuf_bufferOk hok
  unfold readLine
  rw [Nat.add_sub_cancel]
  by_cases heof : ((tty.buf j).ch == 0) = true
  · -- The line ends with an end-of-file, which stands first once the line is taken.
    simp only [heof, if_true, Bool.true_and]
    by_cases hroom : room ≤ j
    · have hn : min (min room j) tty.bufsize = room := by omega
      rw [hn]
      split
      · exact ⟨ttyReadIntoBuf_bufferOk (hread _) 1, .inl (by simp [ttyReadIntoBuf])⟩
      · exact ⟨hread _, .inl (by simp [ttyReadIntoBuf])⟩
    · have hn : min (min room j) tty.bufsize = j := by omega
      have hfirst : (ttyReadIntoBuf tty j).2.buf 0 = tty.buf j := by
        simp only [ttyReadIntoBuf, Nat.zero_add]
        rw [if_pos (by omega)]
      have hfirstFlag : (ttyReadIntoBuf tty j).2.bufFlag 0 = true := by
        simp only [ttyReadIntoBuf, Nat.zero_add]
        rw [if_pos (by omega), hflag]
      have hleft : 0 < (ttyReadIntoBuf tty j).2.bufsize := Nat.sub_pos_of_lt hj
      rw [hn, if_pos (by rw [hfirst, hfirstFlag, heof, decide_eq_true hleft]; rfl), hfirst]
      exact ⟨ttyReadIntoBuf_bufferOk (hread _) 1, .inr (.inr ⟨_, rfl, hdelim⟩)⟩
  · simp only [heof, if_false, Bool.false_and, Bool.false_eq_true]
    refine ⟨hread _, ?_⟩
    by_cases hroom : room ≤ j + 1
    · have hn : min (min room (j + 1)) tty.bufsize = room := by omega
      rw [hn]
      exact .inl (by simp [ttyReadIntoBuf])
    · have hn : min (min room (j + 1)) tty.bufsize = j + 1 := by omega
      rw [hn]
      exact .inr (.inl ⟨_, getLast_range_map tty.buf j, hdelim⟩)

/-! ## The step -/

/-- The invariant: the buffer is right, and so is each byte that a sleeping call holds. -/
structure Inv (s : State T) : Prop where
  buffer : BufferOk s.tty
  pending : ∀ t inp p, s.phase t = .pushing inp p → p.Right

/-- What a call leaves behind: the invariant, and a line that ended right. -/
def Good (r : State T × Result) : Prop :=
  Inv r.1 ∧ r.2.EndsRight

section

variable (h : Inv s)

include h

/-- A task goes into a phase and the buffer stays right. -/
theorem inv_task (hbuffer : BufferOk tty) {holder : Option T} (t : T) {q : Phase}
    (hq : ∀ inp p, q = .pushing inp p → p.Right) :
    Inv (State.setPhase ⟨tty, holder, s.phase⟩ t q) where
  buffer := hbuffer
  pending := by
    intro t' inp p hphase
    simp only [State.setPhase] at hphase
    by_cases ht : t' = t
    · rw [ht, update_self] at hphase
      exact hq inp p hphase
    rw [update_of_ne ht] at hphase
    exact h.pending t' inp p hphase

theorem endInput_good (t : T) {l : Loop} (hok : BufferOk l.tty) (err : Option Errno) :
    Good (endInput s t l err) := by
  refine ⟨inv_task h ?_ t (by simp), trivial⟩
  split
  · exact bufferOk_kept (ttyEchoFlush_kept l) hok
  · exact hok

theorem pushRound_good (t : T) {l : Loop} {p : Pending} (hok : BufferOk l.tty)
    (hright : p.Right) (hfinds : p.Finds l.tty) : Good (pushRound sgn s t l p) := by
  unfold pushRound
  split
  · next hroom =>
    exact ⟨inv_task h (pushed_bufferOk hok hroom hright hfinds) t (by simp),
      trivial⟩
  · split
    · exact endInput_good h t (l := ⟨l.tty, l.inp.undone⟩) hok _
    refine ⟨inv_task h hok t ?_, trivial⟩
    intro inp q hq
    cases hq
    exact hright

theorem inputTurn_good (hphase : s.phase t = .typing inp)
    (hclean : Clean sgn s (.turn t)) : Good (inputTurn sgn s t inp) := by
  unfold inputTurn
  split
  · exact endInput_good h t (l := ⟨s.tty, inp⟩) h.buffer _
  next ch rest hrest =>
  have hturn := inputByte_turned
    (l := ⟨s.tty, { inp with rest := rest, doneSize := inp.doneSize + 1 }⟩)
    (hclean inp ch rest hphase hrest)
  split
  · next l heq =>
    rw [heq] at hturn
    exact ⟨inv_task h (bufferOk_kept hturn.1 h.buffer) t (by simp), trivial⟩
  · next l ch' echo heq =>
    rw [heq] at hturn
    have hl : BufferOk l.tty := bufferOk_kept hturn.1 h.buffer
    refine ⟨inv_task h ?_ t (by simp), trivial⟩
    split
    · exact bufferOk_kept (echoChar_kept sgn l ch') hl
    · exact hl
  · next l p heq =>
    rw [heq] at hturn
    exact pushRound_good h t (bufferOk_kept hturn.1 h.buffer) (hturn.2 p rfl).1 (hturn.2 p rfl).2

theorem canonRound_good (t : T) (room : Nat) (header : List (BitVec 8))
    (closed nonblock : Bool) : Good (canonRound s t room header closed nonblock) := by
  unfold canonRound
  split
  · next size hsize =>
    rcases readLine_spec h.buffer room header hsize with ⟨hok, hends⟩
    exact ⟨inv_task h hok t (by simp), hends⟩
  · split
    · exact ⟨inv_task h h.buffer t (by simp), trivial⟩
    · split <;> exact ⟨inv_task h h.buffer t (by simp), trivial⟩

theorem readRaw_good (t : T) (room : Nat) (header : List (BitVec 8)) :
    Good ({ s with tty := (readRaw s.tty room header).1 }.setPhase t .idle,
      (readRaw s.tty room header).2) :=
  ⟨inv_task h (ttyReadIntoBuf_bufferOk h.buffer _) t (by simp), trivial⟩

theorem rawRound_good (t : T) (room : Nat) (header : List (BitVec 8)) (vmin vtime : BitVec 8)
    (closed nonblock : Bool) : Good (rawRound s t room header vmin vtime closed nonblock) := by
  unfold rawRound
  split
  · split
    · exact ⟨inv_task h h.buffer t (by simp), trivial⟩
    · split <;> exact ⟨inv_task h h.buffer t (by simp), trivial⟩
  · exact readRaw_good h t room header

theorem ttyRead_good (t : T) (room : Nat) (closed nonblock : Bool) :
    Good (ttyRead s t room closed nonblock) := by
  unfold ttyRead
  dsimp only
  split
  · exact ⟨h, trivial⟩
  split
  · exact canonRound_good h t _ _ closed nonblock
  · exact rawRound_good h t _ _ _ _ closed nonblock

theorem resume_good {w : Wake} {closed nonblock : Bool}
    (hclean : Clean sgn s (.wake t w closed nonblock))
    (hr : resume sgn s t w closed nonblock = some r) : Good r := by
  have hidle : Inv (s.setPhase t .idle) := inv_task h h.buffer t (by simp)
  unfold resume at hr
  split at hr
  · cases hr
    exact ⟨hidle, trivial⟩
  · cases hr
    exact canonRound_good h t _ _ closed nonblock
  · cases hr
    exact ⟨hidle, trivial⟩
  · cases hr
    exact rawRound_good h t _ _ _ _ closed nonblock
  · cases hr
    exact readRaw_good h t _ _
  · cases hr
    exact endInput_good h t (l := ⟨s.tty, _⟩) h.buffer _
  · next inp p hphase =>
    cases hr
    refine pushRound_good h t h.buffer (h.pending t inp p hphase) ?_
    cases p with
    | canon cell flag echo => trivial
    | raw cell => exact hclean inp cell hphase
  · cases hr

end

omit [DecidableEq T] in
/-- A request that leaves the tasks alone. -/
theorem request_good (h : Inv s) (hbuf : tty.buf = s.tty.buf)
    (hflag : tty.bufFlag = s.tty.bufFlag) (hsize : tty.bufsize ≤ s.tty.bufsize) :
    Good ({ s with tty := tty }, Result.quiet) := by
  refine ⟨⟨⟨fun i hi => ?_, Nat.le_trans hsize h.buffer.bound⟩, h.pending⟩, trivial⟩
  rw [hbuf, hflag]
  exact h.buffer.exact i (Nat.lt_of_lt_of_le hi hsize)

omit [DecidableEq T] in
theorem setTermios_good (h : Inv s) (flush : Bool) (termios : Termios) :
    Good ({ s with tty := setTermios s.tty flush termios }, Result.quiet) := by
  have hsize : (if flush then 0 else s.tty.bufsize) ≤ s.tty.bufsize := by
    split
    · exact Nat.zero_le _
    · exact Nat.le_refl _
  unfold setTermios
  dsimp only
  split <;> exact request_good h rfl rfl hsize

omit [DecidableEq T] in
theorem tcxonc_good (h : Inv s) (off : Bool) :
    Good ({ s with tty := tcxonc s.tty off }, Result.quiet) := by
  have hsize : s.tty.bufsize ≤ s.tty.bufsize := Nat.le_refl _
  unfold tcxonc
  split
  · split <;> exact request_good h rfl rfl hsize
  · split <;> exact request_good h rfl rfl hsize

theorem execFree_good (h : Inv s) {a : Action T} (hclean : Clean sgn s a)
    (hr : execFree sgn s a = some r) : Good r := by
  cases a with
  | turn t => cases hr
  | input t bytes blocking =>
    simp only [execFree] at hr
    split at hr
    · cases hr
      exact ⟨inv_task h h.buffer t (by simp), trivial⟩
    · cases hr
  | read t room closed nonblock =>
    simp only [execFree] at hr
    split at hr
    · cases hr
      split
      · exact ⟨h, trivial⟩
      · exact ttyRead_good h t room closed nonblock
    · cases hr
  | readRefused t e =>
    simp only [execFree] at hr
    split at hr
    · cases hr
      refine ⟨h, ?_⟩
      cases e with
      | none => trivial
      | some e => trivial
    · cases hr
  | wake t w closed nonblock => exact resume_good h hclean hr
  | setTermios flush termios =>
    cases hr
    exact setTermios_good h flush termios
  | tcflsh =>
    cases hr
    exact request_good h rfl rfl (Nat.zero_le _)
  | tcxonc off =>
    cases hr
    exact tcxonc_good h off
  | setFgGroup | setPacketMode =>
    cases hr
    exact request_good h rfl rfl (Nat.le_refl _)

/-- A clean step keeps the flags exact. -/
theorem exec_good (h : Inv s) {a : Action T} (hclean : Clean sgn s a) (hr : exec sgn s a = some r) :
    Good r := by
  unfold exec at hr
  split at hr
  · exact execFree_good h hclean hr
  next holder _ =>
  cases a with
  | turn t =>
    dsimp only at hr
    split at hr
    · next inp hphase =>
      split at hr
      · cases hr
        exact inputTurn_good h hphase hclean
      · cases hr
    · cases hr
  | _ => cases hr

omit [DecidableEq T] in
theorem inv_start : Inv (State.start : State T) where
  buffer := ⟨fun i hi => absurd hi (Nat.not_lt_zero i), Nat.zero_le _⟩
  pending := by
    intro t inp p hphase
    cases hphase

/-- The flags of a terminal are those of its line delimiters in every run of clean steps,
    and a canonical read then ends at a delimiter or where the room of its caller ends. -/
theorem flags_exact (sgn : Bool) {tr : List (State T × Action T × Result)} {u : State T}
    (hrun : Run (Step sgn) State.start tr u)
    (hclean : ∀ x, x ∈ tr → Clean sgn x.1 x.2.1) :
    (∀ i, i < u.tty.bufsize → (u.tty.bufFlag i = true ↔ (u.tty.buf i).isDelimiter = true)) ∧
      ∀ x room header cells eof, x ∈ tr → x.2.2 = Result.line room header cells eof →
        LineRead room cells eof := by
  have hkeep : ∀ v a w, (v, a) ∈ tr → Inv v → Step sgn v a w → Inv w :=
    fun v a w hmem hv hstep => (exec_good hv (hclean (v, a) hmem) hstep).1
  have hinv : Inv u := run_invariant Inv hrun inv_start hkeep
  refine ⟨fun i hi => ?_, ?_⟩
  · rw [hinv.buffer.exact i hi]
  · rintro ⟨v, a, r⟩ room header cells eof hmem rfl
    have hv : Inv v := run_mem_invariant Inv hrun inv_start hkeep hmem
    rcases run_split hrun v (a, _) hmem with ⟨_, _, w, _, _, hstep, _⟩
    exact (exec_good hv (hclean _ hmem) hstep).2

omit [DecidableEq T] in
/-- The turn of a canonical call at a character below the upper half is clean. -/
theorem clean_turn {ch key : BitVec 8} {rest : List (BitVec 8)} (hphase : s.phase t = .typing inp)
    (hrest : inp.rest = ch :: rest) (hmode : has inp.lflags icanon = true)
    (hmap : mapInput inp.iflags ch = some key) (hlow : key.toNat < 0x80) :
    Clean sgn s (.turn t) := by
  intro inp' ch' rest' hphase' hrest'
  cases hphase.symm.trans hphase'
  cases hrest.symm.trans hrest'
  rw [if_pos hmode]
  intro key' hmap' _ hhigh
  cases hmap.symm.trans hmap'
  exact absurd hlow (Nat.not_lt.mpr hhigh)

omit [DecidableEq T] in
/-- The turn that ends a call is clean. -/
theorem clean_done (hphase : s.phase t = .typing inp) (hrest : inp.rest = []) :
    Clean sgn s (.turn t) := by
  intro inp' ch' rest' hphase' hrest'
  cases hphase.symm.trans hphase'
  exact absurd (hrest.symm.trans hrest') (by simp)

/-- The byte of a canonical call in the mode of a new terminal. -/
def typedCell (ch : BitVec 8) : Cell :=
  ⟨ch, ⟨ch, true, false, 0x04, 0x00⟩⟩

/-- A line is typed and read, and the read ends at the newline. -/
theorem flags_exact_line : ∃ (tr : List (State Bool × Action Bool × Result)) (u : State Bool),
      Run (Step true) State.start tr u ∧
        (∃ x, x ∈ tr ∧ x.2.2 = .line 10 [] [typedCell 0x61, typedCell 0x0a] none) ∧
        LineRead 10 [typedCell 0x61, typedCell 0x0a] none := by
  have htyped : Run (Step true) (State.start : State Bool) _ _ := run_of_runList
    [.input false [0x61, 0x0a] false, .turn false, .turn false, .turn false] _ _ _ rfl
  have hr := htyped.next
    (.read true 10 false false, .line 10 [] [typedCell 0x61, typedCell 0x0a] none) rfl
  refine ⟨_, _, hr, ⟨_, mem_append_right _ (mem_singleton_self _), rfl⟩, (flags_exact true hr ?_).2
    _ 10 [] _ none (mem_append_right _ (mem_singleton_self _)) rfl⟩
  simp only [forall_mem_append, forall_mem_cons]
  exact ⟨⟨trivial, clean_turn rfl rfl rfl rfl (by decide), clean_turn rfl rfl rfl rfl (by decide),
    clean_done rfl rfl, forall_mem_nil _⟩, trivial, forall_mem_nil _⟩

/-- The mode of a new terminal without its canonical flag. -/
def rawTermios : Termios :=
  { ttyInitTermios with lflags := ttyInitTermios.lflags &&& ~~~icanon }

/-- The byte of a raw call in that mode. -/
def rawCell (ch : BitVec 8) : Cell :=
  ⟨ch, ⟨ch, false, false, 0x04, 0x00⟩⟩

/-- A raw byte under the flag of a line that has been read ends the next line, and no
    delimiter was typed there. -/
theorem stale_flag_ends_line : ∃ (tr : List (State Bool × Action Bool × Result)) (v u : State Bool),
      Run (Step true) State.start tr v ∧
        (1 < v.tty.bufsize ∧ v.tty.bufFlag 1 = true ∧ (v.tty.buf 1).isDelimiter = false) ∧
        Step true v (.read true 10 false false, .line 10 [] [rawCell 0x78, rawCell 0x79] none) u ∧
        ¬LineRead 10 [rawCell 0x78, rawCell 0x79] none := by
  -- The line is read, and its flag is left at the second place.
  have hr := run_of_runList (f := exec true) [.input false [0x61, 0x0a] false, .turn false,
    .turn false, .turn false, .read true 10 false false, .setTermios false rawTermios,
    .input false [0x78, 0x79] false, .turn false, .turn false, .turn false,
    .setTermios false ttyInitTermios] (State.start : State Bool) _ _ rfl
  refine ⟨_, _, _, hr, ⟨by decide, rfl, rfl⟩, rfl, ?_⟩
  rintro (hfull | ⟨c, hc, hdelim⟩ | ⟨c, hc, -⟩)
  · cases hfull
  · cases hc
    cases hdelim
  · cases hc

end IshAok.Terminal
