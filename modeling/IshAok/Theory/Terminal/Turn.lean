import IshAok.Core.Terminal

/-!
# A Turn of the Input Loop

What `tty_input` does with one byte before it pushes it. To echo, to erase, to stop the
output and to send a signal add nothing to the buffer. The byte that is left to push was
typed as the end of a line or not, which the key that is kept with it says, and the
canonical loop has a flag for it that says the same. The raw loop has no flag for its byte
and leaves the one that stands in its place, so that one has to be clear.

## Main definitions

* `Cell.isDelimiter`: Whether a byte was typed as the end of a line.
* `NoStaleFlag`, `PlainKey`: What a raw and a canonical byte are to meet.
* `Kept`: The buffer has the same arrays and no new byte.
* `Turned`: What a turn has done when it comes to the push.

## Theorems

* `charIs_eq`: The comparison with a special character.
* `canonSpecial_turned`: The chain of special characters decides the flag by the key.
* `inputByte_turned`: The turn of either loop.
-/

namespace IshAok.Terminal

/-! ## Delimiters -/

/-- A delimiter is a newline or `VEOL`, stored as it was typed, or `VEOF`, stored as zero.
    A special character of zero is switched off. -/
def Cell.isDelimiter (c : Cell) : Bool :=
  c.key.canonical && !c.key.quoted && c.key.ch != 0 && ((c.key.ch == c.key.veof && c.ch == 0) ||
      ((c.key.ch == 0x0a || c.key.ch == c.key.veol) && c.ch == c.key.ch))

/-- The place of the next byte has no flag left in it. -/
def NoStaleFlag (tty : Tty) : Prop :=
  tty.bufsize < ttyBufSize → tty.bufFlag tty.bufsize = false

/-- A character that ends a line is one that the comparison can see. -/
def PlainKey (sgn : Bool) (tty : Tty) (ch : BitVec 8) : Prop :=
  sgn = true → 0x80 ≤ ch.toNat → ch ≠ tty.termios.cc .veof ∧ ch ≠ tty.termios.cc .veol

/-! ## What leaves the buffer alone -/

/-- The arrays are the same and no byte is added. -/
structure Kept (tty tty' : Tty) : Prop where
  buf : tty'.buf = tty.buf
  bufFlag : tty'.bufFlag = tty.bufFlag
  bufsize : tty'.bufsize ≤ tty.bufsize
  termios : tty'.termios = tty.termios

theorem kept_refl (tty : Tty) : Kept tty tty :=
  ⟨rfl, rfl, Nat.le_refl _, rfl⟩

theorem kept_trans {a b c : Tty} (h : Kept a b) (h' : Kept b c) : Kept a c where
  buf := h'.buf.trans h.buf
  bufFlag := h'.bufFlag.trans h.bufFlag
  bufsize := Nat.le_trans h'.bufsize h.bufsize
  termios := h'.termios.trans h.termios

theorem ttyEchoFlush_kept (l : Loop) : Kept l.tty (ttyEchoFlush l).tty :=
  ⟨rfl, rfl, Nat.le_refl _, rfl⟩

theorem ttyEchoBuffered_kept (l : Loop) (data : List (BitVec 8)) :
    Kept l.tty (ttyEchoBuffered l data).tty := by
  unfold ttyEchoBuffered
  split
  · exact ⟨rfl, rfl, Nat.le_refl _, rfl⟩
  split
  · exact ttyEchoFlush_kept l
  · exact kept_refl _

theorem echoChar_kept (sgn : Bool) (l : Loop) (ch : BitVec 8) :
    Kept l.tty (echoChar sgn l ch).tty := by
  unfold echoChar
  split
  · exact kept_trans (ttyEchoBuffered_kept l _) (ttyEchoBuffered_kept _ _)
  · exact ttyEchoBuffered_kept l _

theorem echoErase_kept (sgn : Bool) (l : Loop) (ch : BitVec 8) (wide : Bool) :
    Kept l.tty (echoErase sgn l ch wide).tty := by
  unfold echoErase
  dsimp only
  split
  · exact kept_trans (ttyEchoBuffered_kept l _) (ttyEchoBuffered_kept _ _)
  · exact ttyEchoBuffered_kept l _

/-- To erase only lowers the count. -/
theorem eraseChars_kept (sgn : Bool) (goOn : BitVec 8 → Bool) (visual wide : Bool) :
    ∀ (count : Nat) (l : Loop), Kept l.tty (eraseChars sgn goOn visual wide count l).tty := by
  intro count
  induction count with
  | zero =>
    intro l
    exact kept_refl _
  | succ count ih =>
    intro l
    unfold eraseChars
    split
    · exact kept_refl _
    refine kept_trans ?_ (ih _)
    have hless : Kept l.tty (l.tty.setSize (l.tty.bufsize - 1)) :=
      ⟨rfl, rfl, Nat.sub_le _ _, rfl⟩
    split
    · exact kept_trans hless
        (echoErase_kept sgn { l with tty := l.tty.setSize (l.tty.bufsize - 1) } _ wide)
    · exact hless

theorem eraseWord_kept (sgn : Bool) (l : Loop) : Kept l.tty (eraseWord sgn l).tty :=
  kept_trans (eraseChars_kept sgn _ _ _ _ l) (eraseChars_kept sgn _ _ _ _ _)

theorem eraseLine_kept (sgn : Bool) (l : Loop) (ch : BitVec 8) :
    Kept l.tty (eraseLine sgn l ch).tty := by
  refine kept_trans ?_ (eraseChars_kept sgn _ _ _ _ _)
  generalize (has l.inp.lflags _ && has l.inp.lflags echoBit && !_) = echoes
  split
  · exact kept_trans (echoChar_kept sgn l ch) (ttyEchoBuffered_kept _ _)
  · exact kept_refl _

theorem lnext_kept (l : Loop) : Kept l.tty (lnext l).tty := by
  unfold lnext
  have hset : Kept l.tty (l.tty.setLnext true) := ⟨rfl, rfl, Nat.le_refl _, rfl⟩
  split
  · refine kept_trans hset (kept_trans ?_ (ttyEchoBuffered_kept _ _))
    exact ttyEchoBuffered_kept { l with tty := l.tty.setLnext true } _
  · exact hset

variable {ch input : BitVec 8} {sgn : Bool} {l : Loop} (tty : Tty)

/-- Flow control only starts and stops the output. -/
theorem ttyFlowControl_kept {tty tty' : Tty} {iflags : BitVec 32} {b : Bool}
    (h : ttyFlowControl tty ch iflags = (tty', b)) :
    Kept tty tty' ∧ tty'.bufsize = tty.bufsize := by
  have hset : ∀ stopped, Kept tty { tty with stopped := stopped } ∧
      { tty with stopped := stopped }.bufsize = tty.bufsize :=
    fun _ => ⟨⟨rfl, rfl, Nat.le_refl _, rfl⟩, rfl⟩
  unfold ttyFlowControl at h
  split at h
  · cases h
    exact hset _
  split at h
  · cases h
    exact hset _
  split at h
  · cases h
    exact hset _
  split at h
  · cases h
    exact hset _
  cases h
  exact hset _

theorem ttySendInputSignal_kept {l' : Loop} (h : ttySendInputSignal sgn l ch = some l') :
    Kept l.tty l'.tty := by
  unfold ttySendInputSignal at h
  split at h
  · cases h
  split at h
  · cases h
  split at h
  · cases h
    split
    · exact kept_refl _
    · exact ⟨rfl, rfl, Nat.zero_le _, rfl⟩
  · cases h
    exact kept_refl _

theorem canonSpecial_kept (sgn : Bool) (l : Loop) (ch : BitVec 8) :
    Kept l.tty (canonSpecial sgn l ch).1.tty := by
  unfold canonSpecial
  dsimp only
  split
  · exact kept_refl _
  split
  · exact lnext_kept l
  split
  · exact eraseWord_kept sgn l
  split
  · exact eraseLine_kept sgn l ch
  split
  · exact kept_refl _
  split
  · split
    · exact ttyEchoBuffered_kept l _
    · exact kept_refl _
  split
  · next l' hsig => exact ttySendInputSignal_kept hsig
  · exact kept_refl _

/-- A turn of either loop adds nothing before it pushes. -/
theorem inputByte_kept (sgn : Bool) (l : Loop) (input : BitVec 8) :
    Kept l.tty (inputByte sgn l input).1.tty := by
  unfold inputByte
  split
  · unfold canonByte
    split
    · exact kept_refl _
    next ch _ =>
    split
    · exact ⟨rfl, rfl, Nat.le_refl _, rfl⟩
    split
    · next tty hflow => exact (ttyFlowControl_kept hflow).1
    next tty hflow =>
    exact kept_trans (ttyFlowControl_kept hflow).1 (canonSpecial_kept sgn ⟨tty, l.inp⟩ ch)
  · unfold rawByte
    split
    · next tty hflow => exact (ttyFlowControl_kept hflow).1
    next tty hflow =>
    dsimp only
    split
    · next l' hsig =>
      exact kept_trans (ttyFlowControl_kept hflow).1
        (ttySendInputSignal_kept (l := ⟨tty, l.inp⟩) hsig)
    · exact (ttyFlowControl_kept hflow).1

/-! ## What is pushed -/

/-- The comparison of a character with a special one that it can see. -/
theorem charIs_eq {c : BitVec 8} (h : sgn = true → 0x80 ≤ ch.toNat → ch ≠ c) :
    charIs sgn ch c = (ch == c) := by
  have hc := c.isLt
  have hch := ch.isLt
  have hiff : charIs sgn ch c = true ↔ ch = c := by
    unfold charIs charValue
    rw [beq_iff_eq]
    cases sgn with
    | false =>
      rw [if_neg (by decide), Int.natCast_inj, BitVec.toNat_inj]
    | true =>
      rw [if_pos rfl, BitVec.toInt_eq_toNat_cond]
      -- The upper half of the codes is negative, and a special character never is.
      by_cases hlow : ch.toNat < 0x80
      · rw [if_pos (by omega), Int.natCast_inj, BitVec.toNat_inj]
      · refine ⟨fun heq => ?_, fun heq => absurd heq (h rfl (by omega))⟩
        omega
  rw [Bool.eq_iff_iff, hiff, beq_iff_eq]

/-- A byte that is to be pushed has the flag it is to have. -/
def Pending.Right : Pending → Prop
  | .canon cell flag _ => flag = cell.isDelimiter
  | .raw cell => cell.isDelimiter = false

/-- A byte that is pushed without a flag finds none in its place. -/
def Pending.Finds : Pending → Prop
  | .canon _ _ _ => True
  | .raw _ => NoStaleFlag tty

/-- What is left to do for a byte is right. -/
def Todo.Exact (todo : Todo) : Prop :=
  ∀ p, todo = .push p → p.Right ∧ p.Finds tty

theorem exact_push {tty : Tty} {p : Pending} (h : p.Right) (h' : p.Finds tty) :
    (Todo.push p).Exact tty := by
  intro q hq
  cases hq
  exact ⟨h, h'⟩

theorem exact_skip : Todo.skip.Exact tty := by
  intro p hp
  cases hp

theorem exact_shown (ch : BitVec 8) (echo : Bool) : (Todo.shown ch echo).Exact tty := by
  intro p hp
  cases hp

/-- What a turn does before it pushes: it adds nothing to the buffer, and what it pushes
    has the flag it is to have. -/
def Turned (r : Loop × Todo) : Prop :=
  Kept tty r.1.tty ∧ r.2.Exact r.1.tty

theorem kept_turned {tty tty' : Tty} {r : Loop × Todo} (h : Kept tty tty')
    (hr : Turned tty' r) : Turned tty r :=
  ⟨kept_trans h hr.1, hr.2⟩

theorem noSpecial_turned {quoted : Bool} (h : quoted = true ∨ ch = 0 ∨
      ch ≠ l.tty.termios.cc .veof ∧ ch ≠ 0x0a ∧ ch ≠ l.tty.termios.cc .veol) :
    Turned l.tty (noSpecial l ch quoted) := by
  refine ⟨kept_refl _, exact_push ?_ trivial⟩
  simp only [Pending.Right, Cell.isDelimiter, keyOf]
  rcases h with rfl | rfl | ⟨hveof, hnl, hveol⟩
  · simp
  · simp
  · simp [hveof, hveol, show (ch == 10#8) = false from beq_false_of_ne hnl]

/-- The chain of special characters decides the flag by the key. -/
theorem canonSpecial_turned (hcanon : has l.inp.lflags icanon = true)
    (hplain : PlainKey sgn l.tty ch) : Turned l.tty (canonSpecial sgn l ch) := by
  have hveof : charIs sgn ch (l.tty.termios.cc .veof) = (ch == l.tty.termios.cc .veof) :=
    charIs_eq fun hs hhigh => (hplain hs hhigh).1
  have hveol : charIs sgn ch (l.tty.termios.cc .veol) = (ch == l.tty.termios.cc .veol) :=
    charIs_eq fun hs hhigh => (hplain hs hhigh).2
  unfold canonSpecial
  dsimp only
  rw [hveof, hveol]
  by_cases hzero : ch == 0
  · rw [if_pos hzero]
    exact noSpecial_turned (Or.inr (Or.inl (beq_iff_eq.mp hzero)))
  rw [if_neg hzero]
  split
  · exact ⟨lnext_kept l, exact_skip _⟩
  split
  · exact ⟨eraseWord_kept sgn l, exact_skip _⟩
  split
  · exact ⟨eraseLine_kept sgn l ch, exact_skip _⟩
  have hne : (ch == 0) = false := Bool.not_eq_true _ ▸ hzero
  by_cases heof : ch == l.tty.termios.cc .veof
  · -- A typed end-of-file is stored as zero.
    rw [if_pos heof]
    refine ⟨kept_refl _, exact_push ?_ trivial⟩
    simp only [Pending.Right, Cell.isDelimiter, keyOf, hcanon, heof, bne, hne]
    simp
  rw [if_neg heof]
  by_cases heol : (ch == 0x0a || ch == l.tty.termios.cc .veol)
  · rw [if_pos heol]
    refine ⟨?_, exact_push ?_ trivial⟩
    · split
      · exact ttyEchoBuffered_kept l _
      · exact kept_refl _
    · simp only [Pending.Right, Cell.isDelimiter, keyOf, hcanon, heol, bne, hne]
      simp
  rw [if_neg heol]
  split
  · next l' hsig => exact ⟨ttySendInputSignal_kept hsig, exact_shown _ ch _⟩
  refine noSpecial_turned (Or.inr (Or.inr ⟨?_, ?_, ?_⟩))
  · exact fun heq => heof (beq_iff_eq.mpr heq)
  · exact fun heq => heol (by rw [heq]; rfl)
  · exact fun heq => heol (by rw [beq_iff_eq.mpr heq, Bool.or_true])

theorem canonByte_turned (hcanon : has l.inp.lflags icanon = true)
    (hplain : ∀ key, mapInput l.inp.iflags input = some key → PlainKey sgn l.tty key) :
    Turned l.tty (canonByte sgn l input) := by
  unfold canonByte
  split
  · exact ⟨kept_refl _, exact_skip _⟩
  next ch hmap =>
  split
  · have hset : Kept l.tty (l.tty.setLnext false) := ⟨rfl, rfl, Nat.le_refl _, rfl⟩
    exact kept_turned hset (noSpecial_turned (l := ⟨l.tty.setLnext false, l.inp⟩) (.inl rfl))
  split
  · next tty hflow => exact ⟨(ttyFlowControl_kept hflow).1, exact_skip _⟩
  next tty hflow =>
  have hkept := (ttyFlowControl_kept hflow).1
  have hplain' : PlainKey sgn tty ch := by
    unfold PlainKey
    rw [hkept.termios]
    exact hplain ch hmap
  exact kept_turned hkept (canonSpecial_turned (l := ⟨tty, l.inp⟩) hcanon hplain')

/-- A raw byte is pushed where the buffer ended before. -/
theorem rawByte_turned (hraw : has l.inp.lflags icanon = false) (hstale : NoStaleFlag l.tty) :
    Turned l.tty (rawByte sgn l input) := by
  unfold rawByte
  split
  · next tty hflow => exact ⟨(ttyFlowControl_kept hflow).1, exact_skip _⟩
  next tty hflow =>
  rcases ttyFlowControl_kept hflow with ⟨hkept, hsize⟩
  refine kept_turned hkept ?_
  dsimp only
  split
  · next l' hsig =>
    exact ⟨ttySendInputSignal_kept (l := ⟨tty, l.inp⟩) hsig, exact_skip _⟩
  refine ⟨kept_refl _, exact_push ?_ ?_⟩
  · simp [Pending.Right, Cell.isDelimiter, keyOf, hraw]
  · unfold Pending.Finds NoStaleFlag
    rw [hsize, hkept.bufFlag]
    exact hstale

/-- A turn of `tty_input` up to the push, in a clean step. -/
theorem inputByte_turned (hclean : if has l.inp.lflags icanon then
        ∀ key, mapInput l.inp.iflags input = some key → PlainKey sgn l.tty key
      else NoStaleFlag l.tty) : Turned l.tty (inputByte sgn l input) := by
  unfold inputByte
  by_cases hmode : has l.inp.lflags icanon
  · rw [if_pos hmode] at hclean ⊢
    exact canonByte_turned hmode hclean
  rw [if_neg hmode] at hclean ⊢
  exact rawByte_turned (Bool.not_eq_true _ ▸ hmode) hclean

end IshAok.Terminal
