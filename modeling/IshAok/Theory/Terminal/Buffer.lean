import IshAok.Theory.Terminal.Turn
import Mathlib.Data.List.DropRight

/-!
# What a Character is For

The canonical loop compares a character with one special character after another. The
chain of comparisons agrees with the role of a character as long as the comparisons can
see it, and what the loop does then goes by the role. Echo changes nothing but the count
and what was echoed.

## Main definitions

* `Role`, `role`: What a character is for.
* `Echoed`: Only the count and the echo differ.
* `Seen`: The comparisons of the loop see what a character is for.

## Theorems

* `canonSpecial_role`: The chain of comparisons goes by the role.
* `pushed_echoed`: The rest of a turn that pushes.
-/

namespace IshAok.Terminal

/-! ## Echo -/

variable (l : Loop)

/-- Only the count and the echo differ. -/
def Echoed (n : Nat) (l' : Loop) : Prop :=
  ∃ out buf, l' = ⟨{ l.tty with bufsize := n, echoed := out }, { l.inp with echoBuf := buf }⟩

theorem echoed_refl : Echoed l l.tty.bufsize l :=
  ⟨l.tty.echoed, l.inp.echoBuf, rfl⟩

theorem echoed_trans {l l' l'' : Loop} {n m : Nat} (h : Echoed l n l') (h' : Echoed l' m l'') :
    Echoed l m l'' := by
  rcases h with ⟨out, buf, rfl⟩
  rcases h' with ⟨out', buf', rfl⟩
  exact ⟨out', buf', rfl⟩

theorem echoed_size {l l' : Loop} {n : Nat} (h : Echoed l n l') : l'.tty.bufsize = n := by
  rcases h with ⟨out, buf, rfl⟩
  rfl

theorem ttyEchoFlush_echoed : Echoed l l.tty.bufsize (ttyEchoFlush l) :=
  ⟨_, _, rfl⟩

theorem ttyEchoBuffered_echoed (data : List (BitVec 8)) :
    Echoed l l.tty.bufsize (ttyEchoBuffered l data) := by
  unfold ttyEchoBuffered
  split
  · exact ⟨_, _, rfl⟩
  split <;> exact ⟨_, _, rfl⟩

theorem ttyEchoBuffered_twice (data data' : List (BitVec 8)) :
    Echoed l l.tty.bufsize (ttyEchoBuffered (ttyEchoBuffered l data) data') := by
  have hfirst := ttyEchoBuffered_echoed l data
  have hsecond := ttyEchoBuffered_echoed (ttyEchoBuffered l data) data'
  rw [echoed_size hfirst] at hsecond
  exact echoed_trans hfirst hsecond

theorem echoChar_echoed (sgn : Bool) (l : Loop) (ch : BitVec 8) :
    Echoed l l.tty.bufsize (echoChar sgn l ch) := by
  unfold echoChar
  split
  · exact ttyEchoBuffered_twice l _ _
  · exact ttyEchoBuffered_echoed l _

/-! ## What a character is for -/

/-- What a character is for. -/
inductive Role
  | data
  | flow
  | quote
  | eraseWord
  | erase
  | kill
  | endFile
  | endLine
  | signal
deriving DecidableEq

/-- What a character is for in a mode. Zero is always data, and a special character of zero
    is switched off. -/
def role (tm : Termios) (ch : BitVec 8) : Role :=
  if ch = 0 then .data
  else if has tm.iflags ixon ∧ (ch = tm.cc .vstart ∨ ch = tm.cc .vstop) then .flow
  else if has tm.lflags iexten ∧ ch = tm.cc .vlnext then .quote
  else if has tm.lflags iexten ∧ ch = tm.cc .vwerase then .eraseWord
  else if ch = tm.cc .verase then .erase
  else if ch = tm.cc .vkill then .kill
  else if ch = tm.cc .veof then .endFile
  else if ch = 0x0a ∨ ch = tm.cc .veol then .endLine
  else if has tm.lflags isig ∧
      (ch = tm.cc .vintr ∨ ch = tm.cc .vquit ∨ ch = tm.cc .vsusp) then .signal
  else .data

/-- The comparisons of the loop see what a character is for. Where characters are signed they
    see no special character in the upper half of the codes. -/
def Seen (sgn : Bool) (tm : Termios) (ch : BitVec 8) : Prop :=
  sgn = true → 0x80 ≤ ch.toNat → role tm ch = .data ∨ role tm ch = .flow

variable {ch : BitVec 8} {sgn : Bool}

theorem charIs_high {c : BitVec 8} (h : 0x80 ≤ ch.toNat) : charIs true ch c = false := by
  have hc := c.isLt
  unfold charIs charValue
  rw [if_pos rfl, BitVec.toInt_eq_toNat_cond, if_neg (by omega)]
  exact beq_false_of_ne (by omega)

theorem charIs_plain {c : BitVec 8} (h : ¬(sgn = true ∧ 0x80 ≤ ch.toNat)) :
    charIs sgn ch c = (ch == c) :=
  charIs_eq fun hs hhigh => absurd ⟨hs, hhigh⟩ h

/-- What the loop does for a character, by what it is for. -/
def roleTodo (sgn : Bool) (l : Loop) (ch : BitVec 8) : Role → Loop × Todo
  | .quote => (lnext l, .skip)
  | .eraseWord => (eraseWord sgn l, .skip)
  | .erase => (eraseLine sgn l ch, .skip)
  | .kill => (eraseLine sgn l ch, .skip)
  | .endFile => (l, .push (.canon ⟨0, keyOf l ch false⟩ true (has l.inp.lflags echoBit)))
  | .endLine =>
    (if has l.inp.lflags echoBit then ttyEchoBuffered l [0x0d, 0x0a] else l,
      .push (.canon ⟨ch, keyOf l ch false⟩ true (has l.inp.lflags echoBit)))
  | _ => noSpecial l ch false

theorem inputSignal_none {tty : Tty} (hintr : charIs sgn ch (tty.termios.cc .vintr) = false)
    (hquit : charIs sgn ch (tty.termios.cc .vquit) = false)
    (hsusp : charIs sgn ch (tty.termios.cc .vsusp) = false) : inputSignal sgn tty ch = none := by
  unfold inputSignal
  rw [hintr, hquit, hsusp]
  split <;> rfl

/-- The chain of comparisons goes by the role. -/
theorem canonSpecial_role {l : Loop} {tm : Termios} (htm : l.tty.termios = tm)
    (hlflags : l.inp.lflags = tm.lflags) (hcanon : has tm.lflags icanon = true) (hzero : ch ≠ 0)
    (hflow : role tm ch ≠ .flow) (hsignal : role tm ch ≠ .signal) (hseen : Seen sgn tm ch) :
    canonSpecial sgn l ch = roleTodo sgn l ch (role tm ch) := by
  have hbeq : (ch == 0) = false := beq_false_of_ne hzero
  unfold canonSpecial
  rw [hbeq, if_neg Bool.false_ne_true, htm, hlflags, hcanon]
  by_cases hhigh : sgn = true ∧ 0x80 ≤ ch.toNat
  · -- No comparison sees the character, and it is for nothing.
    rcases hhigh with ⟨rfl, hhigh⟩
    have hdata : role tm ch = .data := (hseen rfl hhigh).resolve_right hflow
    have hnl : (ch == 0x0a) = false := by
      refine beq_false_of_ne ?_
      rintro rfl
      exact absurd hhigh (by decide)
    have hsend : ttySendInputSignal true l ch = none := by
      unfold ttySendInputSignal
      rw [inputSignal_none (charIs_high hhigh) (charIs_high hhigh) (charIs_high hhigh)]
      split <;> rfl
    simp only [charIs_high hhigh, hnl, hdata, hsend, Bool.and_false, Bool.false_and,
      Bool.or_false, Bool.false_eq_true, if_false]
    rfl
  · have hsend : ¬(has tm.lflags isig = true ∧
        (ch = tm.cc .vintr ∨ ch = tm.cc .vquit ∨ ch = tm.cc .vsusp)) →
        ttySendInputSignal sgn l ch = none := by
      intro h
      unfold ttySendInputSignal
      rw [htm]
      split
      · rfl
      next hisig =>
      rw [Bool.not_eq_true', Bool.not_eq_false] at hisig
      rw [inputSignal_none]
      all_goals
        rw [htm, charIs_plain hhigh]
        refine beq_false_of_ne fun heq => h ⟨hisig, ?_⟩
      · exact Or.inl heq
      · exact Or.inr (Or.inl heq)
      · exact Or.inr (Or.inr heq)
    unfold role at hflow hsignal ⊢
    rw [if_neg hzero] at hflow hsignal ⊢
    split at hflow
    · exact absurd rfl hflow
    next hnoflow =>
    rw [if_neg hnoflow] at hsignal ⊢
    simp only [charIs_plain hhigh, Bool.and_eq_true, Bool.or_eq_true, beq_iff_eq, and_true]
    by_cases hquote : has tm.lflags iexten = true ∧ ch = tm.cc .vlnext
    · rw [if_pos hquote, if_pos hquote]
      rfl
    rw [if_neg hquote, if_neg hquote]
    by_cases hword : has tm.lflags iexten = true ∧ ch = tm.cc .vwerase
    · rw [if_pos hword, if_pos hword]
      rfl
    rw [if_neg hword, if_neg hword]
    by_cases herase : ch = tm.cc .verase
    · rw [if_pos (Or.inl herase), if_pos herase]
      rfl
    by_cases hkill : ch = tm.cc .vkill
    · rw [if_pos (Or.inr hkill), if_neg herase, if_pos hkill]
      rfl
    rw [if_neg (fun h => h.elim herase hkill), if_neg herase, if_neg hkill]
    by_cases heof : ch = tm.cc .veof
    · rw [if_pos heof, if_pos heof, ← hlflags]
      rfl
    rw [if_neg heof, if_neg heof]
    by_cases heol : ch = 0x0a ∨ ch = tm.cc .veol
    · rw [if_pos heol, if_pos heol, ← hlflags]
      rfl
    rw [if_neg heol, if_neg heol]
    rw [if_neg hquote, if_neg hword, if_neg herase, if_neg hkill, if_neg heof,
      if_neg heol] at hsignal
    by_cases hsig : has tm.lflags isig = true ∧
        (ch = tm.cc .vintr ∨ ch = tm.cc .vquit ∨ ch = tm.cc .vsusp)
    · rw [if_pos hsig] at hsignal
      exact absurd rfl hsignal
    · rw [hsend hsig, if_neg hsig]
      rfl

/-! ## A turn of the loop -/

/-- The rest of a turn that pushes. -/
theorem pushed_echoed (sgn : Bool) (l : Loop) (cell : Cell) (flag echo : Bool) :
    Echoed ⟨storeCanon l.tty cell flag, l.inp⟩ (l.tty.bufsize + 1)
      (pushed sgn l (.canon cell flag echo)) := by
  simp only [pushed]
  split
  · exact ttyEchoFlush_echoed ⟨storeCanon l.tty cell flag, l.inp⟩
  split
  · exact echoChar_echoed sgn ⟨storeCanon l.tty cell flag, l.inp⟩ cell.ch
  · exact echoed_refl ⟨storeCanon l.tty cell flag, l.inp⟩

end IshAok.Terminal
