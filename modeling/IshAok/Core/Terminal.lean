import IshAok.Core.Errno
import Mathlib.Logic.Function.Basic

/-!
# The Terminal Line Discipline

The model of the input side of `fs/tty.c`: `tty_input` with its canonical and its raw
loop, `tty_read`, and the requests that change the mode of a terminal or flush its input.

The buffer is two arrays, the bytes and the flags, and a count of the bytes in use. The
arrays are functions of the index, because what stays in them above the count matters: no
function clears it. A byte is kept together with the key it came from. The key is not in
the source and no function reads it; it says what the byte was when it was typed.

`tty_input` takes the flags of the mode once, under the lock, and goes through its bytes.
A step of the system is one byte, and the task that is in the loop holds the lock. When
the buffer is full the call lets go of the lock and sleeps, and other calls run. The
special characters are read through a pointer and are always those of the moment.

Whether a plain character of the compiler is signed is the parameter `sgn`. A special
character is unsigned, so a comparison of the two fails for the upper half of the codes
where characters are signed.

How a sleep ended, whether the other side of the terminal is closed and whether the caller
may read at all are given with the step. A notification is left out, since a task may come
back from its sleep at any time.

## Main definitions

* `Tty`, `Input`: The terminal, and the locals of a call of `tty_input`.
* `canonByte`, `rawByte`: The bodies of the two loops of `tty_input`, up to the push.
* `ttyReadIntoBuf`, `ttyCanonSize`: The two helpers of `tty_read`.
* `canonRound`, `rawRound`: The wait loops of `tty_read`.
* `Action`, `exec`, `Step`: The system.
-/

namespace IshAok.Terminal

/-- The signals that are typed. -/
inductive Signal
  | sigint
  | sigquit
  | sigtstp
deriving DecidableEq

/-- The entries of `termios.cc` that are read here. -/
inductive Cc
  | vintr
  | vquit
  | verase
  | vkill
  | veof
  | vtime
  | vmin
  | vstart
  | vstop
  | vsusp
  | veol
  | vwerase
  | vlnext
deriving DecidableEq

def isig : BitVec 32 := 1 <<< 0

def icanon : BitVec 32 := 1 <<< 1

def echoBit : BitVec 32 := 1 <<< 3

def echoe : BitVec 32 := 1 <<< 4

def echok : BitVec 32 := 1 <<< 5

def noflsh : BitVec 32 := 1 <<< 7

def echoctl : BitVec 32 := 1 <<< 9

def echoke : BitVec 32 := 1 <<< 11

def iexten : BitVec 32 := 1 <<< 15

def inlcr : BitVec 32 := 1 <<< 6

def igncr : BitVec 32 := 1 <<< 7

def icrnl : BitVec 32 := 1 <<< 8

def ixon : BitVec 32 := 1 <<< 10

def ixany : BitVec 32 := 1 <<< 11

/-- A test of a flag. -/
def has (flags bit : BitVec 32) : Bool :=
  flags &&& bit != 0

/-- `TTY_BUF_SIZE`. -/
def ttyBufSize : Nat := 4096

/-- The size of `echo_buf`. -/
def echoBufSize : Nat := 512

/-- The part of `struct termios_` that is read here. -/
structure Termios where
  iflags : BitVec 32
  lflags : BitVec 32
  cc : Cc → BitVec 8

/-- How a byte was typed: the character after the mapping of newlines, the mode of the
    call that took it, whether `VLNEXT` came before it, and the two special characters
    that ended a line at that time. -/
structure Key where
  ch : BitVec 8
  canonical : Bool
  quoted : Bool
  veof : BitVec 8
  veol : BitVec 8
deriving DecidableEq

/-- A byte of the buffer, with its key. -/
structure Cell where
  ch : BitVec 8
  key : Key
deriving DecidableEq

/-- `struct tty`. The list `echoed` is what was written back to the driver. The field
    `packetMode` is that of a master; it stays false for other terminals. -/
structure Tty where
  buf : Nat → Cell
  bufFlag : Nat → Bool
  lnextPending : Bool
  bufsize : Nat
  packetFlags : BitVec 8
  packetMode : Bool
  termios : Termios
  stopped : Bool
  tcoStopped : Bool
  fgGroup : Nat
  echoed : List (BitVec 8)

def Tty.setSize (tty : Tty) (n : Nat) : Tty :=
  { tty with bufsize := n }

def Tty.setLnext (tty : Tty) (pending : Bool) : Tty :=
  { tty with lnextPending := pending }

/-- The locals of a call of `tty_input`. The bytes that are left are `rest`. -/
structure Input where
  rest : List (BitVec 8)
  doneSize : Nat
  queue : List Signal
  lflags : BitVec 32
  iflags : BitVec 32
  blocking : Bool
  echoBuf : List (BitVec 8)

/-- The byte that could not be pushed is not counted. -/
def Input.undone (inp : Input) : Input :=
  { inp with doneSize := inp.doneSize - 1 }

/-- A call of `tty_input` in one of its loops. -/
structure Loop where
  tty : Tty
  inp : Input

/-! ## Characters -/

variable (sgn : Bool) (l : Loop) (ch : BitVec 8)

/-- The value a character has in an expression. -/
def charValue (ch : BitVec 8) : Int :=
  if sgn then ch.toInt else ch.toNat

/-- The comparison `ch == cc[i]`. -/
def charIs (ch c : BitVec 8) : Bool :=
  charValue sgn ch == (c.toNat : Int)

/-- `SHOULD_ECHOCTL`. -/
def shouldEchoctl : Bool :=
  let cc := l.tty.termios.cc
  has l.inp.lflags echoctl &&
    ((decide (0 ≤ charValue sgn ch) && decide (charValue sgn ch < 0x20)) || ch == 0x7f) &&
    !(ch == 0x09 || ch == 0x0a || charIs sgn ch (cc .vstart) || charIs sgn ch (cc .vstop))

/-! ## Echo -/

def ttyEcho (l : Loop) (data : List (BitVec 8)) : Loop :=
  { l with tty := { l.tty with echoed := l.tty.echoed ++ data } }

def ttyEchoFlush (l : Loop) : Loop :=
  { ttyEcho l l.inp.echoBuf with inp := { l.inp with echoBuf := [] } }

def ttyEchoBuffered (l : Loop) (data : List (BitVec 8)) : Loop :=
  if echoBufSize < data.length then ttyEcho (ttyEchoFlush l) data
  else
    let l' := if echoBufSize < l.inp.echoBuf.length + data.length then ttyEchoFlush l else l
    { l' with inp := { l'.inp with echoBuf := l'.inp.echoBuf ++ data } }

/-- The echo of a character, with a caret where it is a control character. -/
def echoChar : Loop :=
  if shouldEchoctl sgn l ch then
    ttyEchoBuffered (ttyEchoBuffered l [0x5e]) [ch ^^^ 0x40]
  else ttyEchoBuffered l [ch]

/-- The echo that takes a character off the screen, twice if it is shown as two. -/
def echoErase (wide : Bool) : Loop :=
  let l' := ttyEchoBuffered l [0x08, 0x20, 0x08]
  if wide && shouldEchoctl sgn l' ch then ttyEchoBuffered l' [0x08, 0x20, 0x08] else l'

/-! ## The functions that tty_input calls -/

def ttyStopOutputLocked (tty : Tty) : Tty :=
  { tty with stopped := true }

def ttyStartOutputLocked (tty : Tty) : Tty :=
  { tty with stopped := false }

/-- `tty_flow_control`. The comparison casts the special character. -/
def ttyFlowControl (tty : Tty) (ch : BitVec 8) (iflags : BitVec 32) : Tty × Bool :=
  if !has iflags ixon || ch == 0 then (tty, false)
  else if ch == tty.termios.cc .vstart then (ttyStartOutputLocked tty, true)
  else if ch == tty.termios.cc .vstop then (ttyStopOutputLocked tty, true)
  else if has iflags ixany then (ttyStartOutputLocked tty, false)
  else (tty, false)

/-- The signal that a character stands for. -/
def inputSignal (tty : Tty) (ch : BitVec 8) : Option Signal :=
  if ch == 0 then none
  else if charIs sgn ch (tty.termios.cc .vintr) then some .sigint
  else if charIs sgn ch (tty.termios.cc .vquit) then some .sigquit
  else if charIs sgn ch (tty.termios.cc .vsusp) then some .sigtstp
  else none

/-- `tty_send_input_signal`. It has no result where the character is no signal. -/
def ttySendInputSignal : Option Loop :=
  if !has l.tty.termios.lflags isig then none
  else match inputSignal sgn l.tty ch with
    | none => none
    | some sig =>
      if l.tty.fgGroup != 0 then
        some
          { tty := if has l.tty.termios.lflags noflsh then l.tty else l.tty.setSize 0
            inp := { l.inp with queue := l.inp.queue ++ [sig] } }
      else some l

/-- The loops that take characters off the end of the buffer. They stop at a flag, at a
    character that is not to be erased, and after a number of characters. -/
def eraseChars (sgn : Bool) (goOn : BitVec 8 → Bool) (visual wide : Bool) : Nat → Loop → Loop
  | 0, l => l
  | count + 1, l =>
    if l.tty.bufsize == 0 || l.tty.bufFlag (l.tty.bufsize - 1) ||
        !goOn (l.tty.buf (l.tty.bufsize - 1)).ch then l
    else
      let l' := { l with tty := l.tty.setSize (l.tty.bufsize - 1) }
      eraseChars sgn goOn visual wide count
        (if visual then echoErase sgn l' (l.tty.buf (l.tty.bufsize - 1)).ch wide else l')

def isBlank (ch : BitVec 8) : Bool :=
  ch == 0x20 || ch == 0x09

/-- The branch of `VWERASE`: blanks first, then the word before them. -/
def eraseWord : Loop :=
  let visual := has l.inp.lflags echoBit && has l.inp.lflags echoe
  let l' := eraseChars sgn isBlank visual false l.tty.bufsize l
  eraseChars sgn (fun ch => !isBlank ch) visual true l'.tty.bufsize l'

/-- The branch of `VERASE` and `VKILL`. -/
def eraseLine : Loop :=
  let one := charIs sgn ch (l.tty.termios.cc .verase) && decide (0 < l.tty.bufsize)
  let echo := has l.inp.lflags (if one then echoe else echok) && has l.inp.lflags echoBit
  let eraseVisually := one || has l.inp.lflags echoke
  let l' :=
    if echo && !eraseVisually then
      ttyEchoBuffered (echoChar sgn l ch) [0x0d, 0x0a]
    else l
  eraseChars sgn (fun _ => true) (echo && eraseVisually) true (if one then 1 else l.tty.bufsize) l'

/-! ## The bodies of the loops -/

/-- What is to be pushed. The canonical loop has a flag for it, and may echo it then. -/
inductive Pending
  | canon (cell : Cell) (flag echo : Bool)
  | raw (cell : Cell)

/-- What is left to do for a byte. A byte that is shown is echoed and not kept. -/
inductive Todo
  | skip
  | shown (ch : BitVec 8) (echo : Bool)
  | push (p : Pending)

/-- The key of a byte that is taken now. -/
def keyOf (l : Loop) (ch : BitVec 8) (quoted : Bool) : Key :=
  { ch := ch
    canonical := has l.inp.lflags icanon
    quoted := quoted
    veof := l.tty.termios.cc .veof
    veol := l.tty.termios.cc .veol }

/-- The mapping of newlines. It has no result for a byte that is ignored. -/
def mapInput (iflags : BitVec 32) (input : BitVec 8) : Option (BitVec 8) :=
  let ch : BitVec 8 :=
    if has iflags inlcr && input == 0x0a then 0x0d
    else if has iflags icrnl && input == 0x0d then 0x0a
    else input
  if has iflags igncr && ch == 0x0d then none else some ch

/-- The label `no_special`. -/
def noSpecial (l : Loop) (ch : BitVec 8) (quoted : Bool) : Loop × Todo :=
  (l, .push (.canon ⟨ch, keyOf l ch quoted⟩ false (has l.inp.lflags echoBit)))

/-- The branch of `VLNEXT`. -/
def lnext (l : Loop) : Loop :=
  let l' := { l with tty := l.tty.setLnext true }
  if has l.inp.lflags echoBit && has l.inp.lflags echoctl then
    ttyEchoBuffered (ttyEchoBuffered l' [0x5e]) [0x08]
  else l'

/-- The chain of special characters in the canonical loop. -/
def canonSpecial : Loop × Todo :=
  let cc := l.tty.termios.cc
  let echo := has l.inp.lflags echoBit
  if ch == 0 then noSpecial l ch false
  else if has l.inp.lflags iexten && charIs sgn ch (cc .vlnext) then (lnext l, .skip)
  else if has l.inp.lflags iexten && charIs sgn ch (cc .vwerase) &&
      has l.inp.lflags icanon then (eraseWord sgn l, .skip)
  else if charIs sgn ch (cc .verase) || charIs sgn ch (cc .vkill) then
    (eraseLine sgn l ch, .skip)
  else if charIs sgn ch (cc .veof) then
    (l, .push (.canon ⟨0, keyOf l ch false⟩ true echo))
  else if ch == 0x0a || charIs sgn ch (cc .veol) then
    (if echo then ttyEchoBuffered l [0x0d, 0x0a] else l,
      .push (.canon ⟨ch, keyOf l ch false⟩ true echo))
  else match ttySendInputSignal sgn l ch with
    | some l' => (l', .shown ch echo)
    | none => noSpecial l ch false

/-- The canonical loop for one byte, up to the push. -/
def canonByte (input : BitVec 8) : Loop × Todo :=
  match mapInput l.inp.iflags input with
  | none => (l, .skip)
  | some ch =>
    if l.tty.lnextPending then
      noSpecial { l with tty := l.tty.setLnext false } ch true
    else match ttyFlowControl l.tty ch l.inp.iflags with
      | (tty, true) => ({ l with tty := tty }, .skip)
      | (tty, false) => canonSpecial sgn { l with tty := tty } ch

/-- The raw loop for one byte, up to the push. -/
def rawByte (input : BitVec 8) : Loop × Todo :=
  match ttyFlowControl l.tty input l.inp.iflags with
  | (tty, true) => ({ l with tty := tty }, .skip)
  | (tty, false) =>
    let l' := { l with tty := tty }
    match ttySendInputSignal sgn l' input with
    | some l'' => (l'', .skip)
    | none => (l', .push (.raw ⟨input, keyOf l' input false⟩))

/-- One turn of the loop, up to the push. -/
def inputByte (input : BitVec 8) : Loop × Todo :=
  if has l.inp.lflags icanon then canonByte sgn l input else rawByte sgn l input

/-- The end of `tty_push_char`. -/
def storeCanon (tty : Tty) (cell : Cell) (flag : Bool) : Tty :=
  { tty with
    buf := Function.update tty.buf tty.bufsize cell
    bufFlag := Function.update tty.bufFlag tty.bufsize flag
    bufsize := tty.bufsize + 1 }

/-- The end of the raw loop. The flag is not written. -/
def storeRaw (tty : Tty) (cell : Cell) : Tty :=
  { tty with
    buf := Function.update tty.buf tty.bufsize cell
    bufsize := tty.bufsize + 1 }

/-- A push into a buffer with room, and the rest of the turn. -/
def pushed : Pending → Loop
  | .canon cell flag echo =>
    let l' := { l with tty := storeCanon l.tty cell flag }
    if flag then ttyEchoFlush l'
    else if echo then echoChar sgn l' cell.ch
    else l'
  | .raw cell => { l with tty := storeRaw l.tty cell }

/-! ## Reading -/

/-- `tty_read_into_buf`. The arrays are moved down by as much as is in use afterwards. -/
def ttyReadIntoBuf (tty : Tty) (n : Nat) : List Cell × Tty :=
  ((List.range n).map tty.buf, { tty with
      bufsize := tty.bufsize - n
      buf := fun i => if i < tty.bufsize - n then tty.buf (i + n) else tty.buf i
      bufFlag := fun i => if i < tty.bufsize - n then tty.bufFlag (i + n) else tty.bufFlag i })

/-- `tty_canon_size`. -/
def ttyCanonSize (tty : Tty) : Option Nat :=
  ((List.range tty.bufsize).find? tty.bufFlag).map (· + 1)

/-- What a call returns. The bytes of a read stand after the byte of packet mode, if there
    is one. The read of a line is noted with the room the caller had for it and with the
    end-of-file that was taken with it. -/
inductive Result
  | quiet
  | input (done : Nat) (err : Option Errno) (sent : List Signal)
  | read (header : List (BitVec 8)) (cells : List Cell)
  | line (room : Nat) (header : List (BitVec 8)) (cells : List Cell) (eof : Option Cell)
  | error (e : Errno)
deriving DecidableEq

/-- The end of a canonical read, for the size that `tty_canon_size` gave. -/
def readLine (tty : Tty) (room : Nat) (header : List (BitVec 8)) (canonSize : Nat) : Tty × Result :=
  let eofEndsThisLine := (tty.buf (canonSize - 1)).ch == 0
  let canonSize := if eofEndsThisLine then canonSize - 1 else canonSize
  let r := ttyReadIntoBuf tty (min (min room canonSize) tty.bufsize)
  if eofEndsThisLine && decide (0 < r.2.bufsize) && (r.2.buf 0).ch == 0 && r.2.bufFlag 0 then
    ((ttyReadIntoBuf r.2 1).2, .line room header r.1 (some (r.2.buf 0)))
  else (r.2, .line room header r.1 none)

/-- The end of a raw read. -/
def readRaw (tty : Tty) (room : Nat) (header : List (BitVec 8)) : Tty × Result :=
  let r := ttyReadIntoBuf tty (min room tty.bufsize)
  (r.2, .read header r.1)

/-- Where a task is. A task that types holds the lock, and one that sleeps does not. A raw
    read has the limits it started with, and sleeps with a time limit or without. -/
inductive Phase
  | idle
  | typing (inp : Input)
  | pushing (inp : Input) (p : Pending)
  | canonReading (room : Nat) (header : List (BitVec 8))
  | rawReading (room : Nat) (header : List (BitVec 8)) (vmin vtime : BitVec 8) (timed : Bool)

/-- The system: the terminal, the task that holds its lock, and where the tasks are. -/
structure State (T : Type) where
  tty : Tty
  holder : Option T
  phase : T → Phase

variable {T : Type} [DecidableEq T] (sgn : Bool) (s : State T)

def State.setPhase (s : State T) (t : T) (p : Phase) : State T :=
  { s with phase := Function.update s.phase t p }

/-- The end of `tty_input`. -/
def endInput (s : State T) (t : T) (l : Loop) (err : Option Errno) : State T × Result :=
  let l' := if has l.inp.lflags icanon then ttyEchoFlush l else l
  let sent := if l'.tty.fgGroup != 0 then
      [Signal.sigint, .sigquit, .sigtstp].filter (fun sig => decide (sig ∈ l'.inp.queue))
    else []
  ({ s with tty := l'.tty, holder := none }.setPhase t .idle,
    .input l'.inp.doneSize (if l'.inp.doneSize == 0 then err else none) sent)

/-- The loop that waits for room, each time it looks at the buffer. -/
def pushRound (t : T) (l : Loop) (p : Pending) : State T × Result :=
  if l.tty.bufsize < ttyBufSize then
    let l' := pushed sgn l p
    ({ s with tty := l'.tty, holder := some t }.setPhase t (.typing l'.inp), .quiet)
  else if !l.inp.blocking then
    endInput s t { l with inp := l.inp.undone } (some .eagain)
  else ({ s with tty := l.tty, holder := none }.setPhase t (.pushing l.inp p), .quiet)

/-- One turn of a loop of `tty_input`. -/
def inputTurn (t : T) (inp : Input) : State T × Result :=
  match inp.rest with
  | [] => endInput s t ⟨s.tty, inp⟩ none
  | ch :: rest =>
    match inputByte sgn ⟨s.tty, { inp with rest := rest, doneSize := inp.doneSize + 1 }⟩ ch with
    | (l, .skip) => ({ s with tty := l.tty }.setPhase t (.typing l.inp), .quiet)
    | (l, .shown ch echo) =>
      let l' := if echo then echoChar sgn l ch else l
      ({ s with tty := l'.tty }.setPhase t (.typing l'.inp), .quiet)
    | (l, .push p) => pushRound sgn s t l p

/-- The wait loop of a canonical read. -/
def canonRound (s : State T) (t : T) (room : Nat) (header : List (BitVec 8))
    (closed nonblock : Bool) : State T × Result :=
  match ttyCanonSize s.tty with
  | some canonSize =>
    let r := readLine s.tty room header canonSize
    ({ s with tty := r.1 }.setPhase t .idle, r.2)
  | none =>
    if closed then (s.setPhase t .idle, .error .eio)
    else if nonblock then (s.setPhase t .idle, .error .eagain)
    else (s.setPhase t (.canonReading room header), .quiet)

/-- Whether a raw read waits. The first of its loops runs only for a minimum of zero with a
    time limit, the second one only for a positive minimum. -/
def rawWaits (tty : Tty) (vmin vtime : BitVec 8) : Bool :=
  if vmin == 0 then vtime != 0 && tty.bufsize == 0 else decide (tty.bufsize < vmin.toNat)

/-- The wait loops of a raw read. -/
def rawRound (s : State T) (t : T) (room : Nat) (header : List (BitVec 8))
    (vmin vtime : BitVec 8) (closed nonblock : Bool) : State T × Result :=
  if rawWaits s.tty vmin vtime then
    if closed then (s.setPhase t .idle, .error .eio)
    else if nonblock then (s.setPhase t .idle, .error .eagain)
    else
      -- A first character is waited for without a time limit if there is a minimum.
      let timed := vtime != 0 && (vmin == 0 || s.tty.bufsize != 0)
      (s.setPhase t (.rawReading room header vmin vtime timed), .quiet)
  else
    let r := readRaw s.tty room header
    ({ s with tty := r.1 }.setPhase t .idle, r.2)

/-- The byte that a read in packet mode returns first. -/
def packetHeader (tty : Tty) : List (BitVec 8) :=
  if tty.packetMode then [tty.packetFlags] else []

/-- The room that is left after it. -/
def packetRoom (tty : Tty) (room : Nat) : Nat :=
  if tty.packetMode then room - 1 else room

/-- `tty_read` from where it has the lock for good. -/
def ttyRead (s : State T) (t : T) (room : Nat) (closed nonblock : Bool) : State T × Result :=
  let header := packetHeader s.tty
  let room' := packetRoom s.tty room
  if s.tty.packetMode && (s.tty.packetFlags != 0 || room' == 0) then
    (s, .read header [])
  else if has s.tty.termios.lflags icanon then canonRound s t room' header closed nonblock
  else
    rawRound s t room' header (s.tty.termios.cc .vmin) (s.tty.termios.cc .vtime) closed nonblock

/-! ## The requests -/

/-- The requests that set the mode. Those that end in `F` flush the input first. -/
def setTermios (tty : Tty) (flush : Bool) (termios : Termios) : Tty :=
  let tty := { tty with bufsize := if flush then 0 else tty.bufsize, termios := termios }
  if !has termios.iflags ixon && tty.stopped && !tty.tcoStopped then ttyStartOutputLocked tty
  else tty

/-- `TCXONC` for the output. -/
def tcxonc (tty : Tty) (off : Bool) : Tty :=
  if off then
    if tty.tcoStopped then tty else ttyStopOutputLocked { tty with tcoStopped := true }
  else if tty.tcoStopped then ttyStartOutputLocked { tty with tcoStopped := false }
  else tty

/-! ## The system -/

/-- How a sleep ended. -/
inductive Wake
  | woken
  | timedOut
  | interrupted
deriving DecidableEq

/-- A step. A read that is refused returns nothing where the terminal was hung up, or the
    error of the check of the foreground group. -/
inductive Action (T : Type)
  | input (t : T) (bytes : List (BitVec 8)) (blocking : Bool)
  | turn (t : T)
  | read (t : T) (room : Nat) (closed nonblock : Bool)
  | readRefused (t : T) (e : Option Errno)
  | wake (t : T) (w : Wake) (closed nonblock : Bool)
  | setTermios (flush : Bool) (termios : Termios)
  | tcflsh
  | tcxonc (off : Bool)
  | setFgGroup (pgid : Nat)
  | setPacketMode (on : Bool)

/-- The locals of `tty_input` at its start. -/
def Input.start (tty : Tty) (bytes : List (BitVec 8)) (blocking : Bool) : Input :=
  { rest := bytes
    doneSize := 0
    queue := []
    lflags := tty.termios.lflags
    iflags := tty.termios.iflags
    blocking := blocking
    echoBuf := [] }

/-- A task comes back to the terminal with the lock. -/
def resume (t : T) (w : Wake) (closed nonblock : Bool) :
    Option (State T × Result) :=
  match s.phase t, w with
  | .canonReading _ _, .interrupted => some (s.setPhase t .idle, .error .eintr)
  | .canonReading room header, .woken => some (canonRound s t room header closed nonblock)
  | .rawReading _ _ _ _ _, .interrupted => some (s.setPhase t .idle, .error .eintr)
  | .rawReading room header vmin vtime _, .woken =>
    some (rawRound s t room header vmin vtime closed nonblock)
  | .rawReading room header _ _ true, .timedOut =>
    let r := readRaw s.tty room header
    some ({ s with tty := r.1 }.setPhase t .idle, r.2)
  | .pushing inp _, .interrupted =>
    some (endInput s t ⟨s.tty, inp.undone⟩ (some .eintr))
  | .pushing inp p, .woken => some (pushRound sgn s t ⟨s.tty, inp⟩ p)
  | _, _ => none

/-- The actions that need the lock. -/
def execFree : Action T → Option (State T × Result)
  | .turn _ => none
  | .input t bytes blocking =>
    match s.phase t with
    | .idle =>
      some ({ s with holder := some t }.setPhase t
        (.typing (Input.start s.tty bytes blocking)), .quiet)
    | _ => none
  | .read t room closed nonblock =>
    match s.phase t with
    | .idle =>
      some (if room == 0 then (s, .read [] []) else ttyRead s t room closed nonblock)
    | _ => none
  | .readRefused t e =>
    match s.phase t with
    | .idle => some (s, (e.map Result.error).getD (.read [] []))
    | _ => none
  | .wake t w closed nonblock => resume sgn s t w closed nonblock
  | .setTermios flush termios =>
    some ({ s with tty := setTermios s.tty flush termios }, .quiet)
  | .tcflsh => some ({ s with tty := s.tty.setSize 0 }, .quiet)
  | .tcxonc off => some ({ s with tty := tcxonc s.tty off }, .quiet)
  | .setFgGroup pgid => some ({ s with tty := { s.tty with fgGroup := pgid } }, .quiet)
  | .setPacketMode on => some ({ s with tty := { s.tty with packetMode := on } }, .quiet)

/-- The step of an action. While a task types it holds the lock, and only it goes on. -/
def exec (a : Action T) : Option (State T × Result) :=
  match s.holder with
  | none => execFree sgn s a
  | some h =>
    match a with
    | .turn t =>
      match s.phase t with
      | .typing inp => if h = t then some (inputTurn sgn s t inp) else none
      | _ => none
    | _ => none

/-- The steps of the system. -/
def Step (a : Action T × Result) (u : State T) : Prop :=
  exec sgn s a.1 = some (u, a.2)

/-- `tty_init_termios`. -/
def ttyInitTermios : Termios where
  iflags := icrnl ||| ixon
  lflags := isig ||| icanon ||| echoBit ||| echoe ||| echok ||| echoctl ||| echoke ||| iexten
  cc
    | .vintr => 0x03
    | .vquit => 0x1c
    | .verase => 0x7f
    | .vkill => 0x15
    | .veof => 0x04
    | .vtime => 0x00
    | .vmin => 0x01
    | .vstart => 0x11
    | .vstop => 0x13
    | .vsusp => 0x1a
    | .veol => 0x00
    | .vwerase => 0x17
    | .vlnext => 0x16

/-- `tty_alloc`. -/
def ttyAlloc : Tty where
  buf := fun _ => ⟨0, ⟨0, false, false, 0, 0⟩⟩
  bufFlag := fun _ => false
  lnextPending := false
  bufsize := 0
  packetFlags := 0
  packetMode := false
  termios := ttyInitTermios
  stopped := false
  tcoStopped := false
  fgGroup := 0
  echoed := []

/-- A new terminal that nobody uses. -/
def State.start : State T where
  tty := ttyAlloc
  holder := none
  phase := fun _ => .idle

end IshAok.Terminal
