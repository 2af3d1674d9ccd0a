import Mathlib

/-!
# C Text Functions

The pieces of the C library that turn bytes into fields: where a string ends,
how `strtok_r` cuts it into tokens, and what `sscanf` does with a space and
with `%llu`. Text is a list of characters, one for each byte.

`scanUll` follows `strtoull` in base ten, which is what the conversion is
defined by. A sign is allowed, a negative number is the two's complement of
its magnitude, and a magnitude that does not fit 64 bits is `2 ^ 64 - 1`
whatever its sign.

## Main definitions

* `cString`: The text up to its terminator.
* `strtok`: The non-empty tokens between separators.
* `skipSpace`: What a space in a `sscanf` format consumes.
* `scanUll`: What `%llu` consumes and the value it gives.
-/

namespace IshAok.Base

/-- A buffer read as a C string: everything before the first NUL. -/
def cString (text : List Char) : List Char :=
  text.takeWhile (· ≠ Char.ofNat 0)

/-- Collect tokens, `cur` being the one under construction, reversed. -/
def strtokFrom (sep : Char) : List Char → List Char → List (List Char)
  | cur, [] => if cur = [] then [] else [cur.reverse]
  | cur, c :: rest =>
    if c = sep then
      if cur = [] then strtokFrom sep [] rest else cur.reverse :: strtokFrom sep [] rest
    else strtokFrom sep (c :: cur) rest

/-- The tokens `strtok_r` returns for one separator. Runs of separators count
    as one, so no token is empty. -/
def strtok (sep : Char) (text : List Char) : List (List Char) :=
  strtokFrom sep [] text

/-- `isspace` in the C locale. -/
def isSpace (c : Char) : Bool :=
  c = ' ' || (9 ≤ c.toNat && c.toNat ≤ 13)

/-- A space in a `sscanf` format: any amount of white space, none included. -/
def skipSpace (text : List Char) : List Char :=
  text.dropWhile isSpace

/-- The value of a run of decimal digits. -/
def decimal (digits : List Char) : Nat :=
  digits.foldl (fun n c => 10 * n + (c.toNat - 48)) 0

/-- The sign `strtoull` reads, and what follows it. -/
def scanSign : List Char → Bool × List Char
  | '-' :: rest => (true, rest)
  | '+' :: rest => (false, rest)
  | text => (false, text)

/-- `strtoull`'s value for a sign and a magnitude. -/
def ullValue (negative : Bool) (magnitude : Nat) : Nat :=
  if 2 ^ 64 ≤ magnitude then 2 ^ 64 - 1
  else if negative then (2 ^ 64 - magnitude) % 2 ^ 64
  else magnitude

/-- `%llu`: skip white space, then read the longest number there is. Fails
    when there is no digit. -/
def scanUll (text : List Char) : Option (Nat × List Char) :=
  let (negative, body) := scanSign (skipSpace text)
  let digits := body.takeWhile Char.isDigit
  if digits = [] then none
  else some (ullValue negative (decimal digits), body.dropWhile Char.isDigit)

end IshAok.Base
