import Mathlib.Data.List.Basic

/-!
# Bitmaps in 64-bit Words

A bitmap is a list of words, and bit `i` is bit `i % 64` of word `i / 64`. The
three operations shift and mask as C code does, and have no result when the
word is not there. The lemmas say what a test gives after a set or a clear,
which is all a client ever asks.

`bitSetFrom` is the loop that sets a range of bits. It gets through exactly
when the words reach that far.

## Main definitions

* `bitTest`, `bitSet`, `bitClear`: Reading and writing one bit.
* `bitSetFrom`: Setting a range of bits one by one.

## Theorems

* `bitTest_bitSet`: A test after a set.
* `bitTest_bitClear`: A test after a clear.
* `bitSetFrom_eq_some`: What the loop leaves behind.
* `bitSetFrom_isSome_iff`: When the loop stays inside the words.
-/

namespace IshAok.Base

open Option BitVec List

variable (words : List (BitVec 64))

/-- `(words[i / 64] >> (i % 64)) & 1`. -/
def bitTest (i : Nat) : Option Bool :=
  words[i / 64]?.map fun w : BitVec 64 => (w >>> (i % 64) &&& 1#64) != 0#64

/-- `words[i / 64] |= 1 << (i % 64)`. -/
def bitSet (i : Nat) : Option (List (BitVec 64)) :=
  words[i / 64]?.map fun w => words.set (i / 64) (w ||| 1#64 <<< (i % 64))

/-- `words[i / 64] &= ~(1 << (i % 64))`. -/
def bitClear (i : Nat) : Option (List (BitVec 64)) :=
  words[i / 64]?.map fun w => words.set (i / 64) (w &&& ~~~(1#64 <<< (i % 64)))

/-- Set `n` bits, from bit `i` on. -/
def bitSetFrom : Nat → Nat → List (BitVec 64) → Option (List (BitVec 64))
  | 0, _, words => some words
  | n + 1, i, words => (bitSet words i).bind (bitSetFrom n (i + 1))

/-- The shift and mask read one bit. -/
theorem masked_bit (w : BitVec 64) (k : Nat) :
    ((w >>> k &&& 1#64) != 0#64) = w.getLsbD k := by
  have hbit : w >>> k &&& 1#64 = if w.getLsbD k then 1#64 else 0#64 := by
    apply eq_of_getLsbD_eq
    intro j _
    rw [getLsbD_and, getLsbD_ushiftRight, getLsbD_one]
    rcases Nat.eq_zero_or_pos j with rfl | hpos
    · cases w.getLsbD k <;> simp
    · cases w.getLsbD k <;> simp [getLsbD_one, Nat.pos_iff_ne_zero.mp hpos]
  rw [hbit]
  cases w.getLsbD k <;> decide

theorem bitTest_eq (i : Nat) :
    bitTest words i = words[i / 64]?.map fun w => w.getLsbD (i % 64) := by
  unfold bitTest
  simp only [masked_bit]

/-- A bit can be read exactly when its word is there. -/
theorem bitTest_isSome (i : Nat) (h : i < 64 * words.length) :
    ∃ b, bitTest words i = some b := by
  have hlt : i / 64 < words.length := by omega
  rw [bitTest_eq, List.getElem?_eq_getElem hlt]
  exact ⟨_, rfl⟩

variable {i : Nat} {words' : List (BitVec 64)}

variable {words : List (BitVec 64)}

/-- What replacing the word of bit `i` does to a test: it is the new word's bit
    in that word, and nothing changes elsewhere. -/
theorem bitTest_setWord {w w' : BitVec 64} {b : Bool} (hw : words[i / 64]? = some w)
    (hbits : ∀ k, k < 64 → w'.getLsbD k = if k = i % 64 then b else w.getLsbD k) (j : Nat) :
    bitTest (words.set (i / 64) w') j = if j = i then some b else bitTest words j := by
  rcases List.getElem?_eq_some_iff.mp hw with ⟨hlt, _⟩
  rw [bitTest_eq, bitTest_eq]
  by_cases hword : j / 64 = i / 64
  · have hj : j = i ↔ j % 64 = i % 64 := by omega
    rw [hword, getElem?_set_self hlt, hw, map_some, map_some,
      hbits (j % 64) (by omega)]
    by_cases heq : j % 64 = i % 64
    · rw [if_pos heq, if_pos (hj.mpr heq)]
    · rw [if_neg heq, if_neg (fun h => heq (hj.mp h))]
  · rw [getElem?_set_ne (Ne.symm hword), if_neg (fun h => hword (by rw [h]))]

theorem bitSet_eq_some (h : bitSet words i = some words') :
    ∃ w, words[i / 64]? = some w ∧ words' = words.set (i / 64) (w ||| 1#64 <<< (i % 64)) := by
  unfold bitSet at h
  rcases map_eq_some_iff.mp h with ⟨w, hw, hset⟩
  exact ⟨w, hw, hset.symm⟩

theorem bitTest_bitSet (h : bitSet words i = some words') (j : Nat) :
    bitTest words' j = if j = i then some true else bitTest words j := by
  rcases bitSet_eq_some h with ⟨w, hw, rfl⟩
  refine bitTest_setWord hw (fun k hk => ?_) j
  rw [getLsbD_or, ← twoPow_eq, getLsbD_twoPow]
  by_cases hki : k = i % 64
  · simp [hki, Nat.mod_lt]
  · simp [hki, Ne.symm hki]

theorem bitTest_bitClear (h : bitClear words i = some words') (j : Nat) :
    bitTest words' j = if j = i then some false else bitTest words j := by
  unfold bitClear at h
  rcases map_eq_some_iff.mp h with ⟨w, hw, rfl⟩
  refine bitTest_setWord hw (fun k hk => ?_) j
  rw [getLsbD_and, getLsbD_not, ← twoPow_eq, getLsbD_twoPow]
  by_cases hki : k = i % 64
  · simp [hki, Nat.mod_lt]
  · simp [hki, Ne.symm hki, hk]

theorem bitSet_length (h : bitSet words i = some words') : words'.length = words.length := by
  rcases bitSet_eq_some h with ⟨w, _, rfl⟩
  exact length_set

theorem bitClear_length (h : bitClear words i = some words') : words'.length = words.length := by
  unfold bitClear at h
  rcases map_eq_some_iff.mp h with ⟨w, _, rfl⟩
  exact length_set

theorem bitSet_of_lt (words : List (BitVec 64)) (i : Nat) (h : i < 64 * words.length) :
    ∃ words', bitSet words i = some words' := by
  have hlt : i / 64 < words.length := by omega
  unfold bitSet
  rw [List.getElem?_eq_getElem hlt]
  exact ⟨_, rfl⟩

theorem bitClear_of_lt (words : List (BitVec 64)) (i : Nat) (h : i < 64 * words.length) :
    ∃ words', bitClear words i = some words' := by
  have hlt : i / 64 < words.length := by omega
  unfold bitClear
  rw [List.getElem?_eq_getElem hlt]
  exact ⟨_, rfl⟩

/-- The loop sets the bits of its range and leaves the others. -/
theorem bitSetFrom_eq_some (n : Nat) :
    ∀ (i : Nat) (words words' : List (BitVec 64)), bitSetFrom n i words = some words' →
      words'.length = words.length ∧
        ∀ j, bitTest words' j = if i ≤ j ∧ j < i + n then some true else bitTest words j := by
  induction n with
  | zero =>
    intro i words words' h
    cases h
    refine ⟨rfl, fun j => ?_⟩
    rw [if_neg (by omega)]
  | succ n ih =>
    intro i words words' h
    rcases bind_eq_some_iff.mp h with ⟨words₁, hset, hrest⟩
    rcases ih (i + 1) words₁ words' hrest with ⟨hlen, hbits⟩
    refine ⟨hlen.trans (bitSet_length hset), fun j => ?_⟩
    rw [hbits j, bitTest_bitSet hset j]
    -- Bit `i` was set in this turn, the rest of the range in the later ones.
    by_cases hj : j = i
    · rw [if_neg (by omega), if_pos hj, if_pos (by omega)]
    · rw [if_neg hj]
      by_cases hin : i + 1 ≤ j ∧ j < i + 1 + n
      · rw [if_pos hin, if_pos (by omega)]
      · rw [if_neg hin, if_neg (by omega)]

/-- The loop stays inside the words exactly when they reach its last bit. -/
theorem bitSetFrom_isSome_iff (n : Nat) : ∀ (i : Nat) (words : List (BitVec 64)),
      (bitSetFrom n i words).isSome ↔ n = 0 ∨ i + n ≤ 64 * words.length := by
  induction n with
  | zero =>
    intro i words
    exact iff_of_true rfl (.inl rfl)
  | succ n ih =>
    intro i words
    unfold bitSetFrom
    by_cases hlt : i < 64 * words.length
    · rcases bitSet_of_lt words i hlt with ⟨words₁, hset⟩
      rw [hset, bind_some, ih, bitSet_length hset]
      omega
    · have hnone : bitSet words i = none := by
        unfold bitSet
        rw [List.getElem?_eq_none (by omega), map_none]
      rw [hnone, bind_none]
      exact iff_of_false (by simp) (by omega)

end IshAok.Base
