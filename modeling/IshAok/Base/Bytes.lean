import Mathlib.Data.List.Basic

/-!
# Windows of a Block of Memory

A block is a list of cells, and code that copies in and out of it touches one
window at a time: a start and a length. `readAt` and `writeAt` are the two
copies, and each has no result when its window leaves the block, so an access
out of bounds is visible in whatever uses them.

Everything a client needs is how the two interact. A write keeps the length
of the block, reading the window just written gives back what was written,
and a write leaves every window it does not touch alone.

## Main definitions

* `readAt`: Copy a window out of a block.
* `writeAt`: Copy a list of cells into a block.

## Theorems

* `readAt_of_le`: A window inside the block can be read.
* `writeAt_of_le`: A window inside the block can be written.
* `writeAt_length`: A write keeps the length of the block.
* `readAt_writeAt_same`: Reading back the window that was written.
* `readAt_writeAt_apart`: A write leaves the other windows alone.
* `windows_apart`: Different entries of an array do not overlap.
-/

namespace IshAok.Base

open List

variable {α : Type*}

/-- The `n` cells from `off` on, when the block has them all. -/
def readAt (mem : List α) (off n : Nat) : Option (List α) :=
  if off + n ≤ mem.length then some ((mem.drop off).take n) else none

/-- The block with the given cells copied in at `off`, when they fit. -/
def writeAt (mem : List α) (off : Nat) (cells : List α) : Option (List α) :=
  if off + cells.length ≤ mem.length then
    some (mem.take off ++ cells ++ mem.drop (off + cells.length))
  else none

theorem readAt_of_le (mem : List α) (off n : Nat) (h : off + n ≤ mem.length) :
    ∃ cells, readAt mem off n = some cells ∧ cells.length = n := by
  refine ⟨(mem.drop off).take n, if_pos h, ?_⟩
  rw [length_take, length_drop]
  omega

theorem writeAt_of_le (mem : List α) (off : Nat) (cells : List α)
    (h : off + cells.length ≤ mem.length) : ∃ mem', writeAt mem off cells = some mem' :=
  ⟨_, if_pos h⟩

variable {mem mem' cells : List α} {off : Nat}

section

variable (h : writeAt mem off cells = some mem')

include h

/-- A write that happened was in bounds and says what the block became. -/
theorem writeAt_eq_some : off + cells.length ≤ mem.length ∧
      mem' = mem.take off ++ cells ++ mem.drop (off + cells.length) := by
  unfold writeAt at h
  by_cases hle : off + cells.length ≤ mem.length
  · rw [if_pos hle, Option.some.injEq] at h
    exact ⟨hle, h.symm⟩
  · rw [if_neg hle] at h
    cases h

theorem writeAt_length : mem'.length = mem.length := by
  rcases writeAt_eq_some h with ⟨hle, rfl⟩
  simp only [length_append, length_take, length_drop]
  omega

/-- Cell by cell: inside the window the new cells, outside it the old ones. -/
theorem writeAt_getElem? (i : Nat) :
    mem'[i]? = if off ≤ i ∧ i < off + cells.length then cells[i - off]? else mem[i]? := by
  rcases writeAt_eq_some h with ⟨hle, rfl⟩
  have htake : (mem.take off).length = off := by rw [length_take]; omega
  rcases Nat.lt_or_ge i off with hlo | hlo
  -- Before the window.
  · rw [if_neg (by omega), append_assoc, getElem?_append_left (by omega),
      getElem?_take_of_lt hlo]
  rw [append_assoc, getElem?_append_right (by omega), htake]
  by_cases hhi : i < off + cells.length
  -- Inside it.
  · rw [if_pos ⟨hlo, hhi⟩, getElem?_append_left (by omega)]
  -- Past it.
  · rw [if_neg (by omega), getElem?_append_right (by omega), getElem?_drop]
    congr 1
    omega

end

/-- Two blocks of one length that agree on a window read the same there. -/
theorem readAt_congr {n : Nat} (hlen : mem'.length = mem.length)
    (h : ∀ i, off ≤ i → i < off + n → mem'[i]? = mem[i]?) :
    readAt mem' off n = readAt mem off n := by
  unfold readAt
  congr 2
  apply ext_getElem?
  intro i
  by_cases hi : i < n
  · rw [getElem?_take_of_lt hi, getElem?_take_of_lt hi, getElem?_drop,
      getElem?_drop]
    exact h (off + i) (by omega) (by omega)
  · rw [getElem?_take_eq_none (by omega), getElem?_take_eq_none (by omega)]

theorem readAt_writeAt_same (h : writeAt mem off cells = some mem') :
    readAt mem' off cells.length = some cells := by
  have hlen := writeAt_length h
  rcases writeAt_eq_some h with ⟨hle, -⟩
  unfold readAt
  rw [if_pos (by omega), Option.some.injEq]
  apply ext_getElem?
  intro i
  by_cases hi : i < cells.length
  · rw [getElem?_take_of_lt hi, getElem?_drop, writeAt_getElem? h,
      if_pos (by omega), Nat.add_sub_cancel_left]
  · rw [getElem?_take_eq_none (by omega), getElem?_eq_none (by omega)]

theorem readAt_writeAt_apart {off' n : Nat} (h : writeAt mem off cells = some mem')
    (hapart : off + cells.length ≤ off' ∨ off' + n ≤ off) :
    readAt mem' off' n = readAt mem off' n := by
  refine readAt_congr (writeAt_length h) fun i hlo hhi => ?_
  rw [writeAt_getElem? h, if_neg (by omega)]

/-- Windows inside different entries of an array of `size`-cell entries do not
    overlap. -/
theorem windows_apart (size e e' m n : Nat) (hne : e ≠ e') (hm : m ≤ size) (hn : n ≤ size) :
    e * size + m ≤ e' * size ∨ e' * size + n ≤ e * size := by
  rcases Nat.lt_or_gt_of_ne hne with hlt | hlt
  · left
    have := Nat.mul_le_mul_right size (Nat.succ_le_of_lt hlt)
    rw [Nat.succ_mul] at this
    omega
  · right
    have := Nat.mul_le_mul_right size (Nat.succ_le_of_lt hlt)
    rw [Nat.succ_mul] at this
    omega

end IshAok.Base
