import IshAok.Theory.Path.Turn

/-!
# The Text of a Followed Link

`__path_normalize` reads a link's text into the room left behind the directory
that holds the link and puts a terminator behind what it has read. A text that
leaves a byte of the room free is walked whole, with the rest of the path
behind it, or the call fails because the two together are too long. A text
that fills the room puts the terminator past the buffer. A procfs link out of
the caller's root loses the note that says so.

## Main definitions

* `FollowsLink`: The next turn follows a link.
* `Jumps`: The link is a procfs link out of the caller's root.
* `WalkedWhole`: The text is walked whole, or the call is refused.

## Theorems

* `symlink_whole_iff`: When the text of a followed link is walked whole.
-/

namespace IshAok.Path

open Base List

/-- A link under a process's own directory. -/
def magicName (f : Found) : Bool :=
  f.procfs && f.trimmed.head? = some '/' && (f.trimmed.drop 1).head?.any Char.isDigit

/-- The next turn follows the link at `k`: the file system has its text, and no
    flag refuses a link there. -/
structure FollowsLink (w : World) (b : Walker) (k : Component) (f : Found) (text : Text) : Prop
    extends LooksUp w b k where
  short : k.out.length < maxPath
  found : w.find k.out = some f
  normalized : pathIsNormalized f.trimmed = true
  link : f.link = some text
  allowed : b.flags.noSymlinks = false ∧ b.left ≠ 0
  not_magic : (magicName f && b.flags.noMagiclinks) = false ∧
    (magicName f && (b.flags.inRoot || b.flags.beneath || b.flags.noXdev)) = false

/-- The text is a procfs note with a global path behind it. -/
def Jumps (f : Found) (text : Text) : Prop :=
  (f.procfs && (unreachable ++ ['/']).isPrefixOf text) = true

/-- The link at `k` is replaced by all of its text with the rest of the path
    behind it. Otherwise the call fails, for the length of the two or because
    the walk may not start over at the root. -/
def WalkedWhole (w : World) (rootPath : Option Text) (b : Walker) (k : Component)
    (text : Text) : Prop :=
  (∃ e, turn w rootPath b.flags b.left b.cursor = .expand e ∧ Follows rootPath b.flags k text e) ∨
  (turn w rootPath b.flags b.left b.cursor = .ret (fail .enametoolong) ∧
    maxPath ≤ (linked k text).length + k.rest.length) ∨
  (turn w rootPath b.flags b.left b.cursor = .ret (fail .exdev) ∧ text.head? = some '/' ∧
    (b.flags.beneath || b.flags.noXdev) = true)

variable {w : World} {b : Walker} {k : Component} {f : Found} {text : Text}
  (rootPath : Option Text)

/-- The turn reads what fits of the text and follows that. -/
theorem turn_followsLink (h : FollowsLink w b k f text) :
    turn w rootPath b.flags b.left b.cursor = follow w rootPath b.flags b.left k f
      (text.take (maxPath - (k.parent.length + 1))) := by
  rw [turn_looksUp rootPath h.toLooksUp, lookUp, if_neg (Nat.not_le.mpr h.short), h.found]
  simp only [h.normalized, Bool.not_true, Bool.false_eq_true, if_false, h.link]

/-- A text that fills the room has its terminator put past the buffer. -/
theorem turn_overrun (h : FollowsLink w b k f text)
    (hlong : maxPath ≤ k.parent.length + 1 + text.length) :
    turn w rootPath b.flags b.left b.cursor = .ret (.error .overrun) ∧
      ¬ WalkedWhole w rootPath b k text := by
  have hturn : turn w rootPath b.flags b.left b.cursor = .ret (.error .overrun) := by
    rw [turn_followsLink rootPath h, follow, if_neg (by simp [h.allowed.1])]
    rw [← magicName, if_neg (by simp [h.not_magic.1]), if_neg (by simp [h.not_magic.2]),
      if_neg h.allowed.2, if_pos (by rw [length_take]; omega)]
  refine ⟨hturn, ?_⟩
  rw [WalkedWhole, hturn]
  rintro (⟨e, he, -⟩ | ⟨he, -⟩ | ⟨he, -⟩) <;> cases he

/-- A text that leaves room is walked whole unless it is a procfs note. -/
theorem turn_whole (h : FollowsLink w b k f text)
    (hfit : k.parent.length + 1 + text.length < maxPath) (hjump : ¬ Jumps f text) :
    WalkedWhole w rootPath b k text := by
  have hturn := turn_followsLink rootPath h
  rw [take_of_length_le (by omega), follow, if_neg (by simp [h.allowed.1])] at hturn
  rw [← magicName, if_neg (by simp [h.not_magic.1]), if_neg (by simp [h.not_magic.2]),
    if_neg h.allowed.2, if_neg (Nat.not_le.mpr hfit)] at hturn
  have hbase : (linked k text).length < maxPath := by
    unfold linked
    split
    · omega
    · rw [length_append, length_cons]
      omega
  simp only [eq_false_of_ne_true hjump, Bool.false_eq_true, if_false, Bool.not_false, true_and,
    and_true] at hturn
  rw [← linked, spliced_eq hbase] at hturn
  split at hturn
  · next hb => exact .inr (.inr ⟨hturn, hb.1, by simp [hb.2]⟩)
  split at hturn
  · next hx => exact .inr (.inr ⟨hturn, hx.1, by simp [hx.2.1]⟩)
  next hbeneath _ =>
  by_cases hlen : (linked k text).length + k.rest.length < maxPath
  · rw [if_pos hlen] at hturn
    have hb : text.head? = some '/' → b.flags.beneath = false := by simpa using hbeneath
    rcases expand_follows rootPath b.flags k _ hb with ⟨e, he, hf⟩
    exact .inl ⟨e, hturn.trans he, hf⟩
  · rw [if_neg hlen] at hturn
    exact .inr (.inl ⟨hturn, Nat.not_lt.mp hlen⟩)

theorem jumps_head (h : Jumps f text) :
    text.head? ≠ some '/' ∧ (text.drop unreachable.length).head? = some '/' := by
  rcases isPrefixOf_iff_prefix.mp (Bool.and_eq_true_iff.mp h).2 with ⟨u, rfl⟩
  exact ⟨by rintro ⟨⟩, rfl⟩

/-- A procfs note is taken off, and the path behind it is walked from the top. -/
theorem turn_jump (h : FollowsLink w b k f text)
    (hfit : k.parent.length + 1 + text.length < maxPath) (hjump : Jumps f text) :
    turn w rootPath b.flags b.left b.cursor =
      if text.length - unreachable.length + k.rest.length < maxPath then
        .expand ⟨none, text.drop unreachable.length ++ k.rest, { b.flags with detachedOk := true }⟩
      else .ret (fail .enametoolong) := by
  rcases Bool.and_eq_true_iff.mp hjump with ⟨hproc, hnote⟩
  have hhead := (jumps_head hjump).2
  have hturn := turn_followsLink rootPath h
  rw [take_of_length_le (by omega), follow, if_neg (by simp [h.allowed.1])] at hturn
  rw [← magicName, if_neg (by simp [h.not_magic.1]), if_neg (by simp [h.not_magic.2]),
    if_neg h.allowed.2, if_neg (Nat.not_le.mpr hfit)] at hturn
  simp only [hproc, hnote, Bool.true_and, if_true, hhead, Bool.not_true, Bool.false_eq_true,
    false_and, and_false, if_false, Bool.true_or, not_true_eq_false] at hturn
  rw [hturn, spliced_eq (by rw [length_drop]; omega), length_drop]
  split_ifs <;> rfl

/-- Every link a call of `__path_normalize` follows. Where the turn returns,
    so does the call. The text is walked whole, or the call is refused, just
    when the text leaves a byte of the room behind its directory free and is
    not a procfs note whose path is walked without it. -/
theorem symlink_whole_iff {rootPath atPath : Option Text} {path : Text} {flags : Flags} {left : Nat}
    {c : Cursor} {tr : List (Walker × Bool)} (hc : enter flags atPath path = .ok c)
    (hrun : Run (WalkStep w rootPath) ⟨left, flags, c⟩ tr b) (h : FollowsLink w b k f text) :
    (∀ a, turn w rootPath b.flags b.left b.cursor = .ret a →
      innerPathNormalize w rootPath atPath path flags left = a) ∧
    (WalkedWhole w rootPath b k text ↔ k.parent.length + 1 + text.length < maxPath ∧
      ¬ (Jumps f text ∧ text.length - unreachable.length + k.rest.length < maxPath)) := by
  constructor
  · intro a ha
    rw [innerPathNormalize, hc, ← resolve_of_ret ha]
    exact answer_run hrun
  by_cases hfit : k.parent.length + 1 + text.length < maxPath
  · by_cases hjump : Jumps f text
    · have hturn := turn_jump rootPath h hfit hjump
      have hhead := (jumps_head hjump).1
      by_cases hlen : text.length - unreachable.length + k.rest.length < maxPath
      · rw [if_pos hlen] at hturn
        refine iff_of_false ?_ (fun hw => hw.2 ⟨hjump, hlen⟩)
        rw [WalkedWhole, hturn]
        rintro (⟨e, he, hf⟩ | ⟨he, -⟩ | ⟨he, -⟩)
        · cases he
          rcases hf.call with ⟨h0, -⟩ | ⟨-, -, h0, -⟩ | ⟨-, -, h0⟩
          · exact hhead h0
          · cases h0
          · have h1 := congrArg length h0
            simp only [length_append, length_drop, length_cons] at h1
            omega
        · cases he
        · cases he
      · rw [if_neg hlen] at hturn
        refine iff_of_true (.inr (.inl ⟨hturn, ?_⟩)) ⟨hfit, fun hw => hlen hw.2⟩
        rw [linked, if_neg hhead, length_append, length_cons]
        omega
    · exact iff_of_true (turn_whole rootPath h hfit hjump) ⟨hfit, fun hj => hjump hj.1⟩
  · exact iff_of_false (turn_overrun rootPath h (Nat.not_lt.mp hfit)).2 (fun hw => hfit hw.1)

/-- A directory with one link in it. -/
def oneLink (text : Text) : World where
  find q := some ⟨q, false, if q = "/l".toList then some text else none, .ok ⟨true, true, true⟩⟩
  mountId _ := some 0

/-- The walker that stands at the link. -/
def atLink : Walker :=
  ⟨maxSymlinks, { symlinkFollow := true }, ⟨[], 4095, none, "l".toList⟩⟩

theorem atLink_follows (text : Text) : FollowsLink (oneLink text) atLink (component atLink.cursor)
    ⟨"/l".toList, false, some text, .ok ⟨true, true, true⟩⟩ text := by
  have hnorm : pathIsNormalized "/l".toList = true := by decide +kernel
  refine ⟨⟨rfl, ?_, ?_, ?_, ?_, nofun, ?_, ?_⟩, ?_, rfl, hnorm, rfl, ?_, ⟨rfl, rfl⟩⟩ <;> decide

theorem symlink_whole_iff_short :
    WalkedWhole (oneLink "d".toList) none atLink (component atLink.cursor) "d".toList :=
  (symlink_whole_iff (show enter atLink.flags none "l".toList = .ok atLink.cursor from rfl)
    .nil (atLink_follows _)).2.mpr ⟨by decide, fun h => nomatch h.1⟩

/-- A text of 4095 bytes. -/
def dots : Text := (replicate 2047 "./".toList).flatten ++ ['x']

/-- In the root directory it fills the room. -/
theorem symlink_fills_room :
    innerPathNormalize (oneLink dots) none none "l".toList atLink.flags maxSymlinks =
        .error .overrun ∧
      ¬ WalkedWhole (oneLink dots) none atLink (component atLink.cursor) dots := by
  have hlong : maxPath ≤ (component atLink.cursor).parent.length + 1 + dots.length := by
    rw [dots, length_append, length_flatten, map_replicate, sum_replicate_nat]
    decide
  have hturn := turn_overrun none (atLink_follows dots) hlong
  exact ⟨resolve_of_ret hturn.1, hturn.2⟩

end IshAok.Path
