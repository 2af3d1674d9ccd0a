import IshAok.Core.UserNs

/-!
# Parsing an Id Map

What is known of a map text once `parseMap` has accepted it. The loop keeps
the extents it has already taken, so its specification is stated for an
arbitrary list of them and by induction on the lines still to be read.

`writtenLines` is the numbers the writer wrote, before anything is narrowed
or resolved. The stored extents are those numbers cast to 32 bits, and for a
line that `Fits` the cast does nothing. The overlap test is also exact for
such lines: its sums do not wrap, so two lines it accepts share no id.

## Main definitions

* `writtenLines`: The lines of a text, as numbers.
* `IdExtent.Fits`: A line whose ranges end below the invalid id.
* `StoredExactly`: What is accepted is a map, stored as written, and maps are
  accepted.
* `Slips`: A text whose sums wrap past the checks.

## Theorems

* `addLine_iff`, `parseLines_iff`, `parseMap_iff`: When a line, the lines and
  a text are accepted, and what is stored.
* `parseMap_ok`: The parse of a text, in terms of its lines.
* `narrow_of_fits`: A line that fits is stored as written.
* `not_covers_of_not_overlaps`: Accepted lines that fit share no id.
* `storedExactly_iff`: A text with lines is stored exactly unless it slips.
-/

namespace IshAok.UserNs

open List

variable (text : List Char)

/-- The lines of a map text as the numbers they hold. -/
def writtenLines : List IdExtent :=
  (mapLines text).filterMap scanLine

/-- Both ranges of a line end below the invalid id, as integers. -/
def IdExtent.Fits (l : IdExtent) : Prop :=
  l.first + l.count ≤ userNsInvalidId ∧ l.lower + l.count ≤ userNsInvalidId

theorem addLine_iff (parsed parsed' : List IdExtent) (line : List Char) :
    addLine parsed line = .ok parsed' ↔ ∃ l, scanLine line = some l ∧ ¬ lineRefused l ∧
      parsed.length ≠ userNsMapExtents ∧ (∀ e ∈ parsed, ¬ lineOverlaps l e) ∧
      parsed' = parsed ++ [narrow l] := by
  unfold addLine
  cases hs : scanLine line with
  | none => simp
  | some l =>
    by_cases hr : lineRefused l
    · simp [hr]
    by_cases hn : parsed.length = userNsMapExtents
    · simp [hr, hn]
    by_cases ho : ∃ e ∈ parsed, lineOverlaps l e
    · simp only [if_neg hr, if_neg hn, if_pos ho, reduceCtorEq, false_iff]
      rintro ⟨_, ⟨⟩, -, -, hno, -⟩
      rcases ho with ⟨e, he, hover⟩
      exact hno e he hover
    · simp only [if_neg hr, if_neg hn, if_neg ho, Except.ok.injEq, Option.some.injEq]
      constructor
      · intro h
        exact ⟨l, rfl, hr, hn, fun e he hover => ho ⟨e, he, hover⟩, h.symm⟩
      · rintro ⟨_, rfl, -, -, -, h⟩
        exact h.symm

/-- The specification of the parsing loop, for the extents already taken.
    Every line is a number line that passes the range checks, none overlaps
    an extent taken before it, and all of them are stored in order. -/
theorem parseLines_iff (lines : List (List Char)) (parsed out : List IdExtent)
    (hlen : parsed.length ≤ userNsMapExtents) :
    parseLines parsed lines = .ok out ↔ ∃ ls : List IdExtent, lines.map scanLine = ls.map some ∧
      out = parsed ++ ls.map narrow ∧ out ≠ [] ∧ out.length ≤ userNsMapExtents ∧
      (∀ l ∈ ls, ¬ lineRefused l ∧ ∀ e ∈ parsed, ¬ lineOverlaps l e) ∧
      ls.Pairwise (fun e l => ¬ lineOverlaps l (narrow e)) := by
  induction lines generalizing parsed with
  | nil =>
    unfold parseLines
    by_cases hp : parsed = []
    · subst hp
      simp +contextual
    · rw [if_neg hp, Except.ok.injEq]
      constructor
      · rintro rfl
        exact ⟨[], rfl, (append_nil _).symm, hp, hlen, forall_mem_nil _, List.Pairwise.nil⟩
      · rintro ⟨ls, hls, hout, -⟩
        rw [map_eq_nil_iff.mp hls.symm, map_nil, append_nil] at hout
        exact hout.symm
  | cons line rest ih =>
    unfold parseLines
    constructor
    · intro h
      cases ha : addLine parsed line with
      | error e => rw [ha] at h; exact nomatch h
      | ok parsed' =>
        rw [ha] at h
        rcases (addLine_iff parsed parsed' line).mp ha with ⟨l, hs, hr, hn, ho, rfl⟩
        have hlen' : (parsed ++ [narrow l]).length ≤ userNsMapExtents := by
          rw [length_append, length_singleton]
          omega
        rcases (ih _ hlen').mp h with ⟨ls, hls, hout, hne, hle, hall, hpw⟩
        refine ⟨l :: ls, by rw [map_cons, map_cons, hs, hls], by simpa using hout, hne, hle, ?_, ?_⟩
        · refine forall_mem_cons.mpr ⟨⟨hr, ho⟩, fun x hx => ⟨(hall x hx).1, fun e he => ?_⟩⟩
          exact (hall x hx).2 e (mem_append_left _ he)
        · refine pairwise_cons.mpr ⟨fun x hx => ?_, hpw⟩
          exact (hall x hx).2 _ (mem_append_right _ (mem_singleton_self _))
    · rintro ⟨ls, hls, rfl, hne, hle, hall, hpw⟩
      cases ls with
      | nil => cases hls
      | cons l ls =>
        rw [map_cons, map_cons, cons.injEq] at hls
        rcases forall_mem_cons.mp hall with ⟨⟨hr, ho⟩, hall⟩
        have hroom : parsed.length < userNsMapExtents := by
          simp only [length_append, map_cons, length_cons] at hle
          omega
        rw [(addLine_iff parsed _ line).mpr ⟨l, hls.1, hr, hroom.ne, ho, rfl⟩]
        refine (ih _ (by simpa using hroom)).mpr ⟨ls, hls.2, by simp, hne, hle, fun x hx => ?_, ?_⟩
        · refine ⟨(hall x hx).1, fun e he => ?_⟩
          rcases mem_append.mp he with he | he
          · exact (hall x hx).2 e he
          · rw [mem_singleton.mp he]
            exact (pairwise_cons.mp hpw).1 x hx
        · exact (pairwise_cons.mp hpw).2

theorem parseMap_iff (out : List IdExtent) : parseMap text = .ok out ↔
    ∃ ls : List IdExtent, (mapLines text).map scanLine = ls.map some ∧ out = ls.map narrow ∧
      out ≠ [] ∧ out.length ≤ userNsMapExtents ∧ (∀ l ∈ ls, ¬ lineRefused l) ∧
      ls.Pairwise (fun e l => ¬ lineOverlaps l (narrow e)) := by
  rw [parseMap, parseLines_iff _ _ _ (Nat.zero_le _)]
  simp

theorem parseMap_ok (out : List IdExtent) (h : parseMap text = .ok out) :
    out = (writtenLines text).map narrow ∧ out ≠ [] ∧ (∀ l ∈ writtenLines text, ¬ lineRefused l) ∧
      (writtenLines text).Pairwise (fun e l => ¬ lineOverlaps l (narrow e)) := by
  rcases (parseMap_iff text out).mp h with ⟨ls, hls, hout, hne, -, href, hpw⟩
  have hwritten : writtenLines text = ls := by
    simpa [writtenLines, filterMap_map] using congrArg (filterMap id) hls
  rw [hwritten]
  exact ⟨hout, hne, href, hpw⟩

theorem narrow_of_fits (l : IdExtent) (h : l.Fits) : narrow l = l := by
  unfold IdExtent.Fits userNsInvalidId at h
  unfold narrow
  rw [Nat.mod_eq_of_lt (by omega : l.first < 2 ^ 32), Nat.mod_eq_of_lt (by omega),
    Nat.mod_eq_of_lt (by omega)]

/-- Two accepted lines share no id. The sums of the test are modular, and for
    lines that fit they are the real ones. -/
theorem not_covers_of_not_overlaps (e l : IdExtent) (id : Nat) (he : e.Fits) (hl : l.Fits)
    (h : ¬ lineOverlaps l (narrow e)) : ¬ (e.Covers id ∧ l.Covers id) := by
  rw [narrow_of_fits e he] at h
  rintro ⟨⟨he1, he2⟩, hl1, hl2⟩
  unfold IdExtent.Fits userNsInvalidId at he hl
  refine h (.inl ⟨by omega, ?_⟩)
  omega

/-- The numbers of a text whose lines all scan. -/
def Scans (ls : List IdExtent) : Prop :=
  (mapLines text).map scanLine = ls.map some

/-- Two lines share no first id and no lower id. -/
def IdExtent.Apart (e l : IdExtent) : Prop :=
  (e.first + e.count ≤ l.first ∨ l.first + l.count ≤ e.first) ∧
    (e.lower + e.count ≤ l.lower ∨ l.lower + l.count ≤ e.lower)

/-- Lines that make up a map, over the integers. -/
def MapLines (ls : List IdExtent) : Prop :=
  (∀ l ∈ ls, 1 ≤ l.count ∧ l.Fits) ∧ ls.Pairwise IdExtent.Apart

/-- A text is stored exactly or refused: what is accepted is a map and is
    stored as written, and a map short enough is accepted. -/
def StoredExactly : Prop :=
  (∀ out, parseMap text = .ok out → Scans text out ∧ MapLines out) ∧
    ∀ ls, Scans text ls → MapLines ls → ls.length ≤ userNsMapExtents →
      ∃ out, parseMap text = .ok out

/-- A text that passes every check made modulo `2 ^ 64` although a sum of one
    of its lines does not fit 64 bits. -/
def Slips : Prop :=
  ∃ ls, Scans text ls ∧ ls.length ≤ userNsMapExtents ∧ (∀ l ∈ ls, ¬ lineRefused l) ∧
    ls.Pairwise (fun e l => ¬ lineOverlaps l (narrow e)) ∧
    ∃ l ∈ ls, 2 ^ 64 ≤ l.first + l.count ∨ 2 ^ 64 ≤ l.lower + l.count

theorem fits_of_not_refused {l : IdExtent} (h : ¬ lineRefused l)
    (hsum : l.first + l.count < 2 ^ 64 ∧ l.lower + l.count < 2 ^ 64) : 1 ≤ l.count ∧ l.Fits := by
  unfold lineRefused at h
  unfold IdExtent.Fits userNsInvalidId
  omega

theorem not_refused_of_fits {l : IdExtent} (h : 1 ≤ l.count ∧ l.Fits) : ¬ lineRefused l := by
  unfold IdExtent.Fits userNsInvalidId at h
  unfold lineRefused
  omega

theorem not_overlaps_iff {e l : IdExtent} (he : e.Fits) (hl : l.Fits) :
    ¬ lineOverlaps l (narrow e) ↔ e.Apart l := by
  rw [narrow_of_fits e he]
  unfold IdExtent.Fits userNsInvalidId at hl
  unfold lineOverlaps IdExtent.Apart
  omega

/-- A map text is stored exactly or refused, unless it has no line at all,
    which is refused, or one of its sums wraps. -/
theorem storedExactly_iff (text : List Char) :
    StoredExactly text ↔ mapLines text ≠ [] ∧ ¬ Slips text := by
  constructor
  · rintro ⟨hacc, hmap⟩
    constructor
    · intro hnil
      rcases hmap [] (by rw [Scans, hnil]; rfl) ⟨forall_mem_nil _, .nil⟩ (Nat.zero_le _)
        with ⟨out, hout⟩
      rw [parseMap, hnil] at hout
      cases hout
    · rintro ⟨ls, hls, hlen, href, hpw, l, hl, hwrap⟩
      have hne : ls.map narrow ≠ [] := fun h => ne_nil_of_mem hl (map_eq_nil_iff.mp h)
      have hok := (parseMap_iff text _).mpr
        ⟨ls, hls, rfl, hne, by rwa [length_map], href, hpw⟩
      -- The accepted lines are the written ones, and the one that wraps does not fit.
      rcases hacc _ hok with ⟨hscan, hfit, -⟩
      rw [map_inj_right (fun _ _ => Option.some.inj) |>.mp (hscan.symm.trans hls)] at hfit
      have hl := (hfit l hl).2
      unfold IdExtent.Fits userNsInvalidId at hl
      omega
  · rintro ⟨hne, hslips⟩
    constructor
    · intro out hout
      rcases (parseMap_iff text out).mp hout with ⟨ls, hls, rfl, -, hlen, href, hpw⟩
      rw [length_map] at hlen
      have hfit : ∀ l ∈ ls, 1 ≤ l.count ∧ l.Fits := by
        intro l hl
        refine fits_of_not_refused (href l hl) ?_
        by_contra hsum
        exact hslips ⟨ls, hls, hlen, href, hpw, l, hl, by omega⟩
      have hstored : ls.map narrow = ls := by
        rw [map_congr_left (fun l hl => narrow_of_fits l (hfit l hl).2), map_id']
      rw [hstored]
      exact ⟨hls, hfit, hpw.imp_of_mem fun he hl h =>
        (not_overlaps_iff (hfit _ he).2 (hfit _ hl).2).mp h⟩
    · rintro ls hls ⟨hfit, hapart⟩ hlen
      refine ⟨_, (parseMap_iff text _).mpr ⟨ls, hls, rfl, ?_, by rwa [length_map], ?_, ?_⟩⟩
      · intro h
        rw [Scans, map_eq_nil_iff.mp h, map_nil, map_eq_nil_iff] at hls
        exact hne hls
      · exact fun l hl => not_refused_of_fits (hfit l hl)
      · exact hapart.imp_of_mem fun he hl h =>
          (not_overlaps_iff (hfit _ he).2 (hfit _ hl).2).mpr h

/-- The sums of this line are zero modulo `2 ^ 64`, so it is accepted, and
    its count is stored as `2 ^ 32 - 1`. -/
theorem storedExactly_wraps :
    parseMap "1 1 18446744073709551615".toList = .ok [⟨1, 1, 4294967295⟩] ∧
      ¬ StoredExactly "1 1 18446744073709551615".toList := by
  have hok : parseMap "1 1 18446744073709551615".toList = .ok [⟨1, 1, 4294967295⟩] := by decide
  refine ⟨hok, fun h => ?_⟩
  have hfit := ((h.1 _ hok).2.1 _ (mem_singleton_self _)).2
  exact absurd hfit.1 (by decide)

end IshAok.UserNs
