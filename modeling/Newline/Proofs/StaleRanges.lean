/-
Ranges and the index of another text.

A range is resolved by an index that may have been made for another text. Its offsets then have
nothing to do with the characters of this one, but they are moved back into the text and onto
boundaries, so that the text is always cut at two boundaries, in order.

Each function is written out once more as it takes its steps, with no result where a step has
none: a line that the index does not hold, a search for a boundary past the front, a cut outside
the text or inside a character.

* `Text.stepBack?_eq` — the search for a boundary, one offset at a time, comes to its end;
* `Text.exists_parts`, `Text.exists_parts_of_le` — a range cuts the text in three, and so do the two
  ends of a line;
* `Text.RangesHold` — what holds of a text and an index;
* `Text.ranges_hold_stale` — it holds of every text and the index of any other.
-/
import Newline.Proofs.Diffing
import Newline.Proofs.Rounding

namespace Newline

/-! ### Steps that may have no result -/

/-- The last line, if there is a line. -/
def LineIndex.lastLine? (index : LineIndex) : Option Nat := minus? index.lineCount 1

/-- The offset of a position, if there is a line that it can be moved to. -/
def LineIndex.offsetAt? (index : LineIndex) (p : Position) : Option Nat := do
  let last ← index.lastLine?
  let start ← index.lineStart? (min p.line last)
  return start + p.character

namespace Text

/-- The first boundary from an offset back, if there is one. -/
def stepBack? (t : Text) : Nat → Option Nat
  | 0 => if t.IsBoundary 0 then some 0 else none
  | n + 1 => if t.IsBoundary (n + 1) then some (n + 1) else stepBack? t n

/-- An offset moved back into the text and onto a boundary. -/
def clampOffset? (t : Text) (offset : Nat) : Option Nat := t.stepBack? (min offset t.byteLen)

/-- The part between two offsets, if both are boundaries and in order. -/
def slice? (t : Text) (start stop : Nat) : Option Text :=
  (t.before? stop).bind fun front => front.after? start

/-- The two offsets of a range, step by step. -/
def resolveRange? (t : Text) (index : LineIndex) (r : Range) : Option (Nat × Nat) := do
  let a ← t.clampOffset? (← index.offsetAt? r.start)
  let b ← t.clampOffset? (← index.offsetAt? r.stop)
  return (min a b, max a b)

/-- The part of the text in a range, step by step. -/
def sliceRange? (t : Text) (index : LineIndex) (r : Range) : Option Text := do
  let (start, stop) ← t.resolveRange? index r
  t.slice? start stop

/-- The text with a range replaced, step by step. -/
def replaceRange? (t : Text) (index : LineIndex) (r : Range) (replacement : Text) :
    Option Text := do
  let (start, stop) ← t.resolveRange? index r
  let front ← t.before? start
  let back ← t.after? stop
  return front ++ replacement ++ back

/-- A line without its terminator, step by step. -/
def lineAt? (t : Text) (index : LineIndex) (line : Nat) : Option Text := do
  let last ← index.lastLine?
  let (start, stop) := (index.lineSpan? (min line last)).getD (0, 0)
  let a ← t.clampOffset? start
  let b ← t.clampOffset? stop
  return (← t.slice? a b).stripFinalNewline

end Text

/-! ### Offsets -/

namespace LineIndex

variable (u : Text)

theorem lastLine?_ofText : (ofText u).lastLine? = some (ofText u).lastLine := by
  have hpos := Line.length_split_pos u
  rw [lastLine?, minus?, lineCount_ofText, if_pos (Nat.succ_le_of_lt hpos), lastLine_ofText]

theorem offsetAt?_ofText (p : Position) :
    (ofText u).offsetAt? p = some ((ofText u).offsetAt p) := by
  have hline := min_lastLine_lt u p.line
  rw [offsetAt?, lastLine?_ofText, Option.bind_eq_bind, Option.bind_some, lineStart_ofText,
    if_pos hline, offsetAt_ofText]
  rfl

end LineIndex

namespace Text

variable {t : Text} {start stop : Nat}

/-- An offset that is no boundary is moved back at least to the one before it. -/
theorem floorBoundary_succ {n : Nat} (h : ¬ t.IsBoundary (n + 1)) :
    t.floorBoundary (n + 1) = t.floorBoundary n := by
  have hle := t.floorBoundary_le (n + 1)
  have hne : t.floorBoundary (n + 1) ≠ n + 1 := h
  refine Nat.le_antisymm ?_ (t.floorBoundary_mono (Nat.le_succ n))
  rw [← t.isBoundary_floorBoundary (n + 1)]
  exact t.floorBoundary_mono (by omega)

/-- **The search for a boundary** comes to its end, at the greatest one that is not past the
offset. -/
theorem stepBack?_eq (t : Text) (n : Nat) : t.stepBack? n = some (t.floorBoundary n) := by
  induction n with
  | zero =>
    have hzero := t.isBoundary_zero
    rw [stepBack?, if_pos hzero, hzero]
  | succ n ih =>
    rw [stepBack?]
    by_cases h : t.IsBoundary (n + 1)
    · rw [if_pos h, h]
    · rw [if_neg h, ih, floorBoundary_succ h]

theorem clampOffset?_eq (t : Text) (n : Nat) : t.clampOffset? n = some (t.floorBoundary n) := by
  rw [clampOffset?, stepBack?_eq, floorBoundary, takeBytes_min, floorBoundary]

/-! ### Cuts -/

section Parts

variable (a b c : Text)

theorem slice?_parts : slice? (a ++ b ++ c) (byteLen a) (byteLen a + byteLen b) = some b := by
  rw [slice?, ← byteLen_append, before?_append, Option.bind_some, after?_append]

theorem before?_parts : before? (a ++ b ++ c) (byteLen a) = some a := by
  rw [List.append_assoc, before?_append]

theorem after?_parts : after? (a ++ b ++ c) (byteLen a + byteLen b) = some c := by
  rw [← byteLen_append, after?_append]

end Parts

theorem resolveRange_ordered (t : Text) (index : LineIndex) (r : Range) :
    (t.resolveRange index r).1 ≤ (t.resolveRange index r).2 :=
  Nat.le_trans (Nat.min_le_left _ _) (Nat.le_max_left _ _)

/-- **A range cuts the text in three**, whatever index it is resolved by. -/
theorem exists_parts (t : Text) (index : LineIndex) (r : Range) :
    ∃ a b c, t = a ++ b ++ c ∧ t.resolveRange index r = (byteLen a, byteLen a + byteLen b) ∧
      t.sliceRange index r = b ∧ ∀ new, t.replaceRange index r new = a ++ new ++ c := by
  obtain ⟨hstart, hstop⟩ := Edit.isBoundary_resolveRange t index r
  obtain ⟨a, b, c, ht, ha, hb⟩ :=
    exists_three_parts hstart hstop (t.resolveRange_ordered index r)
  have hresolve : t.resolveRange index r = (byteLen a, byteLen a + byteLen b) :=
    Prod.ext ha.symm hb.symm
  refine ⟨a, b, c, ht, hresolve, ?_, fun new => ?_⟩
  · rw [sliceRange, hresolve, ht]
    exact slice_append a b c
  · rw [replaceRange, hresolve, ht]
    show splice (a ++ b ++ c) (byteLen a) (byteLen a + byteLen b) new = a ++ new ++ c
    rw [splice, ← byteLen_append, dropBytes_append, List.append_assoc a b c, takeBytes_append]

/-- Two offsets in order cut the text in three where they are moved to. -/
theorem exists_parts_of_le (t : Text) (h : start ≤ stop) :
    ∃ a b c, t = a ++ b ++ c ∧ t.floorBoundary start = byteLen a ∧
      t.floorBoundary stop = byteLen a + byteLen b ∧ t.slice start stop = b := by
  have hle : byteLen (takeBytes start t) ≤ stop := Nat.le_trans (t.floorBoundary_le start) h
  refine ⟨takeBytes start t, t.slice start stop,
    dropBytes (stop - t.floorBoundary start) (dropBytes start t), ?_, rfl, ?_, rfl⟩
  · rw [List.append_assoc, slice, takeBytes_append_dropBytes, takeBytes_append_dropBytes]
  · have hcut := takeBytes_append_add (takeBytes start t) (dropBytes start t)
      (stop - byteLen (takeBytes start t))
    rw [takeBytes_append_dropBytes, Nat.add_sub_cancel' hle] at hcut
    rw [floorBoundary, hcut, byteLen_append]
    rfl

/-! ### The functions, step by step -/

section Steps

variable (t u : Text) (r : Range)

theorem resolveRange?_eq :
    t.resolveRange? (LineIndex.ofText u) r = some (t.resolveRange (LineIndex.ofText u) r) := by
  rw [resolveRange?, LineIndex.offsetAt?_ofText, LineIndex.offsetAt?_ofText]
  simp only [Option.bind_eq_bind, Option.bind_some, clampOffset?_eq]
  rfl

theorem sliceRange?_eq :
    t.sliceRange? (LineIndex.ofText u) r = some (t.sliceRange (LineIndex.ofText u) r) := by
  obtain ⟨a, b, c, ht, hresolve, hslice, -⟩ := t.exists_parts (LineIndex.ofText u) r
  rw [sliceRange?, resolveRange?_eq, hresolve, hslice, ht]
  exact slice?_parts a b c

theorem replaceRange?_eq (new : Text) :
    t.replaceRange? (LineIndex.ofText u) r new
      = some (t.replaceRange (LineIndex.ofText u) r new) := by
  obtain ⟨a, b, c, ht, hresolve, -, hreplace⟩ := t.exists_parts (LineIndex.ofText u) r
  rw [replaceRange?, resolveRange?_eq, hresolve, hreplace, ht]
  simp only [Option.bind_eq_bind, Option.bind_some, before?_parts, after?_parts]
  rfl

theorem lineAt?_eq (line : Nat) :
    t.lineAt? (LineIndex.ofText u) line = some (t.lineAt (LineIndex.ofText u) line) := by
  have hspan := LineIndex.lineSpan_ofText u (LineIndex.min_lastLine_lt u line)
  -- The starts of lines are in order also in a text that has nothing to do with this one.
  have hle := Line.startOf_mono (Line.split u)
    (Nat.le_add_right (min line (LineIndex.ofText u).lastLine) 1)
  obtain ⟨a, b, c, ht, hstart, hstop, hslice⟩ := t.exists_parts_of_le hle
  have hcut : t.slice? (byteLen a) (byteLen a + byteLen b) = some b := by
    rw [ht, slice?_parts]
  rw [lineAt?, LineIndex.lastLine?_ofText, lineAt]
  simp only [Option.bind_eq_bind, Option.bind_some, hspan, Option.getD_some, clampOffset?_eq,
    hstart, hstop, hcut, hslice]
  rfl

end Steps

/-- What holds of a text and an index in which its ranges and lines are looked up. -/
structure RangesHold (t : Text) (index : LineIndex) : Prop where
  resolveRange? : ∀ r, t.resolveRange? index r = some (t.resolveRange index r)
  in_order : ∀ r, (t.resolveRange index r).1 ≤ (t.resolveRange index r).2 ∧
    (t.resolveRange index r).2 ≤ t.byteLen
  boundaries : ∀ r, t.IsBoundary (t.resolveRange index r).1 ∧
    t.IsBoundary (t.resolveRange index r).2
  sliceRange? : ∀ r, t.sliceRange? index r = some (t.sliceRange index r)
  replaceRange? : ∀ r new, t.replaceRange? index r new = some (t.replaceRange index r new)
  lineAt? : ∀ line, t.lineAt? index line = some (t.lineAt index line)
  lineLength : ∀ line, (t.lineAt? index line).map byteLen = some (t.lineLength index line)
  replaceRange_sliceRange : ∀ r, t.replaceRange index r (t.sliceRange index r) = t
  around : ∀ r, ∃ front back, t.before? (t.resolveRange index r).1 = some front ∧
    t.after? (t.resolveRange index r).2 = some back ∧
    ∀ new, t.replaceRange index r new = front ++ new ++ back

/-- **Ranges and lines can be looked up in any index.** Every step has its result: the offsets of a
range are boundaries of the text, in order, and nothing is cut anywhere else. A range that is
replaced by what it holds leaves the text as it is, and what is before and behind it always stays.
By the index of the text itself, replacing a range is making one edit, with its ends in either
order. -/
theorem ranges_hold_stale (t u : Text) :
    t.RangesHold (LineIndex.ofText u) ∧
      ∀ (r : Range) (new : Text),
        Edit.applyAll? t [⟨r, new⟩] = some (t.replaceRange (LineIndex.ofText t) r new) ∧
        Edit.applyAll? t [Edit.ofRange r new]
          = some (t.replaceRange (LineIndex.ofText t) r new) := by
  have hbounds := Edit.isBoundary_resolveRange t (LineIndex.ofText u)
  refine ⟨⟨t.resolveRange?_eq u, ?_, hbounds, t.sliceRange?_eq u, t.replaceRange?_eq u,
    t.lineAt?_eq u, ?_, ?_, ?_⟩, fun r new => ⟨Edit.applyAll_singleton t ⟨r, new⟩, ?_⟩⟩
  · intro r
    exact ⟨t.resolveRange_ordered _ r, (hbounds r).2.le_byteLen⟩
  · intro line
    rw [lineAt?_eq, lineLength, Option.map_some]
  · intro r
    obtain ⟨a, b, c, ht, -, hslice, hreplace⟩ := t.exists_parts (LineIndex.ofText u) r
    rw [hreplace, hslice, ← ht]
  · intro r
    obtain ⟨a, b, c, ht, hresolve, -, hreplace⟩ := t.exists_parts (LineIndex.ofText u) r
    refine ⟨a, c, ?_, ?_, hreplace⟩
    · rw [hresolve, ht, before?_parts]
    · rw [hresolve, ht, after?_parts]
  · rw [Edit.applyAll_singleton, Edit.ofRange, replaceRange, replaceRange,
      Edit.resolveRange_normalized]

end Text

end Newline
