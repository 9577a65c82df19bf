/-
Offsets and positions of an index.

An offset has the position on the line that holds it, and a position the offset at which it is
read. The first of these conversions loses nothing and keeps the order, so that it can be undone;
the second undoes it, but also answers for positions of no offset: past the end of a line that is
not the last, or on a line that does not exist.

* `LineIndex.positionAt_eq_iff` — the position of an offset, by the line that holds it;
* `LineIndex.offsetAt_positionAt`, `LineIndex.positionAt_lt` — there and back, and in order;
* `LineIndex.positionAt_offsetAt_iff` — which positions are those of an offset;
* `LineIndex.tryOffsetAt_eq` — what is refused, and why;
* `LineIndex.conversions_ordered` — the conversions of the index of a text.
-/
import Newline.Proofs.Pairs
import Newline.Proofs.Splicing

namespace Newline

namespace LineIndex

open Line

variable (t : Text)

/-- **The position of an offset** is the one on the line that holds the offset, as far behind the
start of the line as the offset is. -/
theorem positionAt_eq_iff (o : Nat) (p : Position) :
    (ofText t).positionAt o = p ↔
      Holds (split t) p.line o ∧ o = startOf (split t) p.line + p.character := by
  constructor
  · rintro rfl
    obtain ⟨i, h⟩ := exists_holds t o
    rw [positionAt_ofText t h.lt h.start_le h.lt_next]
    exact ⟨h, (Nat.add_sub_cancel' h.start_le).symm⟩
  · rintro ⟨h, ho⟩
    rw [positionAt_ofText t h.lt h.start_le h.lt_next, ho, Nat.add_sub_cancel_left]

theorem holds_positionAt (o : Nat) : Holds (split t) ((ofText t).positionAt o).line o :=
  ((positionAt_eq_iff t o _).mp rfl).1

/-- On a line that exists, the offset of a position is counted from the start of the line. -/
theorem offsetAt_of_lt {p : Position} (h : p.line < (split t).length) :
    (ofText t).offsetAt p = startOf (split t) p.line + p.character := by
  rw [offsetAt_ofText, lastLine_ofText, Nat.min_eq_left (by omega)]

/-- **There and back**, also past the end of the text. -/
theorem offsetAt_positionAt (o : Nat) : (ofText t).offsetAt ((ofText t).positionAt o) = o := by
  obtain ⟨h, ho⟩ := (positionAt_eq_iff t o _).mp rfl
  rw [offsetAt_of_lt t h.lt]
  exact ho.symm

/-- **Later offsets have later positions.** -/
theorem positionAt_lt {o o' : Nat} (h : o < o') :
    (ofText t).positionAt o < (ofText t).positionAt o' := by
  obtain ⟨hline, ho⟩ := (positionAt_eq_iff t o _).mp rfl
  obtain ⟨hline', ho'⟩ := (positionAt_eq_iff t o' _).mp rfl
  rw [Position.lt_iff]
  rcases Nat.eq_or_lt_of_le (hline.mono hline' (Nat.le_of_lt h)) with heq | hlt
  · -- On one line it is the characters that count.
    right
    rw [← heq] at ho'
    exact ⟨heq, by omega⟩
  · exact Or.inl hlt

theorem positionAt_lt_iff (o o' : Nat) :
    (ofText t).positionAt o < (ofText t).positionAt o' ↔ o < o' := by
  constructor
  · intro h
    by_contra hge
    rcases Nat.eq_or_lt_of_le (Nat.not_lt.mp hge) with heq | hlt
    · rw [heq, Position.lt_iff] at h
      omega
    · have hback := positionAt_lt t hlt
      rw [Position.lt_iff] at h hback
      omega
  · exact positionAt_lt t

/-- **The positions of offsets**: those on the last line, and before the end of any other line. -/
theorem positionAt_offsetAt_iff (p : Position) :
    (ofText t).positionAt ((ofText t).offsetAt p) = p ↔
      p.line ≤ (ofText t).lastLine ∧
        (p.line = (ofText t).lastLine ∨ p.character < (ofText t).spanLen p.line) := by
  have hpos := length_split_pos t
  have hlast := lastLine_ofText t
  constructor
  · intro hback
    obtain ⟨h, ho⟩ := (positionAt_eq_iff t _ p).mp hback
    have hlt := h.lt
    refine ⟨by omega, ?_⟩
    by_cases hnext : p.line + 1 < (split t).length
    · right
      have hend := h.lt_next hnext
      rw [spanLen_ofText hlt]
      omega
    · left
      omega
  · rintro ⟨hle, hchar⟩
    have hlt : p.line < (split t).length := by omega
    rw [offsetAt_of_lt t hlt, positionAt_eq_iff]
    refine ⟨⟨hlt, Nat.le_add_right _ _, fun hnext => ?_⟩, rfl⟩
    rcases hchar with heq | hchar
    · omega
    · rw [spanLen_ofText hlt] at hchar
      omega

/-! ### Conversions that refuse -/

/-- **What is refused, and why**: first a line that does not exist, then an offset past the end. -/
theorem tryOffsetAt_eq (index : LineIndex) (p : Position) :
    index.tryOffsetAt p =
      if index.lineCount ≤ p.line then .error (.lineOutOfBounds p.line index.lineCount)
      else if index.len < index.offsetAt p then
        .error (.offsetOutOfBounds (index.offsetAt p) index.len)
      else .ok (index.offsetAt p) := by
  rw [tryOffsetAt, lineStart?]
  by_cases hline : index.lineCount ≤ p.line
  · rw [if_pos hline, Array.getElem?_eq_none hline]
  · have hlt : p.line < index.starts.size := Nat.not_le.mp hline
    -- The line exists, so that it is not moved.
    have hoffset : index.offsetAt p = index.starts[p.line] + p.character := by
      rw [offsetAt, lastLine, lineCount, Nat.min_eq_left (by omega),
        Array.getD_eq_getD_getElem?, Array.getElem?_eq_getElem hlt, Option.getD_some]
    rw [if_neg hline, Array.getElem?_eq_getElem hlt, hoffset]

theorem tryPositionAt_eq_ok_iff (index : LineIndex) (o : Nat) (p : Position) :
    index.tryPositionAt o = .ok p ↔ o ≤ index.len ∧ p = index.positionAt o := by
  rw [tryPositionAt]
  by_cases h : index.len < o
  · rw [if_pos h]
    simp [Nat.not_le.mpr h]
  · rw [if_neg h]
    simp [Nat.not_lt.mp h, eq_comm]

/-- A position that is not refused is not refused on the way back. -/
theorem tryOffsetAt_of_tryPositionAt {o : Nat} {p : Position}
    (h : (ofText t).tryPositionAt o = .ok p) : (ofText t).tryOffsetAt p = .ok o := by
  obtain ⟨hle, rfl⟩ := (tryPositionAt_eq_ok_iff _ o p).mp h
  have hlt := (holds_positionAt t o).lt
  rw [tryOffsetAt_eq, offsetAt_positionAt, lineCount_ofText, if_neg (Nat.not_le.mpr hlt),
    if_neg (Nat.not_lt.mpr hle)]

/-- The conversions of an index of `t`: the offsets are in order with their positions, and the
checked conversions are the others where they do not refuse. -/
structure Converts (index : LineIndex) (t : Text) : Prop where
  len : index.len = t.byteLen
  offsetAt_positionAt : ∀ o, index.offsetAt (index.positionAt o) = o
  positionAt_lt : ∀ o o', index.positionAt o < index.positionAt o' ↔ o < o'
  positionAt_offsetAt : ∀ p, index.positionAt (index.offsetAt p) = p ↔
    p.line ≤ index.lastLine ∧ (p.line = index.lastLine ∨ p.character < index.spanLen p.line)
  tryPositionAt : ∀ o p, index.tryPositionAt o = .ok p ↔ o ≤ index.len ∧ p = index.positionAt o
  tryOffsetAt : ∀ p, index.tryOffsetAt p =
    if index.lineCount ≤ p.line then .error (.lineOutOfBounds p.line index.lineCount)
    else if index.len < index.offsetAt p then
      .error (.offsetOutOfBounds (index.offsetAt p) index.len)
    else .ok (index.offsetAt p)
  tryOffsetAt_tryPositionAt : ∀ o p, index.tryPositionAt o = .ok p → index.tryOffsetAt p = .ok o

/-- **Offsets and their positions are in the same order, and determine each other.** The positions
of offsets are those within their lines, where the last line goes on past the end of the text. -/
theorem conversions_ordered : (ofText t).Converts t where
  len := rfl
  offsetAt_positionAt := LineIndex.offsetAt_positionAt t
  positionAt_lt := positionAt_lt_iff t
  positionAt_offsetAt := positionAt_offsetAt_iff t
  tryPositionAt := tryPositionAt_eq_ok_iff (ofText t)
  tryOffsetAt := tryOffsetAt_eq (ofText t)
  tryOffsetAt_tryPositionAt _ _ := tryOffsetAt_of_tryPositionAt t

end LineIndex

end Newline
