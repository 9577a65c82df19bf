/-
The order of ranges in the editor.

A range is put in order before its ends are converted, and the conversion moves lines back to the
last one, but leaves columns to the line they end up on. So two ends on different lines can meet on
the last line, with the later one in front.

* `Document.toNat_line_toEditor`, `Document.toNat_character_toEditor` — what becomes of a position,
  with all that is moved back on the way;
* `Document.toEditor_le_iff` — when the order of two positions is kept;
* `Document.FoldsBack` — both ends are moved to one line and change places there;
* `Document.toEditorRange_ordered_iff` — ranges are sent in order exactly if they do not fold back,
  which no range does that lies in the document.
-/
import Newline.Proofs.PositionOrder
import Newline.Proofs.RoundTrip

namespace Newline

/-! ### Words and places -/

theorem bisect_le (p : Nat → Bool) {lo hi : Nat} (h : lo ≤ hi) : bisect p lo hi ≤ hi := by
  fun_induction bisect p lo hi with
  | case1 lo hi hlt mid hp ih => exact ih (by omega)
  | case2 lo hi hlt mid hp ih =>
    have hmid := ih (by omega)
    omega
  | case3 lo hi hge => exact h

/-- An index has no position on a line that it does not have. -/
theorem LineIndex.line_positionAt_le (index : LineIndex) (offset : Nat) :
    (index.positionAt offset).line ≤ index.lastLine := by
  have hle : partitionPoint index.starts (fun _ start => start ≤ offset) ≤ index.starts.size :=
    bisect_le _ (Nat.zero_le _)
  exact Nat.sub_le_sub_right hle 1

namespace Editor

/-- A number becomes the nearest coordinate. -/
theorem toNat_coordOfNat_eq (n : Nat) : (coordOfNat n).toNat = min n (UInt32.size - 1) := by
  by_cases h : n < UInt32.size
  · rw [toNat_coordOfNat h]
    omega
  · rw [coordOfNat, UInt32.ofNatClamp, dif_neg h, UInt32.toNat_ofNatLT]
    omega

/-- The end of the range is not before its start. -/
def Range.Ordered (r : Range) : Prop := r.start ≤ r.stop

instance (r : Range) : Decidable r.Ordered := inferInstanceAs (Decidable (r.start ≤ r.stop))

end Editor

namespace Document

variable (d : Document) {p q : Position}

/-- The last line of the document, or else the last one that a coordinate can name. -/
def topLine : Nat := min d.index.lastLine (UInt32.size - 1)

/-- The column of a position in units, or else the last one that a coordinate can name. -/
def column (p : Position) : Nat :=
  min (d.encoding.unitsOfByte (d.lineText p.line) p.character) (UInt32.size - 1)

theorem toNat_line_toEditor (p : Position) :
    (d.toEditor p).line.toNat = min p.line d.topLine := by
  show (Editor.coordOfNat (min p.line d.index.lastLine)).toNat = _
  rw [Editor.toNat_coordOfNat_eq, topLine, Nat.min_assoc]

theorem toNat_character_toEditor (p : Position) :
    (d.toEditor p).character.toNat = d.column p := by
  have hline : d.lineText (min p.line d.index.lastLine) = d.lineText p.line := by
    rw [lineText, lineText, Text.lineAt, Text.lineAt, Nat.min_assoc, Nat.min_self]
  show (Editor.coordOfNat (d.encoding.unitsOfByte (d.lineText (min p.line d.index.lastLine))
    p.character)).toNat = _
  rw [Editor.toNat_coordOfNat_eq, hline, column]

/-- On one line, columns stay in order. -/
theorem column_mono (hline : p.line = q.line) (h : p.character ≤ q.character) :
    d.column p ≤ d.column q := by
  have hunits := d.encoding.unitsOfByte_mono (d.lineText q.line) h
  rw [column, column, hline]
  omega

/-- **When the order is kept**: the lines stay apart, or the columns are in order. -/
theorem toEditor_le_iff (h : p.line ≤ q.line) :
    d.toEditor p ≤ d.toEditor q ↔
      p.line < q.line ∧ p.line < d.topLine ∨ d.column p ≤ d.column q := by
  rw [Editor.Position.le_iff_toNat, toNat_line_toEditor, toNat_line_toEditor,
    toNat_character_toEditor, toNat_character_toEditor]
  omega

/-! ### Ranges -/

/-- The ends of a range are on different lines but are moved to one, and the later end has the
smaller column. -/
structure FoldsBack (r : Range) : Prop where
  apart : r.start.line < r.stop.line
  together : d.topLine ≤ r.start.line
  crossed : d.column r.stop < d.column r.start

theorem ordered_iff_not_foldsBack (r : Range) :
    (d.toEditorRange r).Ordered ↔ ¬ d.FoldsBack r.normalized := by
  have hends := r.normalized_start_le_stop
  show d.toEditor r.normalized.start ≤ d.toEditor r.normalized.stop ↔ _
  generalize r.normalized = s at hends
  rw [Position.le_iff] at hends
  rw [toEditor_le_iff d (by omega)]
  constructor
  · rintro (⟨-, hlt⟩ | hle) hfolds
    · exact absurd hlt (Nat.not_lt.mpr hfolds.together)
    · exact absurd hfolds.crossed (Nat.not_lt.mpr hle)
  · intro hkept
    by_cases hcolumns : d.column s.start ≤ d.column s.stop
    · exact Or.inr hcolumns
    · -- On one line the columns would be in order.
      have hapart : s.start.line < s.stop.line := by
        by_contra hsame
        exact hcolumns (d.column_mono (by omega) (by omega))
      left
      refine ⟨hapart, ?_⟩
      by_contra htop
      exact hkept ⟨hapart, Nat.not_lt.mp htop, Nat.not_le.mp hcolumns⟩

/-- Ranges that lie in the document are sent in order, whoever found them. -/
structure SendsInOrder : Prop where
  inside : ∀ r : Range, r.start.line ≤ d.index.lastLine → r.stop.line ≤ d.index.lastLine →
    (d.toEditorRange r).Ordered
  lf : ∀ r, (d.lfRangeToEditor r).Ordered
  word : ∀ p w, d.wordAt? p = some w → w.2.Ordered
  full : d.fullRange.Ordered

theorem ordered_of_lines_exist (hlast : d.index.lastLine < UInt32.size) {r : Range}
    (hstart : r.start.line ≤ d.index.lastLine) (hstop : r.stop.line ≤ d.index.lastLine) :
    (d.toEditorRange r).Ordered := by
  rw [ordered_iff_not_foldsBack]
  intro hfolds
  have hexist : r.normalized.stop.line ≤ d.index.lastLine :=
    ((r.normalized_ends fun p => p.line ≤ d.index.lastLine).mpr ⟨hstart, hstop⟩).2
  have hapart := hfolds.apart
  have htogether := hfolds.together
  rw [topLine] at htogether
  omega

theorem sendsInOrder (hlast : d.index.lastLine < UInt32.size) : d.SendsInOrder := by
  refine ⟨fun r => d.ordered_of_lines_exist hlast, ?_, ?_, ?_⟩
  · intro r
    exact d.ordered_of_lines_exist hlast (d.index.line_positionAt_le _)
      (d.index.line_positionAt_le _)
  · intro p w hw
    obtain ⟨v, hv, rfl⟩ := Option.map_eq_some_iff.mp hw
    obtain ⟨⟨start, word⟩, -, rfl⟩ := Option.map_eq_some_iff.mp hv
    exact d.ordered_of_lines_exist hlast (Nat.min_le_right _ _) (Nat.min_le_right _ _)
  · exact d.ordered_of_lines_exist hlast (Nat.zero_le _) (Nat.le_refl _)

/-- **Which ranges are sent in order.** A range is, in whatever order its ends are given, exactly if
it does not fold back on the last line. As long as coordinates can name all lines, that needs an
end on a line that does not exist: what is found in the document or in its LF form is sent in
order. -/
theorem toEditorRange_ordered_iff :
    (∀ r, (d.toEditorRange r).Ordered ↔ ¬ d.FoldsBack r.normalized) ∧
      (d.index.lastLine < UInt32.size → d.SendsInOrder) :=
  ⟨d.ordered_iff_not_foldsBack, d.sendsInOrder⟩

/-- A range from the last line to the start of the next, which does not exist. -/
theorem not_ordered_past_end :
    ¬ ((ofText 1 ['a', 'b', 'c']).toEditorRange ⟨⟨0, 1⟩, ⟨1, 0⟩⟩).Ordered := by
  decide

end Document

end Newline
