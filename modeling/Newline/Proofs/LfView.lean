/-
The LF form of a document.

A document answers questions about its LF form without keeping a document of it: offsets go
through the marks of its CRLF pairs and through its own index. The answers are those of the
document of the LF form.

* `CrlfMarks.marks_ofText` — the marks, line by line;
* `CrlfMarks.toSource_eq`, `CrlfMarks.ofSource_eq` — on a given line, the marks count the pairs
  before it;
* `CrlfMarks.positionAt_toSource` — an offset of the LF form and the offset it stands for have
  the same position;
* `Document.lfIndex_ofText` — the index of the LF form, also where it is not built anew;
* `Document.lf_view_agrees` — the two documents agree.
-/
import Newline.Proofs.LineStarts
import Newline.Proofs.Normalize

namespace Newline

/-! ### Lengths of lines in the LF form -/

namespace Line

/-- A line is longer than in the LF form by the carriage return of its pair. -/
theorem byteLen_text_eq (l : Line) :
    Text.byteLen l.text
      = Text.byteLen (l.withEnding .lf).text + if l.delimiter = .crlf then 1 else 0 := by
  obtain ⟨b, d⟩ := l
  cases d <;> simp [text, withEnding, Ending.delimiter, Text.byteLen] <;> rfl

theorem byteLen_concat_eq (ls : List Line) :
    Text.byteLen (concat ls)
      = Text.byteLen (concat (ls.map (withEnding .lf))) + tally .crlf ls := by
  induction ls with
  | nil => rfl
  | cons l ls ih =>
    have hl := byteLen_text_eq l
    simp only [concat_cons, List.map_cons, Text.byteLen_append, tally_cons]
    omega

/-- A line starts later than in the LF form by one for each pair before it. -/
theorem startOf_eq (ls : List Line) (i : Nat) :
    startOf ls i = startOf (ls.map (withEnding .lf)) i + tally .crlf (ls.take i) := by
  rw [startOf, byteLen_concat_eq, startOf, List.map_take]

theorem byteLen_text_withEnding_lf {l : Line} (h : l.delimiter ≠ .eof) :
    Text.byteLen (l.withEnding .lf).text = Text.byteLen l.body + 1 := by
  rw [text, delimiter_withEnding, if_neg h, Ending.text_delimiter, Text.byteLen_append]
  rfl

/-- Only the last of complete lines is ended by the end of the text. -/
theorem Complete.delimiter_eq_eof_iff {ls : List Line} (h : Complete ls) {i : Nat} {l : Line}
    (hl : ls[i]? = some l) : l.delimiter = .eof ↔ i + 1 = ls.length := by
  induction h generalizing i with
  | last hb =>
    cases i with
    | zero =>
      simp only [List.getElem?_cons_zero, Option.some.injEq] at hl
      simp [← hl]
    | succ i => simp at hl
  | @cons m ms hb hd hms ih =>
    have hpos := List.length_pos_iff.mpr hms.ne_nil
    cases i with
    | zero =>
      simp only [List.getElem?_cons_zero, Option.some.injEq] at hl
      subst hl
      simp only [List.length_cons]
      constructor
      · exact fun h => absurd h hd
      · intro h
        omega
    | succ i =>
      rw [ih (by simpa using hl), List.length_cons]
      omega

end Line

open Line in
theorem LineIndex.startsOf_withEnding_lf (offset : Nat) {ls : List Line} (h : tally .crlf ls = 0) :
    startsOf offset ls = startsOf offset (ls.map (withEnding .lf)) := by
  induction ls generalizing offset with
  | nil => rfl
  | cons l ls ih =>
    rw [tally_cons] at h
    have hl := byteLen_text_eq l
    rw [List.map_cons, startsOf, startsOf, ih _ (by omega), hl,
      show (if l.delimiter = .crlf then 1 else 0) = 0 by omega, Nat.add_zero]

/-! ### Marks, line by line -/

namespace CrlfMarks

open Line

/-- The marks of lines whose LF form begins at `offset`. -/
def marksOf (offset : Nat) : List Line → List Nat
  | [] => []
  | l :: ls =>
    (if l.delimiter = .crlf then [offset + Text.byteLen l.body] else [])
      ++ marksOf (offset + Text.byteLen (l.withEnding .lf).text) ls

theorem marksFrom_eq (offset : Nat) (t : Text) :
    marksFrom offset t = marksOf offset (split t) := by
  induction t using Text.scanInduction generalizing offset with
  | nil => rfl
  | crlf cs ih =>
    rw [marksFrom, split, marksOf, ih]
    rfl
  | cr cs h ih =>
    rw [marksFrom, split, marksOf, ih]
    · rfl
    · exact h
    · exact fun ds _ hds => h ds hds
  | lf cs ih =>
    rw [marksFrom, split, marksOf, ih]
    · rfl
    · simp
  | char c cs hcr hlf ih =>
    rw [marksFrom, split_cons_char hcr hlf, ih]
    · cases hs : split cs with
      | nil => exact absurd hs (split_ne_nil cs)
      | cons l ls => simp [consHead, marksOf, text, Nat.add_assoc, withEnding]
    · exact fun ds h => absurd h hcr

/-- **The marks of a text**, line by line. -/
theorem marks_ofText (t : Text) : (ofText t).marks = (marksOf 0 (split t)).toArray := by
  rw [ofText, marksFrom_eq]

theorem marksOf_append (offset : Nat) (ls ms : List Line) :
    marksOf offset (ls ++ ms)
      = marksOf offset ls
        ++ marksOf (offset + Text.byteLen (concat (ls.map (withEnding .lf)))) ms := by
  induction ls generalizing offset with
  | nil => simp [marksOf]
  | cons l ls ih => simp [marksOf, ih, Nat.add_assoc]

theorem length_marksOf (offset : Nat) (ls : List Line) :
    (marksOf offset ls).length = tally .crlf ls := by
  induction ls generalizing offset with
  | nil => rfl
  | cons l ls ih =>
    rw [marksOf, List.length_append, ih, tally_cons]
    split <;> simp [Nat.add_comm]

theorem lt_of_mem_marksOf {offset mark : Nat} {ls : List Line} (h : mark ∈ marksOf offset ls) :
    mark < offset + Text.byteLen (concat (ls.map (withEnding .lf))) := by
  induction ls generalizing offset with
  | nil => simp [marksOf] at h
  | cons l ls ih =>
    rw [marksOf, List.mem_append] at h
    rw [List.map_cons, concat_cons, Text.byteLen_append]
    rcases h with h | h
    · split at h
      · rename_i hcrlf
        rw [List.mem_singleton.mp h]
        have hlen := byteLen_text_withEnding_lf (l := l) (by simp [hcrlf])
        omega
      · simp at h
    · have := ih h
      omega

/-- No mark comes before the end of the first line. -/
theorem le_of_mem_marksOf_cons {offset mark : Nat} {l : Line} {ls : List Line}
    (h : mark ∈ marksOf offset (l :: ls)) : offset + Text.byteLen l.body ≤ mark := by
  induction ls generalizing offset l with
  | nil =>
    simp only [marksOf, List.append_nil] at h
    split at h
    · rw [List.mem_singleton.mp h]
    · simp at h
  | cons m ms ih =>
    rw [marksOf, List.mem_append] at h
    rcases h with h | h
    · split at h
      · rw [List.mem_singleton.mp h]
      · simp at h
    · have hnext := ih h
      simp only [text, body_withEnding, Text.byteLen_append] at hnext
      omega

/-! ### Offsets of the two forms -/

section Offsets

variable {t : Text} {i : Nat} {l : Line}

theorem marks_cut (t : Text) (i : Nat) :
    (ofText t).marks = (marksOf 0 ((split t).take i)
      ++ marksOf (startOf ((split t).map (withEnding .lf)) i) ((split t).drop i)).toArray := by
  rw [marks_ofText, startOf, ← List.map_take]
  have hcut := marksOf_append 0 ((split t).take i) ((split t).drop i)
  rw [List.take_append_drop, Nat.zero_add] at hcut
  rw [hcut]

theorem lt_of_mem_marks_before {mark : Nat} (h : mark ∈ marksOf 0 ((split t).take i)) :
    mark < startOf ((split t).map (withEnding .lf)) i := by
  have hlt := lt_of_mem_marksOf h
  rwa [Nat.zero_add, List.map_take] at hlt

/-- The marks from a line on are not before the end of the line. -/
theorem le_of_mem_marks_from (hl : (split t)[i]? = some l) {mark : Nat}
    (h : mark ∈ marksOf (startOf ((split t).map (withEnding .lf)) i) ((split t).drop i)) :
    startOf ((split t).map (withEnding .lf)) i + Text.byteLen l.body ≤ mark := by
  obtain ⟨hi, rfl⟩ := List.getElem?_eq_some_iff.mp hl
  rw [List.drop_eq_getElem_cons hi] at h
  exact le_of_mem_marksOf_cons h

/-- **From the LF form**: on a given line the marks count the pairs before it. The line goes up
to the start of the next one, the last line on and on. -/
theorem toSource_eq (hi : i < (split t).length) {o : Nat}
    (hle : startOf ((split t).map (withEnding .lf)) i ≤ o)
    (hlt : i + 1 < (split t).length → o < startOf ((split t).map (withEnding .lf)) (i + 1)) :
    (ofText t).toSource o = o + tally .crlf ((split t).take i) := by
  have hl : (split t)[i]? = some (split t)[i] := List.getElem?_eq_getElem hi
  have heof := (complete_split t).delimiter_eq_eof_iff hl
  rw [toSource, marks_cut t i, partitionPoint_append, length_marksOf]
  · intro j mark hj
    have := lt_of_mem_marks_before (List.mem_of_getElem? hj)
    simp only [decide_eq_true_eq]
    omega
  · -- The mark of the line itself stands where its line feed is, and that is not passed.
    intro j mark hj
    have hmem := List.mem_of_getElem? hj
    have hmark := le_of_mem_marks_from hl hmem
    have hne : (split t)[i].delimiter ≠ .eof := by
      -- On the last line no mark is left.
      intro hlast
      rw [List.drop_eq_getElem_cons hi, List.drop_eq_nil_of_le (heof.mp hlast).ge] at hmem
      simp [marksOf, hlast] at hmem
    have hlf : ((split t).map (withEnding .lf))[i]? = some ((split t)[i].withEnding .lf) := by
      rw [List.getElem?_map, hl, Option.map_some]
    have hnext := hlt (by have := mt heof.mpr hne; omega)
    rw [startOf_succ hlf, byteLen_text_withEnding_lf hne] at hnext
    simp only [decide_eq_false_iff_not]
    omega

/-- **To the LF form**: within a line, without its terminator, the marks count the pairs before
the line. -/
theorem ofSource_eq (hl : (split t)[i]? = some l) {byte : Nat}
    (hbyte : byte ≤ Text.byteLen l.body) :
    (ofText t).ofSource (startOf (split t) i + byte)
      = startOf ((split t).map (withEnding .lf)) i + byte := by
  have hstart := startOf_eq (split t) i
  rw [ofSource, marks_cut t i, partitionPoint_append, length_marksOf]
  · omega
  · -- A mark of the LF form is compared with an offset of the text: `j` pairs lie between.
    intro j mark hj
    have hlt := lt_of_mem_marks_before (List.mem_of_getElem? hj)
    have hlen := length_marksOf 0 ((split t).take i)
    have := (List.getElem?_eq_some_iff.mp hj).choose
    simp only [decide_eq_true_eq]
    omega
  · intro j mark hj
    have hle := le_of_mem_marks_from hl (List.mem_of_getElem? hj)
    rw [length_marksOf]
    simp only [decide_eq_false_iff_not]
    omega

end Offsets

/-- The LF form and the pairs make up the length of the text. -/
theorem byteLen_eq (t : Text) :
    t.byteLen = (t.normalize (.fixed .lf)).byteLen + tally .crlf (split t) := by
  rw [Text.normalize_fixed, ← byteLen_concat_eq, concat_split]

/-- Every offset of the LF form is on a line. -/
theorem exists_line_lf (t : Text) (o : Nat) :
    ∃ i, i < (split t).length ∧ startOf ((split t).map (withEnding .lf)) i ≤ o ∧
      (i + 1 < (split t).length → o < startOf ((split t).map (withEnding .lf)) (i + 1)) := by
  have hline := LineIndex.exists_line (t.normalize (.fixed .lf)) o
  rwa [split_normalize, List.length_map] at hline

/-- **An offset of the LF form and the one it stands for have the same position**, also past the
end. -/
theorem positionAt_toSource (t : Text) (o : Nat) :
    (LineIndex.ofText t).positionAt ((ofText t).toSource o)
      = (LineIndex.ofText (t.normalize (.fixed .lf))).positionAt o := by
  obtain ⟨i, hi, hle, hlt⟩ := exists_line_lf t o
  have hstart := startOf_eq (split t) i
  have hsplit := split_normalize .lf t
  rw [toSource_eq hi hle hlt]
  have hsource : (LineIndex.ofText t).positionAt (o + tally .crlf ((split t).take i))
      = ⟨i, o + tally .crlf ((split t).take i) - startOf (split t) i⟩ := by
    refine LineIndex.positionAt_ofText t hi (by omega) fun hnext => ?_
    -- The next line starts later by at least as many pairs.
    have hpairs : tally .crlf ((split t).take i) ≤ tally .crlf ((split t).take (i + 1)) := by
      rw [List.take_add_one, tally_append]
      omega
    have := startOf_eq (split t) (i + 1)
    have := hlt hnext
    omega
  have hlf : (LineIndex.ofText (t.normalize (.fixed .lf))).positionAt o
      = ⟨i, o - startOf ((split t).map (withEnding .lf)) i⟩ := by
    rw [← hsplit] at hle hlt ⊢
    exact LineIndex.positionAt_ofText _ (by rw [hsplit, List.length_map]; exact hi) hle
      fun hnext => hlt (by rwa [hsplit, List.length_map] at hnext)
  rw [hsource, hlf, show o + tally .crlf ((split t).take i) - startOf (split t) i
    = o - startOf ((split t).map (withEnding .lf)) i by omega]

/-- Past the end of the LF form, all pairs are before the offset. -/
theorem toSource_of_byteLen_le {t : Text} {o : Nat}
    (h : (t.normalize (.fixed .lf)).byteLen ≤ o) :
    (ofText t).toSource o = o + tally .crlf (split t) := by
  have hmarks : (ofText t).marks = (marksOf 0 (split t) ++ []).toArray := by
    rw [marks_ofText, List.append_nil]
  rw [toSource, hmarks, partitionPoint_append, length_marksOf]
  · intro j mark hj
    have hlt := lt_of_mem_marksOf (List.mem_of_getElem? hj)
    rw [← Text.normalize_fixed] at hlt
    simp only [decide_eq_true_eq]
    omega
  · simp

/-- An offset past the end of the LF form stands for one past the end of the text, and no other
offset does. -/
theorem min_toSource (t : Text) (o : Nat) :
    min ((ofText t).toSource o) t.byteLen
      = (ofText t).toSource (min o (t.normalize (.fixed .lf)).byteLen) := by
  have hlen := byteLen_eq t
  rcases Nat.le_total o (t.normalize (.fixed .lf)).byteLen with hle | hge
  · obtain ⟨i, hi, hstart, hnext⟩ := exists_line_lf t o
    have hpairs : tally .crlf ((split t).take i) ≤ tally .crlf (split t) := by
      have hsum := tally_append .crlf ((split t).take i) ((split t).drop i)
      rw [List.take_append_drop] at hsum
      omega
    rw [Nat.min_eq_left hle, toSource_eq hi hstart hnext, Nat.min_eq_left (by omega)]
  · rw [Nat.min_eq_right hge, toSource_of_byteLen_le hge, toSource_of_byteLen_le (Nat.le_refl _)]
    omega

end CrlfMarks

/-! ### Documents with the same lines -/

namespace Document

open Line

/-- Two documents have the same lines, but for their terminators, and the same units. -/
structure SameLines (d e : Document) : Prop where
  lastLine : d.index.lastLine = e.index.lastLine
  lineText : ∀ i, d.lineText i = e.lineText i
  encoding : d.encoding = e.encoding

section SameLines

variable {d e : Document} (h : SameLines d e)
include h

theorem SameLines.toEditor (p : Position) : d.toEditor p = e.toEditor p := by
  simp only [Document.toEditor, h.lastLine, h.lineText, h.encoding]

theorem SameLines.ofEditor (p : Editor.Position) : d.ofEditor p = e.ofEditor p := by
  simp only [Document.ofEditor, h.lastLine, h.lineText, h.encoding]

theorem SameLines.toEditorRange (r : Range) : d.toEditorRange r = e.toEditorRange r := by
  simp only [Document.toEditorRange, h.toEditor]

/-- The word at a position is looked up in the text of its line. -/
theorem SameLines.wordAt (p : Editor.Position) : d.wordAt? p = e.wordAt? p := by
  have hword : ∀ q, Word.at? d.text d.index q = Word.at? e.text e.index q := by
    intro q
    have hline : ∀ i, d.text.lineAt d.index i = e.text.lineAt e.index i := h.lineText
    simp only [Word.at?, Word.atWith?, h.lastLine, hline]
  simp only [wordAt?, h.ofEditor, hword, h.toEditorRange]

end SameLines

variable (version lfVersion : Int) (t : Text) (enc : Encoding)

/-- A document and the document of its LF form have the same lines. -/
theorem sameLines_lf :
    SameLines (ofText version t enc) (ofText lfVersion (t.normalize (.fixed .lf)) enc) := by
  have hsplit := split_normalize .lf t
  have hlast : (LineIndex.ofText t).lastLine
      = (LineIndex.ofText (t.normalize (.fixed .lf))).lastLine := by
    rw [LineIndex.lastLine_ofText, LineIndex.lastLine_ofText, hsplit, List.length_map]
  refine ⟨hlast, fun i => ?_, rfl⟩
  obtain ⟨l, hl⟩ : ∃ l, (split t)[min i (LineIndex.ofText t).lastLine]? = some l :=
    ⟨_, List.getElem?_eq_getElem (LineIndex.min_lastLine_lt t i)⟩
  have hlf : (split (t.normalize (.fixed .lf)))[min i
      (LineIndex.ofText (t.normalize (.fixed .lf))).lastLine]? = some (l.withEnding .lf) := by
    rw [hsplit, List.getElem?_map, ← hlast, hl, Option.map_some]
  show t.lineAt (LineIndex.ofText t) i
    = (t.normalize (.fixed .lf)).lineAt (LineIndex.ofText (t.normalize (.fixed .lf))) i
  rw [Text.lineAt_ofText hl, Text.lineAt_ofText hlf, body_withEnding]

/-- **The index of the LF form**: without pairs every line is as long as in the LF form, so the
index of the text serves. -/
theorem lfIndex_ofText :
    (ofText version t enc).lfIndex = LineIndex.ofText (t.normalize (.fixed .lf)) := by
  show (if (CrlfMarks.ofText t).isEmpty then LineIndex.ofText t
    else LineIndex.ofText (t.normalize (.fixed .lf))) = _
  split
  · rename_i hempty
    have hnone : tally .crlf (split t) = 0 := by
      rw [CrlfMarks.isEmpty, CrlfMarks.marks_ofText] at hempty
      rw [← CrlfMarks.length_marksOf 0]
      simpa using hempty
    have hlen : t.byteLen = (t.normalize (.fixed .lf)).byteLen := by
      have hpairs := CrlfMarks.byteLen_eq t
      omega
    rw [LineIndex.ofText, LineIndex.ofText, LineIndex.startsFrom_eq, LineIndex.startsFrom_eq,
      split_normalize, LineIndex.startsOf_withEnding_lf 0 hnone, hlen]
  · rfl

theorem lfOffsetToEditor_eq (offset : Nat) :
    (ofText version t enc).lfOffsetToEditor offset
      = (ofText lfVersion (t.normalize (.fixed .lf)) enc).positionAt offset := by
  have hsame := sameLines_lf version lfVersion t enc
  show (ofText version t enc).toEditor ((LineIndex.ofText t).positionAt
      (min ((CrlfMarks.ofText t).toSource offset) t.byteLen)) = _
  rw [CrlfMarks.min_toSource, CrlfMarks.positionAt_toSource, hsame.toEditor]
  rfl

theorem editorToLfOffset_eq (p : Editor.Position) :
    (ofText version t enc).editorToLfOffset p
      = (ofText lfVersion (t.normalize (.fixed .lf)) enc).offsetAt p := by
  have hsame := sameLines_lf version lfVersion t enc
  obtain ⟨l, hl, hle⟩ := ofEditor_within version t enc p
  obtain ⟨hlt, -⟩ := List.getElem?_eq_some_iff.mp hl
  have hlast := LineIndex.lastLine_ofText t
  have hlast' := LineIndex.lastLine_ofText (t.normalize (.fixed .lf))
  rw [split_normalize, List.length_map] at hlast'
  show (CrlfMarks.ofText t).ofSource
      ((LineIndex.ofText t).offsetAt ((ofText version t enc).ofEditor p))
    = (LineIndex.ofText (t.normalize (.fixed .lf))).offsetAt
      ((ofText lfVersion (t.normalize (.fixed .lf)) enc).ofEditor p)
  rw [← hsame.ofEditor, LineIndex.offsetAt_ofText, LineIndex.offsetAt_ofText, split_normalize,
    Nat.min_eq_left (by omega), Nat.min_eq_left (by omega)]
  exact CrlfMarks.ofSource_eq hl hle

/-- A range of the LF form keeps its positions, once they are read off its offsets. -/
theorem rangeToSource_eq (r : Range) :
    (CrlfMarks.ofText t).rangeToSource r (LineIndex.ofText (t.normalize (.fixed .lf)))
        (LineIndex.ofText t)
      = ⟨(LineIndex.ofText (t.normalize (.fixed .lf))).positionAt
          ((LineIndex.ofText (t.normalize (.fixed .lf))).offsetAt r.start),
        (LineIndex.ofText (t.normalize (.fixed .lf))).positionAt
          ((LineIndex.ofText (t.normalize (.fixed .lf))).offsetAt r.stop)⟩ := by
  rw [CrlfMarks.rangeToSource, CrlfMarks.positionAt_toSource, CrlfMarks.positionAt_toSource]

/-- What a document `d` answers about its LF form is what the document `lf` answers about itself. -/
structure AnswersFor (d lf : Document) : Prop where
  lineText : ∀ line, d.lineText line = lf.lineText line
  ofEditor : ∀ p, d.ofEditor p = lf.ofEditor p
  toEditor : ∀ q, d.toEditor q = lf.toEditor q
  wordAt : ∀ p, d.wordAt? p = lf.wordAt? p
  lfOffsetToEditor : ∀ offset, d.lfOffsetToEditor offset = lf.positionAt offset
  editorToLfOffset : ∀ p, d.editorToLfOffset p = lf.offsetAt p
  lfRangeToEditor : ∀ r, d.lfRangeToEditor r = lf.toEditorRange
    ⟨d.lfIndex.positionAt (d.lfIndex.offsetAt r.start),
      d.lfIndex.positionAt (d.lfIndex.offsetAt r.stop)⟩

/-- **A document answers for its LF form as the document of the LF form does**: lines, places,
words, offsets and ranges, within the document and past its end. -/
theorem lf_view_agrees :
    AnswersFor (ofText version t enc) (ofText lfVersion (ofText version t enc).lfText enc) := by
  have hsame := sameLines_lf version lfVersion t enc
  have hindex := lfIndex_ofText version t enc
  refine ⟨hsame.lineText, hsame.ofEditor, hsame.toEditor, hsame.wordAt,
    lfOffsetToEditor_eq version lfVersion t enc, editorToLfOffset_eq version lfVersion t enc, ?_⟩
  intro r
  rw [Document.lfRangeToEditor, hindex, ← rangeToSource_eq]
  exact hsame.toEditorRange _

end Document

end Newline
