/-
Documents.

A document is one version of a text with all that is derived from it: counts, dominant ending,
line index, the LF form with its own index, and the marks between the two forms.

* `Document.ofText`, `Document.update` — a version, and the next one;
* `Document.toEditor`, `Document.ofEditor` — positions in bytes and in the units of the editor;
* `Document.lfRangeToEditor`, `Document.lfOffsetToEditor`, `Document.editorToLfOffset` — places
  in the LF form;
* `Document.resolve`, `Document.applyEdits?` — edits of the editor.
-/
import Newline.CrlfMarks
import Newline.Edit
import Newline.Editor.Edit
import Newline.Encoding
import Newline.Ending.Detect
import Newline.Word

namespace Newline

/-- One version of a text. -/
structure Document where
  /-- The version. -/
  version : Int
  /-- The text. -/
  text : Text
  /-- Its terminators. -/
  stats : Stats
  /-- Its dominant ending. -/
  ending : Ending
  /-- Its lines. -/
  index : LineIndex
  /-- Its LF form. -/
  lfText : Text
  /-- The lines of the LF form. -/
  lfIndex : LineIndex
  /-- The pairs that are one line feed in the LF form. -/
  marks : CrlfMarks
  /-- The units of the editor's columns. -/
  encoding : Encoding
  deriving DecidableEq, Repr, Inhabited

namespace Document

/-- The document of a text. Without CRLF pairs its LF form is as long and has the same lines. -/
def ofText (version : Int) (text : Text) (encoding : Encoding := default) : Document :=
  let stats := Stats.ofText text
  let index := LineIndex.ofText text
  let marks := CrlfMarks.ofText text
  let lfText := text.normalize (.fixed .lf)
  { version, text, stats, index, lfText, marks, encoding
    ending := Ending.ofStats stats
    lfIndex := if marks.isEmpty then index else LineIndex.ofText lfText }

/-- The document with other units. -/
def withEncoding (d : Document) (encoding : Encoding) : Document := { d with encoding }

/-- The next version, with a new text. -/
def update (d : Document) (version : Int) (text : Text) : Except Editor.Error Document :=
  if version ≤ d.version then .error (.staleVersion d.version version)
  else .ok (ofText version text d.encoding)

/-- The number of lines. -/
def lineCount (d : Document) : Nat := d.index.lineCount

/-- A line without its terminator. -/
def lineText (d : Document) (line : Nat) : Text := d.text.lineAt d.index line

/-! ### Positions -/

/-- The place in the editor of a position. A line that does not exist counts as the last, and
what lies in or past a terminator as the end of the line. -/
def toEditor (d : Document) (p : Position) : Editor.Position :=
  let line := min p.line d.index.lastLine
  ⟨Editor.coordOfNat line,
    Editor.coordOfNat (d.encoding.unitsOfByte (d.lineText line) p.character)⟩

/-- The position of a place in the editor. A line that does not exist counts as the last, and a
column past the end of a line as the end. -/
def ofEditor (d : Document) (p : Editor.Position) : Position :=
  let line := min p.line.toNat d.index.lastLine
  ⟨line, d.encoding.byteOfUnits (d.lineText line) p.character.toNat⟩

/-- The position of a place in the editor whose line exists. -/
def tryOfEditor (d : Document) (p : Editor.Position) : Except Editor.Error Position :=
  if d.lineCount ≤ p.line.toNat then
    .error (.coordinate (.lineOutOfBounds p.line.toNat d.lineCount))
  else .ok (d.ofEditor p)

/-- The offset of a place in the editor. -/
def offsetAt (d : Document) (p : Editor.Position) : Nat := d.index.offsetAt (d.ofEditor p)

/-- The place in the editor of an offset. -/
def positionAt (d : Document) (offset : Nat) : Editor.Position :=
  d.toEditor (d.index.positionAt (min offset d.text.byteLen))

/-- The range in the editor of a range with its ends in either order. -/
def toEditorRange (d : Document) (r : Range) : Editor.Range :=
  let r := r.normalized
  ⟨d.toEditor r.start, d.toEditor r.stop⟩

/-- The range of a range in the editor, with its ends in order. -/
def ofEditorRange (d : Document) (r : Editor.Range) : Range :=
  Range.normalized ⟨d.ofEditor r.start, d.ofEditor r.stop⟩

/-- The range of the whole document. -/
def fullRange (d : Document) : Editor.Range := d.toEditorRange (d.text.fullRange d.index)

/-- The word at a place in the editor, and its range there. -/
def wordAt? (d : Document) (p : Editor.Position) : Option (Text × Editor.Range) :=
  (Word.at? d.text d.index (d.ofEditor p)).map fun w => (w.text, d.toEditorRange w.range)

/-! ### The LF form -/

/-- The range in the editor of a range of the LF form. -/
def lfRangeToEditor (d : Document) (r : Range) : Editor.Range :=
  d.toEditorRange (d.marks.rangeToSource r d.lfIndex d.index)

/-- The place in the editor of an offset in the LF form. -/
def lfOffsetToEditor (d : Document) (offset : Nat) : Editor.Position :=
  d.positionAt (d.marks.toSource offset)

/-- The offset in the LF form of a place in the editor. -/
def editorToLfOffset (d : Document) (p : Editor.Position) : Nat :=
  d.marks.ofSource (d.offsetAt p)

/-! ### Edits -/

/-- The edits of the editor, in bytes. -/
def resolve (d : Document) (es : List Editor.Edit) : List Edit :=
  es.map fun e => Edit.ofRange (d.ofEditorRange e.range) e.newText

/-- The text after the edits of the editor. -/
def applyEdits? (d : Document) (es : List Editor.Edit) : Option Text :=
  Edit.applyAll? d.text (d.resolve es)

end Document

end Newline
