/-
Marks of CRLF pairs.

In the LF form of a text every CRLF pair has become one line feed. The marks are the offsets
of those line feeds in the LF form; they carry offsets from one form to the other.

* `CrlfMarks.ofText` — the marks of a text, in one scan;
* `CrlfMarks.toSource` — from the LF form to the text;
* `CrlfMarks.ofSource` — from the text to the LF form;
* `CrlfMarks.rangeToSource` — ranges, through the indexes of both forms.
-/
import Newline.LineIndex

namespace Newline

/-- Where the LF form of a text has a line feed for a CRLF pair. -/
structure CrlfMarks where
  /-- The offsets in the LF form, in order. -/
  marks : Array Nat := #[]
  /-- The length of the text. -/
  sourceLen : Nat := 0
  deriving DecidableEq, Repr, Inhabited

namespace CrlfMarks

/-- The marks of a text whose LF form begins at `offset`. -/
def marksFrom (offset : Nat) : Text → List Nat
  | [] => []
  | '\r' :: '\n' :: cs => offset :: marksFrom (offset + 1) cs
  | c :: cs => marksFrom (offset + c.utf8Size) cs

/-- The marks of a text. -/
def ofText (t : Text) : CrlfMarks where
  marks := (marksFrom 0 t).toArray
  sourceLen := t.byteLen

/-- The number of pairs. -/
def size (m : CrlfMarks) : Nat := m.marks.size

/-- Whether there is no pair. -/
def isEmpty (m : CrlfMarks) : Bool := m.marks.isEmpty

/-- The offset in the text of an offset in the LF form: one more for each pair before it. The
line feed of a pair goes to its carriage return. -/
def toSource (m : CrlfMarks) (offset : Nat) : Nat :=
  offset + partitionPoint m.marks (fun _ mark => mark < offset)

/-- The offset in the LF form of an offset in the text: one less for each carriage return of
a pair before it. Both characters of a pair go to its line feed. -/
def ofSource (m : CrlfMarks) (offset : Nat) : Nat :=
  offset - partitionPoint m.marks (fun i mark => mark + i < offset)

/-- A range of the LF form, with its offsets carried to the text and read off in `target`. -/
def rangeToSource (m : CrlfMarks) (r : Range) (lfIndex target : LineIndex) : Range where
  start := target.positionAt (m.toSource (lfIndex.offsetAt r.start))
  stop := target.positionAt (m.toSource (lfIndex.offsetAt r.stop))

/-- Refuses a text whose length is not the one the marks were made from. -/
def checkText (m : CrlfMarks) (t : Text) : Except CoordinateError Unit :=
  if t.byteLen = m.sourceLen then .ok () else .error (.lengthMismatch m.sourceLen t.byteLen)

end CrlfMarks

end Newline
