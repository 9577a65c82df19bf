/-
Editing by ranges.

A range is resolved against an index of line starts, and its offsets are moved back into the
text and onto character boundaries, so that a range that points past a line, past the text or
into a character still names a part of the text, even with the index of another text.

* `Text.resolveRange`, `Text.sliceRange`, `Text.replaceRange`, `Text.lineAt` — one range or line;
* `Edit.compact` — overlapping edits made into one;
* `Edit.applyAll?` — many edits at once, all against the same text.
-/
import Newline.LineIndex
import Newline.Normalization
import Newline.Range

namespace Newline

namespace Text

/-- The two offsets of a range within the text, in order and on boundaries. -/
def resolveRange (t : Text) (index : LineIndex) (r : Range) : Nat × Nat :=
  let a := t.floorBoundary (index.offsetAt r.start)
  let b := t.floorBoundary (index.offsetAt r.stop)
  (min a b, max a b)

/-- The part of the text in a range. -/
def sliceRange (t : Text) (index : LineIndex) (r : Range) : Text :=
  let (start, stop) := t.resolveRange index r
  t.slice start stop

/-- The text with a range replaced. -/
def replaceRange (t : Text) (index : LineIndex) (r : Range) (replacement : Text) : Text :=
  let (start, stop) := t.resolveRange index r
  t.splice start stop replacement

/-- The range of the whole text. -/
def fullRange (t : Text) (index : LineIndex) : Range where
  start := ⟨0, 0⟩
  stop := ⟨index.lastLine, t.byteLen - index.starts.getD index.lastLine 0⟩

/-- A line without its terminator. A line that does not exist counts as the last. -/
def lineAt (t : Text) (index : LineIndex) (line : Nat) : Text :=
  let (start, stop) := (index.lineSpan? (min line index.lastLine)).getD (0, 0)
  (t.slice start stop).stripFinalNewline

/-- The length of a line without its terminator. -/
def lineLength (t : Text) (index : LineIndex) (line : Nat) : Nat := (t.lineAt index line).byteLen

end Text

/-- A range and what is to replace it. -/
structure Edit where
  /-- The range to replace. -/
  range : Range
  /-- What is put there. -/
  newText : Text
  deriving DecidableEq, Repr, Inhabited

namespace Edit

/-- The edit of a range whose ends may be in either order. -/
def ofRange (r : Range) (newText : Text) : Edit := ⟨r.normalized, newText⟩

/-- The edit with the ends of its range in order. -/
def normalized (e : Edit) : Edit := ofRange e.range e.newText

/-- Makes edits that come in order into one where the next starts before the last one ends:
it covers both, and the text of the later edit stays. -/
def compactInto (current : Edit) : List Edit → List Edit
  | [] => [current]
  | e :: es =>
    if e.range.start < current.range.stop then
      compactInto ⟨⟨current.range.start, max current.range.stop e.range.stop⟩, e.newText⟩ es
    else current :: compactInto e es

/-- The edits in order of their ranges, those at the same range as given, without overlap. -/
def compact (es : List Edit) : List Edit :=
  match (es.map normalized).mergeSort (fun d e => decide (d.range ≤ e.range)) with
  | [] => []
  | e :: rest => compactInto e rest

/-- Replaces a part of `buffer`, if both offsets are boundaries of it. -/
def spliceAt? (buffer : Text) (start stop : Nat) (newText : Text) : Option Text :=
  if buffer.IsBoundary start ∧ buffer.IsBoundary stop then some (buffer.splice start stop newText)
  else none

/-- Applies edits in the given order to what the edits before have made of the text, with
offsets taken from the text itself. -/
def applyFrom? (t : Text) (index : LineIndex) (buffer : Text) : List Edit → Option Text
  | [] => some buffer
  | e :: es =>
    let (start, stop) := t.resolveRange index e.range
    (spliceAt? buffer start stop e.newText).bind fun next => applyFrom? t index next es

/-- The text after all edits. They are applied from the last to the first, so that an edit
leaves the offsets before it as they are. There is no result if positions past the ends of
their lines make an edit reach beyond the start of one already applied, and the offsets of the
text are no boundaries of what has become of it. -/
def applyAll? (t : Text) (es : List Edit) : Option Text :=
  applyFrom? t (LineIndex.ofText t) t (compact es).reverse

end Edit

end Newline
