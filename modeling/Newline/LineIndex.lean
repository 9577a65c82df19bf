/-
The index of line starts.

An index holds the byte offset at which each line of a text starts, and the length of the
text. It turns offsets into positions by bisection and positions into offsets by lookup.

* `LineIndex.ofText` — the index of a text, in one scan;
* `LineIndex.positionAt`, `LineIndex.offsetAt` — the conversions that always answer;
* `LineIndex.tryPositionAt`, `LineIndex.tryOffsetAt` — those that refuse what lies outside;
* `LineIndex.checkText` — whether the index can belong to a text.
-/
import Newline.Bisect
import Newline.Range
import Newline.Text

namespace Newline

/-- Why a coordinate is refused. -/
inductive CoordinateError
  /-- An offset past the end. -/
  | offsetOutOfBounds (offset len : Nat)
  /-- A line that does not exist. -/
  | lineOutOfBounds (line lineCount : Nat)
  /-- An index and a text of different lengths. -/
  | lengthMismatch (expected actual : Nat)
  deriving DecidableEq, Repr, Inhabited

/-- The wording of the refusal. -/
def CoordinateError.message : CoordinateError → String
  | offsetOutOfBounds offset len =>
    s!"offset {offset} is past the end of the text (length {len})"
  | lineOutOfBounds line lineCount => s!"line {line} does not exist (line count {lineCount})"
  | lengthMismatch expected actual =>
    s!"index was built for a text of length {expected}, but the text has length {actual}"

/-- Where the lines of a text start. -/
structure LineIndex where
  /-- The offset of the start of each line. -/
  starts : Array Nat := #[0]
  /-- The length of the text. -/
  len : Nat := 0
  deriving DecidableEq, Repr, Inhabited

namespace LineIndex

/-- The starts of all lines but the first, for a text that begins at `offset`. -/
def startsFrom (offset : Nat) : Text → List Nat
  | [] => []
  | '\r' :: '\n' :: cs => (offset + 2) :: startsFrom (offset + 2) cs
  | '\r' :: cs => (offset + 1) :: startsFrom (offset + 1) cs
  | '\n' :: cs => (offset + 1) :: startsFrom (offset + 1) cs
  | c :: cs => startsFrom (offset + c.utf8Size) cs

/-- The index of a text. -/
def ofText (t : Text) : LineIndex where
  starts := (0 :: startsFrom 0 t).toArray
  len := t.byteLen

/-- The number of lines. -/
def lineCount (index : LineIndex) : Nat := index.starts.size

/-- The last line. -/
def lastLine (index : LineIndex) : Nat := index.lineCount - 1

/-- Where a line starts, if it exists. -/
def lineStart? (index : LineIndex) (line : Nat) : Option Nat := index.starts[line]?

/-- Where a line starts and where the next one does, or the text ends. -/
def lineSpan? (index : LineIndex) (line : Nat) : Option (Nat × Nat) :=
  (index.lineStart? line).map fun start =>
    (start, (index.lineStart? (line + 1)).getD index.len)

/-- The position of an offset: the last line that starts at or before it. Past the end the
last line goes on. -/
def positionAt (index : LineIndex) (offset : Nat) : Position :=
  let line := partitionPoint index.starts (fun _ start => start ≤ offset) - 1
  ⟨line, offset - index.starts.getD line 0⟩

/-- The offset of a position. A line that does not exist counts as the last; the character
may go past the end of its line. -/
def offsetAt (index : LineIndex) (p : Position) : Nat :=
  index.starts.getD (min p.line index.lastLine) 0 + p.character

/-- The position of an offset within the text. -/
def tryPositionAt (index : LineIndex) (offset : Nat) : Except CoordinateError Position :=
  if index.len < offset then .error (.offsetOutOfBounds offset index.len)
  else .ok (index.positionAt offset)

/-- The offset of a position whose line exists and which lies within the text. -/
def tryOffsetAt (index : LineIndex) (p : Position) : Except CoordinateError Nat :=
  match index.lineStart? p.line with
  | none => .error (.lineOutOfBounds p.line index.lineCount)
  | some start =>
    let offset := start + p.character
    if index.len < offset then .error (.offsetOutOfBounds offset index.len) else .ok offset

/-- The range between two offsets. -/
def rangeOfOffsets (index : LineIndex) (start stop : Nat) : Range :=
  ⟨index.positionAt start, index.positionAt stop⟩

/-- Refuses a text whose length is not the one of the index. -/
def checkText (index : LineIndex) (t : Text) : Except CoordinateError Unit :=
  if t.byteLen = index.len then .ok () else .error (.lengthMismatch index.len t.byteLen)

end LineIndex

end Newline
