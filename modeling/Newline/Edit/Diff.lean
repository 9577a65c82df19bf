/-
Edits between two texts.

* `commonInit`, `commonTail` — what two lists share at the front and at the back;
* `Edit.wholeText` — the one edit that replaces a text;
* `Edit.minimal` — no edit for equal texts, else one that replaces everything;
* `Edit.byLines?` — for texts with the same number of lines, one edit from the first character
  in which they differ to the last.
-/
import Newline.Edit
import Newline.Line

namespace Newline

/-- The longest common initial part of two lists. -/
def commonInit {α : Type} [DecidableEq α] : List α → List α → List α
  | a :: as, b :: bs => if a = b then a :: commonInit as bs else []
  | _, _ => []

/-- The longest common final part of two lists. -/
def commonTail {α : Type} [DecidableEq α] (as bs : List α) : List α :=
  (commonInit as.reverse bs.reverse).reverse

namespace Edit

/-- The edit that replaces all of `old`. -/
def wholeText (old new : Text) : Edit := ofRange (old.fullRange (LineIndex.ofText old)) new

/-- The edits from `old` to `new`: none or one. -/
def minimal (old new : Text) : List Edit := if old = new then [] else [wholeText old new]

/-- The edit from one list of lines to another of the same length, where `first` and `last` are
the first and the last line that differ. What the first lines share at the front stays, and so
does what the last lines share at the back, unless the delimiter of the last line changes: then
the edit goes on to the start of the next line. -/
def ofLines (oldLines newLines : List Line) (first last : Nat) : Edit :=
  let oldFirst := (oldLines.getD first default).body
  let newFirst := (newLines.getD first default).body
  let oldLast := oldLines.getD last default
  let newLast := newLines.getD last default
  let kept := commonInit oldFirst newFirst
  let between := Line.concat ((newLines.drop first).take (last - first))
  if oldLast.delimiter = newLast.delimiter then
    let tail :=
      if first = last then
        commonTail (oldFirst.drop kept.length) (newFirst.drop kept.length)
      else commonTail oldLast.body newLast.body
    let replacement := between ++ newLast.body.take (newLast.body.length - tail.length)
    ofRange ⟨⟨first, Text.byteLen kept⟩, ⟨last, Text.byteLen oldLast.body - Text.byteLen tail⟩⟩
      (replacement.drop kept.length)
  else
    ofRange ⟨⟨first, Text.byteLen kept⟩, ⟨last + 1, 0⟩⟩
      ((between ++ newLast.text).drop kept.length)

/-- The edit from `old` to `new` that leaves the lines before and after the change alone. There
is none if the texts have different numbers of lines, and nothing to do if they are equal. -/
def byLines? (old new : Text) : Option (List Edit) :=
  let oldLines := Line.split old
  let newLines := Line.split new
  if old = new then some []
  else if oldLines.length = newLines.length then
    let first := (commonInit oldLines newLines).length
    let last := oldLines.length - 1 - (commonTail oldLines newLines).length
    some [ofLines oldLines newLines first last]
  else none

end Edit

end Newline
