/-
Words.

A word is a longest run of ASCII letters, digits and underscores within a line. `Word.at?`
finds the one that a caret touches, also one that ends right before it. `Word.atWith?` does the
same with whatever finds the words of a line.
-/
import Newline.Edit

namespace Newline

/-- A word and where it stands. -/
structure Word where
  /-- The characters of the word. -/
  text : Text
  /-- Its range in the text. -/
  range : Range
  deriving DecidableEq, Repr, Inhabited

namespace Word

/-- The characters of words. -/
def isWordChar (c : Char) : Bool := c.isAlphanum || c = '_'

/-- The words of a line that begins at `offset`, each with the offset of its start. -/
def runs (offset : Nat) (line : Text) : List (Nat × Text) :=
  match line with
  | [] => []
  | c :: cs =>
    if isWordChar c then
      let word : Text := c :: cs.takeWhile isWordChar
      (offset, word) :: runs (offset + word.byteLen) (cs.dropWhile isWordChar)
    else runs (offset + c.utf8Size) cs
termination_by line.length
decreasing_by
  · have := (List.dropWhile_suffix (l := cs) isWordChar).length_le
    simp only [List.length_cons]
    omega
  · simp

/-- The first of the words that `find` gives for the line which starts at or before the position
and ends at or after it. A line that does not exist counts as the last, and a character past the
end of its line as the end. -/
def atWith? (find : Text → List (Nat × Text)) (t : Text) (index : LineIndex) (p : Position) :
    Option Word :=
  let line := min p.line index.lastLine
  let content := t.lineAt index line
  let column := min p.character content.byteLen
  ((find content).find? fun (start, word) => start ≤ column && column ≤ start + word.byteLen).map
    fun (start, word) => ⟨word, ⟨⟨line, start⟩, ⟨line, start + word.byteLen⟩⟩⟩

/-- The word at a position. -/
def at? (t : Text) (index : LineIndex) (p : Position) : Option Word := atWith? (runs 0) t index p

end Word

end Newline
