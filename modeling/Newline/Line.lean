/-
Delimited lines.

A text is a sequence of lines, each with the delimiter that ends it; the last one is ended by
the end of the text and by nothing else.

* `Line.split` — the delimited lines of a text, never none;
* `Line.concat` — the text of delimited lines;
* `Line.joinWith` — the same with every terminator written as a separator;
* `Text.lines`, `Text.joinLines` — lines without their delimiters.
-/
import Newline.Ending

namespace Newline

/-- What ends a line. -/
inductive Delimiter
  | lf
  | crlf
  | cr
  /-- The end of the text. -/
  | eof
  deriving DecidableEq, Repr, Inhabited

namespace Delimiter

/-- The characters of the delimiter. -/
def text : Delimiter → Text
  | lf => ['\n']
  | crlf => ['\r', '\n']
  | cr => ['\r']
  | eof => []

end Delimiter

/-- A line and what ends it. -/
structure Line where
  /-- The line without its delimiter. -/
  body : Text
  /-- What ends it. -/
  delimiter : Delimiter
  deriving DecidableEq, Repr, Inhabited

namespace Line

/-- The line with its delimiter. -/
def text (l : Line) : Text := l.body ++ l.delimiter.text

/-- Puts a character in front of the first line. -/
def consHead (c : Char) : List Line → List Line
  | [] => []
  | l :: ls => { l with body := c :: l.body } :: ls

/-- The delimited lines of a text. -/
def split : Text → List Line
  | [] => [⟨[], .eof⟩]
  | '\r' :: '\n' :: cs => ⟨[], .crlf⟩ :: split cs
  | '\r' :: cs => ⟨[], .cr⟩ :: split cs
  | '\n' :: cs => ⟨[], .lf⟩ :: split cs
  | c :: cs => consHead c (split cs)

/-- The text of delimited lines. -/
def concat (ls : List Line) : Text := ls.flatMap text

/-- The text of delimited lines, with every delimiter but the end of the text written as the
separator of `target`. -/
def joinWith (target : Target) (ls : List Line) : Text :=
  ls.flatMap fun l => l.body ++ if l.delimiter = .eof then [] else target.separator

end Line

namespace Text

/-- The lines of a text without their delimiters; the empty text has none. -/
def lines (t : Text) : List Text := if t.isEmpty then [] else (Line.split t).map Line.body

/-- Lines with a separator between them. -/
def joinLines (target : Target) (ls : List Text) : Text := target.separator.intercalate ls

end Text

end Newline
