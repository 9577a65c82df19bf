/-
Formatting.

Each line loses the blanks at its end and gets its indentation written anew, as wide as before;
then the end-of-line policy of the settings is applied.

* `Indent.width`, `Indent.restyle` — indentation, with tab stops;
* `Settings.format` — a text;
* `Settings.formatEdits` — the edits that format a document;
* `Text.mixedIndentation` — the lines that are indented with both spaces and tabs.
-/
import Newline.Document
import Newline.Line
import Newline.Settings

namespace Newline

namespace Indent

/-- Spaces and tabs. -/
def isBlank (c : Char) : Bool := c = ' ' || c = '\t'

/-- The blanks a line begins with. -/
def ofLine (line : Text) : Text := line.takeWhile isBlank

/-- The column after indentation that begins at `column`, with tab stops every `tab`
columns. -/
def widthFrom (tab column : Nat) : Text → Nat
  | [] => column
  | '\t' :: cs => widthFrom tab ((column / tab + 1) * tab) cs
  | _ :: cs => widthFrom tab (column + 1) cs

/-- The width of indentation. -/
def width (tab : Nat) (indent : Text) : Nat := widthFrom tab 0 indent

/-- Indentation of a given width: levels first, then spaces. Levels of spaces are spaces. -/
def ofWidth (s : Settings) (width : Nat) : Text :=
  if s.insertSpaces then List.replicate width ' '
  else List.replicate (width / s.tabWidth) '\t' ++ List.replicate (width % s.tabWidth) ' '

/-- Indentation of the same width, as the settings want it. -/
def restyle (s : Settings) (indent : Text) : Text := ofWidth s (width s.tabWidth indent)

end Indent

namespace Text

/-- The line without the blanks at its end. -/
def trimEnd (line : Text) : Text := (line.reverse.dropWhile Indent.isBlank).reverse

/-- The lines, from zero, that are indented with both spaces and tabs. -/
def mixedIndentation (t : Text) : List Nat :=
  (Line.split t).zipIdx.filterMap fun (l, i) =>
    let indent := Indent.ofLine l.body
    if ' ' ∈ indent ∧ '\t' ∈ indent then some i else none

end Text

namespace Settings

/-- A line without its delimiter, formatted. -/
def formatLine (s : Settings) (line : Text) : Text :=
  let line := if s.trimTrailingWhitespace then line.trimEnd else line
  Indent.restyle s (Indent.ofLine line) ++ line.dropWhile Indent.isBlank

/-- A text, formatted. -/
def format (s : Settings) (t : Text) : Text :=
  s.policy.apply
    (Line.concat ((Line.split t).map fun l => { l with body := s.formatLine l.body }))

/-- The edits that format a document: none if it is formatted, else one that replaces it. -/
def formatEdits (s : Settings) (d : Document) : List Editor.Edit :=
  let formatted := s.format d.text
  if formatted = d.text then [] else [⟨d.fullRange, formatted⟩]

end Settings

end Newline
