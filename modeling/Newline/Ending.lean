/-
Line endings.

* `Ending` — the two endings a text is written with;
* `Target` — the ending asked for, where `auto` asks for none;
* `Ending.expandLf` — the LF form of a text, written with an ending.
-/
import Newline.Text

namespace Newline

/-- A line ending to write. -/
inductive Ending
  /-- A line feed. -/
  | lf
  /-- A carriage return and a line feed. -/
  | crlf
  deriving DecidableEq, Repr, Inhabited

namespace Ending

/-- The characters of the ending. -/
def text : Ending → Text
  | lf => ['\n']
  | crlf => ['\r', '\n']

/-- The name used in settings, options and reports. -/
def name : Ending → String
  | lf => "lf"
  | crlf => "crlf"

/-- The ending of a name. -/
def ofName? : String → Option Ending
  | "lf" => some lf
  | "crlf" => some crlf
  | _ => none

/-- Writes every line feed as the ending. A carriage return is a character like any other. -/
def expandLf (e : Ending) (t : Text) : Text :=
  match e with
  | lf => t
  | crlf => t.flatMap fun c => if c = '\n' then ['\r', '\n'] else [c]

end Ending

/-- The ending asked for. -/
inductive Target
  /-- Every terminator is to be this ending. -/
  | fixed (e : Ending)
  /-- Terminators stay as they are. -/
  | auto
  deriving DecidableEq, Repr, Inhabited

namespace Target

/-- The ending, if one is asked for. -/
def ending? : Target → Option Ending
  | fixed e => some e
  | auto => none

/-- What is written between lines: the ending asked for, or else a line feed. -/
def separator : Target → Text
  | fixed e => e.text
  | auto => Ending.lf.text

/-- The name used in settings and reports. -/
def name : Target → String
  | fixed e => e.name
  | auto => "auto"

/-- The target of a name. -/
def ofName? : String → Option Target
  | "auto" => some auto
  | n => (Ending.ofName? n).map fixed

end Target

end Newline
