/-
Normal forms of terminators.

* `Text.normalize` — every terminator becomes the ending asked for; a text that already has
  no other is returned as it is;
* `Text.ensureFinalNewline`, `Text.stripFinalNewline` — add or remove the last terminator.
-/
import Newline.Ending
import Newline.Stats

namespace Newline

/-- Whether no other terminator than `e` was counted. -/
def Stats.isUniform (s : Stats) (e : Ending) : Bool :=
  match e with
  | .lf => s.crlf = 0 && s.cr = 0
  | .crlf => s.lf = 0 && s.cr = 0

namespace Text

/-- Writes every terminator as `e`. -/
def replaceTerminators (e : Ending) : Text → Text
  | [] => []
  | '\r' :: '\n' :: cs => e.text ++ replaceTerminators e cs
  | '\r' :: cs => e.text ++ replaceTerminators e cs
  | '\n' :: cs => e.text ++ replaceTerminators e cs
  | c :: cs => c :: replaceTerminators e cs

/-- The text with every terminator as asked for. -/
def normalize (target : Target) (t : Text) : Text :=
  match target with
  | .auto => t
  | .fixed e => if (Stats.ofText t).isUniform e then t else replaceTerminators e t

/-- The text ended by `e`: appended unless the text ends with its characters. -/
def ensureFinalNewline (e : Ending) (t : Text) : Text :=
  if t.endsWith e.text then t else t ++ e.text

/-- The text without its last terminator, if it ends with one. -/
def stripFinalNewline : Text → Text
  | [] => []
  | ['\r', '\n'] => []
  | ['\n'] => []
  | ['\r'] => []
  | c :: cs => c :: stripFinalNewline cs

end Text

end Newline
