/-
Counts of line terminators.

A carriage return followed by a line feed is one CRLF and neither a CR nor an LF.

* `Stats.ofText` — the counts of a text; a text without carriage returns is counted without
  looking ahead;
* `Text.countLines` — the number of lines, by a scan of its own;
* `Text.isTerminated` — whether the last line is ended.
-/
import Newline.Text

namespace Newline

/-- How often each terminator occurs in a text, and whether the text ends with one. -/
structure Stats where
  /-- Line feeds that are not part of a CRLF. -/
  lf : Nat := 0
  /-- Carriage returns followed by a line feed. -/
  crlf : Nat := 0
  /-- Carriage returns that are not part of a CRLF. -/
  cr : Nat := 0
  /-- Whether the text ends with a terminator. -/
  terminated : Bool := false
  deriving DecidableEq, Repr, Inhabited

namespace Text

/-- Whether the text ends with a terminator. -/
def isTerminated (t : Text) : Bool :=
  t.getLast? = some '\n' || t.getLast? = some '\r'

/-- The number of lines: one more than the number of terminators. -/
def countLines : Text → Nat
  | [] => 1
  | '\r' :: '\n' :: cs => countLines cs + 1
  | '\r' :: cs => countLines cs + 1
  | '\n' :: cs => countLines cs + 1
  | _ :: cs => countLines cs

end Text

namespace Stats

/-- Counts the terminators from the front, on top of those counted before. -/
def scan (s : Stats) : Text → Stats
  | [] => s
  | '\r' :: '\n' :: cs => scan { s with crlf := s.crlf + 1 } cs
  | '\r' :: cs => scan { s with cr := s.cr + 1 } cs
  | '\n' :: cs => scan { s with lf := s.lf + 1 } cs
  | _ :: cs => scan s cs

/-- The counts of a text. Without carriage returns only line feeds can occur. -/
def ofText (t : Text) : Stats :=
  if t.isEmpty then {}
  else if '\r' ∈ t then { scan {} t with terminated := Text.isTerminated t }
  else { lf := t.count '\n', terminated := t.getLast? = some '\n' }

/-- The number of terminators of any kind. -/
def terminators (s : Stats) : Nat := s.lf + s.crlf + s.cr

/-- Whether CRLF occurs beside another terminator. -/
def isMixed (s : Stats) : Bool := 0 < s.crlf && (0 < s.lf || 0 < s.cr)

end Stats

end Newline
