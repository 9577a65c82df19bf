/-
End-of-line policies.

A policy says which ending a text gets and what happens at its end: `Policy.apply` normalizes,
then strips one final terminator, then ends the last line, the last two only if asked.
-/
import Newline.Ending.Detect
import Newline.Normalization

namespace Newline

namespace Policy

/-- Which ending a policy writes. -/
inductive Mode
  | fixed (e : Ending)
  /-- The dominant ending of the text. -/
  | preserve
  deriving DecidableEq, Repr, Inhabited

namespace Mode

/-- The name used in options. -/
def name : Mode → String
  | fixed e => e.name
  | preserve => "preserve"

/-- The mode of a name. -/
def ofName? : String → Option Mode
  | "preserve" => some preserve
  | n => (Ending.ofName? n).map fixed

end Mode

end Policy

/-- What to do with the terminators of a text. -/
structure Policy where
  /-- The ending to write. -/
  mode : Policy.Mode := .preserve
  /-- End the last line. -/
  ensureFinalNewline : Bool := false
  /-- Remove one final terminator, before the last line is ended. -/
  stripFinalNewline : Bool := false
  deriving DecidableEq, Repr, Inhabited

namespace Policy

/-- The ending the policy writes into a text. -/
def target (p : Policy) (t : Text) : Ending :=
  match p.mode with
  | .fixed e => e
  | .preserve => Ending.detect t

/-- The text after the policy. -/
def apply (p : Policy) (t : Text) : Text :=
  let e := p.target t
  let normal := t.normalize (.fixed e)
  let stripped := if p.stripFinalNewline then normal.stripFinalNewline else normal
  if p.ensureFinalNewline then stripped.ensureFinalNewline e else stripped

end Policy

end Newline
