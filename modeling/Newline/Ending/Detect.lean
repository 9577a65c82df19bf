/-
The ending a text already has.

* `Ending.ofStats` — the dominant ending: CRLF only if there are more of them than of all
  other terminators;
* `Ending.detectWithBias` — the same, where a lead of at most `bias` decides nothing;
* `Ending.choose` — the ending to write, from what is asked for and what is there.
-/
import Newline.Ending
import Newline.Stats

namespace Newline.Ending

/-- The dominant ending. -/
def ofStats (s : Stats) : Ending := if s.lf + s.cr < s.crlf then crlf else lf

/-- The dominant ending of a text. -/
def detect (t : Text) : Ending := ofStats (Stats.ofText t)

/-- The dominant ending of a text, or `tiebreak` if neither kind leads by more than `bias`. -/
def detectWithBias (t : Text) (bias : Nat) (tiebreak : Ending) : Ending :=
  let s := Stats.ofText t
  let others := s.lf + s.cr
  let lead := if s.crlf < others then others - s.crlf else s.crlf - others
  if lead ≤ bias then tiebreak else ofStats s

/-- The ending to write: the one asked for, else the dominant one of the source, else
`fallback`. -/
def choose (preferred : Target) (source : Text) (fallback : Ending) : Ending :=
  preferred.ending?.getD (detectWithBias source 0 fallback)

end Newline.Ending
