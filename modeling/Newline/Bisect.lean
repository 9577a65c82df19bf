/-
Bisection.

`bisect p lo hi` finds where a property of the numbers from `lo` to `hi` stops holding, in a
logarithmic number of tests. For a property that holds up to some point and fails from there
on, the result is that point.
-/

namespace Newline

/-- The first number from `lo` up to `hi` at which `p` fails, provided `p` never holds again
after it has failed; `hi` if there is none. -/
def bisect (p : Nat → Bool) (lo hi : Nat) : Nat :=
  if lo < hi then
    let mid := (lo + hi) / 2
    if p mid then bisect p (mid + 1) hi else bisect p lo mid
  else lo
termination_by hi - lo

/-- How many leading entries of an array satisfy `p`, provided no entry after the first that
fails does. -/
def partitionPoint (entries : Array Nat) (p : Nat → Nat → Bool) : Nat :=
  bisect (fun i => p i (entries.getD i 0)) 0 entries.size

end Newline
