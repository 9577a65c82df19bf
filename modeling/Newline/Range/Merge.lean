/-
Merging ranges.

`Range.merge` gives the fewest normalized ranges, in order and apart from each other, that
cover what the given ranges cover. Ranges that only touch are merged too.
-/
import Newline.Range

namespace Newline.Range

/-- Merges ranges that come in order into the range before them, as long as they touch it. -/
def mergeSorted (current : Range) : List Range → List Range
  | [] => [current]
  | r :: rs =>
    if r.start ≤ current.stop then
      mergeSorted { current with stop := max current.stop r.stop } rs
    else current :: mergeSorted r rs

/-- The merged ranges. -/
def merge (rs : List Range) : List Range :=
  match (rs.map normalized).mergeSort (fun r s => decide (r ≤ s)) with
  | [] => []
  | r :: rest => mergeSorted r rest

end Newline.Range
