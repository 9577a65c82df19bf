/-
Ranges: two positions, in either order. A range covers its start and not its end; one whose
ends are reversed covers nothing until it is normalized.
-/
import Newline.Position

namespace Newline

/-- The span between two positions. -/
structure Range where
  /-- Where the span begins. -/
  start : Position
  /-- Where the span ends. -/
  stop : Position
  deriving DecidableEq, Repr, Inhabited

namespace Range

/-- The empty range at a position. -/
def cursor (p : Position) : Range := ⟨p, p⟩

/-- The range with its ends in order. -/
def normalized (r : Range) : Range := if r.stop < r.start then ⟨r.stop, r.start⟩ else r

/-- Whether both ends are the same. -/
def isEmpty (r : Range) : Bool := r.start = r.stop

/-- Whether the range covers a position. -/
def contains (r : Range) (p : Position) : Bool := r.start ≤ p && p < r.stop

/-- The range with its ends moved apart along their own lines. -/
def expandOnLine (r : Range) (before after : Nat) : Range where
  start := { r.start with character := r.start.character - before }
  stop := { r.stop with character := r.stop.character + after }

/-- Earlier start first, then earlier end. -/
instance : LE Range where
  le r s := r.start < s.start ∨ r.start = s.start ∧ r.stop ≤ s.stop

theorem le_iff {r s : Range} :
    r ≤ s ↔ r.start < s.start ∨ r.start = s.start ∧ r.stop ≤ s.stop := Iff.rfl

instance (r s : Range) : Decidable (r ≤ s) := decidable_of_iff _ le_iff.symm

end Range

end Newline
