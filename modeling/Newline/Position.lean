/-
Positions: a line and a byte offset within it, both from zero, in the order of reading.
-/

namespace Newline

/-- A place in a text. -/
structure Position where
  /-- The line, from zero. -/
  line : Nat
  /-- The byte offset within the line, from zero. -/
  character : Nat
  deriving DecidableEq, Repr, Inhabited

namespace Position

/-- Earlier line first, then smaller character. -/
instance : LT Position where
  lt p q := p.line < q.line ∨ p.line = q.line ∧ p.character < q.character

instance : LE Position where
  le p q := p.line < q.line ∨ p.line = q.line ∧ p.character ≤ q.character

theorem lt_iff {p q : Position} :
    p < q ↔ p.line < q.line ∨ p.line = q.line ∧ p.character < q.character := Iff.rfl

theorem le_iff {p q : Position} :
    p ≤ q ↔ p.line < q.line ∨ p.line = q.line ∧ p.character ≤ q.character := Iff.rfl

instance (p q : Position) : Decidable (p < q) := decidable_of_iff _ lt_iff.symm

instance (p q : Position) : Decidable (p ≤ q) := decidable_of_iff _ le_iff.symm

/-- The order as a comparison. -/
def compare (p q : Position) : Ordering :=
  if p < q then .lt else if q < p then .gt else .eq

/-- The later of two positions. -/
instance : Max Position where
  max p q := if p ≤ q then q else p

/-- The position with its line moved back to `maxLine` if it lies beyond. -/
def clampLine (p : Position) (maxLine : Nat) : Position := { p with line := min p.line maxLine }

end Position

end Newline
