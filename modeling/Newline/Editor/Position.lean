/-
Positions as editors send them.

Lines and columns are 32-bit words, and columns count the units of an encoding. From JSON they
are read leniently: an integer that does not fit becomes the nearest word, and anything but an
integer is refused.
-/
import Newline.Json.Value

namespace Newline.Editor

/-- The coordinate nearest a natural number. -/
def coordOfNat (n : Nat) : UInt32 := UInt32.ofNatClamp n

/-- The coordinate nearest an integer. -/
def coordOfInt (n : Int) : UInt32 := coordOfNat n.toNat

/-- A place in a document. -/
structure Position where
  /-- The line, from zero. -/
  line : UInt32
  /-- The column in units, from zero. -/
  character : UInt32
  deriving DecidableEq, Repr, Inhabited

namespace Position

/-- Earlier line first, then smaller column. -/
instance : LE Position where
  le p q := p.line < q.line ∨ p.line = q.line ∧ p.character ≤ q.character

theorem le_iff {p q : Position} :
    p ≤ q ↔ p.line < q.line ∨ p.line = q.line ∧ p.character ≤ q.character := Iff.rfl

instance (p q : Position) : Decidable (p ≤ q) := decidable_of_iff _ le_iff.symm

/-- The position of an object with two integers. -/
def ofJson? (v : Json) : Option Position := do
  let line ← (← v.get? "line").int?
  let character ← (← v.get? "character").int?
  return ⟨coordOfInt line, coordOfInt character⟩

end Position

/-- The span between two places. -/
structure Range where
  /-- Where the span begins. -/
  start : Position
  /-- Where the span ends. -/
  stop : Position
  deriving DecidableEq, Repr, Inhabited

/-- The range of an object with two positions. -/
def Range.ofJson? (v : Json) : Option Range := do
  let start ← Position.ofJson? (← v.get? "start")
  let stop ← Position.ofJson? (← v.get? "end")
  return ⟨start, stop⟩

end Newline.Editor
