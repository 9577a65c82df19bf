/-
Rounding between bytes and units.

Within a line a byte offset becomes a column in units and a column a byte offset. A byte offset
inside a character goes back to the start of the character, a column inside a character goes on to
its end. What the two conversions are, there and back, follows from the law that relates them.

* `Text.takeBytes_eq_entirelyBefore` — the whole characters before an offset, one by one;
* `Text.isGreatest_floorBoundary` — rounding down to a boundary;
* `Encoding.isLeast_byteOfUnits` — rounding a column up to a boundary;
* `Encoding.unitsOfByte_byteOfUnits_eq_iff` — which columns are not moved;
* `Encoding.roundings_adjoint` — both roundings, there and back.
-/
import Mathlib.Algebra.GroupWithZero.Nat
import Mathlib.Order.Bounds.Basic
import Newline.Proofs.Units

namespace Newline

namespace Text

/-! ### Characters before an offset -/

/-- The characters that end no later than at an offset. -/
def entirelyBefore (t : Text) (n : Nat) : Text :=
  (t.zipIdx.filter fun ci => byteLen (t.take (ci.2 + 1)) ≤ n).map Prod.fst

theorem entirelyBefore_cons (c : Char) (cs : Text) (n : Nat) :
    entirelyBefore (c :: cs) n
      = if c.utf8Size ≤ n then c :: entirelyBefore cs (n - c.utf8Size) else [] := by
  rw [entirelyBefore, List.zipIdx_cons', List.filter_cons, List.filter_map]
  have hfirst : byteLen ((c :: cs).take (0 + 1)) = c.utf8Size := by simp
  by_cases hc : c.utf8Size ≤ n
  · -- Behind the first character, every other one ends as much later.
    have hrest : ∀ ci ∈ cs.zipIdx,
        decide (byteLen ((c :: cs).take (ci.2 + 1 + 1)) ≤ n)
          = decide (byteLen (cs.take (ci.2 + 1)) ≤ n - c.utf8Size) := by
      intro ci _
      rw [List.take_succ_cons, byteLen_cons, decide_eq_decide]
      omega
    rw [if_pos (by simpa [hfirst] using hc), if_pos hc, List.map_cons, List.map_map]
    exact congrArg (c :: ·) (congrArg (List.map Prod.fst) (List.filter_congr hrest))
  · rw [if_neg (by simpa [hfirst] using hc), if_neg hc, List.map_map, List.map_eq_nil_iff,
      List.filter_eq_nil_iff]
    intro ci _
    show ¬ decide (byteLen ((c :: cs).take (ci.2 + 1 + 1)) ≤ n) = true
    rw [decide_eq_true_eq, List.take_succ_cons, byteLen_cons]
    omega

/-- **The whole characters before an offset**, taken from the front, are all that end before it. -/
theorem takeBytes_eq_entirelyBefore (n : Nat) (t : Text) : takeBytes n t = t.entirelyBefore n := by
  induction t generalizing n with
  | nil => rfl
  | cons c cs ih => rw [takeBytes, entirelyBefore_cons, ih]

theorem takeBytes_min (n : Nat) (t : Text) : takeBytes (min n (byteLen t)) t = takeBytes n t := by
  rcases Nat.le_total n (byteLen t) with h | h
  · rw [Nat.min_eq_left h]
  · rw [Nat.min_eq_right h, takeBytes_of_le (Nat.le_refl _), takeBytes_of_le h]

/-! ### Boundaries on either side -/

theorem floorBoundary_le (t : Text) (n : Nat) : floorBoundary t n ≤ n := by
  rw [floorBoundary]
  induction t generalizing n with
  | nil => exact Nat.zero_le n
  | cons c cs ih =>
    rw [takeBytes]
    split
    · have hrest := ih (n - c.utf8Size)
      rw [byteLen_cons]
      omega
    · exact Nat.zero_le n

/-- **Rounding down** gives the last boundary that is not past an offset or the end. -/
theorem isGreatest_floorBoundary (t : Text) (n : Nat) :
    IsGreatest {x | t.IsBoundary x ∧ x ≤ min n t.byteLen} (t.floorBoundary n) := by
  constructor
  · exact ⟨t.isBoundary_floorBoundary n,
      Nat.le_min.mpr ⟨t.floorBoundary_le n, t.floorBoundary_le_byteLen n⟩⟩
  · rintro x ⟨hx, hle⟩
    have hself : t.floorBoundary x = x := hx
    rw [← hself]
    exact t.floorBoundary_mono (Nat.le_trans hle (Nat.min_le_left _ _))

end Text

namespace Encoding

variable (enc : Encoding) (line : Text)

/-! ### The two roundings -/

theorem unitLen_eq_sum (t : Text) : enc.unitLen t = (t.map enc.charLen).sum := by
  induction t with
  | nil => rw [unitLen_nil, List.map_nil, List.sum_nil]
  | cons c cs ih => rw [unitLen_cons, List.map_cons, List.sum_cons, ih]

theorem min_le_unitsOfByte (units : Nat) :
    min units (enc.unitLen line) ≤ enc.unitsOfByte line (enc.byteOfUnits line units) :=
  (enc.byteOfUnits_le_iff line units _).mp (Nat.le_refl _)

/-- **Rounding a column** gives the first boundary whose column is not before it. -/
theorem isLeast_byteOfUnits (units : Nat) :
    IsLeast {x | line.IsBoundary x ∧ min units (enc.unitLen line) ≤ enc.unitsOfByte line x}
      (enc.byteOfUnits line units) := by
  constructor
  · exact ⟨enc.isBoundary_byteOfUnits line units, enc.min_le_unitsOfByte line units⟩
  · rintro x ⟨-, hx⟩
    exact (enc.byteOfUnits_le_iff line units x).mpr hx

theorem byteOfUnits_mono : Monotone (enc.byteOfUnits line) := by
  intro u v h
  rw [byteOfUnits_le_iff]
  have hback := enc.min_le_unitsOfByte line v
  omega

/-- The column is that of a character of the line, or of its end. -/
def IsColumn (units : Nat) : Prop := ∃ a b, line = a ++ b ∧ enc.unitLen a = units

/-- **A column is not moved**, there and back, exactly if it is that of a character or of the
end. -/
theorem unitsOfByte_byteOfUnits_eq_iff (units : Nat) :
    enc.unitsOfByte line (enc.byteOfUnits line units) = min units (enc.unitLen line) ↔
      enc.IsColumn line (min units (enc.unitLen line)) := by
  constructor
  · intro heq
    exact ⟨line.takeBytes (enc.byteOfUnits line units), line.dropBytes (enc.byteOfUnits line units),
      (Text.takeBytes_append_dropBytes _ line).symm, heq⟩
  · rintro ⟨a, b, hline, hunits⟩
    have hcolumn : enc.unitsOfByte line a.byteLen = min units (enc.unitLen line) := by
      rw [unitsOfByte]
      conv_lhs => rw [hline, Text.takeBytes_append]
      exact hunits
    -- The boundary with this column is one with no earlier column, and so not before the first.
    have hle := (enc.byteOfUnits_le_iff line units a.byteLen).mpr (Nat.le_of_eq hcolumn.symm)
    refine Nat.le_antisymm ?_ (enc.min_le_unitsOfByte line units)
    rw [← hcolumn]
    exact enc.unitsOfByte_mono line hle

theorem unitsOfByte_eq_sum (byte : Nat) :
    enc.unitsOfByte line byte
      = ((line.entirelyBefore (min byte line.byteLen)).map enc.charLen).sum := by
  rw [← Text.takeBytes_eq_entirelyBefore, Text.takeBytes_min, ← unitLen_eq_sum, unitsOfByte]

/-- What the conversions between bytes and units make of the places of a line: one counts whole
characters and so rounds down, the other rounds up. -/
structure Rounds : Prop where
  unitLen : enc.unitLen line = (line.map enc.charLen).sum
  unitsOfByte : ∀ b, enc.unitsOfByte line b
    = ((line.entirelyBefore (min b line.byteLen)).map enc.charLen).sum
  byteOfUnits_unitsOfByte : ∀ b, IsGreatest {x | line.IsBoundary x ∧ x ≤ min b line.byteLen}
    (enc.byteOfUnits line (enc.unitsOfByte line b))
  byteOfUnits : ∀ u,
    IsLeast {x | line.IsBoundary x ∧ min u (enc.unitLen line) ≤ enc.unitsOfByte line x}
      (enc.byteOfUnits line u)
  le_unitsOfByte : ∀ u,
    min u (enc.unitLen line) ≤ enc.unitsOfByte line (enc.byteOfUnits line u)
  unitsOfByte_eq_iff : ∀ u,
    enc.unitsOfByte line (enc.byteOfUnits line u) = min u (enc.unitLen line) ↔
      enc.IsColumn line (min u (enc.unitLen line))
  adjoint : ∀ u b, enc.byteOfUnits line u ≤ b ↔
    min u (enc.unitLen line) ≤ enc.unitsOfByte line b
  unitsOfByte_mono : Monotone (enc.unitsOfByte line)
  byteOfUnits_mono : Monotone (enc.byteOfUnits line)
  one_by_one : ∀ u, enc.byteOfUnits line u = enc.bytesOfUnits u line

/-- **The conversions between bytes and units are adjoint roundings**, in every encoding and at
every place of a line, inside a character and past the end. The search for a boundary that UTF-8
columns are converted by gives what counting character by character does. -/
theorem roundings_adjoint : enc.Rounds line where
  unitLen := enc.unitLen_eq_sum line
  unitsOfByte := enc.unitsOfByte_eq_sum line
  byteOfUnits_unitsOfByte b := by
    rw [Encoding.byteOfUnits_unitsOfByte]
    exact line.isGreatest_floorBoundary b
  byteOfUnits := enc.isLeast_byteOfUnits line
  le_unitsOfByte := enc.min_le_unitsOfByte line
  unitsOfByte_eq_iff := enc.unitsOfByte_byteOfUnits_eq_iff line
  adjoint := enc.byteOfUnits_le_iff line
  unitsOfByte_mono _ _ h := Encoding.unitsOfByte_mono enc line h
  byteOfUnits_mono := Encoding.byteOfUnits_mono enc line
  one_by_one := enc.byteOfUnits_eq line

end Encoding

end Newline
