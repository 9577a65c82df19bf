/-
Columns in bytes and in units.

Both are counted along the characters of a line, and each character is at least one unit and at
least one byte, so that a column in units and the byte offset of a character determine each
other. Between characters the one count rounds down and the other up.

* `Text.ceilBoundary_eq` — rounding up to a boundary is counting UTF-8 units one by one;
* `Encoding.unitLen_cons`, `Encoding.unitLen_append` — units are counted character by character;
* `Encoding.unitsOfByte_mono` — later bytes have no earlier columns;
* `Encoding.byteOfUnits_eq`, `Encoding.byteOfUnits_le_iff` — one count for all encodings, and the
  law of the two roundings;
* `Encoding.byteOfUnits_le` — a column in units never goes past its line;
* `Encoding.isBoundary_byteOfUnits` — a column, also one inside a character, is the offset of a
  character or of the end;
* `Encoding.byteOfUnits_unitsOfByte` — there and back, an offset has moved to the character that
  holds it.
-/
import Mathlib.Data.Nat.Basic
import Mathlib.Order.Basic
import Newline.Encoding
import Newline.Proofs.Boundary

namespace Newline

namespace Text

variable {t : Text} {m n : Nat}

theorem takeBytes_isPrefix (t : Text) (h : m ≤ n) : takeBytes m t <+: takeBytes n t := by
  induction t generalizing m n with
  | nil => exact List.prefix_refl _
  | cons c cs ih =>
    rw [takeBytes, takeBytes]
    by_cases hm : c.utf8Size ≤ m
    · rw [if_pos hm, if_pos (by omega), List.cons_prefix_cons]
      exact ⟨rfl, ih (by omega)⟩
    · rw [if_neg hm]
      exact List.nil_prefix

/-- Inside a character, the boundary before an offset is the start of the character. -/
theorem floorBoundary_inside (a b : Text) {c : Char} (hlt : n < c.utf8Size) :
    floorBoundary (a ++ c :: b) (byteLen a + n) = byteLen a := by
  rw [floorBoundary_append_add, floorBoundary, takeBytes, if_neg (by omega), byteLen_nil,
    Nat.add_zero]

/-! ### Rounding up -/

theorem ceilBoundary_zero (t : Text) : ceilBoundary t 0 = 0 := by
  rw [ceilBoundary, floorBoundary, takeBytes_zero]
  rfl

/-- Rounding up, character by character: one that begins before the offset is passed whole. -/
theorem ceilBoundary_cons (c : Char) (cs : Text) (n : Nat) :
    ceilBoundary (c :: cs) n
      = if n = 0 then 0 else c.utf8Size + ceilBoundary cs (n - c.utf8Size) := by
  rcases Nat.eq_zero_or_pos n with rfl | hpos
  · rw [if_pos rfl, ceilBoundary_zero]
  · rw [if_neg (by omega), ceilBoundary, floorBoundary, takeBytes, dropBytes]
    by_cases hc : c.utf8Size ≤ n
    · rw [if_pos hc, if_pos hc, ceilBoundary, floorBoundary, byteLen_cons]
      by_cases hcut : byteLen (takeBytes (n - c.utf8Size) cs) < n - c.utf8Size
      · rw [if_pos hcut, if_pos (by omega)]
        cases dropBytes (n - c.utf8Size) cs with
        | nil => rfl
        | cons d ds => exact Nat.add_assoc _ _ _
      · rw [if_neg hcut, if_neg (by omega)]
    · rw [if_neg hc, if_neg hc, show n - c.utf8Size = 0 by omega, ceilBoundary_zero, byteLen_nil,
        if_pos hpos]
      simp

/-- **Rounding up** to a boundary is counting UTF-8 units one by one. -/
theorem ceilBoundary_eq (t : Text) (n : Nat) :
    t.ceilBoundary n = Encoding.utf8.bytesOfUnits n t := by
  induction t generalizing n with
  | nil =>
    rw [ceilBoundary]
    split
    · rfl
    · rfl
  | cons c cs ih => rw [ceilBoundary_cons, Encoding.bytesOfUnits, ih, Encoding.charLen]

end Text

namespace Encoding

variable (enc : Encoding)

/-! ### Counting units -/

theorem charLen_pos (c : Char) : 0 < enc.charLen c := by
  cases enc with
  | utf8 => exact c.utf8Size_pos
  | utf16 =>
    rw [charLen]
    split
    · exact Nat.one_pos
    · exact Nat.two_pos
  | utf32 => exact Nat.one_pos

/-- A character has no more units than bytes: two only beyond the basic plane. -/
theorem charLen_le_utf8Size (c : Char) : enc.charLen c ≤ c.utf8Size := by
  have hpos := c.utf8Size_pos
  cases enc with
  | utf8 => exact Nat.le_refl _
  | utf16 =>
    rw [charLen]
    split
    · exact hpos
    · rename_i hge
      have hval : c.toNat = c.val.toNat := rfl
      have hsize : c.utf8Size = 4 := by
        rw [Char.utf8Size_eq_four_iff, UInt32.lt_iff_toNat_lt, ← hval]
        exact Nat.not_lt.mp hge
      omega
  | utf32 => exact hpos

theorem length_utf16UnitsOfChar (c : Char) : (utf16UnitsOfChar c).length = utf16.charLen c := by
  rw [utf16UnitsOfChar, charLen]
  split <;> rfl

@[simp] theorem unitLen_nil : enc.unitLen [] = 0 := by
  cases enc <;> rfl

@[simp] theorem unitLen_cons (c : Char) (cs : Text) :
    enc.unitLen (c :: cs) = enc.charLen c + enc.unitLen cs := by
  cases enc with
  | utf8 => rfl
  | utf16 => simp [unitLen, Text.utf16Units, length_utf16UnitsOfChar]
  | utf32 => simp [unitLen, charLen, Nat.add_comm]

@[simp] theorem unitLen_append (s t : Text) :
    enc.unitLen (s ++ t) = enc.unitLen s + enc.unitLen t := by
  induction s with
  | nil => simp
  | cons c cs ih => simp [ih, Nat.add_assoc]

theorem unitLen_le_byteLen (t : Text) : enc.unitLen t ≤ t.byteLen := by
  induction t with
  | nil => simp
  | cons c cs ih =>
    have hc := enc.charLen_le_utf8Size c
    simp only [unitLen_cons, Text.byteLen_cons]
    omega

/-! ### Columns of offsets -/

theorem unitsOfByte_cons (c : Char) (cs : Text) (byte : Nat) :
    enc.unitsOfByte (c :: cs) byte =
      if c.utf8Size ≤ byte then enc.charLen c + enc.unitsOfByte cs (byte - c.utf8Size)
      else 0 := by
  rw [unitsOfByte, Text.takeBytes]
  split
  · rw [unitLen_cons, unitsOfByte]
  · exact enc.unitLen_nil

/-- **Later offsets have no earlier columns.** -/
theorem unitsOfByte_mono (line : Text) {m n : Nat} (h : m ≤ n) :
    enc.unitsOfByte line m ≤ enc.unitsOfByte line n := by
  obtain ⟨rest, hrest⟩ := line.takeBytes_isPrefix h
  rw [unitsOfByte, unitsOfByte, ← hrest, unitLen_append]
  omega

theorem unitsOfByte_le (line : Text) (byte : Nat) : enc.unitsOfByte line byte ≤ line.byteLen :=
  Nat.le_trans (enc.unitLen_le_byteLen _) (line.floorBoundary_le_byteLen byte)

/-! ### Offsets of columns -/

theorem bytesOfUnits_zero (line : Text) : enc.bytesOfUnits 0 line = 0 := by
  cases line <;> rfl

/-- Counted one by one, the units of the first part of a line are its bytes. -/
theorem bytesOfUnits_append (a b : Text) :
    enc.bytesOfUnits (enc.unitLen a) (a ++ b) = a.byteLen := by
  induction a with
  | nil => rw [unitLen_nil, bytesOfUnits_zero, Text.byteLen_nil]
  | cons c cs ih =>
    have hpos := enc.charLen_pos c
    rw [List.cons_append, unitLen_cons, bytesOfUnits, if_neg (by omega), Nat.add_sub_cancel_left,
      ih, Text.byteLen_cons]

theorem isBoundary_bytesOfUnits (units : Nat) (line : Text) :
    line.IsBoundary (enc.bytesOfUnits units line) := by
  induction line generalizing units with
  | nil => rfl
  | cons c cs ih =>
    rw [bytesOfUnits]
    split
    · exact Text.isBoundary_zero _
    · obtain ⟨a, b, hcs, hlen⟩ := Text.isBoundary_iff.mp (ih (units - enc.charLen c))
      exact Text.isBoundary_iff.mpr ⟨c :: a, b, by rw [hcs, List.cons_append],
        by rw [Text.byteLen_cons, hlen]⟩

variable (line : Text)

/-- **The law of the two roundings**, for columns counted one by one. -/
theorem bytesOfUnits_le_iff (units byte : Nat) :
    enc.bytesOfUnits units line ≤ byte ↔
      min units (enc.unitLen line) ≤ enc.unitsOfByte line byte := by
  induction line generalizing units byte with
  | nil => simp [bytesOfUnits]
  | cons c cs ih =>
    have hunits := enc.charLen_pos c
    rw [bytesOfUnits, unitLen_cons, unitsOfByte_cons]
    by_cases hzero : units = 0
    · rw [if_pos hzero]
      omega
    · rw [if_neg hzero]
      by_cases hc : c.utf8Size ≤ byte
      · -- Both offsets are past the first character: the law for what is left.
        have hrest := ih (units - enc.charLen c) (byte - c.utf8Size)
        rw [if_pos hc]
        omega
      · -- The column is past the start of the first character, the byte offset is not past its end.
        rw [if_neg hc]
        omega

theorem bytesOfUnits_min (units : Nat) :
    enc.bytesOfUnits (min units (enc.unitLen line)) line = enc.bytesOfUnits units line := by
  refine eq_of_forall_ge_iff fun byte => ?_
  rw [bytesOfUnits_le_iff, bytesOfUnits_le_iff, Nat.min_assoc, Nat.min_self]

/-- **One count for all encodings**: searching for a boundary gives the same as counting units. -/
theorem byteOfUnits_eq (units : Nat) :
    enc.byteOfUnits line units = enc.bytesOfUnits units line := by
  cases enc with
  | utf8 =>
    rw [byteOfUnits, Text.ceilBoundary_eq]
    exact bytesOfUnits_min utf8 line units
  | utf16 => rfl
  | utf32 => rfl

/-- **The law of the two roundings**: a column is rounded to an offset no later than `byte` exactly
if it is no later than the column of `byte`. Columns past the end are as good as the end. -/
theorem byteOfUnits_le_iff (units byte : Nat) :
    enc.byteOfUnits line units ≤ byte ↔
      min units (enc.unitLen line) ≤ enc.unitsOfByte line byte := by
  rw [byteOfUnits_eq, bytesOfUnits_le_iff]

/-- **A column past the end of its line is the end.** -/
theorem byteOfUnits_le (units : Nat) : enc.byteOfUnits line units ≤ line.byteLen := by
  rw [byteOfUnits_le_iff, unitsOfByte, Text.takeBytes_of_le (Nat.le_refl _)]
  exact Nat.min_le_right _ _

/-- **A column is the offset of a character or of the end.** -/
theorem isBoundary_byteOfUnits (units : Nat) : line.IsBoundary (enc.byteOfUnits line units) := by
  rw [byteOfUnits_eq]
  exact enc.isBoundary_bytesOfUnits units line

/-- **There and back**, an offset has moved to the start of the character that holds it, or to the
end of the line. -/
theorem byteOfUnits_unitsOfByte (byte : Nat) :
    enc.byteOfUnits line (enc.unitsOfByte line byte) = line.floorBoundary byte := by
  -- Counting one by one goes back over the characters before the offset.
  have happend := enc.bytesOfUnits_append (line.takeBytes byte) (line.dropBytes byte)
  rw [Text.takeBytes_append_dropBytes] at happend
  rw [byteOfUnits_eq]
  exact happend

end Encoding

end Newline
