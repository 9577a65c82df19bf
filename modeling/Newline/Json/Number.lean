/-
JSON numbers.

A number literal is kept as it is written. It denotes an integer if it has neither a fraction
nor an exponent and fits a 64-bit word, signed or unsigned; minus zero does not count, since no
word holds it. Anything else denotes a double, and is refused if that double is infinite.

* `Number.read?` — the literal at the front of a text;
* `Number.integer?` — the integer it denotes, if any;
* `Number.isFinite` — whether the double is finite.
-/
import Newline.Text

namespace Newline.Json

/-- A number literal. -/
structure Number where
  /-- There is a minus sign. -/
  negative : Bool
  /-- The digits before the point. -/
  whole : List Char
  /-- The digits after the point, if there is one. -/
  fraction : List Char
  /-- The exponent, if there is one. -/
  exponent : Option Int
  deriving DecidableEq, Repr, Inhabited

namespace Number

/-- The number written by decimal digits, after those that gave `n`. -/
def ofDigits (n : Nat) : List Char → Nat
  | [] => n
  | d :: ds => ofDigits (10 * n + (d.toNat - '0'.toNat)) ds

/-! ### Reading -/

/-- The digits at the front, if there are any. -/
def readDigits? (t : Text) : Option (List Char × Text) :=
  match t.takeWhile Char.isDigit with
  | [] => none
  | ds => some (ds, t.dropWhile Char.isDigit)

/-- The digits before the point: a zero, or digits that do not begin with one. -/
def readWhole? : Text → Option (List Char × Text)
  | '0' :: cs => some (['0'], cs)
  | cs => readDigits? cs

/-- The digits after a point, or none without one. -/
def readFraction? : Text → Option (List Char × Text)
  | '.' :: cs => readDigits? cs
  | cs => some ([], cs)

/-- An exponent after its mark. -/
def readSigned? : Text → Option (Int × Text)
  | '-' :: cs => (readDigits? cs).map fun (ds, rest) => (-(ofDigits 0 ds : Int), rest)
  | '+' :: cs => (readDigits? cs).map fun (ds, rest) => ((ofDigits 0 ds : Int), rest)
  | cs => (readDigits? cs).map fun (ds, rest) => ((ofDigits 0 ds : Int), rest)

/-- The exponent, or none without a mark. -/
def readExponent? : Text → Option (Option Int × Text)
  | 'e' :: cs => (readSigned? cs).map fun (n, rest) => (some n, rest)
  | 'E' :: cs => (readSigned? cs).map fun (n, rest) => (some n, rest)
  | cs => some (none, cs)

/-- The literal after its sign. -/
def readUnsigned? (negative : Bool) (t : Text) : Option (Number × Text) := do
  let (whole, t) ← readWhole? t
  let (fraction, t) ← readFraction? t
  let (exponent, t) ← readExponent? t
  return (⟨negative, whole, fraction, exponent⟩, t)

/-- The literal at the front of a text, and what follows it. -/
def read? : Text → Option (Number × Text)
  | '-' :: cs => readUnsigned? true cs
  | cs => readUnsigned? false cs

theorem readDigits?_length {t rest : Text} {ds : List Char}
    (h : readDigits? t = some (ds, rest)) : rest.length < t.length := by
  cases t with
  | nil => simp [readDigits?] at h
  | cons c cs =>
    rw [readDigits?] at h
    split at h
    · simp at h
    · next hne =>
      obtain ⟨-, rfl⟩ := Prod.mk.inj (Option.some.inj h)
      -- some digit is taken, so the first character is one
      have hc : c.isDigit = true := by
        cases hd : c.isDigit with
        | true => rfl
        | false => exact absurd (by simp [hd]) hne
      have := (List.dropWhile_suffix (l := cs) Char.isDigit).length_le
      simp only [List.dropWhile_cons, hc, if_true, List.length_cons]
      omega

theorem readWhole?_length {t rest : Text} {ds : List Char}
    (h : readWhole? t = some (ds, rest)) : rest.length < t.length := by
  unfold readWhole? at h
  split at h
  · obtain ⟨-, rfl⟩ := Prod.mk.inj (Option.some.inj h)
    simp
  · exact readDigits?_length h

theorem readFraction?_length {t rest : Text} {ds : List Char}
    (h : readFraction? t = some (ds, rest)) : rest.length ≤ t.length := by
  unfold readFraction? at h
  split at h
  · have := readDigits?_length h
    simp only [List.length_cons]
    omega
  · obtain ⟨-, rfl⟩ := Prod.mk.inj (Option.some.inj h)
    exact Nat.le_refl _

theorem readSigned?_length {t rest : Text} {n : Int}
    (h : readSigned? t = some (n, rest)) : rest.length ≤ t.length := by
  unfold readSigned? at h
  split at h <;> simp only [Option.map_eq_some_iff, Prod.mk.injEq, Prod.exists] at h
  · obtain ⟨ds, r, hr, -, rfl⟩ := h
    exact Nat.le_of_lt (Nat.lt_succ_of_lt (readDigits?_length hr))
  · obtain ⟨ds, r, hr, -, rfl⟩ := h
    exact Nat.le_of_lt (Nat.lt_succ_of_lt (readDigits?_length hr))
  · obtain ⟨ds, r, hr, -, rfl⟩ := h
    exact Nat.le_of_lt (readDigits?_length hr)

theorem readExponent?_length {t rest : Text} {n : Option Int}
    (h : readExponent? t = some (n, rest)) : rest.length ≤ t.length := by
  unfold readExponent? at h
  split at h
  · simp only [Option.map_eq_some_iff, Prod.mk.injEq, Prod.exists] at h
    obtain ⟨m, r, hr, -, rfl⟩ := h
    exact Nat.le_succ_of_le (readSigned?_length hr)
  · simp only [Option.map_eq_some_iff, Prod.mk.injEq, Prod.exists] at h
    obtain ⟨m, r, hr, -, rfl⟩ := h
    exact Nat.le_succ_of_le (readSigned?_length hr)
  · obtain ⟨-, rfl⟩ := Prod.mk.inj (Option.some.inj h)
    exact Nat.le_refl _

theorem readUnsigned?_length {b : Bool} {t rest : Text} {n : Number}
    (h : readUnsigned? b t = some (n, rest)) : rest.length < t.length := by
  simp only [readUnsigned?, Option.bind_eq_bind, Option.bind_eq_some_iff, Prod.exists] at h
  obtain ⟨w, t₁, h₁, f, t₂, h₂, e, t₃, h₃, h₄⟩ := h
  obtain ⟨-, rfl⟩ := Prod.mk.inj (Option.some.inj h₄)
  have := readWhole?_length h₁
  have := readFraction?_length h₂
  have := readExponent?_length h₃
  omega

/-- A literal is never empty. -/
theorem read?_length {t rest : Text} {n : Number} (h : read? t = some (n, rest)) :
    rest.length < t.length := by
  unfold read? at h
  split at h
  · exact Nat.lt_succ_of_lt (readUnsigned?_length h)
  · exact readUnsigned?_length h

/-! ### What a literal denotes -/

/-- The integer that the literal denotes, if it denotes one. -/
def integer? (n : Number) : Option Int :=
  if n.fraction.isEmpty && n.exponent.isNone then
    let size := ofDigits 0 n.whole
    if n.negative then if 0 < size && size ≤ 0x8000000000000000 then some (-(size : Int)) else none
    else if size < UInt64.size then some size else none
  else none

/-- Appends digits to a number as long as it fits 64 bits, and gives the digits left over. -/
def absorb (n : Nat) : List Char → Nat × List Char
  | [] => (n, [])
  | d :: ds =>
    let next := 10 * n + (d.toNat - '0'.toNat)
    if next < UInt64.size then absorb next ds else (n, d :: ds)

/-- The leading digits of the literal, as many as fit 64 bits, and the power of ten that they
are to be multiplied with. -/
def scaled (n : Number) : Nat × Int :=
  let (high, left) := absorb 0 n.whole
  let (size, unread) := absorb high n.fraction
  (size, (left.length : Int) - (n.fraction.length - unread.length : Nat) + n.exponent.getD 0)

/-- Whether the double nearest the leading digits, times the double nearest the power of ten, is
finite. No double is as large as the power of ten with exponent 309. -/
def isFinite (n : Number) : Bool :=
  let (size, exponent) := n.scaled
  if size = 0 || exponent ≤ 0 then true
  else if 308 < exponent then false
  else !(Float.ofNat size * Float.ofScientific 1 false exponent.toNat).isInf

end Number

end Newline.Json
