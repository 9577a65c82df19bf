/-
Texts, measured in UTF-8 bytes.

A text is its list of characters. Offsets into a text count the bytes of its UTF-8 form, so
an offset can fall inside a character; the functions here say what is done about it.

* `Text.byteLen`, `Text.toBytes` — the UTF-8 form and its length;
* `Text.takeBytes`, `Text.dropBytes` — the whole characters that fit before an offset, and
  what follows them;
* `Text.floorBoundary`, `Text.ceilBoundary` — the nearest character boundaries on either side
  of an offset, both within the text;
* `Text.slice`, `Text.splice` — the part between two offsets, taken out or replaced.
-/

namespace Newline

/-- A text is its list of characters. -/
abbrev Text := List Char

namespace Text

/-- The number of bytes of the UTF-8 form. -/
def byteLen : Text → Nat
  | [] => 0
  | c :: cs => c.utf8Size + byteLen cs

@[simp]
theorem byteLen_nil : byteLen [] = 0 := rfl

@[simp]
theorem byteLen_cons (c : Char) (cs : Text) : byteLen (c :: cs) = c.utf8Size + byteLen cs := rfl

@[simp]
theorem byteLen_append (s t : Text) : byteLen (s ++ t) = byteLen s + byteLen t := by
  induction s with
  | nil => simp
  | cons c s ih => simp [ih, Nat.add_assoc]

/-- The UTF-8 form. -/
def toBytes (t : Text) : List UInt8 := t.flatMap String.utf8EncodeChar

/-- The text with the given UTF-8 form, if the bytes are well-formed UTF-8. -/
def ofBytes? (bytes : List UInt8) : Option Text :=
  (String.fromUTF8? ⟨bytes.toArray⟩).map String.toList

/-! ### Cuts at byte offsets -/

/-- The longest initial part of at most `n` bytes. -/
def takeBytes (n : Nat) : Text → Text
  | [] => []
  | c :: cs => if c.utf8Size ≤ n then c :: takeBytes (n - c.utf8Size) cs else []

/-- What follows `takeBytes n`. -/
def dropBytes (n : Nat) : Text → Text
  | [] => []
  | c :: cs => if c.utf8Size ≤ n then dropBytes (n - c.utf8Size) cs else c :: cs

@[simp]
theorem takeBytes_append_dropBytes (n : Nat) (t : Text) : takeBytes n t ++ dropBytes n t = t := by
  induction t generalizing n with
  | nil => rfl
  | cons c cs ih =>
    rw [takeBytes, dropBytes]
    split <;> simp [ih]

/-- The greatest character boundary that is neither past `n` nor past the end. -/
def floorBoundary (t : Text) (n : Nat) : Nat := byteLen (takeBytes n t)

/-- The least character boundary that is not before `n`, or the end if `n` is past it. -/
def ceilBoundary (t : Text) (n : Nat) : Nat :=
  let floor := floorBoundary t n
  if floor < n then
    match dropBytes n t with
    | [] => floor
    | c :: _ => floor + c.utf8Size
  else floor

/-- Whether `n` is the offset of a character or of the end. -/
def IsBoundary (t : Text) (n : Nat) : Prop := floorBoundary t n = n

instance (t : Text) (n : Nat) : Decidable (IsBoundary t n) :=
  inferInstanceAs (Decidable (_ = _))

/-- The characters between two offsets, each moved back to a boundary. -/
def slice (t : Text) (start stop : Nat) : Text :=
  takeBytes (stop - floorBoundary t start) (dropBytes start t)

/-- The text with the part between two boundaries replaced. -/
def splice (t : Text) (start stop : Nat) (replacement : Text) : Text :=
  takeBytes start t ++ replacement ++ dropBytes stop t

/-- Whether the text ends with `tail`. -/
def endsWith (t tail : Text) : Bool := tail.isSuffixOf t

end Text

end Newline
