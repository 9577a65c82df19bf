/-
Units of position encodings.

An editor counts columns in the code units of one of three encodings, this library in bytes.

* `Text.utf16Units` — the UTF-16 form of a text;
* `Encoding.charLen`, `Encoding.unitLen` — the length in units of a character and of a text;
* `Encoding.unitsOfByte` — the column in units of a byte offset, a character that the offset
  cuts not counted;
* `Encoding.byteOfUnits` — the byte offset of a column in units, a character that the column
  cuts counted.
-/
import Newline.Text

namespace Newline

/-- The UTF-16 units of a character: itself, or a high and a low surrogate. -/
def utf16UnitsOfChar (c : Char) : List UInt16 :=
  if c.toNat < 0x10000 then [c.toNat.toUInt16]
  else
    let n := c.toNat - 0x10000
    [(0xD800 + n / 0x400).toUInt16, (0xDC00 + n % 0x400).toUInt16]

/-- The UTF-16 form. -/
def Text.utf16Units (t : Text) : List UInt16 := t.flatMap utf16UnitsOfChar

/-- What columns are counted in. -/
inductive Encoding
  | utf8
  | utf16
  | utf32
  deriving DecidableEq, Repr

namespace Encoding

/-- Editors that say nothing count in UTF-16 units. -/
instance : Inhabited Encoding := ⟨utf16⟩

/-- The name used in the editor protocol. -/
def name : Encoding → String
  | utf8 => "utf-8"
  | utf16 => "utf-16"
  | utf32 => "utf-32"

/-- The encoding of a name. -/
def ofName? : String → Option Encoding
  | "utf-8" => some utf8
  | "utf-16" => some utf16
  | "utf-32" => some utf32
  | _ => none

/-- The encoding to use with an editor that offers some: UTF-8 if it can be had. -/
def negotiate (offered : List String) : Encoding :=
  if utf8.name ∈ offered then utf8 else utf16

/-- The number of units of a character. -/
def charLen : Encoding → Char → Nat
  | utf8, c => c.utf8Size
  | utf16, c => if c.toNat < 0x10000 then 1 else 2
  | utf32, _ => 1

/-- The number of units of a text. -/
def unitLen : Encoding → Text → Nat
  | utf8, t => t.byteLen
  | utf16, t => t.utf16Units.length
  | utf32, t => t.length

/-- The units of the whole characters before a byte offset. -/
def unitsOfByte (enc : Encoding) (line : Text) (byte : Nat) : Nat :=
  enc.unitLen (line.takeBytes byte)

/-- The bytes of the characters that begin before `units` units, counted one by one. -/
def bytesOfUnits (enc : Encoding) (units : Nat) : Text → Nat
  | [] => 0
  | c :: cs =>
    if units = 0 then 0 else c.utf8Size + bytesOfUnits enc (units - enc.charLen c) cs

/-- The byte offset of a column in units: the least boundary that is not before it, or the end
of the line. UTF-8 units are bytes and need no count. -/
def byteOfUnits (enc : Encoding) (line : Text) (units : Nat) : Nat :=
  match enc with
  | utf8 => line.ceilBoundary (min units line.byteLen)
  | enc => enc.bytesOfUnits units line

end Encoding

end Newline
