/-
Printing JSON over several lines: two blanks for each level, one item or field a line.
-/
import Newline.Json.Value

namespace Newline.Json

/-- The digits of a number literal. -/
def Number.text (n : Number) : String :=
  (if n.negative then "-" else "") ++ String.ofList n.whole
    ++ (if n.fraction.isEmpty then "" else "." ++ String.ofList n.fraction)
    ++ (match n.exponent with
      | none => ""
      | some e => "e" ++ toString e)

/-- The last two digits of the escape of a character below the space. -/
def controlDigits (c : Char) : List Char :=
  [Nat.digitChar (c.toNat / 16), Nat.digitChar (c.toNat % 16)]

/-- A character within quotes. -/
def escapeChar (c : Char) : List Char :=
  match c with
  | '"' => ['\\', '"']
  | '\\' => ['\\', '\\']
  | '\x08' => ['\\', 'b']
  | '\x0c' => ['\\', 'f']
  | '\n' => ['\\', 'n']
  | '\r' => ['\\', 'r']
  | '\t' => ['\\', 't']
  | c => if c.toNat < 0x20 then ['\\', 'u', '0', '0'] ++ controlDigits c else [c]

/-- A string within quotes. -/
def quote (s : String) : String := "\"" ++ String.ofList (s.toList.flatMap escapeChar) ++ "\""

/-- The start of a line at a level. -/
def margin (level : Nat) : String := "\n" ++ String.ofList (List.replicate (2 * level) ' ')

mutual

/-- The text of a value that stands at a level. -/
def prettyAt (level : Nat) : Json → String
  | null => "null"
  | bool b => if b then "true" else "false"
  | int n => toString n
  | real n => n.text
  | str s => quote s
  | arr [] => "[]"
  | arr (v :: vs) =>
    "[" ++ margin (level + 1) ++ prettyAt (level + 1) v ++ prettyItems (level + 1) vs
      ++ margin level ++ "]"
  | obj [] => "\x7b\x7d"
  | obj ((name, v) :: fs) =>
    "\x7b" ++ margin (level + 1) ++ quote name ++ ": " ++ prettyAt (level + 1) v
      ++ prettyFields (level + 1) fs ++ margin level ++ "\x7d"

/-- The items after the first. -/
def prettyItems (level : Nat) : List Json → String
  | [] => ""
  | v :: vs => "," ++ margin level ++ prettyAt level v ++ prettyItems level vs

/-- The fields after the first. -/
def prettyFields (level : Nat) : List (String × Json) → String
  | [] => ""
  | (name, v) :: fs =>
    "," ++ margin level ++ quote name ++ ": " ++ prettyAt level v ++ prettyFields level fs

end

/-- The text of a value. -/
def pretty (v : Json) : String := prettyAt 0 v

end Newline.Json
