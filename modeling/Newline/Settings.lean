/-
Formatting settings.

* `Settings.merge` — settings with the fields of a JSON object laid over them; a field that
  does not exist or has a value of the wrong kind changes nothing;
* `Settings.policy` — the end-of-line policy they imply;
* `Settings.indentUnit` — one level of indentation.
-/
import Newline.Json.Value
import Newline.Policy

namespace Newline

/-- How texts are formatted. -/
structure Settings where
  /-- The width of a level of indentation, in columns. -/
  tabSize : Nat := 2
  /-- Indent with spaces, not with tabs. -/
  insertSpaces : Bool := true
  /-- Remove spaces and tabs at the ends of lines. -/
  trimTrailingWhitespace : Bool := true
  /-- End the last line. -/
  insertFinalNewline : Bool := true
  /-- The ending to write; `auto` is the dominant one of the text. -/
  eol : Target := .fixed .lf
  /-- Report lines that are indented with both spaces and tabs. -/
  detectMixedIndentation : Bool := true
  deriving DecidableEq, Repr

namespace Settings

instance : Inhabited Settings := ⟨{}⟩

/-- The least width that is read from JSON. -/
def minTabSize : Nat := 1

/-- The greatest width that is read from JSON. -/
def maxTabSize : Nat := 16

/-- The width nearest an integer. -/
def clampTabSize (n : Int) : Nat := max minTabSize (min n.toNat maxTabSize)

/-- The integer of a value, if it fits 63 bits and a sign. -/
def signed? (v : Json) : Option Int :=
  match v with
  | .int n => if Int64.minValue.toInt ≤ n ∧ n ≤ Int64.maxValue.toInt then some n else none
  | _ => none

/-- The settings with one field assigned, if its value is of the right kind. -/
def assign (s : Settings) : String × Json → Settings
  | ("tabSize", v) => { s with tabSize := ((signed? v).map clampTabSize).getD s.tabSize }
  | ("insertSpaces", v) => { s with insertSpaces := v.bool?.getD s.insertSpaces }
  | ("trimTrailingWhitespace", v) =>
    { s with trimTrailingWhitespace := v.bool?.getD s.trimTrailingWhitespace }
  | ("insertFinalNewline", v) =>
    { s with insertFinalNewline := v.bool?.getD s.insertFinalNewline }
  | ("eol", v) => { s with eol := (v.str?.bind Target.ofName?).getD s.eol }
  | ("detectMixedIndentation", v) =>
    { s with detectMixedIndentation := v.bool?.getD s.detectMixedIndentation }
  | _ => s

/-- The settings with the fields of an object assigned. Any other value changes nothing. -/
def merge (s : Settings) : Json → Settings
  | .obj fields => fields.foldl assign s
  | _ => s

/-- The settings of a value, from the defaults. -/
def ofJson (v : Json) : Settings := merge {} v

/-- The mode of a target: without a fixed ending the one of the text stays. -/
def modeOf : Target → Policy.Mode
  | .fixed e => .fixed e
  | .auto => .preserve

/-- The end-of-line policy. -/
def policy (s : Settings) : Policy where
  mode := modeOf s.eol
  ensureFinalNewline := s.insertFinalNewline

/-- The distance of tab stops, at least one column. -/
def tabWidth (s : Settings) : Nat := max s.tabSize 1

/-- One level of indentation. -/
def indentUnit (s : Settings) : Text :=
  if s.insertSpaces then List.replicate s.tabWidth ' ' else ['\t']

end Settings

end Newline
