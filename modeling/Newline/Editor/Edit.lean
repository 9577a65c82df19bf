/-
Edits as editors send them.

* `Editor.Edit.ofJson?` — one edit; only its range is needed, a text that is missing or no
  string counts as empty;
* `Editor.Edit.listOfJson` — the edits of an array, without those that cannot be read;
* `Editor.Edit.allOfJson` — the edits of an array in which every entry can be read.
-/
import Newline.Editor.Position
import Newline.LineIndex

namespace Newline.Editor

/-- Why a request of an editor is refused. -/
inductive Error
  /-- A place that does not exist. -/
  | coordinate (e : CoordinateError)
  /-- A version that is not newer than the one at hand. -/
  | staleVersion (current received : Int)
  /-- Edits that are not in an array. -/
  | notAnArray
  /-- An edit, counted from zero, without a range that can be read. -/
  | badEntry (index : Nat)
  /-- A text that is no JSON. -/
  | invalidJson
  deriving DecidableEq, Repr, Inhabited

/-- The wording of the refusal. -/
def Error.message : Error → String
  | coordinate e => e.message
  | staleVersion current received => s!"stale document version {received} (current {current})"
  | notAnArray => "malformed TextEdit[]: expected an array"
  | badEntry index => s!"malformed TextEdit: entry {index} lacks a valid range"
  | invalidJson => "invalid JSON"

/-- A range and what is to replace it. -/
structure Edit where
  /-- The range to replace. -/
  range : Range
  /-- What is put there. -/
  newText : Text
  deriving DecidableEq, Repr, Inhabited

namespace Edit

/-- The edit of an object. -/
def ofJson? (v : Json) : Option Edit := do
  let range ← Range.ofJson? (← v.get? "range")
  let newText := (v.get? "newText").bind Json.str?
  return ⟨range, (newText.getD "").toList⟩

/-- The edits of an array that can be read. -/
def listOfJson (v : Json) : List Edit := (v.items?.getD []).filterMap ofJson?

/-- The edits of items counted from `index`, refused at the first that cannot be read. -/
def allFrom (index : Nat) : List Json → Except Error (List Edit)
  | [] => .ok []
  | v :: vs =>
    match ofJson? v with
    | none => .error (.badEntry index)
    | some e => (allFrom (index + 1) vs).map (e :: ·)

/-- The edits of an array, refused if one cannot be read. -/
def allOfJson (v : Json) : Except Error (List Edit) :=
  match v.items? with
  | none => .error .notAnArray
  | some items => allFrom 0 items

/-- The edits of a JSON text. -/
def parse (t : Text) : Except Error (List Edit) :=
  match Json.parse? t with
  | none => .error .invalidJson
  | some v => allOfJson v

end Edit

end Newline.Editor
