/-
The JSON form of the library's types.

`Wire.encode` gives the value of a thing, and `Wire.decode?` reads it back from a document. A
missing field is an error, except in policies and settings, where it has its default.
-/
import Newline.Editor.Edit
import Newline.Encoding
import Newline.Json.Record
import Newline.Settings

namespace Newline

/-- Types with a JSON form. -/
class Wire (α : Type) where
  /-- The value of a thing. -/
  encode : α → Json
  /-- The thing of a document. -/
  decode? : Json.Tree → Option α

namespace Wire

/-- Reads a thing from a JSON text. -/
def parse? (α : Type) [Wire α] (t : Text) : Option α := (Json.Tree.parse? t).bind decode?

/-- Reads a field that has to be there. -/
def required? {α : Type} (read : Json.Tree → Option α) (field : Option Json.Tree) : Option α :=
  field.bind read

/-- Reads a field that has a default. -/
def orDefault? {α : Type} (read : Json.Tree → Option α) (default : α)
    (field : Option Json.Tree) : Option α :=
  match field with
  | none => some default
  | some t => read t

/-! ### Names -/

instance : Wire Ending where
  encode e := .str e.name
  decode? t := t.variant?.bind Ending.ofName?

instance : Wire Target where
  encode e := .str e.name
  decode? t := t.variant?.bind Target.ofName?

instance : Wire Policy.Mode where
  encode m := .str m.name
  decode? t := t.variant?.bind Policy.Mode.ofName?

instance : Wire Encoding where
  encode e := .str e.name
  decode? t := t.variant?.bind Encoding.ofName?

/-! ### Records -/

instance : Wire Position where
  encode p := .obj [("line", .int p.line), ("character", .int p.character)]
  decode? t := do
    match ← t.record? ["line", "character"] with
    | [line, character] =>
      return ⟨← required? (Json.Tree.natBelow? UInt64.size) line,
        ← required? (Json.Tree.natBelow? UInt64.size) character⟩
    | _ => none

instance : Wire Range where
  encode r := .obj [("start", encode r.start), ("end", encode r.stop)]
  decode? t := do
    match ← t.record? ["start", "end"] with
    | [start, stop] => return ⟨← required? decode? start, ← required? decode? stop⟩
    | _ => none

instance : Wire Stats where
  encode s :=
    .obj [("lf", .int s.lf), ("crlf", .int s.crlf), ("cr", .int s.cr),
      ("lastLineHasTerminator", .bool s.terminated)]
  decode? t := do
    match ← t.record? ["lf", "crlf", "cr", "lastLineHasTerminator"] with
    | [lf, crlf, cr, terminated] =>
      return {
        lf := ← required? (Json.Tree.natBelow? UInt64.size) lf
        crlf := ← required? (Json.Tree.natBelow? UInt64.size) crlf
        cr := ← required? (Json.Tree.natBelow? UInt64.size) cr
        terminated := ← required? Json.Tree.bool? terminated }
    | _ => none

instance : Wire Policy where
  encode p :=
    .obj [("mode", encode p.mode), ("ensureFinalNewline", .bool p.ensureFinalNewline),
      ("stripFinalNewline", .bool p.stripFinalNewline)]
  decode? t := do
    let d : Policy := {}
    match ← t.record? ["mode", "ensureFinalNewline", "stripFinalNewline"] with
    | [mode, ensure, strip] =>
      return {
        mode := ← orDefault? decode? d.mode mode
        ensureFinalNewline := ← orDefault? Json.Tree.bool? d.ensureFinalNewline ensure
        stripFinalNewline := ← orDefault? Json.Tree.bool? d.stripFinalNewline strip }
    | _ => none

instance : Wire Settings where
  encode s :=
    .obj [("tabSize", .int s.tabSize), ("insertSpaces", .bool s.insertSpaces),
      ("trimTrailingWhitespace", .bool s.trimTrailingWhitespace),
      ("insertFinalNewline", .bool s.insertFinalNewline), ("eol", encode s.eol),
      ("detectMixedIndentation", .bool s.detectMixedIndentation)]
  decode? t := do
    let d : Settings := {}
    match ← t.record? ["tabSize", "insertSpaces", "trimTrailingWhitespace",
      "insertFinalNewline", "eol", "detectMixedIndentation"] with
    | [tabSize, insertSpaces, trim, final, eol, detectMixed] =>
      return {
        tabSize := ← orDefault? (Json.Tree.natBelow? UInt32.size) d.tabSize tabSize
        insertSpaces := ← orDefault? Json.Tree.bool? d.insertSpaces insertSpaces
        trimTrailingWhitespace := ← orDefault? Json.Tree.bool? d.trimTrailingWhitespace trim
        insertFinalNewline := ← orDefault? Json.Tree.bool? d.insertFinalNewline final
        eol := ← orDefault? decode? d.eol eol
        detectMixedIndentation :=
          ← orDefault? Json.Tree.bool? d.detectMixedIndentation detectMixed }
    | _ => none

instance : Wire Editor.Position where
  encode p := .obj [("line", .int p.line.toNat), ("character", .int p.character.toNat)]
  decode? t := do
    match ← t.record? ["line", "character"] with
    | [line, character] =>
      return ⟨Editor.coordOfNat (← required? (Json.Tree.natBelow? UInt32.size) line),
        Editor.coordOfNat (← required? (Json.Tree.natBelow? UInt32.size) character)⟩
    | _ => none

instance : Wire Editor.Range where
  encode r := .obj [("start", encode r.start), ("end", encode r.stop)]
  decode? t := do
    match ← t.record? ["start", "end"] with
    | [start, stop] => return ⟨← required? decode? start, ← required? decode? stop⟩
    | _ => none

instance : Wire Editor.Edit where
  encode e := .obj [("range", encode e.range), ("newText", .str (String.ofList e.newText))]
  decode? t := do
    match ← t.record? ["range", "newText"] with
    | [range, newText] =>
      return ⟨← required? decode? range, ← required? Json.Tree.text? newText⟩
    | _ => none

/-- The value of a list is the array of the values of its items. -/
def encodeList {α : Type} [Wire α] (xs : List α) : Json := .arr (xs.map encode)

end Wire

end Newline
