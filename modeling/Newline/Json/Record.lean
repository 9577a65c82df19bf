/-
Reading records from JSON documents.

A record is written as an object with its fields, or as an array of their values in the order
of declaration. An object may hold other fields too; nothing is asked of their values. One of
several names is written as a string, or as an object with the name as its only key and `null`
as its value.

* `Tree.record?` — the parts of a record;
* `Tree.variant?` — a name;
* `Tree.natBelow?`, `Tree.bool?`, `Tree.text?` — the values in a record.
-/
import Newline.Json.Tree

namespace Newline.Json.Tree

/-- The characters of a string. -/
def text? : Tree → Option Text
  | .string ps => Piece.decode? ps
  | _ => none

/-- The truth value. -/
def bool? : Tree → Option Bool
  | .bool b => some b
  | _ => none

/-- The number, if it is an integer from zero up to, not including, `bound`. -/
def natBelow? (bound : Nat) : Tree → Option Nat
  | .number n =>
    match n.integer? with
    | some (Int.ofNat k) => if k < bound then some k else none
    | _ => none
  | _ => none

/-- The fields of an object with their names. -/
def namedFields? (fields : List (List Piece × Tree)) : Option (List (Text × Tree)) :=
  fields.mapM fun (key, t) => (Piece.decode? key).map fun name => (name, t)

/-- The field of a name, none if there is none. A field that is there twice is refused. -/
def uniqueField? (fields : List (Text × Tree)) (name : String) : Option (Option Tree) :=
  match fields.filter fun (n, _) => n = name.toList with
  | [] => some none
  | [(_, t)] => some (some t)
  | _ => none

/-- The parts of a record with the given fields, in that order, each none if it is missing. -/
def record? (names : List String) : Tree → Option (List (Option Tree))
  | .object fields => do
    let fields ← namedFields? fields
    names.mapM (uniqueField? fields)
  | .array items =>
    if items.length ≤ names.length then
      some (items.map some ++ List.replicate (names.length - items.length) none)
    else none
  | _ => none

/-- A name. -/
def variant? : Tree → Option String
  | .string ps => (Piece.decode? ps).map String.ofList
  | .object [(key, .null)] => (Piece.decode? key).map String.ofList
  | _ => none

end Newline.Json.Tree
