/-
JSON values.

A value is what a document denotes: strings are characters, numbers are integers or doubles,
and of several fields with one name the last counts.

* `Json.get?` — a field of an object;
* `Tree.value?` — the value of a tree, if it denotes one;
* `Json.parse?` — the value of a text.
-/
import Newline.Json.Tree

namespace Newline

/-- A JSON value. -/
inductive Json
  | null
  | bool (b : Bool)
  /-- A number that is an integer of 64 bits, signed or unsigned. -/
  | int (n : Int)
  /-- Any other number, as written. -/
  | real (n : Json.Number)
  | str (s : String)
  | arr (items : List Json)
  | obj (fields : List (String × Json))
  deriving Repr, Inhabited

namespace Json

/-- The field of an object. -/
def get? (name : String) : Json → Option Json
  | obj fields => fields.lookup name
  | _ => none

/-- The items of an array. -/
def items? : Json → Option (List Json)
  | arr items => some items
  | _ => none

/-- The truth value. -/
def bool? : Json → Option Bool
  | bool b => some b
  | _ => none

/-- The integer. -/
def int? : Json → Option Int
  | int n => some n
  | _ => none

/-- The characters of a string. -/
def str? : Json → Option String
  | str s => some s
  | _ => none

/-- The fields without those that a later one of the same name replaces. -/
def keepLast : List (String × Json) → List (String × Json)
  | [] => []
  | (name, v) :: rest =>
    if (rest.lookup name).isSome then keepLast rest else (name, v) :: keepLast rest

/-- How deep arrays and objects may be nested. -/
def maxDepth : Nat := 127

mutual

/-- The value of a tree with at most `depth` arrays and objects inside each other. Half a pair of
surrogates and a number too large for a double denote nothing. -/
def Tree.value? (depth : Nat) : Tree → Option Json
  | .null => some .null
  | .bool b => some (.bool b)
  | .number n =>
    match n.integer? with
    | some i => some (.int i)
    | none => if n.isFinite then some (.real n) else none
  | .string ps => (Piece.decode? ps).map fun t => .str (String.ofList t)
  | .array items => if depth = 0 then none else (Tree.values? (depth - 1) items).map .arr
  | .object fields =>
    if depth = 0 then none
    else (Tree.fieldValues? (depth - 1) fields).map fun fs => .obj (keepLast fs)

/-- The values of the items of an array. -/
def Tree.values? (depth : Nat) : List Tree → Option (List Json)
  | [] => some []
  | t :: ts => do
    let v ← Tree.value? depth t
    let vs ← Tree.values? depth ts
    return v :: vs

/-- The names and values of the fields of an object. -/
def Tree.fieldValues? (depth : Nat) : List (List Piece × Tree) → Option (List (String × Json))
  | [] => some []
  | (key, t) :: ts => do
    let name ← Piece.decode? key
    let v ← Tree.value? depth t
    let vs ← Tree.fieldValues? depth ts
    return (String.ofList name, v) :: vs

end

/-- The value of a text. -/
def parse? (t : Text) : Option Json := (Tree.parse? t).bind (Tree.value? maxDepth)

end Json

end Newline
