/-
JSON documents as the grammar sees them.

A tree keeps what the text says: the fields of an object in their order, repeated ones
included, numbers and strings as written. What it denotes is left to those who read it.

* `Tree.parse?` — the tree of a text, by a machine with a stack of open arrays and objects.
-/
import Newline.Json.Token

namespace Newline.Json

/-- A document. -/
inductive Tree
  | null
  | bool (b : Bool)
  | number (n : Number)
  | string (ps : List Piece)
  | array (items : List Tree)
  | object (fields : List (List Piece × Tree))
  deriving Repr, Inhabited

namespace Tree

/-- An array or object whose end has not been read; what it holds so far, the last first. -/
inductive Frame
  | array (items : List Tree)
  /-- An object that waits for the value of `key`. -/
  | object (fields : List (List Piece × Tree)) (key : List Piece)
  deriving Repr, Inhabited

/-- What has been read and what may follow. -/
inductive State
  /-- A value has to follow. -/
  | value (stack : List Frame)
  /-- An array has been opened. -/
  | opened (stack : List Frame)
  /-- A key has to follow; the object may also end if it is `fresh`. -/
  | key (fresh : Bool) (fields : List (List Piece × Tree)) (stack : List Frame)
  /-- A colon has to follow. -/
  | colon (fields : List (List Piece × Tree)) (key : List Piece) (stack : List Frame)
  /-- A value is complete: a comma or an end has to follow, or nothing. -/
  | complete (tree : Tree) (stack : List Frame)
  deriving Repr, Inhabited

/-- The state after the first token of a value. -/
def beginValue (stack : List Frame) : Token → Option State
  | .null => some (.complete .null stack)
  | .bool b => some (.complete (.bool b) stack)
  | .number n => some (.complete (.number n) stack)
  | .string ps => some (.complete (.string ps) stack)
  | .openBracket => some (.opened stack)
  | .openBrace => some (.key true [] stack)
  | _ => none

/-- The state after a token, if it may stand there. -/
def step : State → Token → Option State
  | .value stack, token => beginValue stack token
  | .opened stack, .closeBracket => some (.complete (.array []) stack)
  | .opened stack, token => beginValue (.array [] :: stack) token
  | .key _ fields stack, .string ps => some (.colon fields ps stack)
  | .key true _ stack, .closeBrace => some (.complete (.object []) stack)
  | .colon fields key stack, .colon => some (.value (.object fields key :: stack))
  | .complete tree (.array items :: stack), .comma =>
    some (.value (.array (tree :: items) :: stack))
  | .complete tree (.array items :: stack), .closeBracket =>
    some (.complete (.array (tree :: items).reverse) stack)
  | .complete tree (.object fields key :: stack), .comma =>
    some (.key false ((key, tree) :: fields) stack)
  | .complete tree (.object fields key :: stack), .closeBrace =>
    some (.complete (.object ((key, tree) :: fields).reverse) stack)
  | _, _ => none

/-- The tree of tokens that are one document. -/
def ofTokens? (tokens : List Token) : Option Tree :=
  match tokens.foldlM step (.value []) with
  | some (.complete tree []) => some tree
  | _ => none

/-- The tree of a text. -/
def parse? (t : Text) : Option Tree := (Token.scan? t).bind ofTokens?

end Tree

end Newline.Json
