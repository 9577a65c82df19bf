/-
Normalizing a stream in pieces.

A CRLF pair can be cut by the border between two chunks. A chunk that ends with a carriage
return therefore keeps it back, and the next character decides: it and a line feed are one
terminator, before anything else it was one by itself.

* `Chunk.normalizeText` — one chunk of text, with the pair seen by looking ahead;
* `Chunk.normalizeBytes` — one chunk of bytes, cut anywhere, by a machine that takes one byte
  at a time;
* `Chunk.Normalizer` — a stream with the ending it is written with; `Chunk.Normalizer.run` is
  all that it writes for the pieces of a stream.
-/
import Newline.Ending

namespace Newline.Chunk

/-- What one chunk leaves to the next. -/
structure State where
  /-- A carriage return was read and nothing is written for it yet. -/
  carry : Bool := false
  deriving DecidableEq, Repr, Inhabited

/-- What is owed at the end of the stream. -/
def State.flush (s : State) : Text := if s.carry then ['\n'] else []

/-! ### Chunks of text -/

/-- The LF form of a chunk with nothing carried into it. -/
def scanText : Text → Text × State
  | [] => ([], {})
  | ['\r'] => ([], { carry := true })
  | '\r' :: '\n' :: cs => let (out, next) := scanText cs; ('\n' :: out, next)
  | '\r' :: cs => let (out, next) := scanText cs; ('\n' :: out, next)
  | c :: cs => let (out, next) := scanText cs; (c :: out, next)

/-- The LF form of a chunk. An empty one leaves everything as it is; a carried carriage return
is written as a line feed, with which a line feed at the front is one terminator. -/
def normalizeText (s : State) : Text → Text × State
  | [] => ([], s)
  | c :: cs =>
    if s.carry then
      let (out, next) := scanText (if c = '\n' then cs else c :: cs)
      ('\n' :: out, next)
    else scanText (c :: cs)

/-! ### Chunks of bytes -/

/-- The byte of a carriage return. -/
def crByte : UInt8 := 13

/-- The byte of a line feed. -/
def lfByte : UInt8 := 10

/-- What one byte writes, and what it leaves to the next. -/
def stepByte (s : State) (b : UInt8) : List UInt8 × State :=
  if b = crByte then (if s.carry then [lfByte] else [], { carry := true })
  else if s.carry then (if b = lfByte then [lfByte] else [lfByte, b], {})
  else ([b], {})

/-- The LF form of a chunk of bytes. -/
def normalizeBytes (s : State) : List UInt8 → List UInt8 × State
  | [] => ([], s)
  | b :: bs =>
    let (out, next) := stepByte s b
    let (rest, last) := normalizeBytes next bs
    (out ++ rest, last)

/-! ### Streams -/

/-- Writes every line feed byte as the ending. -/
def expandBytes (e : Ending) (bytes : List UInt8) : List UInt8 :=
  match e with
  | .lf => bytes
  | .crlf => bytes.flatMap fun b => if b = lfByte then [crByte, lfByte] else [b]

/-- A piece of a stream. -/
inductive Piece
  | text (t : Text)
  | bytes (bs : List UInt8)
  deriving DecidableEq, Repr, Inhabited

/-- The UTF-8 form of a piece. -/
def Piece.toBytes : Piece → List UInt8
  | text t => t.toBytes
  | bytes bs => bs

/-- A stream written with one ending. -/
structure Normalizer where
  /-- The ending. -/
  target : Ending := .lf
  /-- What the chunks so far have left. -/
  state : State := {}
  deriving DecidableEq, Repr, Inhabited

namespace Normalizer

/-- The next chunk, as text. -/
def push (n : Normalizer) (chunk : Text) : Text × Normalizer :=
  let (out, next) := normalizeText n.state chunk
  (n.target.expandLf out, { n with state := next })

/-- The next chunk, as bytes. -/
def pushBytes (n : Normalizer) (chunk : List UInt8) : List UInt8 × Normalizer :=
  let (out, next) := normalizeBytes n.state chunk
  (expandBytes n.target out, { n with state := next })

/-- What is written at the end of the stream. -/
def finish (n : Normalizer) : Text := n.target.expandLf n.state.flush

/-- The next piece, in either form; what it writes is taken as bytes. -/
def feed (n : Normalizer) : Piece → List UInt8 × Normalizer
  | .text t => let (out, next) := n.push t; (out.toBytes, next)
  | .bytes bs => n.pushBytes bs

/-- All that is written for the pieces of a stream, to its end. -/
def run (n : Normalizer) : List Piece → List UInt8
  | [] => n.finish.toBytes
  | p :: ps => let (out, next) := n.feed p; out ++ run next ps

end Normalizer

end Newline.Chunk
