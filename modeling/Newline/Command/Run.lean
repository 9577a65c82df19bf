/-
Running commands.

A command asks the world for what its sources hold, when it needs it, and gives the bytes to write
or the reason why it fails. What the world is, is left open: a machine, or a table of files.

Only the output and the reason of a failure are part of an outcome. Two things are left out: the
warnings about the lines of `Text.mixedIndentation`, which go with formatting if the settings have
`detectMixedIndentation`, and the notes that `--verbose` asks for.

* `Command.World` — what a command can ask for;
* `Command.run` — what a command writes;
* `Command.execute` — the outcome of a command line: exit code, output, message.
-/
import Newline.Chunk
import Newline.Command.Arguments
import Newline.Format
import Newline.Json.Printer
import Newline.Wire

namespace Newline

/-- What reading a source gives. -/
inductive Content
  /-- It cannot be opened. -/
  | missing
  /-- It can be opened and not read, as a directory. -/
  | unreadable
  | bytes (bs : List UInt8)
  deriving DecidableEq, Repr, Inhabited

namespace Command

/-- Where a command runs. -/
structure World (m : Type → Type) where
  /-- What a source holds. -/
  read : Source → m Content
  /-- The size of the largest block of memory to be had. -/
  memory : Nat

/-- Why a command fails. -/
inductive Failure
  | cannotOpen (path : String)
  | cannotRead
  | notUtf8
  | streamWithoutEnding
  | streamWithFinalNewline
  /-- The size of pieces is no size of anything in memory. -/
  | chunkTooLarge
  /-- There is not the memory for a piece. -/
  | outOfMemory
  | settingsUnreadable (path : String)
  | settingsInvalid (path : String)
  | notFormatted
  deriving DecidableEq, Repr, Inhabited

/-- The wording of the failure; there is none when memory does not do. -/
def Failure.message? : Failure → Option String
  | cannotOpen path => some s!"failed to open {path}"
  | cannotRead => some "failed to read input"
  | notUtf8 => some "input is not valid UTF-8"
  | streamWithoutEnding => some "--stream needs a fixed --eol (lf or crlf)"
  | streamWithFinalNewline => some "final-newline options are not supported with --stream"
  | chunkTooLarge => none
  | outOfMemory => none
  | settingsUnreadable path => some s!"failed to read settings {path}"
  | settingsInvalid path => some s!"invalid settings JSON in {path}"
  | notFormatted => some "input is not formatted"

/-- The exit code of the failure; without memory the program is aborted and has none. -/
def Failure.code? : Failure → Option UInt32
  | chunkTooLarge => some 101
  | outOfMemory => none
  | _ => some 1

/-! ### Input -/

section Input

variable {m : Type → Type} [Monad m]

/-- The bytes that a source holds. -/
def bytesOf (source : Source) : Content → Except Failure (List UInt8)
  | .bytes bs => .ok bs
  | .unreadable => .error .cannotRead
  | .missing =>
    match source with
    | .file path => .error (.cannotOpen path)
    | .standardInput => .error .cannotRead

/-- The text that bytes are the UTF-8 form of. -/
def textOf (bytes : List UInt8) : Except Failure Text :=
  match Text.ofBytes? bytes with
  | none => .error .notUtf8
  | some t => .ok t

/-- The text of a source. -/
def readText (world : World m) (source : Source) : ExceptT Failure m Text := do
  textOf (← bytesOf source (← world.read source))

/-- The settings that a file holds. -/
def settingsOf (path : String) : Content → Except Failure Settings
  | .bytes bs =>
    match Text.ofBytes? bs with
    | none => .error (.settingsUnreadable path)
    | some t =>
      match Json.parse? t with
      | none => .error (.settingsInvalid path)
      | some v => .ok (Settings.ofJson v)
  | _ => .error (.settingsUnreadable path)

/-- The settings in a file, or the defaults. -/
def readSettings (world : World m) : Option String → ExceptT Failure m Settings
  | none => return {}
  | some path => do settingsOf path (← world.read (.file path))

end Input

/-! ### Output -/

/-- The report of a text's terminators, as JSON. -/
def statsJson (t : Text) : Json :=
  let s := Stats.ofText t
  .obj [("lineEnding", Wire.encode (Ending.ofStats s)), ("lines", .int t.countLines),
    ("mixed", .bool s.isMixed),
    ("stats", .obj [("cr", .int s.cr), ("crlf", .int s.crlf),
      ("lastLineHasTerminator", .bool s.terminated), ("lf", .int s.lf)])]

/-- A label and its value, with the values in one column. -/
def statsRow (label value : String) : String :=
  label ++ String.ofList (List.replicate (16 - label.length) ' ') ++ "= " ++ value ++ "\n"

/-- The name of a truth value. -/
def boolName (b : Bool) : String := if b then "true" else "false"

/-- The report of a text's terminators, in rows. -/
def statsTable (t : Text) : String :=
  let s := Stats.ofText t
  String.join [statsRow "lf" (toString s.lf), statsRow "crlf" (toString s.crlf),
    statsRow "cr" (toString s.cr), statsRow "final_newline" (boolName s.terminated),
    statsRow "lines" (toString t.countLines),
    statsRow "line_ending" (Ending.ofStats s).name, statsRow "mixed" (boolName s.isMixed)]

/-- The bytes cut into pieces of a given size, the last one as long as what is left. -/
def pieces (size : Nat) (bytes : List UInt8) : List (List UInt8) :=
  match bytes with
  | [] => []
  | b :: bs => (b :: bs.take (size - 1)) :: pieces size (bs.drop (size - 1))
termination_by bytes.length
decreasing_by
  simp only [List.length_drop, List.length_cons]
  omega

/-- The text formatted, by the edits that format it as a document. There is always such a text,
since the one edit replaces a document from its start to its end. -/
def formatText (s : Settings) (t : Text) : Text :=
  let d := Document.ofText 0 t
  (d.applyEdits? (s.formatEdits d)).getD t

/-- Sizes of things in memory are signed 64-bit words. -/
def maxSize : Nat := 0x7fffffffffffffff

/-- Makes room for a piece of a given size, out of blocks of at most `memory` bytes. -/
def reserve (memory size : Nat) : Except Failure Unit :=
  if maxSize < size then .error .chunkTooLarge
  else if memory < size then .error .outOfMemory
  else .ok ()

section Run

variable {m : Type → Type} [Monad m]

/-- What a command writes. -/
def run (world : World m) : Command → ExceptT Failure m (List UInt8)
  | .stats source json => do
    let t ← readText world source
    return (if json then (statsJson t).pretty ++ "\n" else statsTable t).toUTF8.toList
  | .detect source bias tiebreak => do
    let t ← readText world source
    return ((Ending.detectWithBias t bias tiebreak).name ++ "\n").toUTF8.toList
  | .normalize source policy => do
    let t ← readText world source
    return (policy.apply t).toBytes
  | .stream source policy chunkSize => do
    match policy.mode with
    | .preserve => throw .streamWithoutEnding
    | .fixed e =>
      if policy.ensureFinalNewline || policy.stripFinalNewline then
        throw .streamWithFinalNewline
      let content ← world.read source
      -- the room for a piece is made after the source is opened and before it is read
      if content ≠ .missing then reserve world.memory chunkSize
      let bytes ← bytesOf source content
      let chunks := (pieces (max chunkSize 1) bytes).map Chunk.Piece.bytes
      return Chunk.Normalizer.run { target := e } chunks
  | .format source settings check => do
    let s ← readSettings world settings
    let t ← readText world source
    let formatted := formatText s t
    if check then
      if formatted = t then return [] else throw .notFormatted
    else return formatted.toBytes

end Run

/-- How a command line ends. -/
structure Outcome where
  /-- The exit code, if the program is not aborted. -/
  code : Option UInt32 := some 0
  /-- What is written. -/
  output : List UInt8 := []
  /-- What is said about a failure. -/
  message : Option String := none
  deriving DecidableEq, Repr, Inhabited

/-- The exit code of a wrong command line. -/
def usageCode : UInt32 := 2

/-- The outcome of a command line. -/
def execute {m : Type → Type} [Monad m] (world : World m) (arguments : List String) :
    m Outcome := do
  match ofArguments? arguments with
  | none => return { code := usageCode }
  | some command =>
    match ← (run world command).run with
    | .ok output => return { output }
    | .error failure => return { code := failure.code?, message := failure.message? }

end Command

end Newline
