/-
Command lines.

A command line is a subcommand with its options and at most one file, in any order. An option
is written `--name value` or `--name=value`, a flag `--name`; each may stand there once. After
`--` everything is a file. A file `-` is the standard input, also with slashes and dots after it
that lead nowhere; with a dot and a slash before it, it is a file of that name. `--verbose` may
stand before the subcommand too.

There is no command that gives help: `help`, `--help` and `-h` are refused, like every other word
that stands for nothing, and end with the exit code of a wrong command line.

* `Arguments.collect?` — the options, flags and file of a subcommand;
* `Command.ofArguments?` — the command of a command line, none if it is wrong.
-/
import Newline.Policy

namespace Newline

/-- Where a text is read from. -/
inductive Source
  | standardInput
  | file (path : String)
  deriving DecidableEq, Repr, Inhabited

namespace Source

/-- Whether all parts of a path that begins here are empty or a dot, and so stay in place. -/
def staysInPlace : List Char → Bool
  | [] => true
  | ['.'] => true
  | '/' :: cs => staysInPlace cs
  | '.' :: '/' :: cs => staysInPlace cs
  | _ => false

/-- Whether a path is a dash, with nothing after it that leads elsewhere. -/
def isDash : List Char → Bool
  | ['-'] => true
  | '-' :: '/' :: cs => staysInPlace cs
  | _ => false

/-- The source that a path names. -/
def ofPath (path : String) : Source :=
  if isDash path.toList then standardInput else file path

end Source

namespace Arguments

/-- The options and flags a subcommand knows. -/
structure Spec where
  /-- The names of options, which take a value. -/
  options : List String
  /-- The names of flags, which take none. -/
  flags : List String

/-- What a command line gives to a subcommand. -/
structure Collected where
  /-- The options with their values. -/
  options : List (String × String) := []
  /-- The flags. -/
  flags : List String := []
  /-- The file. -/
  file : Option String := none
  deriving DecidableEq, Repr, Inhabited

/-- Adds an option that is not there yet. -/
def Collected.addOption? (c : Collected) (name value : String) : Option Collected :=
  if (c.options.lookup name).isSome then none
  else some { c with options := (name, value) :: c.options }

/-- Adds a flag that is not there yet. -/
def Collected.addFlag? (c : Collected) (name : String) : Option Collected :=
  if name ∈ c.flags then none else some { c with flags := name :: c.flags }

/-- Adds the only file, which has a name. -/
def Collected.addFile? (c : Collected) (path : String) : Option Collected :=
  if c.file.isSome || path.isEmpty then none else some { c with file := some path }

/-- Whether an argument is no value of the option before it: it begins with a dash and is more
than a dash. -/
def looksLikeOption (argument : String) : Bool :=
  match argument.toList with
  | '-' :: _ :: _ => true
  | _ => false

/-- Splits an argument at its first equals sign. -/
def splitEquals (body : List Char) : String × Option String :=
  match body.dropWhile (· ≠ '=') with
  | [] => (String.ofList body, none)
  | _ :: value => (String.ofList (body.takeWhile (· ≠ '=')), some (String.ofList value))

/-- Adds arguments after `--`. -/
def collectFiles? (c : Collected) : List String → Option Collected
  | [] => some c
  | path :: rest => (c.addFile? path).bind fun c => collectFiles? c rest

/-- Adds arguments, each of which is an option, a flag, the value of an option, or the file. -/
def collectFrom? (spec : Spec) (c : Collected) (arguments : List String) : Option Collected :=
  match arguments with
  | [] => some c
  | argument :: rest =>
    match argument.toList with
    | ['-', '-'] => collectFiles? c rest
    | '-' :: '-' :: body =>
      match splitEquals body with
      | (name, none) =>
        if name ∈ spec.flags then (c.addFlag? name).bind fun c => collectFrom? spec c rest
        else if name ∈ spec.options then
          match rest with
          | [] => none
          | value :: rest =>
            if looksLikeOption value then none
            else (c.addOption? name value).bind fun c => collectFrom? spec c rest
        else none
      | (name, some value) =>
        if name ∈ spec.options then
          (c.addOption? name value).bind fun c => collectFrom? spec c rest
        else none
    | ['-', 'v'] => (c.addFlag? "verbose").bind fun c => collectFrom? spec c rest
    | '-' :: _ :: _ => none
    | _ => (c.addFile? argument).bind fun c => collectFrom? spec c rest

/-- What the arguments after a subcommand give to it. -/
def collect? (spec : Spec) (arguments : List String) : Option Collected :=
  collectFrom? { spec with flags := "verbose" :: spec.flags } {} arguments

/-- Where the text is read from. -/
def Collected.source (c : Collected) : Source :=
  match c.file with
  | none => .standardInput
  | some path => .ofPath path

/-- Reads the value of an option, which has a default. -/
def Collected.option? {α : Type} (c : Collected) (name : String) (read : String → Option α)
    (default : α) : Option α :=
  match c.options.lookup name with
  | none => some default
  | some value => read value

/-- A natural number of 64 bits: an optional plus sign and decimal digits. -/
def natural? (value : String) : Option Nat :=
  let digits := match value.toList with
    | '+' :: ds => ds
    | ds => ds
  if digits.isEmpty || !digits.all Char.isDigit then none
  else
    let n := digits.foldl (fun n d => 10 * n + (d.toNat - '0'.toNat)) 0
    if n < UInt64.size then some n else none

/-- A path, which is not empty. -/
def path? (value : String) : Option String := if value.isEmpty then none else some value

end Arguments

/-- What the program is asked to do. -/
inductive Command
  /-- Report the terminators of a text. -/
  | stats (source : Source) (json : Bool)
  /-- Report the dominant ending of a text. -/
  | detect (source : Source) (bias : Nat) (tiebreak : Ending)
  /-- Write a text after a policy. -/
  | normalize (source : Source) (policy : Policy)
  /-- Write a text after a policy, in pieces of a given size. -/
  | stream (source : Source) (policy : Policy) (chunkSize : Nat)
  /-- Write a text formatted, or only check that it is. -/
  | format (source : Source) (settings : Option String) (check : Bool)
  deriving DecidableEq, Repr, Inhabited

namespace Command

open Arguments

/-- What a command line looks like. -/
def usage : String :=
  "usage: [-v] stats [--json] [FILE]\n" ++
  "       [-v] detect [--bias N] [--tiebreak lf|crlf] [FILE]\n" ++
  "       [-v] normalize [--eol lf|crlf|preserve] [--ensure-final-newline]\n" ++
  "            [--strip-final-newline] [--stream [--chunk-size N]] [FILE]\n" ++
  "       [-v] format [--settings FILE] [--check] [FILE]"

/-- The size of pieces if none is given. -/
def defaultChunkSize : Nat := 65536

/-- The command of a subcommand and its arguments. -/
def ofSubcommand? (name : String) (arguments : List String) : Option Command := do
  match name with
  | "stats" =>
    let c ← collect? ⟨[], ["json"]⟩ arguments
    return .stats c.source ("json" ∈ c.flags)
  | "detect" =>
    let c ← collect? ⟨["bias", "tiebreak"], []⟩ arguments
    let bias ← c.option? "bias" natural? 0
    let tiebreak ← c.option? "tiebreak" Ending.ofName? .lf
    return .detect c.source bias tiebreak
  | "normalize" =>
    let c ← collect? ⟨["eol", "chunk-size"],
      ["ensure-final-newline", "strip-final-newline", "stream"]⟩ arguments
    let mode ← c.option? "eol" Policy.Mode.ofName? (.fixed .lf)
    let chunkSize ← c.option? "chunk-size" natural? defaultChunkSize
    let policy : Policy := {
      mode
      ensureFinalNewline := "ensure-final-newline" ∈ c.flags
      stripFinalNewline := "strip-final-newline" ∈ c.flags }
    if "stream" ∈ c.flags then return .stream c.source policy chunkSize
    else if (c.options.lookup "chunk-size").isSome then none
    else return .normalize c.source policy
  | "format" =>
    let c ← collect? ⟨["settings"], ["check"]⟩ arguments
    let settings ← c.option? "settings" (fun value => (path? value).map some) none
    return .format c.source settings ("check" ∈ c.flags)
  | _ => none

/-- The command of a command line. -/
def ofArguments? : List String → Option Command
  | [] => none
  | argument :: rest =>
    if argument = "-v" || argument = "--verbose" then
      match rest with
      | [] => none
      | name :: rest => ofSubcommand? name rest
    else ofSubcommand? argument rest

end Command

end Newline
