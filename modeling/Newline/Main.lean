/-
The program: commands with the files and the standard input of the world.
-/
import Newline.Command.Run

namespace Newline

/-- Everything a stream gives until it ends, after what it gave before. -/
partial def readAll (stream : IO.FS.Stream) (before : ByteArray) : IO ByteArray := do
  let piece ← stream.read 65536
  if piece.isEmpty then return before else readAll stream (before ++ piece)

/-- What a source of the world holds. -/
def Source.load : Source → IO Content
  | .standardInput => do
    let stdin ← IO.getStdin
    try return .bytes (← readAll stdin ByteArray.empty).toList
    catch _ => return .unreadable
  | .file path => do
    match ← (IO.FS.Handle.mk path .read).toBaseIO with
    | .error _ => return .missing
    | .ok handle =>
      try return .bytes (← handle.readBinToEnd).toList
      catch _ => return .unreadable

/-- The machine the program runs on; no block of memory exceeds what a program can address. -/
def machine : Command.World IO where
  read := Source.load
  memory := 0x800000000000

end Newline

open Newline in
/-- Runs the command line, writes its output, and ends with its exit code; 134 stands for that of
an aborted program. -/
def main (arguments : List String) : IO UInt32 := do
  let outcome ← Command.execute machine arguments
  let stdout ← IO.getStdout
  stdout.write ⟨outcome.output.toArray⟩
  stdout.flush
  if outcome.code = some Command.usageCode then IO.eprintln Command.usage
  if let some message := outcome.message then IO.eprintln ("Error: " ++ message)
  return outcome.code.getD 134
