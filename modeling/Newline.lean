import Newline.Bisect
import Newline.Chunk
import Newline.Command.Arguments
import Newline.Command.Run
import Newline.CrlfMarks
import Newline.Document
import Newline.Edit
import Newline.Edit.Diff
import Newline.Editor.Edit
import Newline.Editor.Position
import Newline.Encoding
import Newline.Ending
import Newline.Ending.Detect
import Newline.Format
import Newline.Json.Number
import Newline.Json.Printer
import Newline.Json.Record
import Newline.Json.Token
import Newline.Json.Tree
import Newline.Json.Value
import Newline.Line
import Newline.LineIndex
import Newline.Main
import Newline.Normalization
import Newline.Policy
import Newline.Position
import Newline.Range
import Newline.Range.Merge
import Newline.Settings
import Newline.Settings.Store
import Newline.Stats
import Newline.Text
import Newline.Wire
import Newline.Word
import Newline.Proofs.Lines
import Newline.Proofs.Normalize
import Newline.Proofs.Stream
import Newline.Proofs.Boundary
import Newline.Proofs.LineStarts
import Newline.Proofs.PositionOrder
import Newline.Proofs.Splicing
import Newline.Proofs.LfView
import Newline.Proofs.FinalNewline
import Newline.Proofs.Formatting
import Newline.Proofs.Pairs
import Newline.Proofs.Scanners
import Newline.Proofs.Remapping
import Newline.Proofs.Units
import Newline.Proofs.RoundTrip
import Newline.Proofs.Diffing
import Newline.Proofs.LineForm
import Newline.Proofs.Canonical
import Newline.Proofs.FormatEdits
import Newline.Proofs.LfEdits
import Newline.Proofs.NormalForms
import Newline.Proofs.Versions
import Newline.Proofs.EditReach
import Newline.Proofs.Overrides
import Newline.Proofs.Splitting
import Newline.Proofs.PolicyLines
import Newline.Proofs.FinalTerminators
import Newline.Proofs.RangeOrder
import Newline.Proofs.Conversions
import Newline.Proofs.Merging
import Newline.Proofs.Rounding
import Newline.Proofs.LfRanges
import Newline.Proofs.ChunkSteps
import Newline.Proofs.StaleRanges
import Newline.Proofs.Words
import Newline.Proofs.Overlay
import Newline.Proofs.Printing
import Newline.Proofs.Decoding
