/-
Formatting by edits.

A document is formatted by one edit that replaces all of it. Its range is sent to the editor as
lines and columns in units and read again as offsets; nothing of the old text may be left over
when it has come back.

* `Document.fullRange_eq` — the range goes from the place of the first offset to that of the last;
* `Document.resolveRange_fullRange` — it comes back as the whole text;
* `Settings.applyEdits_formatEdits` — the edits of a document have its formatted text as their
  result;
* `Command.formatText_eq`, `Command.execute_format` — and so has the command;
* `Settings.format_by_edits` — all of this for texts whose lines and columns fit their words.
-/
import Newline.Command.Run
import Newline.Proofs.Diffing
import Newline.Proofs.RoundTrip

namespace Newline

open Line

/-! ### The ends of a text -/

theorem Text.not_inPair_zero (t : Text) : ¬ t.InPair 0 := by
  rintro ⟨a, b, -, hx⟩
  omega

theorem Text.not_inPair_byteLen (t : Text) : ¬ t.InPair t.byteLen := by
  rintro ⟨a, b, rfl, hx⟩
  simp only [byteLen_append, byteLen_cons] at hx
  have hcr := Char.utf8Size_pos '\r'
  have hlf := Char.utf8Size_pos '\n'
  omega

namespace LineIndex

variable (t : Text)

theorem positionAt_zero : (ofText t).positionAt 0 = ⟨0, 0⟩ := by
  have hpos := length_split_pos t
  have hholds := (complete_split t).holds (List.getElem?_eq_getElem hpos) (Nat.zero_le _)
  rw [startOf_zero] at hholds
  rw [positionAt_ofText t hpos hholds.start_le hholds.lt_next, startOf_zero]

theorem positionAt_byteLen :
    (ofText t).positionAt t.byteLen
      = ⟨(ofText t).lastLine, t.byteLen - startOf (split t) (ofText t).lastLine⟩ := by
  have hpos := length_split_pos t
  have hstart := startOf_mono (split t) (Nat.sub_le (split t).length 1)
  rw [startOf_length_split] at hstart
  rw [lastLine_ofText]
  exact positionAt_ofText t (by omega) hstart (by omega)

end LineIndex

/-! ### The whole document -/

namespace Document

variable (version : Int) {t : Text} (enc : Encoding)

theorem fullRange_eq :
    (ofText version t enc).fullRange
      = ⟨(ofText version t enc).positionAt 0, (ofText version t enc).positionAt t.byteLen⟩ := by
  have hlast : (LineIndex.ofText t).lastLine < (split t).length := by
    have hpos := length_split_pos t
    rw [LineIndex.lastLine_ofText]
    omega
  have hfull : (t.fullRange (LineIndex.ofText t)).normalized
      = ⟨(LineIndex.ofText t).positionAt 0, (LineIndex.ofText t).positionAt t.byteLen⟩ := by
    rw [LineIndex.positionAt_zero, LineIndex.positionAt_byteLen, Range.normalized_of_le,
      Text.fullRange, LineIndex.getD_starts_ofText t hlast]
    exact Position.le_iff.mpr (by simp only [Text.fullRange]; omega)
  show (ofText version t enc).toEditorRange (t.fullRange (LineIndex.ofText t)) = _
  rw [toEditorRange, hfull, positionAt, positionAt]
  show _ = Editor.Range.mk (toEditor _ ((LineIndex.ofText t).positionAt (min 0 t.byteLen)))
    (toEditor _ ((LineIndex.ofText t).positionAt (min t.byteLen t.byteLen)))
  rw [Nat.zero_min, Nat.min_self]

section Bounded

variable (ht : t.byteLen < UInt32.size)
include ht

/-- **The range of the document comes back as the whole text**, from its first byte to its last. -/
theorem resolveRange_fullRange :
    t.resolveRange (LineIndex.ofText t)
        ((ofText version t enc).ofEditorRange (ofText version t enc).fullRange)
      = (0, t.byteLen) := by
  have hstart : (LineIndex.ofText t).offsetAt
      ((ofText version t enc).ofEditor ((ofText version t enc).positionAt 0)) = 0 :=
    offsetAt_positionAt_of_boundary version enc ht t.isBoundary_zero t.not_inPair_zero
  have hstop : (LineIndex.ofText t).offsetAt
      ((ofText version t enc).ofEditor ((ofText version t enc).positionAt t.byteLen))
        = t.byteLen :=
    offsetAt_positionAt_of_boundary version enc ht t.isBoundary_byteLen t.not_inPair_byteLen
  have hzero : t.floorBoundary 0 = 0 := t.isBoundary_zero
  have hlen : t.floorBoundary t.byteLen = t.byteLen := t.isBoundary_byteLen
  rw [ofEditorRange, Edit.resolveRange_normalized, fullRange_eq, Text.resolveRange, hstart, hstop,
    hzero, hlen, Nat.zero_min, Nat.zero_max]

/-- An edit of the whole document leaves nothing but its own text. -/
theorem applyEdits_fullRange (new : Text) :
    (ofText version t enc).applyEdits? [⟨(ofText version t enc).fullRange, new⟩] = some new := by
  show Edit.applyAll? t [Edit.ofRange ((ofText version t enc).ofEditorRange
    (ofText version t enc).fullRange) new] = some new
  have hdrop := Text.dropBytes_append t []
  rw [List.append_nil] at hdrop
  rw [Edit.applyAll_singleton, Text.replaceRange, Edit.ofRange, Edit.resolveRange_normalized,
    resolveRange_fullRange version enc ht]
  simp only [Text.splice, Text.takeBytes_zero, hdrop, List.nil_append, List.append_nil]

end Bounded

end Document

/-! ### The edits and the command -/

namespace Settings

variable (s : Settings) (version : Int) {t : Text} (enc : Encoding)

theorem formatEdits_ofText :
    s.formatEdits (Document.ofText version t enc)
      = if s.format t = t then [] else [⟨(Document.ofText version t enc).fullRange, s.format t⟩] :=
  rfl

/-- **The edits of a document have its formatted text as their result.** -/
theorem applyEdits_formatEdits (ht : t.byteLen < UInt32.size) :
    (Document.ofText version t enc).applyEdits? (s.formatEdits (Document.ofText version t enc))
      = some (s.format t) := by
  rw [formatEdits_ofText]
  split
  · rename_i hformat
    rw [hformat]
    exact (Edit.lineDiff_self t).applied
  · exact Document.applyEdits_fullRange version enc ht (s.format t)

end Settings

namespace Command

variable {s : Settings} {t : Text} (ht : t.byteLen < UInt32.size)
include ht

theorem formatText_eq : formatText s t = s.format t := by
  have happly := s.applyEdits_formatEdits 0 default ht
  simp only [formatText, happly, Option.getD_some]

/-- **The command** writes the formatted text, or else says whether there was anything to format. -/
theorem execute_format {m : Type → Type} [Monad m] [LawfulMonad m] {world : World m}
    {arguments : List String} {source : Source} {settings : Option String} {check : Bool}
    (harguments : ofArguments? arguments = some (.format source settings check))
    (hsettings : readSettings world settings = pure s) (htext : readText world source = pure t) :
    execute world arguments = pure
      (if check then
        if s.format t = t then {} else { code := some 1, message := some "input is not formatted" }
      else { output := (s.format t).toBytes }) := by
  simp only [execute, harguments, run, hsettings, htext, pure_bind, formatText_eq ht]
  cases check with
  | false => simp
  | true =>
    by_cases hformat : s.format t = t
    · simp [hformat]
    · simp [hformat, Failure.code?, Failure.message?]

end Command

/-- **Formatting by edits is formatting.** For a text whose lines and columns fit their words, the
edits of its document have the formatted text as their result; there is none exactly if the text
is formatted, and else there is one, which covers the text from its first byte to its last. So
the command writes the formatted text, and its check succeeds exactly if that is the text. -/
theorem Settings.format_by_edits (s : Settings) (version : Int) {t : Text} (enc : Encoding)
    (ht : t.byteLen < UInt32.size) :
    let d := Document.ofText version t enc
    d.applyEdits? (s.formatEdits d) = some (s.format t) ∧
      (s.formatEdits d = [] ↔ s.format t = t) ∧
      (s.format t ≠ t → ∃ e, s.formatEdits d = [e]) ∧
      t.resolveRange d.index (d.ofEditorRange d.fullRange) = (0, t.byteLen) ∧
      Command.formatText s t = s.format t ∧
      ∀ (m : Type → Type) [Monad m] [LawfulMonad m] (world : Command.World m)
        (arguments : List String) (source : Source) (settings : Option String) (check : Bool),
        Command.ofArguments? arguments = some (.format source settings check) →
        Command.readSettings world settings = pure s → Command.readText world source = pure t →
        Command.execute world arguments = pure
          (if check then
            if s.format t = t then {}
            else { code := some 1, message := some "input is not formatted" }
          else { output := (s.format t).toBytes }) := by
  intro d
  refine ⟨s.applyEdits_formatEdits version enc ht, ?_, ?_,
    Document.resolveRange_fullRange version enc ht, Command.formatText_eq ht, ?_⟩
  · rw [formatEdits_ofText]
    by_cases hformat : s.format t = t
    · simp [hformat]
    · simp [hformat]
  · intro hformat
    exact ⟨_, (s.formatEdits_ofText version enc).trans (if_neg hformat)⟩
  · intro m _ _ world arguments source settings check harguments hsettings htext
    exact Command.execute_format ht harguments hsettings htext

/-- A line that a carriage return ends, and a last line with a character of two units. -/
theorem Settings.format_by_edits_astral :
    let s : Settings := {}
    let t : Text := ['a', ' ', '\r', '\t', '😀']
    let d := Document.ofText 1 t .utf16
    let world : Command.World Id := { read := fun _ => .bytes t.toBytes, memory := 0 }
    t.byteLen < UInt32.size ∧ s.format t ≠ t ∧
      Command.ofArguments? ["format", "--check"] = some (.format .standardInput none true) ∧
      Command.readSettings world none = pure s ∧ Command.readText world .standardInput = pure t ∧
      d.applyEdits? (s.formatEdits d) = some ['a', '\n', ' ', ' ', '😀', '\n'] ∧
      (∃ e, s.formatEdits d = [e]) ∧
      t.resolveRange d.index (d.ofEditorRange d.fullRange) = (0, 8) ∧
      Command.execute world ["format", "--check"]
        = pure { code := some 1, message := some "input is not formatted" } := by
  intro s t d world
  have ht : t.byteLen < UInt32.size := by decide
  have hformat : s.format t = ['a', '\n', ' ', ' ', '😀', '\n'] := by decide
  have hne : s.format t ≠ t := by decide
  have harguments : Command.ofArguments? ["format", "--check"]
      = some (.format .standardInput none true) := by decide +kernel
  have htext : Command.readText world .standardInput = pure t := by
    have hread : Text.ofBytes? t.toBytes = some t := by decide
    show (Command.textOf t.toBytes : Except Command.Failure Text) = .ok t
    rw [Command.textOf, hread]
  obtain ⟨happly, -, hone, hrange, -, hexecute⟩ := s.format_by_edits 1 .utf16 ht
  have hcheck := hexecute Id world _ _ none true harguments rfl htext
  rw [if_pos rfl, if_neg hne] at hcheck
  exact ⟨ht, hne, harguments, rfl, htext, hformat ▸ happly, hone hne, hrange, hcheck⟩

end Newline
