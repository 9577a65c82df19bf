/-
All scanners see the same lines.

Terminators are looked for in several places, each by a scan of its own: to count them, to count
lines, to index where lines start, to mark the pairs, and to split a text. What the others find
is read off the lines of the split.

* `Text.countLines_eq`, `Stats.terminated_ofText` — the counts;
* `LineIndex.pairwise_startsOf`, `Line.startOf_eq_sum` — the index;
* `CrlfMarks.marksOf_eq_map` — the marks, one for each line that a pair ends;
* `Text.scanners_agree` — all of them, also by the loops over bytes and slices.
-/
import Mathlib.Algebra.GroupWithZero.Nat
import Newline.Proofs.FinalNewline
import Newline.Proofs.Loops
import Newline.Proofs.Pairs

namespace Newline

namespace Line

/-! ### Lines and terminators -/

@[simp] theorem length_consHead (c : Char) (ls : List Line) :
    (consHead c ls).length = ls.length := by
  cases ls <;> rfl

/-- Of complete lines all but one have a terminator. -/
theorem Complete.tally_add_one {ls : List Line} (h : Complete ls) :
    tally .lf ls + tally .crlf ls + tally .cr ls + 1 = ls.length := by
  induction h with
  | last hb => simp
  | @cons l ls hb hd hls ih =>
    obtain ⟨b, d⟩ := l
    cases d with
    | eof => exact absurd rfl hd
    | lf => simp only [tally_cons, List.length_cons, reduceCtorEq, if_true, if_false]; omega
    | crlf => simp only [tally_cons, List.length_cons, reduceCtorEq, if_true, if_false]; omega
    | cr => simp only [tally_cons, List.length_cons, reduceCtorEq, if_true, if_false]; omega

theorem byteLen_concat_eq_sum (ls : List Line) :
    Text.byteLen (concat ls)
      = (ls.map fun l => Text.byteLen l.body + Text.byteLen l.delimiter.text).sum := by
  induction ls with
  | nil => rfl
  | cons l ls ih =>
    rw [concat_cons, Text.byteLen_append, ih, byteLen_text, List.map_cons, List.sum_cons]

theorem startOf_eq_sum (ls : List Line) (i : Nat) :
    startOf ls i
      = ((ls.take i).map fun l => Text.byteLen l.body + Text.byteLen l.delimiter.text).sum := by
  rw [startOf, byteLen_concat_eq_sum]

theorem isBoundary_startOf (t : Text) (i : Nat) : t.IsBoundary (startOf (split t) i) := by
  refine Text.isBoundary_iff.mpr ⟨concat ((split t).take i), concat ((split t).drop i), ?_, rfl⟩
  rw [← concat_append, List.take_append_drop, concat_split]

/-- In the LF form every line before the last is one byte longer than its text. -/
theorem Complete.startOf_lf {ls : List Line} (h : Complete ls) {i : Nat} (hi : i < ls.length) :
    startOf (ls.map (withEnding .lf)) i
      = ((ls.take i).map fun l => Text.byteLen l.body + 1).sum := by
  induction h generalizing i with
  | last hb =>
    rw [List.length_singleton, Nat.lt_one_iff] at hi
    simp [hi]
  | @cons l ls hb hd hls ih =>
    cases i with
    | zero => simp
    | succ i =>
      rw [List.length_cons, Nat.add_lt_add_iff_right] at hi
      rw [List.map_cons, startOf_cons_succ, byteLen_text_withEnding_lf hd, ih hi,
        List.take_succ_cons, List.map_cons, List.sum_cons]

end Line

open Line

/-! ### The counts -/

theorem Text.countLines_eq (t : Text) : t.countLines = (split t).length := by
  induction t using Text.scanInduction with
  | nil => rfl
  | crlf cs ih => simp [countLines, split, ih]
  | cr cs h ih => simp [countLines, split, ih]
  | lf cs ih => simp [countLines, split, ih]
  | char c cs hcr hlf ih =>
    rw [split_cons_char hcr hlf, length_consHead, ← ih, countLines_cons_char hcr hlf]

/-- A text is ended exactly if there is another line behind its last terminator, an empty one. -/
theorem Text.isTerminated_iff (t : Text) :
    t.isTerminated = true ↔ 2 ≤ (split t).length ∧ (split t).getLast?.map body = some [] := by
  obtain ⟨init, b, hsplit, hb, hinit⟩ := (complete_split t).exists_last
  have hterm := isTerminated_concat hb hinit
  rw [← hsplit, concat_split] at hterm
  rw [hterm, hsplit]
  have hlen : 2 ≤ (init ++ [(⟨b, .eof⟩ : Line)]).length ↔ init ≠ [] := by
    rw [List.length_append, List.length_singleton, ← List.length_pos_iff]
    omega
  rw [hlen]
  simp

/-- Whichever way the counting goes, it sees whether the text is ended. -/
theorem Stats.terminated_ofText (t : Text) : (ofText t).terminated = t.isTerminated := by
  rw [ofText]
  by_cases hempty : t.isEmpty
  · rw [if_pos hempty, List.isEmpty_iff.mp hempty]
    rfl
  · rw [if_neg hempty]
    by_cases hcr : '\r' ∈ t
    · rw [if_pos hcr]
    · -- The last character is no carriage return, since none is.
      have hlast : t.getLast? ≠ some '\r' := fun h => hcr (List.mem_of_getLast? h)
      rw [if_neg hcr, Text.isTerminated]
      simp [hlast]

theorem Stats.terminators_ofText (t : Text) :
    (ofText t).terminators + 1 = (split t).length := by
  obtain ⟨hlf, hcrlf, hcr⟩ := ofText_eq t
  rw [terminators, hlf, hcrlf, hcr, (complete_split t).tally_add_one]

/-! ### The index -/

namespace LineIndex

theorem toList_starts_ofText (t : Text) : (ofText t).starts.toList = startsOf 0 (split t) := by
  rw [ofText, startsFrom_eq]

theorem le_of_mem_startsOf {offset start : Nat} {ls : List Line} (h : start ∈ startsOf offset ls) :
    offset ≤ start := by
  induction ls generalizing offset with
  | nil => exact absurd h (by simp [startsOf])
  | cons l ls ih =>
    rcases List.mem_cons.mp h with rfl | hmem
    · exact Nat.le_refl _
    · have hle := ih hmem
      omega

/-- **Lines start one after the other**: each but the last has at least its terminator. -/
theorem pairwise_startsOf (offset : Nat) {ls : List Line} (h : Complete ls) :
    (startsOf offset ls).Pairwise (· < ·) := by
  induction h generalizing offset with
  | last hb => simp [startsOf]
  | @cons l ls hb hd hls ih =>
    rw [startsOf, List.pairwise_cons]
    refine ⟨?_, ih _⟩
    intro start hstart
    have hle := le_of_mem_startsOf hstart
    have hpos := Delimiter.byteLen_text_pos hd
    rw [byteLen_text] at hle
    omega

end LineIndex

/-! ### The marks -/

namespace CrlfMarks

/-- **One mark for each line that a pair ends**, behind the text of the line. -/
theorem marksOf_eq_map (offset : Nat) (ls : List Line) :
    marksOf offset ls = (ls.zipIdx.filter fun p => p.1.delimiter = .crlf).map fun p =>
      offset + startOf (ls.map (withEnding .lf)) p.2 + Text.byteLen p.1.body := by
  induction ls generalizing offset with
  | nil => rfl
  | cons l ls ih =>
    -- The lines behind the first are counted from one, and their starts from its end.
    have hrest : ((ls.zipIdx.map (Prod.map id (· + 1))).filter fun p => p.1.delimiter = .crlf).map
          (fun p => offset + startOf ((l :: ls).map (withEnding .lf)) p.2 + Text.byteLen p.1.body)
        = marksOf (offset + Text.byteLen (l.withEnding .lf).text) ls := by
      rw [List.filter_map, List.map_map, ih]
      refine List.map_congr_left fun p _ => ?_
      simp [startOf_cons_succ, Nat.add_assoc]
    rw [marksOf, List.zipIdx_cons', List.filter_cons, ← hrest]
    by_cases hcrlf : l.delimiter = .crlf
    · simp [hcrlf]
    · simp [hcrlf]

theorem le_of_mem_marksOf {offset mark : Nat} {ls : List Line} (h : mark ∈ marksOf offset ls) :
    offset ≤ mark := by
  cases ls with
  | nil => exact absurd h (by simp [marksOf])
  | cons l ls =>
    have hle := le_of_mem_marksOf_cons h
    omega

/-- A mark belongs to a line that a pair ends. -/
theorem exists_line_of_mem_marks {t : Text} {mark : Nat} (h : mark ∈ (ofText t).marks) :
    ∃ i l, (split t)[i]? = some l ∧ l.delimiter = .crlf ∧
      mark = startOf ((split t).map (withEnding .lf)) i + Text.byteLen l.body := by
  rw [marks_ofText, List.mem_toArray, marksOf_eq_map] at h
  obtain ⟨⟨l, i⟩, hmem, rfl⟩ := List.mem_map.mp h
  obtain ⟨hline, hcrlf⟩ := List.mem_filter.mp hmem
  refine ⟨i, l, List.mem_zipIdx_iff_getElem?.mp hline, by simpa using hcrlf, by simp⟩

end CrlfMarks

/-! ### All scanners -/

/-- What the counts, the index and the marks of a text say about the lines that it is split into,
and that the loops over its bytes and slices say the same. -/
structure Text.ScannersAgree (t : Text) : Prop where
  lf : (Stats.ofText t).lf = tally .lf (split t)
  crlf : (Stats.ofText t).crlf = tally .crlf (split t)
  cr : (Stats.ofText t).cr = tally .cr (split t)
  terminated : (Stats.ofText t).terminated = true
    ↔ 2 ≤ (split t).length ∧ (split t).getLast?.map body = some []
  countLines : t.countLines = (split t).length
  lineCount : (LineIndex.ofText t).lineCount = (split t).length
  terminators : (Stats.ofText t).terminators + 1 = (split t).length
  starts_zero : (LineIndex.ofText t).starts[0]? = some 0
  starts_increase : (LineIndex.ofText t).starts.toList.Pairwise (· < ·)
  starts_sum : ∀ i < (split t).length, (LineIndex.ofText t).starts[i]? =
    some (((split t).take i).map fun l => byteLen l.body + byteLen l.delimiter.text).sum
  starts_boundary : ∀ start ∈ (LineIndex.ofText t).starts, t.IsBoundary start
  lineSpan : ∀ i l, (split t)[i]? = some l → ∃ start stop,
    (LineIndex.ofText t).lineSpan? i = some (start, stop) ∧
      (LineIndex.ofText t).starts[i]? = some start ∧
      stop = start + byteLen l.body + byteLen l.delimiter.text ∧
      t.slice start stop = l.body ++ l.delimiter.text
  lineSpan_none : ∀ i, (split t).length ≤ i → (LineIndex.ofText t).lineSpan? i = none
  lineAt : ∀ i l, (split t)[i]? = some l → t.lineAt (LineIndex.ofText t) i = l.body
  marks : (CrlfMarks.ofText t).marks.toList =
    ((split t).zipIdx.filter fun p => p.1.delimiter = .crlf).map fun p =>
      (((split t).take p.2).map fun l => byteLen l.body + 1).sum + byteLen p.1.body
  measure : Stats.measure t = Stats.ofText t
  loopLines : t.loopLines = t.countLines
  buildIndex : LineIndex.build t = LineIndex.ofText t
  buildMarks : CrlfMarks.build t = CrlfMarks.ofText t
  cut : Line.cut t = (split t).toArray
  rewrite : ∀ e, Text.rewrite e t = t.replaceTerminators e

/-- **All scanners agree with the lines of the text**: counts, line starts, spans and marks, found
from character to character, from byte to byte or slice by slice. -/
theorem Text.scanners_agree (t : Text) : t.ScannersAgree := by
  obtain ⟨hlf, hcrlf, hcr⟩ := Stats.ofText_eq t
  have hstarts := LineIndex.starts_ofText t
  refine ⟨hlf, hcrlf, hcr, ?_, countLines_eq t, LineIndex.lineCount_ofText t,
    Stats.terminators_ofText t, ?_, ?_, ?_, ?_, ?_, ?_, ?_, ?_, Stats.measure_eq t, loopLines_eq t,
    LineIndex.build_eq t, CrlfMarks.build_eq t, cut_eq t, fun e => rewrite_eq e t⟩
  · rw [Stats.terminated_ofText, isTerminated_iff]
  · rw [hstarts, if_pos (length_split_pos t), startOf_zero]
  · rw [LineIndex.toList_starts_ofText]
    exact LineIndex.pairwise_startsOf 0 (complete_split t)
  · intro i hi
    rw [hstarts, if_pos hi, startOf_eq_sum]
  · intro start hmem
    obtain ⟨i, hi⟩ := Array.getElem?_of_mem hmem
    rw [hstarts] at hi
    split at hi
    · rw [← Option.some.inj hi]
      exact isBoundary_startOf t i
    · exact absurd hi (by simp)
  · intro i l hl
    have hi := (List.getElem?_eq_some_iff.mp hl).choose
    have hsucc := startOf_succ hl
    rw [byteLen_text, ← Nat.add_assoc] at hsucc
    refine ⟨_, _, LineIndex.lineSpan_ofText t hi, ?_, hsucc, slice_line hl⟩
    rw [hstarts, if_pos hi]
  · intro i hi
    rw [LineIndex.lineSpan?, LineIndex.lineStart_ofText t i, if_neg (by omega), Option.map_none]
  · intro i l hl
    refine lineAt_ofText ?_
    have hi := (List.getElem?_eq_some_iff.mp hl).choose
    rw [LineIndex.lastLine_ofText, Nat.min_eq_left (by omega), hl]
  · rw [CrlfMarks.marks_ofText, CrlfMarks.marksOf_eq_map]
    refine List.map_congr_left fun p hp => ?_
    have hline := List.mem_zipIdx_iff_getElem?.mp (List.mem_filter.mp hp).1
    have hi := (List.getElem?_eq_some_iff.mp hline).choose
    rw [Nat.zero_add, (complete_split t).startOf_lf hi]

end Newline
