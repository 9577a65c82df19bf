/-
Counting and rewriting terminators, line by line.

The counts of a text and its normal forms are read off its delimited lines:

* `Stats.ofText_eq` — each kind of terminator is counted as often as it delimits a line,
  whichever way the counting goes;
* `Text.normalize_fixed` — the normal form is the lines with every delimiter replaced, also for
  a text that is returned as it is;
* `Line.split_normalize` — its lines are the lines of the text with other delimiters;
* `Ending.expandLf_normalize` — the CRLF form is the LF form with every line feed expanded.
-/
import Newline.Ending.Detect
import Newline.Normalization
import Newline.Proofs.Lines

namespace Newline

/-! ### Counts -/

/-- How many lines are ended by `d`. -/
def Line.tally (d : Delimiter) (ls : List Line) : Nat := (ls.map Line.delimiter).count d

namespace Line

@[simp] theorem tally_nil (d : Delimiter) : tally d [] = 0 := rfl

@[simp] theorem tally_cons (d : Delimiter) (l : Line) (ls : List Line) :
    tally d (l :: ls) = tally d ls + if l.delimiter = d then 1 else 0 := by
  simp [tally, List.count_cons]

@[simp] theorem tally_append (d : Delimiter) (ls ms : List Line) :
    tally d (ls ++ ms) = tally d ls + tally d ms := by
  simp [tally]

@[simp] theorem tally_consHead (d : Delimiter) (c : Char) (ls : List Line) :
    tally d (consHead c ls) = tally d ls := by
  cases ls <;> simp [consHead]

theorem tally_eq_zero {d : Delimiter} {ls : List Line} :
    tally d ls = 0 ↔ ∀ l ∈ ls, l.delimiter ≠ d := by
  simp [tally, List.count_eq_zero]

end Line

namespace Stats

theorem scan_cons_char (s : Stats) {c : Char} {cs : Text} (hcr : c ≠ '\r') (hlf : c ≠ '\n') :
    scan s (c :: cs) = scan s cs := by
  rw [scan]
  · exact fun ds h => absurd h hcr
  · exact hcr
  · exact hlf

theorem scan_eq (s : Stats) (t : Text) :
    scan s t = { s with
      lf := s.lf + Line.tally .lf (Line.split t)
      crlf := s.crlf + Line.tally .crlf (Line.split t)
      cr := s.cr + Line.tally .cr (Line.split t) } := by
  induction t using Text.scanInduction generalizing s with
  | nil => simp [scan, Line.split]
  | crlf cs ih => simp [scan, Line.split, ih, Nat.add_assoc, Nat.add_comm 1]
  | cr cs h ih => simp [scan, Line.split, ih, Nat.add_assoc, Nat.add_comm 1]
  | lf cs ih => simp [scan, Line.split, ih, Nat.add_assoc, Nat.add_comm 1]
  | char c cs hcr hlf ih =>
    rw [scan_cons_char s hcr hlf, ih, Line.split_cons_char hcr hlf]
    simp

/-- Without carriage returns every line but the last is ended by a line feed. -/
theorem tally_of_no_cr {t : Text} (h : '\r' ∉ t) :
    Line.tally .lf (Line.split t) = t.count '\n' ∧ Line.tally .crlf (Line.split t) = 0 ∧
      Line.tally .cr (Line.split t) = 0 := by
  induction t using Text.scanInduction with
  | nil => simp [Line.split]
  | crlf cs ih => exact absurd h (by simp)
  | cr cs hne ih => exact absurd h (by simp)
  | lf cs ih =>
    have hcs : '\r' ∉ cs := fun hmem => h (List.mem_cons_of_mem _ hmem)
    simpa [Line.split] using ih hcs
  | char c cs hcr hlf ih =>
    have hcs : '\r' ∉ cs := fun hmem => h (List.mem_cons_of_mem _ hmem)
    have hcount : (c :: cs).count '\n' = cs.count '\n' := by
      rw [List.count_cons_of_ne hlf]
    simpa [Line.split_cons_char hcr hlf, hcount] using ih hcs

/-- **The counts of a text are the counts of its delimiters**, for the empty text, a text
without carriage returns and any other. -/
theorem ofText_eq (t : Text) :
    (ofText t).lf = Line.tally .lf (Line.split t) ∧
      (ofText t).crlf = Line.tally .crlf (Line.split t) ∧
      (ofText t).cr = Line.tally .cr (Line.split t) := by
  rw [ofText]
  split
  · rename_i hempty
    rw [List.isEmpty_iff.mp hempty]
    decide
  · split
    · simp [scan_eq]
    · rename_i hcr
      obtain ⟨hlf, hcrlf, hcr⟩ := tally_of_no_cr hcr
      exact ⟨hlf.symm, hcrlf.symm, hcr.symm⟩

end Stats

/-- The dominant ending is decided by the delimiters. -/
theorem Ending.detect_eq (t : Text) :
    detect t = if Line.tally .lf (Line.split t) + Line.tally .cr (Line.split t)
      < Line.tally .crlf (Line.split t) then crlf else lf := by
  obtain ⟨hlf, hcrlf, hcr⟩ := Stats.ofText_eq t
  rw [detect, ofStats, hlf, hcrlf, hcr]

/-! ### Lines with another ending -/

/-- The delimiter that an ending is. -/
def Ending.delimiter : Ending → Delimiter
  | lf => .lf
  | crlf => .crlf

@[simp] theorem Ending.text_delimiter (e : Ending) : e.delimiter.text = e.text := by
  cases e <;> rfl

@[simp] theorem Ending.delimiter_ne_eof (e : Ending) : e.delimiter ≠ .eof := by
  cases e <;> simp [delimiter]

@[simp] theorem Ending.delimiter_ne_cr (e : Ending) : e.delimiter ≠ .cr := by
  cases e <;> simp [delimiter]

/-- The line with its terminator, if there is one, written as `e`. -/
def Line.withEnding (e : Ending) (l : Line) : Line :=
  { l with delimiter := if l.delimiter = .eof then .eof else e.delimiter }

namespace Line

@[simp] theorem body_withEnding (e : Ending) (l : Line) : (l.withEnding e).body = l.body := rfl

theorem delimiter_withEnding (e : Ending) (l : Line) :
    (l.withEnding e).delimiter = if l.delimiter = .eof then .eof else e.delimiter := rfl

theorem withEnding_delimiter_ne_cr (e : Ending) (l : Line) : (l.withEnding e).delimiter ≠ .cr := by
  rw [delimiter_withEnding]
  split <;> simp

/-- Lines with one ending have no other. -/
theorem delimiter_of_mem_withEnding {e : Ending} {ls : List Line} {l : Line}
    (h : l ∈ ls.map (withEnding e)) (hd : l.delimiter ≠ .eof) : l.delimiter = e.delimiter := by
  obtain ⟨m, -, rfl⟩ := List.mem_map.mp h
  rw [delimiter_withEnding] at hd ⊢
  split at hd
  · exact absurd rfl hd
  · rename_i hm
    rw [if_neg hm]

theorem tally_withEnding {e : Ending} {d : Delimiter} (heof : d ≠ .eof)
    (he : d ≠ e.delimiter) (ls : List Line) : tally d (ls.map (withEnding e)) = 0 := by
  rw [tally_eq_zero]
  rintro l hl rfl
  exact he (delimiter_of_mem_withEnding hl heof)

theorem Complete.map_withEnding {ls : List Line} (h : Complete ls) (e : Ending) :
    Complete (ls.map (withEnding e)) := by
  induction h with
  | last hb => exact .last hb
  | cons hb hd hls ih => exact .cons hb (by simp [delimiter_withEnding, hd]) ih

/-- Joining with an ending writes it in the place of every delimiter. -/
theorem joinWith_fixed (e : Ending) (ls : List Line) :
    joinWith (.fixed e) ls = concat (ls.map (withEnding e)) := by
  induction ls with
  | nil => rfl
  | cons l ls ih =>
    have hcons : joinWith (.fixed e) (l :: ls)
        = (l.body ++ if l.delimiter = .eof then [] else e.text) ++ joinWith (.fixed e) ls := rfl
    rw [hcons, ih, List.map_cons, concat_cons, text, delimiter_withEnding]
    split
    · simp
    · simp

/-- Lines that all have one ending are read as they were written. -/
theorem split_joinWith {ls : List Line} (h : Complete ls) (e : Ending) :
    split (joinWith (.fixed e) ls) = ls.map (withEnding e) := by
  rw [joinWith_fixed, split_concat (h.map_withEnding e)]
  refine fuse_eq_self ?_
  -- A line whose delimiter runs into the next one is ended by a carriage return.
  refine List.Pairwise.isChain (List.pairwise_of_forall_mem_list ?_)
  rintro l hl m - ⟨hcr, -⟩
  obtain ⟨k, -, rfl⟩ := List.mem_map.mp hl
  exact withEnding_delimiter_ne_cr e k hcr

end Line

/-! ### Normal forms -/

theorem Text.replaceTerminators_cons_char (e : Ending) {c : Char} {cs : Text} (hcr : c ≠ '\r')
    (hlf : c ≠ '\n') : replaceTerminators e (c :: cs) = c :: replaceTerminators e cs := by
  rw [replaceTerminators]
  · exact fun ds h => absurd h hcr
  · exact hcr
  · exact hlf

/-- Rewriting terminators rewrites the delimiters of the lines. -/
theorem Text.replaceTerminators_eq (e : Ending) (t : Text) :
    replaceTerminators e t = Line.concat ((Line.split t).map (Line.withEnding e)) := by
  induction t using Text.scanInduction with
  | nil => rfl
  | crlf cs ih => simp [replaceTerminators, Line.split, ih, Line.text, Line.withEnding]
  | cr cs h ih => simp [replaceTerminators, Line.split, ih, Line.text, Line.withEnding]
  | lf cs ih => simp [replaceTerminators, Line.split, ih, Line.text, Line.withEnding]
  | char c cs hcr hlf ih =>
    rw [replaceTerminators_cons_char e hcr hlf, ih, Line.split_cons_char hcr hlf]
    cases hs : Line.split cs with
    | nil => exact absurd hs (Line.split_ne_nil cs)
    | cons l ls => simp [Line.consHead, Line.text, Line.withEnding]

/-- The counts see no other ending exactly if no line would change. -/
theorem Stats.isUniform_iff (t : Text) (e : Ending) :
    (Stats.ofText t).isUniform e = true ↔ ∀ l ∈ Line.split t, l.withEnding e = l := by
  obtain ⟨hlf, hcrlf, hcr⟩ := Stats.ofText_eq t
  have hline : ∀ l : Line,
      l.withEnding e = l ↔ (l.delimiter = .eof ∨ l.delimiter = e.delimiter) := by
    rintro ⟨b, d⟩
    cases d <;> cases e <;> simp [Line.withEnding, Ending.delimiter]
  simp only [hline]
  cases e with
  | lf =>
    simp only [isUniform, hcrlf, hcr, Bool.and_eq_true, decide_eq_true_eq, Line.tally_eq_zero,
      ← forall_and, Ending.delimiter]
    refine forall_congr' fun l => forall_congr' fun _ => ?_
    cases l.delimiter <;> simp
  | crlf =>
    simp only [isUniform, hlf, hcr, Bool.and_eq_true, decide_eq_true_eq, Line.tally_eq_zero,
      ← forall_and, Ending.delimiter]
    refine forall_congr' fun l => forall_congr' fun _ => ?_
    cases l.delimiter <;> simp

namespace Text

/-- **The normal form of a text is its lines with one ending.** A text that is returned as it is
has no other ending to begin with. -/
theorem normalize_fixed (e : Ending) (t : Text) :
    normalize (.fixed e) t = Line.concat ((Line.split t).map (Line.withEnding e)) := by
  rw [normalize]
  split
  · -- The text is returned as it is.
    rename_i huniform
    have hid : (Line.split t).map (Line.withEnding e) = (Line.split t).map id :=
      List.map_congr_left ((Stats.isUniform_iff t e).mp huniform)
    rw [hid, List.map_id, Line.concat_split]
  · exact replaceTerminators_eq e t

end Text

namespace Ending

@[simp] theorem expandLf_append (e : Ending) (s t : Text) :
    e.expandLf (s ++ t) = e.expandLf s ++ e.expandLf t := by
  cases e <;> simp [expandLf]

theorem expandLf_of_plain (e : Ending) {b : Text} (hb : b.Plain) : e.expandLf b = b := by
  cases e with
  | lf => rfl
  | crlf =>
    induction b with
    | nil => rfl
    | cons c cs ih =>
      obtain ⟨⟨-, hlf⟩, hcs⟩ := Text.plain_cons.mp hb
      have hcons : expandLf crlf (c :: cs) = expandLf crlf [c] ++ expandLf crlf cs :=
        expandLf_append crlf [c] cs
      rw [hcons, ih hcs]
      simp [expandLf, hlf]

@[simp] theorem expandLf_lf (e : Ending) : e.expandLf ['\n'] = e.text := by
  cases e <;> rfl

/-- The LF form, expanded, is the form with the other ending. -/
theorem expandLf_normalize (e : Ending) (t : Text) :
    e.expandLf (t.normalize (.fixed .lf)) = t.normalize (.fixed e) := by
  rw [Text.normalize_fixed, Text.normalize_fixed]
  have hplain := (Line.complete_split t).plain
  generalize Line.split t = ls at hplain
  induction ls with
  | nil => cases e <;> rfl
  | cons l ls ih =>
    -- The line feeds of the LF form are its delimiters: no body holds one.
    have hbody := expandLf_of_plain e (hplain l (by simp))
    have hrest := ih fun m hm => hplain m (by simp [hm])
    simp only [List.map_cons, Line.concat_cons, Line.text, expandLf_append, hrest,
      Line.body_withEnding, hbody, Line.delimiter_withEnding]
    split
    · cases e <;> rfl
    · simp [text]

end Ending

/-- **The lines of a normal form** are the lines of the text with other delimiters. -/
theorem Line.split_normalize (e : Ending) (t : Text) :
    split (t.normalize (.fixed e)) = (split t).map (withEnding e) := by
  rw [Text.normalize_fixed, ← joinWith_fixed, split_joinWith (complete_split t)]

end Newline
