/-
Formatting and lines.

Formatting works line by line, puts the lines together again with their old delimiters and only
then writes the terminators anew. A line that has lost all its blanks leaves the delimiters
around it side by side, and a carriage return and a line feed are then read as one.

* `Indent.ofWidth_eq_indentUnit` — indentation is made of levels, and of spaces for the rest;
* `Settings.formatLine_eq_nil_iff` — which lines are left with nothing;
* `Settings.split_format` — the lines of a formatted text, in every case;
* `Settings.FormatsByLine` — each line is formatted for itself, and nothing else changes;
* `Settings.format_by_line_iff` — this fails exactly if blanks are trimmed and a line of nothing
  but blanks stands between a carriage return and a line feed.
-/
import Mathlib.Data.List.TakeWhile
import Newline.Format
import Newline.Proofs.FinalNewline

namespace Newline

theorem Settings.tabWidth_pos (s : Settings) : 0 < s.tabWidth := by
  rw [tabWidth]
  omega

/-! ### Indentation -/

namespace Indent

theorem plain_of_isBlank {b : Text} (h : ∀ c ∈ b, isBlank c = true) : b.Plain := by
  intro c hc
  have hblank := h c hc
  constructor
  · rintro rfl
    exact absurd hblank (by decide)
  · rintro rfl
    exact absurd hblank (by decide)

/-- **Levels first, then spaces**: as many levels as there is room for, and spaces for the rest. -/
theorem ofWidth_eq_indentUnit (s : Settings) (width : Nat) :
    ofWidth s width = (List.replicate (width / s.tabWidth) s.indentUnit).flatten
      ++ List.replicate (width % s.tabWidth) ' ' := by
  rw [ofWidth, Settings.indentUnit]
  split
  · rw [List.flatten_replicate_replicate, List.replicate_append_replicate, Nat.div_add_mod']
  · rw [List.flatten_replicate_singleton]

theorem isBlank_of_mem_ofWidth {s : Settings} {width : Nat} {c : Char}
    (h : c ∈ ofWidth s width) : isBlank c = true := by
  rw [ofWidth] at h
  split at h
  · rw [List.eq_of_mem_replicate h]
    decide
  · rcases List.mem_append.mp h with h | h
    · rw [List.eq_of_mem_replicate h]
      decide
    · rw [List.eq_of_mem_replicate h]
      decide

/-- Every blank takes the column further. -/
theorem add_length_le_widthFrom {tab : Nat} (htab : 0 < tab) (column : Nat) (indent : Text) :
    column + indent.length ≤ widthFrom tab column indent := by
  induction indent generalizing column with
  | nil => simp [widthFrom]
  | cons c cs ih =>
    by_cases hc : c = '\t'
    · subst hc
      have hstop := Nat.lt_mul_div_succ column htab
      have hrest := ih ((column / tab + 1) * tab)
      rw [Nat.mul_comm] at hstop
      rw [widthFrom, List.length_cons]
      omega
    · have hrest := ih (column + 1)
      rw [widthFrom, List.length_cons]
      · omega
      · exact hc

theorem ofWidth_eq_nil_iff {s : Settings} {width : Nat} : ofWidth s width = [] ↔ width = 0 := by
  rw [ofWidth]
  split
  · simp
  · have hdiv := Nat.div_add_mod width s.tabWidth
    simp only [List.append_eq_nil_iff, List.replicate_eq_nil_iff]
    constructor
    · rintro ⟨hquot, hrem⟩
      rw [hquot, hrem] at hdiv
      simpa using hdiv.symm
    · rintro rfl
      simp

theorem restyle_eq_nil_iff (s : Settings) (indent : Text) :
    restyle s indent = [] ↔ indent = [] := by
  have hwidth := add_length_le_widthFrom s.tabWidth_pos 0 indent
  rw [restyle, ofWidth_eq_nil_iff, width]
  constructor
  · intro h
    exact List.length_eq_zero_iff.mp (by omega)
  · rintro rfl
    rfl

end Indent

/-! ### One line -/

theorem Text.trimEnd_eq_nil_iff (b : Text) :
    b.trimEnd = [] ↔ ∀ c ∈ b, Indent.isBlank c = true := by
  simp [trimEnd, List.dropWhile_eq_nil_iff]

theorem Text.trimEnd_subset (b : Text) : b.trimEnd ⊆ b := by
  intro c hc
  rw [trimEnd, List.mem_reverse] at hc
  exact List.mem_reverse.mp ((List.dropWhile_suffix _).subset hc)

/-- A line of nothing but blanks stands between a carriage return and a line feed. -/
def Text.BlankBetween (t : Text) : Prop :=
  ∃ before l m after, Line.split t = before ++ l :: m :: after ∧ l.delimiter = .cr ∧
    m.delimiter = .lf ∧ ∀ c ∈ m.body, Indent.isBlank c = true

theorem Line.Complete.mapBody {f : Text → Text} (hf : ∀ b, b.Plain → (f b).Plain)
    {ls : List Line} (h : Complete ls) :
    Complete (ls.map fun l => { l with body := f l.body }) := by
  induction h with
  | last hb => exact .last (hf _ hb)
  | cons hb hd hls ih => exact .cons (hf _ hb) hd ih

namespace Settings

open Line

variable (s : Settings) (t : Text)

theorem plain_formatLine {b : Text} (hb : b.Plain) : (s.formatLine b).Plain := by
  have htrim : (if s.trimTrailingWhitespace then b.trimEnd else b).Plain := by
    split
    · exact hb.of_subset b.trimEnd_subset
    · exact hb
  rw [formatLine, Text.plain_append]
  constructor
  · exact Indent.plain_of_isBlank fun c hc => Indent.isBlank_of_mem_ofWidth hc
  · exact htrim.of_subset (List.dropWhile_suffix _).subset

/-- **A line is left with nothing** if there was nothing, or nothing but blanks to trim. -/
theorem formatLine_eq_nil_iff (b : Text) :
    s.formatLine b = []
      ↔ b = [] ∨ s.trimTrailingWhitespace = true ∧ ∀ c ∈ b, Indent.isBlank c = true := by
  -- What is left is nothing exactly if the line to indent is empty.
  have hempty : ∀ line : Text,
      Indent.restyle s (Indent.ofLine line) ++ line.dropWhile Indent.isBlank = [] ↔ line = [] := by
    intro line
    rw [List.append_eq_nil_iff, Indent.restyle_eq_nil_iff, Indent.ofLine]
    constructor
    · rintro ⟨htake, hdrop⟩
      rw [← List.takeWhile_append_dropWhile (p := Indent.isBlank) (l := line), htake, hdrop]
      rfl
    · rintro rfl
      exact ⟨rfl, rfl⟩
  rw [formatLine, hempty]
  by_cases htrim : s.trimTrailingWhitespace = true
  · rw [if_pos htrim, Text.trimEnd_eq_nil_iff]
    constructor
    · exact fun h => Or.inr ⟨htrim, h⟩
    · rintro (rfl | ⟨-, h⟩)
      · simp
      · exact h
  · rw [if_neg htrim]
    constructor
    · exact Or.inl
    · rintro (h | ⟨h, -⟩)
      · exact h
      · exact absurd h htrim

/-! ### The lines of a formatted text -/

/-- The lines of a text, each formatted and with its old delimiter. -/
def formatted : List Line := (split t).map fun l => { l with body := s.formatLine l.body }

theorem complete_formatted : Complete (s.formatted t) := by
  exact (complete_split t).mapBody fun _ => s.plain_formatLine

theorem map_body_formatted :
    (s.formatted t).map body = (split t).map fun l => s.formatLine l.body := by
  rw [formatted, List.map_map]
  rfl

/-- **The lines of a formatted text** are the formatted lines as they are read when they have been
put together, with the ending found there. -/
theorem split_format :
    (split (s.format t)).map body = (fuse (s.formatted t)).map body
        ++ (if s.insertFinalNewline = true ∧ (concat (s.formatted t)).isTerminated = false
          then [[]] else []) ∧
      ∀ l ∈ split (s.format t), l.delimiter ≠ .eof →
        l.delimiter = (s.policy.target (concat (s.formatted t))).delimiter := by
  have hpolicy := Policy.split_apply (p := s.policy) rfl (concat (s.formatted t))
  rwa [split_concat (s.complete_formatted t)] at hpolicy

/-- Each line of the text is formatted for itself and stays a line. An empty line is added only to
end the last one, if the settings want it ended and it is not, and every terminator is the ending
that the settings choose for the text. -/
structure FormatsByLine : Prop where
  lines : (split (s.format t)).map body
    = ((split t).map fun l => s.formatLine l.body)
      ++ if s.insertFinalNewline = true ∧ (Text.joinLines (.fixed (s.policy.target t))
          ((split t).map fun l => s.formatLine l.body)).isTerminated = false
        then [[]] else []
  endings : ∀ l ∈ split (s.format t), l.delimiter ≠ .eof →
    l.delimiter = (s.policy.target t).delimiter

theorem isTerminated_joinLines_formatted (e : Ending) :
    (Text.joinLines (.fixed e) ((split t).map fun l => s.formatLine l.body)).isTerminated
      = (concat (s.formatted t)).isTerminated := by
  have hcomplete := s.complete_formatted t
  rw [← map_body_formatted, Text.joinLines_eq e hcomplete, Text.isTerminated_withEnding e hcomplete]

/-- As long as no delimiters run together, there are as many of each kind as before. -/
theorem target_concat_formatted (h : fuse (s.formatted t) = s.formatted t) :
    s.policy.target (concat (s.formatted t)) = s.policy.target t := by
  have hsplit : split (concat (s.formatted t)) = s.formatted t := by
    rw [split_concat (s.complete_formatted t), h]
  have htally : ∀ d, tally d (s.formatted t) = tally d (split t) := by
    intro d
    rw [tally, tally, formatted, List.map_map]
    rfl
  unfold Policy.target
  split
  · rfl
  · rw [Ending.detect_eq, Ending.detect_eq, hsplit, htally, htally, htally]

/-- Delimiters run together exactly around a blank line that is trimmed away. An empty line is no
danger: in a text that was read, a line feed after a carriage return belongs to it. -/
theorem isChain_formatted_iff :
    (s.formatted t).IsChain (fun l m => ¬ Meets l m)
      ↔ ¬ (s.trimTrailingWhitespace = true ∧ t.BlankBetween) := by
  have hread := isChain_split t
  rw [formatted, List.isChain_map, List.isChain_iff_forall_rel_of_append_cons_cons]
  constructor
  · rintro hapart ⟨htrim, before, l, m, after, ht, hl, hm, hblank⟩
    refine hapart ht ⟨hl, ?_⟩
    have hnil : s.formatLine m.body = [] :=
      (s.formatLine_eq_nil_iff m.body).mpr (.inr ⟨htrim, hblank⟩)
    show Line.mk (s.formatLine m.body) m.delimiter = ⟨[], .lf⟩
    rw [hnil, hm]
  · intro hno l m before after ht hmeets
    obtain ⟨hl, hm⟩ := hmeets
    have hnil : s.formatLine m.body = [] := congrArg body hm
    have hlf : m.delimiter = .lf := congrArg delimiter hm
    rcases (s.formatLine_eq_nil_iff m.body).mp hnil with hempty | ⟨htrim, hblank⟩
    · -- The line was empty before: then its line feed was never a delimiter of its own.
      refine List.isChain_iff_forall_rel_of_append_cons_cons.mp hread ht ⟨hl, ?_⟩
      rw [← hempty, ← hlf]
    · exact hno ⟨htrim, before, l, m, after, ht, hl, hlf, hblank⟩

/-- **Formatting and lines.** The lines of a formatted text are the formatted lines as they are
read when put together, and its terminators are all of the ending found there. So each line is
formatted for itself, with the ending chosen for the text, unless blanks are trimmed and a line of
nothing but blanks stands between a carriage return and a line feed. -/
theorem format_by_line_iff :
    (split (s.format t)).map body = (fuse (s.formatted t)).map body
        ++ (if s.insertFinalNewline = true ∧ (concat (s.formatted t)).isTerminated = false
          then [[]] else []) ∧
      (∀ l ∈ split (s.format t), l.delimiter ≠ .eof →
        l.delimiter = (s.policy.target (concat (s.formatted t))).delimiter) ∧
      (s.FormatsByLine t ↔ ¬ (s.trimTrailingWhitespace = true ∧ t.BlankBetween)) := by
  obtain ⟨hlines, hendings⟩ := s.split_format t
  refine ⟨hlines, hendings, ?_⟩
  rw [← isChain_formatted_iff]
  constructor
  · -- No line is lost, and a line is lost wherever two delimiters are read as one.
    intro h
    have hsame := h.lines
    rw [isTerminated_joinLines_formatted, hlines, ← map_body_formatted] at hsame
    have hbodies := List.append_cancel_right hsame
    rw [← length_fuse_eq_iff]
    simpa using congrArg List.length hbodies
  · intro hapart
    have hfuse := fuse_eq_self hapart
    have htarget := s.target_concat_formatted t hfuse
    rw [hfuse] at hlines
    rw [htarget] at hendings
    refine ⟨?_, hendings⟩
    rw [isTerminated_joinLines_formatted, hlines, map_body_formatted]

/-- The blank line of three is lost: what was a carriage return and a line feed of their own is
read as one terminator, which the text is then said to have. -/
theorem not_formatsByLine_blank :
    format { eol := .auto, insertFinalNewline := false } ['a', '\r', ' ', '\n', 'b']
        = ['a', '\r', '\n', 'b'] ∧
      ¬ FormatsByLine { eol := .auto, insertFinalNewline := false }
        ['a', '\r', ' ', '\n', 'b'] := by
  refine ⟨by decide, ?_⟩
  intro h
  exact absurd h.lines (by decide)

end Settings

end Newline
