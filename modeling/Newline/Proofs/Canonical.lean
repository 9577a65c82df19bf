/-
Formatted texts: the form they have, and what they keep.

The steps of the formatter work on the results of each other: the ending is looked for in lines
that are trimmed and indented already, and the lines are read again after that. Still a second
run finds everything as it should be.

* `Ending.detect_withEnding`, `Policy.target_apply` — what a policy has written makes it choose
  the same ending again;
* `Policy.apply_eq_self` — texts that a policy leaves alone;
* `Settings.Canonical` — texts as the settings want them;
* `Settings.format_canonical` — formatted texts are canonical, and no others stay as they are;
* `Settings.bodies`, `Settings.format_keeps_bodies` — the lines that are not blank, with the width
  of their indentation, stay the same in number, order and text.
-/
import Newline.Proofs.LineForm
import Newline.Proofs.Scanners

namespace Newline

open Line

/-! ### The ending of a text with one ending -/

theorem Line.withEnding_eq_self {e : Ending} {l : Line}
    (h : l.delimiter ≠ .eof → l.delimiter = e.delimiter) : l.withEnding e = l := by
  obtain ⟨b, d⟩ := l
  by_cases hd : d = .eof
  · rw [withEnding, if_pos hd, hd]
  · rw [withEnding, if_neg hd, ← h hd]

/-- A text with one ending has that as its dominant one. Without any terminator that is the line
feed, so a pair needs a line to end. -/
theorem Ending.detect_withEnding {ls : List Line} (h : Complete ls) {e : Ending}
    (he : e = .crlf → 2 ≤ ls.length) : detect (concat (ls.map (withEnding e))) = e := by
  have hsum := (h.map_withEnding e).tally_add_one
  rw [List.length_map] at hsum
  rw [detect_eq, ← joinWith_fixed, split_joinWith h]
  cases e with
  | lf =>
    have hcrlf := tally_withEnding (e := lf) (d := .crlf) (by simp) (by simp [delimiter]) ls
    rw [hcrlf, if_neg (Nat.not_lt_zero _)]
  | crlf =>
    have hlf := tally_withEnding (e := crlf) (d := .lf) (by simp) (by simp [delimiter]) ls
    have hcr := tally_withEnding (e := crlf) (d := .cr) (by simp) (by simp [delimiter]) ls
    have hlen := he rfl
    rw [if_pos (by omega)]

/-- A text without any other ending is its own normal form. -/
theorem Text.normalize_eq_self {e : Ending} {t : Text}
    (h : ∀ l ∈ split t, l.delimiter ≠ .eof → l.delimiter = e.delimiter) :
    t.normalize (.fixed e) = t := by
  have hmap : (split t).map (withEnding e) = (split t).map id :=
    List.map_congr_left fun l hl => withEnding_eq_self (h l hl)
  rw [normalize_fixed, hmap, List.map_id, concat_split]

theorem Text.endsWith_ensureFinalNewline (e : Ending) (t : Text) :
    (t.ensureFinalNewline e).endsWith e.text = true := by
  rw [ensureFinalNewline]
  split
  · assumption
  · rw [endsWith, List.isSuffixOf_iff_suffix]
    exact List.suffix_append t e.text

namespace Policy

/-- **A policy chooses the same ending again** in what it has written. -/
theorem target_apply {p : Policy} (hstrip : p.stripFinalNewline = false) (t : Text) :
    p.target (p.apply t) = p.target t := by
  cases hmode : p.mode with
  | fixed e => simp only [target, hmode]
  | preserve =>
    obtain ⟨ls, hls, happly, hbody⟩ := apply_eq hstrip t
    have htarget : ∀ u, p.target u = Ending.detect u := by
      intro u
      simp only [target, hmode]
    rw [happly, htarget (concat _)]
    refine Ending.detect_withEnding hls fun hcrlf => ?_
    -- The pair was found in a line of the text, and that line has stayed.
    have hsum := (complete_split t).tally_add_one
    have hlen := congrArg List.length hbody
    rw [htarget, Ending.detect_eq] at hcrlf
    rw [List.length_map, List.length_append, List.length_map] at hlen
    split at hcrlf
    · omega
    · exact absurd hcrlf (by simp)

theorem endsWith_apply {p : Policy} (hensure : p.ensureFinalNewline = true) (t : Text) :
    (p.apply t).endsWith (p.target t).text = true := by
  rw [apply, if_pos hensure]
  exact Text.endsWith_ensureFinalNewline _ _

/-- **A policy leaves a text alone** that has no other ending, and ends with it if it is to. -/
theorem apply_eq_self {p : Policy} (hstrip : p.stripFinalNewline = false) {t : Text}
    (hendings : ∀ l ∈ split t, l.delimiter ≠ .eof → l.delimiter = (p.target t).delimiter)
    (hended : p.ensureFinalNewline = true → t.endsWith (p.target t).text = true) :
    p.apply t = t := by
  have hnormal := Text.normalize_eq_self hendings
  simp only [apply, hnormal, hstrip, Bool.false_eq_true, if_false]
  by_cases hensure : p.ensureFinalNewline = true
  · rw [if_pos hensure, Text.ensureFinalNewline, if_pos (hended hensure)]
  · rw [if_neg hensure]

end Policy

/-! ### Lines that are read again -/

namespace Line

/-- Lines that are put together and read again keep their bodies. -/
theorem exists_of_mem_fuse {ls : List Line} {l : Line} (h : l ∈ fuse ls) :
    ∃ m ∈ ls, m.body = l.body := by
  fun_induction fuse ls with
  | case1 b ls ih =>
    rcases List.mem_cons.mp h with rfl | h
    · exact ⟨⟨b, .cr⟩, by simp, rfl⟩
    · obtain ⟨m, hm, hbody⟩ := ih h
      exact ⟨m, by simp [hm], hbody⟩
  | case2 k ls hne ih =>
    rcases List.mem_cons.mp h with rfl | h
    · exact ⟨l, by simp, rfl⟩
    · obtain ⟨m, hm, hbody⟩ := ih h
      exact ⟨m, by simp [hm], hbody⟩
  | case3 => exact absurd h (by simp)

/-- None of them is lost but empty ones. -/
theorem filterMap_fuse {α : Type} {f : Text → Option α} (hf : f [] = none) (ls : List Line) :
    ((fuse ls).map body).filterMap f = (ls.map body).filterMap f := by
  fun_induction fuse ls with
  | case1 b ls ih => simp only [List.map_cons, List.filterMap_cons, hf, ih]
  | case2 l ls hne ih => simp only [List.map_cons, List.filterMap_cons, ih]
  | case3 => rfl

end Line

namespace Settings

variable (s : Settings) (t : Text)

/-! ### Canonical texts -/

/-- The ending that the settings ask for, or else the dominant one of the text. -/
def endingFor : Ending := s.eol.ending?.getD (Ending.detect t)

theorem target_policy : s.policy.target t = s.endingFor t := by
  rw [endingFor, Policy.target, policy]
  cases s.eol with
  | fixed e => rfl
  | auto => rfl

/-- A text as the settings want it: every line is neat, every terminator the ending that they ask
for, and the text ends with it if its last line is to be ended. -/
structure Canonical : Prop where
  neat : ∀ l ∈ split t, s.Neat l.body
  endings : ∀ l ∈ split t, l.delimiter ≠ .eof → l.delimiter = (s.endingFor t).delimiter
  ended : s.insertFinalNewline = true → t.endsWith (s.endingFor t).text = true

theorem neat_of_mem_format {l : Line} (h : l ∈ split (s.format t)) : s.Neat l.body := by
  have hmem : l.body ∈ (split (s.format t)).map body := List.mem_map_of_mem h
  rw [(s.split_format t).1, List.mem_append] at hmem
  rcases hmem with hmem | hmem
  · -- The line is one of those that were formatted, whatever became of its delimiter.
    obtain ⟨m, hm, hbody⟩ := List.mem_map.mp hmem
    obtain ⟨k, hk, hkbody⟩ := exists_of_mem_fuse hm
    obtain ⟨i, -, rfl⟩ := List.mem_map.mp hk
    rw [← hbody, ← hkbody]
    exact s.neat_formatLine i.body
  · have hnil : l.body = [] := by
      split at hmem
      · exact List.mem_singleton.mp hmem
      · exact absurd hmem (by simp)
    rw [hnil, ← (s.formatLine_eq_nil_iff []).mpr (Or.inl rfl)]
    exact s.neat_formatLine []

theorem canonical_format : s.Canonical (s.format t) := by
  have htarget : s.endingFor (s.format t) = s.policy.target (concat (s.formatted t)) := by
    rw [← target_policy]
    exact Policy.target_apply rfl _
  refine ⟨fun l => s.neat_of_mem_format t, ?_, ?_⟩
  · rw [htarget]
    exact (s.split_format t).2
  · intro hinsert
    rw [htarget]
    exact Policy.endsWith_apply hinsert _

variable {s t} in
theorem Canonical.format_eq (h : s.Canonical t) : s.format t = t := by
  have hlines : s.formatted t = split t := by
    have hmap : s.formatted t = (split t).map id := by
      refine List.map_congr_left fun l hl => ?_
      rw [(s.formatLine_eq_self_iff l.body).mpr (h.neat l hl)]
      rfl
    rw [hmap, List.map_id]
  have hendings := h.endings
  have hended := h.ended
  rw [← target_policy] at hendings hended
  show s.policy.apply (concat (s.formatted t)) = t
  rw [hlines, concat_split]
  exact Policy.apply_eq_self rfl hendings hended

variable {s t} in
/-- With spaces for indentation, no line has both. -/
theorem Canonical.mixedIndentation_eq (h : s.Canonical t) (hspaces : s.insertSpaces = true) :
    t.mixedIndentation = [] := by
  rw [Text.mixedIndentation, List.filterMap_eq_nil_iff]
  rintro ⟨l, i⟩ hl
  have hstyled := (h.neat l (List.fst_mem_of_mem_zipIdx hl)).styled
  rw [Indent.Styled, if_pos hspaces] at hstyled
  refine if_neg ?_
  rintro ⟨-, htab⟩
  exact absurd (hstyled _ htab) (by decide)

/-- **Formatted texts are the canonical ones.** What the formatter writes is canonical, and it
leaves a text alone exactly if that is canonical. So a second run changes nothing, there is
nothing to edit in a formatted document, and none of its lines is indented with both spaces and
tabs where the settings ask for spaces. -/
theorem format_canonical :
    s.Canonical (s.format t) ∧ (s.format t = t ↔ s.Canonical t) ∧
      s.format (s.format t) = s.format t ∧
      (∀ version enc, s.formatEdits (Document.ofText version (s.format t) enc) = []) ∧
      (s.insertSpaces = true → (s.format t).mixedIndentation = []) := by
  have hcanonical := s.canonical_format t
  refine ⟨hcanonical, ?_, hcanonical.format_eq, ?_, hcanonical.mixedIndentation_eq⟩
  · constructor
    · intro h
      rwa [h] at hcanonical
    · exact Canonical.format_eq
  · intro version enc
    show (if s.format (s.format t) = s.format t then [] else _) = []
    rw [if_pos hcanonical.format_eq]

/-- A blank line is trimmed away, and the two delimiters around it become the pair that the text
then has as its ending. -/
theorem format_canonical_fused :
    let s : Settings := { tabSize := 0, eol := .auto }
    let t : Text := ['a', '\r', ' ', '\n', '\t', 'b']
    s.insertSpaces = true ∧ s.format t = ['a', '\r', '\n', ' ', 'b', '\r', '\n'] ∧
      s.Canonical (s.format t) ∧ (s.format t).mixedIndentation = [] := by
  intro s t
  obtain ⟨hcanonical, -, -, -, hmixed⟩ := format_canonical s t
  exact ⟨rfl, by decide, hcanonical, hmixed rfl⟩

/-! ### What formatting keeps -/

/-- What is to be seen of a line: the width of its indentation and what is kept of its rest. Of a
blank line there is nothing to be seen. -/
def seen? (b : Text) : Option (Nat × Text) :=
  if b.all Indent.isBlank then none
  else some (Indent.width s.tabWidth (Indent.ofLine b), s.kept (b.dropWhile Indent.isBlank))

/-- What is to be seen of a text, line by line, without the blank lines. -/
def bodies : List (Nat × Text) := ((split t).map body).filterMap s.seen?

theorem seen_of_indented {b indent rest : Text} (h : Indented b indent rest) :
    s.seen? b = if rest = [] then none else some (Indent.width s.tabWidth indent, s.kept rest) := by
  rw [seen?, h.ofLine_eq, h.dropWhile_eq]
  exact if_congr (List.all_eq_true.trans h.blank_iff) rfl rfl

/-- **A line looks the same after formatting.** -/
theorem seen_formatLine (b : Text) : s.seen? (s.formatLine b) = s.seen? b := by
  have hparts := indented b
  by_cases hrest : b.dropWhile Indent.isBlank = []
  · -- Blanks stay blanks, however many of them are left.
    have hblank := hparts.blank_iff.mpr hrest
    have hkept : (s.kept b).dropWhile Indent.isBlank = [] :=
      List.dropWhile_eq_nil_iff.mpr fun c hc => hblank c (s.kept_subset b hc)
    rw [s.seen_of_indented (s.indented_formatLine b), s.seen_of_indented hparts, if_pos hkept,
      if_pos hrest]
  · rw [s.seen_of_indented (hparts.formatLine s hrest), s.seen_of_indented hparts, if_neg hrest,
      if_neg (s.kept_rest_ne_nil b hrest), Indent.width_restyle, kept_kept]

theorem bodies_format : s.bodies (s.format t) = s.bodies t := by
  have hempty : s.seen? [] = none := by simp [seen?]
  -- The line that is added at the end is empty, and so are those that are lost.
  have hadded : ∀ p : Prop, ∀ _ : Decidable p,
      (if p then [([] : Text)] else []).filterMap s.seen? = [] := by
    intro p _
    split
    · rw [List.filterMap_cons, hempty, List.filterMap_nil]
    · rfl
  have hsame : s.seen? ∘ s.formatLine = s.seen? := by
    funext b
    rw [Function.comp_apply, seen_formatLine]
  calc s.bodies (s.format t)
      = ((fuse (s.formatted t)).map body).filterMap s.seen? := by
        rw [bodies, (s.split_format t).1, List.filterMap_append, hadded, List.append_nil]
    _ = ((s.formatted t).map body).filterMap s.seen? := filterMap_fuse hempty _
    _ = (((split t).map body).map s.formatLine).filterMap s.seen? := by
        rw [map_body_formatted, List.map_map, Function.comp_def]
    _ = ((split t).map body).filterMap (s.seen? ∘ s.formatLine) := List.filterMap_map
    _ = s.bodies t := by
        rw [hsame, bodies]

/-- **Formatting keeps what is to be seen.** No line that is not blank is lost, doubled, moved,
joined with another, changed in its text or shifted from the column at which its indentation
ends. -/
theorem format_keeps_bodies :
    s.bodies (s.format t) = s.bodies t ∧
      ∀ indent last, Indent.Ends s.tabWidth 0 indent last ↔ last = Indent.width s.tabWidth indent :=
  ⟨s.bodies_format t, fun _ _ => Indent.ends_iff s.tabWidth_pos⟩

end Settings

end Newline
