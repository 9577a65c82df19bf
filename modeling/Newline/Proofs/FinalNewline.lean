/-
The end of a text.

* `Line.Complete.exists_last` — complete lines, with the last one taken off;
* `Text.isTerminated_withEnding` — whether a text is ended does not depend on the ending;
* `Text.endsWith_eq_isTerminated` — a text with one ending is ended by that or not at all;
* `Text.joinLines_eq` — lines put together with a separator;
* `Policy.apply_eq`, `Policy.split_apply` — a policy that does not strip writes the lines of the
  text with one ending, and one more, empty, if the last line is to be ended and is not.
-/
import Newline.Policy
import Newline.Proofs.Normalize

namespace Newline

namespace Line

/-- Complete lines are lines with terminators and a last one without. -/
theorem Complete.exists_last {ls : List Line} (h : Complete ls) :
    ∃ init b, ls = init ++ [⟨b, .eof⟩] ∧ Text.Plain b ∧
      ∀ l ∈ init, l.body.Plain ∧ l.delimiter ≠ .eof := by
  induction h with
  | @last b hb => exact ⟨[], b, rfl, hb, by simp⟩
  | @cons l ls hb hd hls ih =>
    obtain ⟨init, b, rfl, hlast, hinit⟩ := ih
    refine ⟨l :: init, b, rfl, hlast, ?_⟩
    intro m hm
    rcases List.mem_cons.mp hm with rfl | hm
    · exact ⟨hb, hd⟩
    · exact hinit m hm

theorem Complete.append {init ls : List Line}
    (hinit : ∀ l ∈ init, l.body.Plain ∧ l.delimiter ≠ .eof) (h : Complete ls) :
    Complete (init ++ ls) := by
  induction init with
  | nil => exact h
  | cons l init ih =>
    obtain ⟨hb, hd⟩ := hinit l (by simp)
    exact .cons hb hd (ih fun m hm => hinit m (by simp [hm]))

end Line

namespace Text

open Line

/-! ### Terminated texts -/

theorem isTerminated_append (s : Text) {t : Text} (h : t ≠ []) :
    isTerminated (s ++ t) = isTerminated t := by
  rw [isTerminated, isTerminated, List.getLast?_append_of_ne_nil s h]

theorem isTerminated_of_plain {b : Text} (h : b.Plain) : isTerminated b = false := by
  rw [isTerminated]
  cases hlast : b.getLast? with
  | none => rfl
  | some c =>
    obtain ⟨hcr, hlf⟩ := h c (List.mem_of_getLast? hlast)
    simp [hcr, hlf]

theorem isTerminated_append_delimiter (b : Text) {d : Delimiter} (h : d ≠ .eof) :
    isTerminated (b ++ d.text) = true := by
  cases d with
  | eof => exact absurd rfl h
  | lf => rw [isTerminated_append b (by simp)]; rfl
  | crlf => rw [isTerminated_append b (by simp)]; rfl
  | cr => rw [isTerminated_append b (by simp)]; rfl

/-- Lines are ended exactly if the last of them is empty and not the only one. -/
theorem isTerminated_concat {init : List Line} {b : Text} (hb : b.Plain)
    (hinit : ∀ l ∈ init, l.body.Plain ∧ l.delimiter ≠ .eof) :
    isTerminated (concat (init ++ [⟨b, .eof⟩])) = (!init.isEmpty && b.isEmpty) := by
  rcases b with _ | ⟨c, cs⟩
  · rcases List.eq_nil_or_concat init with rfl | ⟨before, l, rfl⟩
    · rfl
    · obtain ⟨-, hd⟩ := hinit l (by simp)
      have htext : concat (before.concat l ++ [⟨[], .eof⟩])
          = (concat before ++ l.body) ++ l.delimiter.text := by
        simp [text]
      rw [htext, isTerminated_append_delimiter _ hd]
      simp
  · have htext : concat (init ++ [⟨c :: cs, .eof⟩]) = concat init ++ (c :: cs) := by
      simp [text]
    rw [htext, isTerminated_append _ (by simp), isTerminated_of_plain hb]
    simp

/-- **Whether a text is ended does not depend on the ending.** -/
theorem isTerminated_withEnding (e : Ending) {ls : List Line} (h : Complete ls) :
    isTerminated (concat (ls.map (withEnding e))) = isTerminated (concat ls) := by
  obtain ⟨init, b, rfl, hb, hinit⟩ := h.exists_last
  have hmap : (init ++ [(⟨b, .eof⟩ : Line)]).map (withEnding e)
      = init.map (withEnding e) ++ [⟨b, .eof⟩] := by
    simp [withEnding]
  have hinit' : ∀ l ∈ init.map (withEnding e), l.body.Plain ∧ l.delimiter ≠ .eof := by
    intro l hl
    obtain ⟨m, hm, rfl⟩ := List.mem_map.mp hl
    obtain ⟨hplain, hd⟩ := hinit m hm
    exact ⟨hplain, by simp [delimiter_withEnding, hd]⟩
  rw [hmap, isTerminated_concat hb hinit', isTerminated_concat hb hinit, List.isEmpty_map]

/-- A text with one ending is ended by that ending or not at all. -/
theorem endsWith_eq_isTerminated (e : Ending) {ls : List Line} (h : Complete ls) :
    endsWith (concat (ls.map (withEnding e))) e.text
      = isTerminated (concat (ls.map (withEnding e))) := by
  rw [Bool.eq_iff_iff, endsWith, List.isSuffixOf_iff_suffix]
  constructor
  · rintro ⟨s, hs⟩
    rw [← hs, ← Ending.text_delimiter]
    exact isTerminated_append_delimiter s e.delimiter_ne_eof
  · intro hterm
    rw [isTerminated_withEnding e h] at hterm
    obtain ⟨init, b, rfl, hb, hinit⟩ := h.exists_last
    rw [isTerminated_concat hb hinit] at hterm
    -- The last line is empty, so the text ends with the ending of the line before it.
    obtain ⟨hne, hnil⟩ : init ≠ [] ∧ b = [] := by simpa using hterm
    obtain ⟨before, l, rfl⟩ := (List.eq_nil_or_concat init).resolve_left hne
    obtain ⟨-, hd⟩ := hinit l (by simp)
    refine ⟨concat (before.map (withEnding e)) ++ l.body, ?_⟩
    simp [hnil, text, delimiter_withEnding, hd]

theorem endsWith_normalize (e : Ending) (t : Text) :
    endsWith (t.normalize (.fixed e)) e.text = t.isTerminated := by
  have hcomplete := complete_split t
  rw [normalize_fixed, endsWith_eq_isTerminated _ hcomplete, isTerminated_withEnding _ hcomplete,
    concat_split]

/-- Lines with a separator between them are lines with one ending. -/
theorem joinLines_eq (e : Ending) {ls : List Line} (h : Complete ls) :
    joinLines (.fixed e) (ls.map body) = concat (ls.map (withEnding e)) := by
  rw [joinLines]
  induction h with
  | last hb => simp [text, withEnding, List.intercalate]
  | @cons l ls hb hd hls ih =>
    obtain ⟨m, ms, rfl⟩ := List.exists_cons_of_ne_nil hls.ne_nil
    have htext : (l.withEnding e).text = l.body ++ e.text := by
      rw [text, delimiter_withEnding, if_neg hd, Ending.text_delimiter, body_withEnding]
    rw [List.map_cons (a := l) (f := withEnding e), concat_cons, ← ih, htext]
    simp only [List.map_cons, List.intercalate_cons_cons, Target.separator]

end Text

/-! ### Policies -/

namespace Policy

open Line

/-- **A policy that does not strip**: the lines stay, with one ending, and an empty one is added
if the last line is to be ended and is not. -/
theorem apply_eq {p : Policy} (hstrip : p.stripFinalNewline = false) (t : Text) :
    ∃ ls, Complete ls ∧ p.apply t = concat (ls.map (withEnding (p.target t))) ∧
      ls.map body = (split t).map body
        ++ if p.ensureFinalNewline = true ∧ t.isTerminated = false then [[]] else [] := by
  have hcomplete := complete_split t
  have hnormal := Text.normalize_fixed (p.target t) t
  have hterm := Text.endsWith_normalize (p.target t) t
  have happly : p.apply t
      = if p.ensureFinalNewline = true ∧ t.isTerminated = false
        then t.normalize (.fixed (p.target t)) ++ (p.target t).text
        else t.normalize (.fixed (p.target t)) := by
    rw [apply]
    simp only [hstrip, Bool.false_eq_true, if_false, Text.ensureFinalNewline, hterm]
    cases p.ensureFinalNewline <;> cases t.isTerminated <;> simp
  rw [happly]
  by_cases hadd : p.ensureFinalNewline = true ∧ t.isTerminated = false
  · -- The last line gets the ending, and an empty line is last from now on.
    rw [if_pos hadd, if_pos hadd]
    obtain ⟨init, b, hls, hb, hinit⟩ := hcomplete.exists_last
    refine ⟨init ++ [⟨b, .lf⟩, ⟨[], .eof⟩], ?_, ?_, ?_⟩
    · exact Complete.append hinit (.cons hb (by simp) (.last Text.plain_nil))
    · rw [hnormal, hls]
      simp [text, withEnding]
    · rw [hls]
      simp
  · rw [if_neg hadd, if_neg hadd]
    exact ⟨split t, hcomplete, hnormal, by simp⟩

/-- The lines a policy writes, and their ending. -/
theorem split_apply {p : Policy} (hstrip : p.stripFinalNewline = false) (t : Text) :
    (split (p.apply t)).map body = (split t).map body
        ++ (if p.ensureFinalNewline = true ∧ t.isTerminated = false then [[]] else []) ∧
      ∀ l ∈ split (p.apply t), l.delimiter ≠ .eof → l.delimiter = (p.target t).delimiter := by
  obtain ⟨ls, hls, happly, hbody⟩ := apply_eq hstrip t
  rw [happly, ← joinWith_fixed, split_joinWith hls]
  constructor
  · rw [← hbody, List.map_map]
    rfl
  · intro l hl hd
    exact delimiter_of_mem_withEnding hl hd

end Policy

end Newline
