/-
The algebra of normal forms.

A normal form is decided by the lines of a text without their delimiters. So whatever changes
delimiters only, another normal form among them, does not change it.

* `Text.normalize_eq_joinLines`, `Text.normalize_congr` — the normal form and the lines;
* `Text.normalize_normalize` — a normal form of a normal form is that of the text;
* `Stats.ofText_normalize` — it has as many terminators as the text, all of one kind;
* `Ending.detectWithBias_normalize` — and so it takes a lead of more than the bias to find them;
* `Text.isNormalForm_normalize` — all laws together.
-/
import Newline.Proofs.Scanners

namespace Newline

open Line

namespace Text

variable {s t : Text}

/-! ### Normal forms and lines -/

theorem normalize_eq_joinLines (e : Ending) (t : Text) :
    t.normalize (.fixed e) = joinLines (.fixed e) ((split t).map body) := by
  rw [normalize_fixed, joinLines_eq e (complete_split t)]

/-- **Texts with the same lines have the same normal forms.** -/
theorem normalize_congr (e : Ending) (h : (split s).map body = (split t).map body) :
    s.normalize (.fixed e) = t.normalize (.fixed e) := by
  rw [normalize_eq_joinLines, normalize_eq_joinLines, h]

theorem map_body_normalize (target : Target) (t : Text) :
    (split (t.normalize target)).map body = (split t).map body := by
  cases target with
  | fixed e =>
    rw [split_normalize, List.map_map]
    rfl
  | auto => rfl

theorem normalize_normalize (e : Ending) (target : Target) (t : Text) :
    (t.normalize target).normalize (.fixed e) = t.normalize (.fixed e) :=
  normalize_congr e (map_body_normalize target t)

/-- Only the empty text has one line with nothing on it. -/
theorem map_body_eq_singleton_iff : (split t).map body = [[]] ↔ t = [] := by
  constructor
  · intro h
    have hcomplete := complete_split t
    have hconcat := concat_split t
    generalize split t = ls at h hcomplete hconcat
    cases hcomplete with
    | @last b hb =>
      obtain rfl : b = [] := by simpa using h
      exact hconcat.symm
    | cons hb hd hls =>
      obtain ⟨-, hnil⟩ := List.cons.inj h
      exact absurd (List.map_eq_nil_iff.mp hnil) hls.ne_nil
  · rintro rfl
    rfl

theorem lines_congr (h : (split s).map body = (split t).map body) : s.lines = t.lines := by
  have hempty : s.isEmpty = t.isEmpty := by
    rw [Bool.eq_iff_iff, List.isEmpty_iff, List.isEmpty_iff, ← map_body_eq_singleton_iff, h,
      map_body_eq_singleton_iff]
  rw [lines, lines, hempty, h]

/-- The empty text has no line, but that is joined as one line with nothing on it would be. -/
theorem joinLines_lines (e : Ending) (t : Text) :
    joinLines (.fixed e) t.lines = joinLines (.fixed e) ((split t).map body) := by
  rw [lines]
  split
  · rename_i hempty
    rw [map_body_eq_singleton_iff.mpr (List.isEmpty_iff.mp hempty)]
    rfl
  · rfl

end Text

/-! ### Counting the terminators of a normal form -/

namespace Stats

/-- The counts of a text with `n` terminators, all of them `e`. -/
def uniform (e : Ending) (n : Nat) (terminated : Bool) : Stats :=
  match e with
  | .lf => { lf := n, terminated }
  | .crlf => { crlf := n, terminated }

/-- One kind has all the terminators, and leads by as many as there are. -/
theorem lead_uniform (e : Ending) (n : Nat) (terminated : Bool) :
    (if (uniform e n terminated).crlf < (uniform e n terminated).lf + (uniform e n terminated).cr
      then (uniform e n terminated).lf + (uniform e n terminated).cr - (uniform e n terminated).crlf
      else (uniform e n terminated).crlf
        - ((uniform e n terminated).lf + (uniform e n terminated).cr)) = n := by
  cases e with
  | lf =>
    show (if 0 < n then n else 0 - n) = n
    split <;> omega
  | crlf => exact if_neg (Nat.not_lt_zero n)

theorem terminated_normalize (e : Ending) (t : Text) :
    (ofText (t.normalize (.fixed e))).terminated = (ofText t).terminated := by
  rw [terminated_ofText, terminated_ofText, Text.normalize_fixed,
    Text.isTerminated_withEnding e (complete_split t), concat_split]

theorem terminators_normalize (e : Ending) (t : Text) :
    (ofText (t.normalize (.fixed e))).terminators = (ofText t).terminators := by
  have hnormal := terminators_ofText (t.normalize (.fixed e))
  have htext := terminators_ofText t
  rw [split_normalize, List.length_map] at hnormal
  omega

/-- **A normal form has the terminators of the text, all of one kind.** -/
theorem ofText_normalize (e : Ending) (t : Text) :
    ofText (t.normalize (.fixed e)) = uniform e (ofText t).terminators (ofText t).terminated := by
  have hterminators := terminators_normalize e t
  have hterminated := terminated_normalize e t
  obtain ⟨hlf, hcrlf, hcr⟩ := ofText_eq (t.normalize (.fixed e))
  rw [split_normalize] at hlf hcrlf hcr
  rw [tally_withEnding (by simp) e.delimiter_ne_cr.symm] at hcr
  generalize ofText (t.normalize (.fixed e)) = s at *
  obtain ⟨lf, crlf, cr, terminated⟩ := s
  have hsum : lf + crlf + cr = (ofText t).terminators := hterminators
  simp only at hterminated hlf hcrlf hcr
  cases e with
  | lf =>
    rw [tally_withEnding (by simp) (by simp [Ending.delimiter])] at hcrlf
    simp only [uniform, mk.injEq]
    exact ⟨by omega, hcrlf, hcr, hterminated⟩
  | crlf =>
    rw [tally_withEnding (by simp) (by simp [Ending.delimiter])] at hlf
    simp only [uniform, mk.injEq]
    exact ⟨hlf, by omega, hcr, hterminated⟩

end Stats

namespace Ending

theorem ofStats_uniform {n : Nat} (h : 0 < n) (e : Ending) (terminated : Bool) :
    ofStats (Stats.uniform e n terminated) = e := by
  cases e with
  | lf => exact if_neg (Nat.not_lt_zero _)
  | crlf => exact if_pos h

/-- **The ending of a normal form is found** if it has more terminators than the bias. -/
theorem detectWithBias_normalize (e : Ending) (t : Text) (bias : Nat) (tiebreak : Ending) :
    detectWithBias (t.normalize (.fixed e)) bias tiebreak
      = if bias < (Stats.ofText t).terminators then e else tiebreak := by
  rw [detectWithBias, Stats.ofText_normalize]
  simp only [Stats.lead_uniform]
  by_cases hlead : bias < (Stats.ofText t).terminators
  · rw [if_pos hlead, if_neg (Nat.not_le.mpr hlead), ofStats_uniform (by omega)]
  · rw [if_neg hlead, if_pos (Nat.not_lt.mp hlead)]

end Ending

/-! ### All laws -/

/-- What it means for `s` to be the text `t` with every terminator written as `e`. -/
structure Text.IsNormalForm (t : Text) (e : Ending) (s : Text) : Prop where
  rewritten : s = replaceTerminators e t
  joinWith : s = Line.joinWith (.fixed e) (split t)
  joinLines : s = Text.joinLines (.fixed e) t.lines
  absorbs : ∀ target, (t.normalize target).normalize (.fixed e) = s
  expandLf : e.expandLf (t.normalize (.fixed .lf)) = s
  lines : s.lines = t.lines
  stats : Stats.ofText s
    = Stats.uniform e (Stats.ofText t).terminators (Stats.ofText t).terminated
  detected : ∀ bias tiebreak, Ending.detectWithBias s bias tiebreak
    = if bias < (Stats.ofText t).terminators then e else tiebreak

/-- **The laws of normal forms.** Whether or not the text is returned as it is, the result is its
lines joined by the ending; it is the same for every other normal form of the text, has the same
lines and as many terminators, and its ending is found again. -/
theorem Text.isNormalForm_normalize (t : Text) (e : Ending) :
    t.IsNormalForm e (t.normalize (.fixed e)) where
  rewritten := by rw [normalize_fixed, replaceTerminators_eq]
  joinWith := by rw [normalize_fixed, joinWith_fixed]
  joinLines := by rw [normalize_eq_joinLines, joinLines_lines]
  absorbs target := normalize_normalize e target t
  expandLf := Ending.expandLf_normalize e t
  lines := lines_congr (map_body_normalize (.fixed e) t)
  stats := Stats.ofText_normalize e t
  detected := Ending.detectWithBias_normalize e t

end Newline
