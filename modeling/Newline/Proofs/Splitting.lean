/-
Splitting is a bijection.

Of all lists of delimited lines, some can be put together and read again, and those are the lists
that texts are split into. Which they are is said here without the scanner.

* `Line.WellFormed` — lines as a text can have them;
* `Line.wellFormed_iff` — complete lines of which no two in a row meet;
* `Line.WellFormed.split_concat` — they are read as they were written;
* `Text.Bodies.map_body_split_joinLines` — so are lines without delimiters, whatever ending is
  written between them;
* `Line.split_bijOn` — texts and well-formed lines correspond.
-/
import Mathlib.Data.Set.Function
import Newline.Proofs.NormalForms

namespace Newline

namespace Line

/-! ### Delimited lines -/

/-- Lines as a text can have them: no line holds a terminator, the last one and no other is ended
by the end of the text, and no two in a row meet. -/
structure WellFormed (ls : List Line) : Prop where
  plain : ∀ l ∈ ls, l.body.Plain
  last : ls.getLast?.map delimiter = some .eof
  others : ∀ l ∈ ls.dropLast, l.delimiter ≠ .eof
  apart : ls.IsChain fun l m => ¬ Meets l m

variable {ls : List Line}

theorem complete_iff :
    Complete ls ↔ (∀ l ∈ ls, l.body.Plain) ∧ ls.getLast?.map delimiter = some .eof ∧
      ∀ l ∈ ls.dropLast, l.delimiter ≠ .eof := by
  constructor
  · intro h
    obtain ⟨init, b, rfl, -, hinit⟩ := h.exists_last
    refine ⟨h.plain, by simp, ?_⟩
    rw [List.dropLast_concat]
    intro l hl
    exact (hinit l hl).2
  · rintro ⟨hplain, hlast, hothers⟩
    rcases List.eq_nil_or_concat ls with rfl | ⟨init, ⟨b, d⟩, rfl⟩
    · exact absurd hlast (by simp)
    · rw [List.concat_eq_append] at *
      obtain rfl : d = .eof := by simpa using hlast
      rw [List.dropLast_concat] at hothers
      refine Complete.append ?_ (.last (hplain ⟨b, .eof⟩ (by simp)))
      intro l hl
      exact ⟨hplain l (by simp [hl]), hothers l hl⟩

theorem wellFormed_iff : WellFormed ls ↔ Complete ls ∧ ls.IsChain fun l m => ¬ Meets l m := by
  rw [complete_iff]
  constructor
  · intro h
    exact ⟨⟨h.plain, h.last, h.others⟩, h.apart⟩
  · rintro ⟨⟨hplain, hlast, hothers⟩, hapart⟩
    exact ⟨hplain, hlast, hothers, hapart⟩

theorem wellFormed_split (t : Text) : WellFormed (split t) :=
  wellFormed_iff.mpr ⟨complete_split t, isChain_split t⟩

/-- **Well-formed lines are read as they were written.** -/
theorem WellFormed.split_concat (h : WellFormed ls) : split (concat ls) = ls := by
  obtain ⟨hcomplete, hapart⟩ := wellFormed_iff.mp h
  rw [Line.split_concat hcomplete, fuse_eq_self hapart]

end Line

open Line

/-! ### Lines without their delimiters -/

namespace Text

/-- Lines without delimiters as a text can have them: at least one, and none holds a terminator. -/
structure Bodies (bs : List Text) : Prop where
  ne_nil : bs ≠ []
  plain : ∀ b ∈ bs, b.Plain

variable {bs : List Text}

theorem bodies_split (t : Text) : Bodies ((split t).map body) := by
  constructor
  · intro h
    exact split_ne_nil t (List.map_eq_nil_iff.mp h)
  · intro b hb
    obtain ⟨l, hl, rfl⟩ := List.mem_map.mp hb
    exact (complete_split t).plain l hl

theorem Bodies.exists_complete (h : Bodies bs) : ∃ ls, Complete ls ∧ ls.map body = bs := by
  obtain ⟨hne, hplain⟩ := h
  induction bs with
  | nil => exact absurd rfl hne
  | cons b bs ih =>
    have hb := hplain b (by simp)
    by_cases hnil : bs = []
    · subst hnil
      exact ⟨[⟨b, .eof⟩], .last hb, rfl⟩
    · obtain ⟨ls, hls, rfl⟩ := ih hnil fun c hc => hplain c (by simp [hc])
      exact ⟨⟨b, .lf⟩ :: ls, .cons hb (by simp) hls, rfl⟩

/-- Without an ending asked for, lines are joined by line feeds. -/
theorem joinLines_eq_fixed (target : Target) (bs : List Text) :
    joinLines target bs = joinLines (.fixed (target.ending?.getD .lf)) bs := by
  cases target with
  | fixed e => rfl
  | auto => rfl

/-- **Lines are read as they were joined.** -/
theorem Bodies.map_body_split_joinLines (h : Bodies bs) (target : Target) :
    (split (joinLines target bs)).map body = bs := by
  obtain ⟨ls, hls, rfl⟩ := h.exists_complete
  rw [joinLines_eq_fixed, joinLines_eq _ hls, ← joinWith_fixed, split_joinWith hls, List.map_map]
  rfl

theorem Bodies.joinLines_inj {cs : List Text} (hbs : Bodies bs) (hcs : Bodies cs)
    (target : Target) : joinLines target bs = joinLines target cs ↔ bs = cs := by
  constructor
  · intro h
    rw [← hbs.map_body_split_joinLines target, h, hcs.map_body_split_joinLines target]
  · rintro rfl
    rfl

/-- The lines of a text hold no terminators, and a line that is the only one is not empty: the empty
text has none. -/
theorem plain_lines (t : Text) : (∀ b ∈ t.lines, b.Plain) ∧ t.lines ≠ [[]] := by
  rw [lines]
  by_cases hempty : t.isEmpty
  · rw [if_pos hempty]
    exact ⟨by simp, by simp⟩
  · rw [if_neg hempty]
    refine ⟨(bodies_split t).plain, ?_⟩
    intro hsingle
    exact hempty (List.isEmpty_iff.mpr (map_body_eq_singleton_iff.mp hsingle))

theorem lines_joinLines_iff (target : Target) (bs : List Text) :
    (joinLines target bs).lines = bs ↔ (∀ b ∈ bs, b.Plain) ∧ bs ≠ [[]] := by
  constructor
  · intro h
    have hlines := plain_lines (joinLines target bs)
    rwa [h] at hlines
  · rintro ⟨hplain, hsingle⟩
    by_cases hnil : bs = []
    · subst hnil
      rfl
    · have hbodies := Bodies.map_body_split_joinLines ⟨hnil, hplain⟩ target
      have htext : ¬ (joinLines target bs).isEmpty := by
        intro hempty
        rw [map_body_eq_singleton_iff.mpr (List.isEmpty_iff.mp hempty)] at hbodies
        exact hsingle hbodies.symm
      rw [lines, if_neg htext, hbodies]

end Text

/-- **Splitting is a bijection** between texts and well-formed lines, and its inverse puts the
lines together; no other lines are read as they were written. Lines without delimiters are read as
they were joined exactly if they hold no terminators and are not one empty line. -/
theorem Line.split_bijOn :
    (∀ t, concat (split t) = t ∧ WellFormed (split t)) ∧
      (∀ ls, split (concat ls) = ls ↔ WellFormed ls) ∧
      Set.BijOn split Set.univ {ls | WellFormed ls} ∧
      ∀ target bs, (Text.joinLines target bs).lines = bs ↔ (∀ b ∈ bs, b.Plain) ∧ bs ≠ [[]] := by
  have hinverse : ∀ ls, split (concat ls) = ls ↔ WellFormed ls := by
    intro ls
    constructor
    · intro h
      rw [← h]
      exact wellFormed_split (concat ls)
    · intro h
      exact h.split_concat
  have hinv : Set.InvOn concat split Set.univ {ls | WellFormed ls} := by
    refine ⟨?_, ?_⟩
    · intro t _
      exact concat_split t
    · intro ls hls
      exact (hinverse ls).mpr hls
  refine ⟨fun t => ⟨concat_split t, wellFormed_split t⟩, hinverse, ?_, Text.lines_joinLines_iff⟩
  refine hinv.bijOn ?_ (Set.mapsTo_univ _ _)
  intro t _
  exact wellFormed_split t

-- The one way in which lines run together: these are written as `a` and a pair.
example : concat [⟨['a'], .cr⟩, ⟨[], .lf⟩, ⟨[], .eof⟩] = concat [⟨['a'], .crlf⟩, ⟨[], .eof⟩] := rfl

end Newline
