/-
Ranges of the LF form.

A range that is found in the LF form of a text is used on the text itself, with the same lines and
characters. There it takes out the text that becomes what the range takes out of the LF form: the
offsets it is resolved to are not inside a pair, and a text that is cut outside its pairs is
normalized part by part.

* `Line.split_take_append` — the lines of the front of a text;
* `Text.normalize_append`, `Text.normalize_takeBytes_eq_append` — cutting outside a pair;
* `Text.normalize_takeBytes_toSource` — the LF form of the front of a text is the front of its LF
  form;
* `Text.normalize_slice_toSource` — the same for the part between two offsets;
* `Text.sliceRange_rangeOfOffsets` — the range between two boundaries takes out what is between
  them;
* `CrlfMarks.lf_range_same_text` — a range of the LF form, on the text.
-/
import Newline.Proofs.Conversions
import Newline.Proofs.Remapping
import Newline.Proofs.Splitting

namespace Newline

open Line

/-! ### Parts of a text -/

/-- The lines before a given line, and a last one without terminators. -/
theorem Line.split_take_append {t b : Text} {i : Nat} (hi : i < (split t).length) (hb : b.Plain) :
    split (concat ((split t).take i) ++ b) = (split t).take i ++ [⟨b, .eof⟩] := by
  have hbefore : (split t).take i ⊆ (split t).dropLast := by
    rw [List.dropLast_eq_take]
    exact (List.take_prefix_take_left (by omega)).subset
  have hformed : WellFormed ((split t).take i ++ [⟨b, .eof⟩]) := by
    refine ⟨?_, by simp, ?_, ?_⟩
    · intro l hl
      rcases List.mem_append.mp hl with hl | hl
      · exact (complete_split t).plain l (List.mem_of_mem_take hl)
      · rw [List.mem_singleton.mp hl]
        exact hb
    · intro l hl
      rw [List.dropLast_concat] at hl
      exact (wellFormed_split t).others l (hbefore hl)
    · -- What is ended by the end of the text does not begin with a line feed.
      refine List.isChain_append.mpr ⟨(isChain_split t).take i, by simp, ?_⟩
      rintro l - m hm ⟨-, rfl⟩
      simp at hm
  have hsplit := hformed.split_concat
  rwa [concat_append, show concat [⟨b, .eof⟩] = b by simp [text]] at hsplit

namespace Text

variable {t : Text} {x y : Nat}

/-- **Cutting outside a pair**: the parts are normalized by themselves. -/
theorem normalize_append (e : Ending) {s : Text}
    (h : ¬ (s.getLast? = some '\r' ∧ t.head? = some '\n')) :
    (s ++ t).normalize (.fixed e) = s.normalize (.fixed e) ++ t.normalize (.fixed e) := by
  have hlast : ∀ {c : Char} {cs : Text}, cs.getLast? = some '\r' →
      (c :: cs).getLast? = some '\r' := by
    intro c cs hcs
    rw [List.getLast?_cons, hcs, Option.getD_some]
  simp only [normalize_fixed, ← replaceTerminators_eq]
  induction s using scanInduction with
  | nil => rfl
  | crlf cs ih =>
    have hrest := ih fun hcut => h ⟨hlast (hlast hcut.1), hcut.2⟩
    simp [replaceTerminators, hrest]
  | cr cs hcs ih =>
    have hrest := ih fun hcut => h ⟨hlast hcut.1, hcut.2⟩
    -- The carriage return is not the first half of a pair, neither within `s` nor across the cut.
    have hne : ∀ ds, cs ++ t = '\n' :: ds → False := by
      intro ds hds
      cases cs with
      | nil => exact h ⟨rfl, by rw [show t = '\n' :: ds from hds]; rfl⟩
      | cons c cs => exact hcs cs (by rw [(List.cons.inj hds).1])
    rw [List.cons_append, replaceTerminators.eq_3 e _ hne, replaceTerminators.eq_3 e _ hcs, hrest,
      List.append_assoc]
  | lf cs ih =>
    have hrest := ih fun hcut => h ⟨hlast hcut.1, hcut.2⟩
    simp [replaceTerminators, hrest]
  | char c cs hcr hlf ih =>
    have hrest := ih fun hcut => h ⟨hlast hcut.1, hcut.2⟩
    rw [List.cons_append, replaceTerminators_cons_char e hcr hlf,
      replaceTerminators_cons_char e hcr hlf, hrest, List.cons_append]

/-- What a slice begins with stands at its offset. -/
theorem head?_of_slice {c : Char} (h : (t.slice x y).head? = some c) :
    (t.dropBytes x).head? = some c := by
  rw [slice] at h
  rw [← takeBytes_append_dropBytes (y - floorBoundary t x) (t.dropBytes x), List.head?_append, h,
    Option.some_or]

/-- A slice that begins outside a pair is normalized apart from what is before it. -/
theorem normalize_takeBytes_eq_append (e : Ending) (hx : IsBoundary t x) (hy : IsBoundary t y)
    (hpair : ¬ InPair t x) (h : x ≤ y) :
    (t.takeBytes y).normalize (.fixed e)
      = (t.takeBytes x).normalize (.fixed e) ++ (t.slice x y).normalize (.fixed e) := by
  rw [← takeBytes_append_slice hx hy h]
  refine normalize_append e ?_
  rintro ⟨hcr, hlf⟩
  exact hpair (inPair_iff_cut.mpr ⟨hx, hcr, head?_of_slice hlf⟩)

/-! ### Places of the LF form -/

/-- No offset of the LF form stands for one between the two characters of a pair. -/
theorem not_inPair_toSource {o : Nat} (ho : o ≤ (t.normalize (.fixed .lf)).byteLen) :
    ¬ t.InPair ((CrlfMarks.ofText t).toSource o) := by
  obtain ⟨i, l, x, hl, hx, rfl⟩ := CrlfMarks.exists_line_of_le_lf ho
  rw [CrlfMarks.toSource_line hl hx]
  exact not_inPair_line hl hx

/-- **The front of a text**, up to the place of a boundary of the LF form, becomes the front of the
LF form. -/
theorem normalize_takeBytes_toSource {o : Nat} (ho : (t.normalize (.fixed .lf)).IsBoundary o) :
    (t.takeBytes ((CrlfMarks.ofText t).toSource o)).normalize (.fixed .lf)
      = (t.normalize (.fixed .lf)).takeBytes o := by
  obtain ⟨i, l, x, hl, hx, rfl⟩ := CrlfMarks.exists_line_of_le_lf ho.le_byteLen
  have hi := (List.getElem?_eq_some_iff.mp hl).choose
  have hplain : Plain (takeBytes x l.body) := by
    have hbody := (complete_split t).plain l (List.mem_of_getElem? hl)
    rw [← takeBytes_append_dropBytes x l.body, plain_append] at hbody
    exact hbody.1
  -- In both texts the front is the lines before, and the same first part of the line.
  rw [CrlfMarks.toSource_line hl hx, takeBytes_line hl hx, normalize_fixed, normalize_fixed,
    split_take_append hi hplain, takeBytes_concat (CrlfMarks.getElem?_lf hl) hx, List.map_append,
    concat_append, List.map_take]
  simp [text, withEnding]

/-- **The part between two places**: what is taken out of the text becomes what is taken out of the
LF form. -/
theorem normalize_slice_toSource {a b : Nat} (ha : (t.normalize (.fixed .lf)).IsBoundary a)
    (hb : (t.normalize (.fixed .lf)).IsBoundary b) (h : a ≤ b) :
    (t.slice ((CrlfMarks.ofText t).toSource a)
        ((CrlfMarks.ofText t).toSource b)).normalize (.fixed .lf)
      = (t.normalize (.fixed .lf)).slice a b := by
  have hmono := (CrlfMarks.gc_toSource_ofSource (CrlfMarks.pairwise_marks t)).monotone_l h
  -- The front up to `b`, of which the front up to `a` is taken off on both sides.
  have hfront := normalize_takeBytes_eq_append .lf (CrlfMarks.isBoundary_toSource ha)
    (CrlfMarks.isBoundary_toSource hb) (not_inPair_toSource ha.le_byteLen) hmono
  rw [normalize_takeBytes_toSource ha, normalize_takeBytes_toSource hb,
    ← takeBytes_append_slice ha hb h] at hfront
  exact (List.append_cancel_left hfront).symm

/-- **The range between two boundaries** takes out what is between them. -/
theorem sliceRange_rangeOfOffsets (hx : t.IsBoundary x) (hy : t.IsBoundary y) (h : x ≤ y) :
    t.sliceRange (LineIndex.ofText t) ((LineIndex.ofText t).rangeOfOffsets x y) = t.slice x y := by
  have hresolve : t.resolveRange (LineIndex.ofText t) ((LineIndex.ofText t).rangeOfOffsets x y)
      = (x, y) := by
    rw [resolveRange, LineIndex.rangeOfOffsets, LineIndex.offsetAt_positionAt,
      LineIndex.offsetAt_positionAt, hx, hy, Nat.min_eq_left h, Nat.max_eq_right h]
  rw [sliceRange, hresolve]

end Text

namespace CrlfMarks

variable (t : Text)

/-- The same lines and characters, in the LF form and in the text. -/
theorem rangeOfOffsets_toSource (a b : Nat) :
    (LineIndex.ofText t).rangeOfOffsets ((ofText t).toSource a) ((ofText t).toSource b)
      = (LineIndex.ofText (t.normalize (.fixed .lf))).rangeOfOffsets a b := by
  rw [LineIndex.rangeOfOffsets, LineIndex.rangeOfOffsets, positionAt_toSource, positionAt_toSource]

theorem rangeToSource_rangeOfOffsets (a b : Nat) :
    (ofText t).rangeToSource ((LineIndex.ofText (t.normalize (.fixed .lf))).rangeOfOffsets a b)
        (LineIndex.ofText (t.normalize (.fixed .lf))) (LineIndex.ofText t)
      = (LineIndex.ofText (t.normalize (.fixed .lf))).rangeOfOffsets a b := by
  rw [Document.rangeToSource_eq, LineIndex.rangeOfOffsets, LineIndex.offsetAt_positionAt,
    LineIndex.offsetAt_positionAt]

/-- **A range of the LF form, on the text.** It is the same range there, and takes out the text
whose LF form it takes out of the LF form: what is between its two offsets. -/
theorem lf_range_same_text {a b : Nat} (ha : (t.normalize (.fixed .lf)).IsBoundary a)
    (hb : (t.normalize (.fixed .lf)).IsBoundary b) (h : a ≤ b) :
    let lf := t.normalize (.fixed .lf)
    let r := (LineIndex.ofText lf).rangeOfOffsets a b
    (ofText t).rangeToSource r (LineIndex.ofText lf) (LineIndex.ofText t) = r ∧
      (t.sliceRange (LineIndex.ofText t) r).normalize (.fixed .lf)
        = lf.sliceRange (LineIndex.ofText lf) r ∧
      lf.sliceRange (LineIndex.ofText lf) r = lf.slice a b := by
  intro lf r
  have hmono := (gc_toSource_ofSource (pairwise_marks t)).monotone_l h
  have hlf : lf.sliceRange (LineIndex.ofText lf) r = lf.slice a b :=
    Text.sliceRange_rangeOfOffsets ha hb h
  refine ⟨rangeToSource_rangeOfOffsets t a b, ?_, hlf⟩
  rw [hlf, show r = _ from (rangeOfOffsets_toSource t a b).symm,
    Text.sliceRange_rangeOfOffsets (isBoundary_toSource ha) (isBoundary_toSource hb) hmono]
  exact Text.normalize_slice_toSource ha hb h

/-- A range that begins before a pair and ends behind a bare carriage return, with a longer
character in front. -/
theorem lf_range_same_text_mixed :
    let t : Text := ['é', '\r', '\n', 'a', '\r', '\n', '\n', '\r', 'b']
    let r : Range := ⟨⟨0, 2⟩, ⟨4, 0⟩⟩
    (LineIndex.ofText (t.normalize (.fixed .lf))).rangeOfOffsets 2 7 = r ∧
      (ofText t).rangeToSource r (LineIndex.ofText (t.normalize (.fixed .lf)))
        (LineIndex.ofText t) = r ∧
      t.sliceRange (LineIndex.ofText t) r = ['\r', '\n', 'a', '\r', '\n', '\n', '\r'] ∧
      (t.sliceRange (LineIndex.ofText t) r).normalize (.fixed .lf)
        = (t.normalize (.fixed .lf)).slice 2 7 := by
  intro t r
  have hstart : (LineIndex.ofText (t.normalize (.fixed .lf))).positionAt 2 = ⟨0, 2⟩ :=
    (LineIndex.positionAt_eq_iff _ 2 ⟨0, 2⟩).mpr ⟨⟨by decide, by decide, by decide⟩, by decide⟩
  have hstop : (LineIndex.ofText (t.normalize (.fixed .lf))).positionAt 7 = ⟨4, 0⟩ :=
    (LineIndex.positionAt_eq_iff _ 7 ⟨4, 0⟩).mpr ⟨⟨by decide, by decide, by decide⟩, by decide⟩
  have hr : (LineIndex.ofText (t.normalize (.fixed .lf))).rangeOfOffsets 2 7 = r := by
    rw [LineIndex.rangeOfOffsets, hstart, hstop]
  obtain ⟨hsource, hsame, hslice⟩ :=
    lf_range_same_text t (a := 2) (b := 7) (by decide) (by decide) (by decide)
  rw [hr] at hsource hsame hslice
  exact ⟨hr, hsource, by decide, hsame.trans hslice⟩

end CrlfMarks

end Newline
